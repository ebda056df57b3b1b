import Offload.Proofs.Parallel.Tight.Absorb

/-!
# Moving a row of operations into a region

What stands in a row right before a parallel region (`Queue`) may move into it, from the
last operation to the first. Each move is that of one operation (`Absorb.Done`), in the
program that the moves before it have left. All of them together are said in terms of the
program that there was at the start (`Queue.Done`): the copies stand in the order of the
row in front of what was in the region, one renaming takes every value of the row to that
of its copy, and nothing else has changed.

The row of no operations has moved at the start (`Queue.done_nil`), and one more operation
that moves makes the row longer by one (`Queue.Done.cons`).
-/

namespace Offload.Context

variable {ctx ctx₁ ctx₂ : Context} {o : OpRef} {moved copies : List OpRef} {σ : ValueRef → ValueRef}

/-- Operations in a row right before a parallel region. -/
structure Queue (ctx : Context) (o : OpRef) (moved : List OpRef) where
  team : ctx.Team o
  place : BlockRef
  before : List OpRef
  after : List OpRef
  place_ops : ctx.opsOf place = before ++ (moved ++ o :: after)

/-- There are copies of a row of operations, and values of their own for all that the row
    defines. -/
structure Renewed (ctx : Context) (moved : List OpRef) (σ : ValueRef → ValueRef)
    (copies : List OpRef) (ctx' : Context) : Prop where
  outside : ∀ v, (∀ m ∈ moved, ¬ctx.DefinedWithin m v) → σ v = v
  fresh : ∀ m ∈ moved, ∀ v, ctx.DefinedWithin m v →
    ctx.values.size ≤ (σ v).index ∧ (σ v).index < ctx'.values.size
  injective : ∀ m ∈ moved, ∀ v, ctx.DefinedWithin m v → ∀ m' ∈ moved, ∀ w,
    ctx.DefinedWithin m' w → σ v = σ w → v = w
  copyOf : List.Forall₂ (fun m c => ∃ n, CopyOf ctx m σ ctx' n m c) moved copies

theorem Renewed.evolve (h : ctx.Renewed moved σ copies ctx₁) (hspares : Spares ctx σ σ ctx₁ ctx₂) :
    ctx.Renewed moved σ copies ctx₂ where
  outside := h.outside
  fresh m hm v hv := by
    have := h.fresh m hm v hv
    have := hspares.evolves.values_size
    omega
  injective := h.injective
  copyOf := h.copyOf.imp fun _ _ ⟨n, hcopy⟩ => ⟨n, hcopy.evolve hspares⟩

/-- A row of operations was moved into the region behind it. -/
structure Queue.Done (s : ctx.Queue o moved) (σ : ValueRef → ValueRef) (copies : List OpRef)
    (ctx' : Context) : Prop extends ctx.Renewed moved σ copies ctx' where
  evolves : ctx.Evolves ctx'
  sound : ctx'.Sound
  blockOf : ∀ p, ctx.HasOp p → ctx'.blockOf p = if p ∈ moved then none else ctx.blockOf p
  place : ctx'.opsOf s.place = s.before ++ o :: s.after
  body : ctx'.opsOf s.team.body = copies ++ ctx.opsOf s.team.body
  other : ∀ b, ctx.HasBlock b → b ≠ s.place → b ≠ s.team.body → ctx'.opsOf b = ctx.opsOf b
  erased : ∀ p, ctx.HasOp p →
    (ctx'.isErased p ↔ (∃ m ∈ moved, ctx.Within p m) ∨ ctx.isErased p)
  held : ∀ p, ctx.HasOp p → ¬ctx'.isErased p → ctx'.heldBy p = (ctx.heldBy p).map σ
  only : ∀ p, ctx'.HasOp p → ¬ctx.HasOp p → ∃ c ∈ copies, ctx'.Within p c

namespace Queue

/-- The row with one operation more. -/
def next (s : ctx.Queue o moved) {front : List OpRef} {q : OpRef}
    (hbefore : s.before = front ++ [q]) : ctx.Queue o (q :: moved) where
  team := s.team
  place := s.place
  before := front
  after := s.after
  place_ops := by
    rw [s.place_ops, hbefore]
    simp

/-- At the start nothing has moved. -/
theorem done_nil (h : ctx.Sound) (s : ctx.Queue o []) : s.Done id [] ctx where
  evolves := .refl ctx
  sound := h
  blockOf p _ := by simp
  place := s.place_ops
  body := rfl
  other _ _ _ _ := rfl
  erased p _ := by simp
  held p _ _ := (List.map_id _).symm
  only p hp hnew := absurd hp hnew
  outside _ _ := rfl
  fresh := by simp
  injective := by simp
  copyOf := .nil

/-! ## The row -/

section

variable (s : ctx.Queue o moved) (h : ctx.Sound)

include s h

theorem hasBlock_place : ctx.HasBlock s.place :=
  h.coherent.hasBlock_of_blockOf
    ((h.coherent.ops.owner_iff o s.place).2 (by simp [s.place_ops]))

theorem hasBlock_body : ctx.HasBlock s.team.body :=
  h.coherent.hasBlock_of_holder (s.team.holder h.coherent)

/-- What stands at different places of the block is not nested in each other. -/
theorem eq_of_within {p q : OpRef} (hp : p ∈ ctx.opsOf s.place) (hq : q ∈ ctx.opsOf s.place)
    (hw : ctx.Within p q) : p = q :=
  h.eq_of_within_of_blockOf ((h.coherent.ops.owner_iff p _).2 hp)
    ((h.coherent.ops.owner_iff q _).2 hq) hw

theorem not_mem_of_before {q : OpRef} (hq : q ∈ s.before) : q ∉ moved ∧ q ≠ o := by
  have hnodup := h.coherent.ops.nodup s.place
  rw [s.place_ops, List.nodup_append] at hnodup
  refine ⟨fun hm => ?_, fun e => ?_⟩
  · exact hnodup.2.2 q hq q (List.mem_append_left _ hm) rfl
  · exact hnodup.2.2 q hq o (List.mem_append_right _ List.mem_cons_self) e

/-- What is in front of the row has nothing in common with the row and the region. -/
theorem apart {p q : OpRef} (hq : q ∈ s.before) (hp : ctx.Within p q) :
    (∀ m ∈ moved, ¬ctx.Within p m) ∧ ¬ctx.Within p o := by
  obtain ⟨hrow, hregion⟩ := s.not_mem_of_before h hq
  have hplace {x : OpRef} (hx : x ∈ s.before ++ (moved ++ o :: s.after)) :
      x ∈ ctx.opsOf s.place := s.place_ops ▸ hx
  have hne {x : OpRef} (hx : x ∈ ctx.opsOf s.place) (hqx : q ≠ x) : ¬ctx.Within p x := fun hw =>
    have hq := hplace (List.mem_append_left _ hq)
    (hp.total hw).elim (fun hw => hqx (s.eq_of_within h hq hx hw))
      fun hw => hqx (s.eq_of_within h hx hq hw).symm
  exact ⟨fun m hm => hne (hplace (by simp [hm])) fun e => hrow (e ▸ hm),
    hne (hplace (by simp)) hregion⟩

theorem region_not_within_before {q : OpRef} (hq : q ∈ s.before) : ¬ctx.Within o q := fun hw =>
  (s.not_mem_of_before h hq).2
    (s.eq_of_within h (by simp [s.place_ops]) (by simp [s.place_ops, hq]) hw).symm

end

/-! ## Where things are -/

namespace Done

variable {s : ctx.Queue o moved} (d : s.Done σ copies ctx₁) (h : ctx.Sound)

include d h

theorem above_old {p : OpRef} (hex : ctx.HasOp p) (hp : p ∉ moved) :
    ctx₁.above p = ctx.above p :=
  d.evolves.above_eq h.coherent (by rw [d.blockOf p hex, if_neg hp])

omit h in
theorem above_moved {m : OpRef} (hex : ctx.HasOp m) (hm : m ∈ moved) : ctx₁.above m = none := by
  rw [above, d.blockOf m hex, if_pos hm]
  rfl

/-- Nothing from before has come into anything. -/
theorem within_old {p a : OpRef} (hex : ctx.HasOp p) (hw : ctx₁.Within p a) : ctx.Within p a := by
  induction hw using Relation.ReflTransGen.head_induction_on with
  | refl => exact .refl a
  | @head p t hstep _ ih =>
    have hp : p ∉ moved := fun hm => by
      rw [d.above_moved hex hm] at hstep
      cases hstep
    rw [d.above_old h hex hp] at hstep
    exact (within_of_above hstep).trans (ih (h.coherent.hasOp_of_above hstep).2)

/-- What is not in the row is where it was. -/
theorem within {p a : OpRef} (hw : ctx.Within p a) (hp : ∀ m ∈ moved, ¬ctx.Within p m) :
    ctx₁.Within p a := by
  induction hw using Relation.ReflTransGen.head_induction_on with
  | refl => exact .refl a
  | @head p t hstep _ ih =>
    have hrow : p ∉ moved := fun hm => hp p hm (.refl p)
    refine (within_of_above ((d.above_old h (h.coherent.hasOp_of_above hstep).1 hrow).trans
      hstep)).trans (ih fun m hm ht => hp m hm ((within_of_above hstep).trans ht))

/-- The row has left no block but that of the region. -/
theorem opsOf_inside {b : BlockRef} {z : OpRef} (hb : ctx.holder b = some z)
    (hz : ¬ctx.Within o z) : ctx₁.opsOf b = ctx.opsOf b := by
  refine d.other b (h.coherent.hasBlock_of_holder hb) ?_ ?_
  · rintro rfl
    exact hz (within_of_above ((h.coherent.above_of_mem (by simp [s.place_ops])).trans hb))
  · rintro rfl
    obtain rfl := Option.some.inj ((s.team.holder h.coherent).symm.trans hb)
    exact hz (.refl o)

/-- What does not hold the region holds nothing new. -/
theorem within_tree {p q : OpRef} (hex : ctx.HasOp q) (hq : ¬ctx.Within o q)
    (hw : ctx₁.Within p q) : ctx.HasOp p ∧ ctx.Within p q := by
  induction hw using Relation.ReflTransGen.head_induction_on with
  | refl => exact ⟨hex, .refl q⟩
  | @head p t hstep _ ih =>
    obtain ⟨ht, hw⟩ := ih
    obtain ⟨b, -, hb, hp⟩ := d.evolves.listed_of_above h.coherent d.sound.coherent ht hstep
    rw [d.opsOf_inside h hb fun hot => hq (hot.trans hw)] at hp
    exact ⟨h.coherent.hasOp_of_mem hp,
      (within_of_above ((h.coherent.above_of_mem hp).trans hb)).trans hw⟩

/-- In front of the row, everything defines what it defined. -/
theorem definedWithin_iff {q : OpRef} {v : ValueRef} (hq : q ∈ s.before) :
    ctx₁.DefinedWithin q v ↔ ctx.DefinedWithin q v := by
  have hex : ctx.HasOp q := h.coherent.hasOp_of_mem (b := s.place) (by simp [s.place_ops, hq])
  constructor
  · rintro ⟨p, hp, hw⟩
    obtain ⟨hpex, hw⟩ := d.within_tree h hex (s.region_not_within_before h hq) hw
    have hlt := d.evolves.index_lt_of_definer h.coherent d.sound.coherent hpex hp
    exact ⟨p, (d.evolves.definer_eq h.coherent hlt).symm.trans hp, hw⟩
  · rintro ⟨p, hp, hw⟩
    exact ⟨p, d.evolves.definer h.coherent hp, d.within h hw (s.apart h hq hw).1⟩

/-- No copy has a value of what is in front of the row. -/
theorem not_definedWithin_copy {q : OpRef} (hq : q ∈ s.before) {m : OpRef} (hm : m ∈ moved)
    {v : ValueRef} (hv : ctx.DefinedWithin m v) : ¬ctx₁.DefinedWithin q (σ v) := fun hw => by
  have hlt := index_lt_of_definedWithin ((d.definedWithin_iff h hq).1 hw)
  have hle := (d.fresh m hm v hv).1
  omega

/-- What is in front of the row has no values of the row. -/
theorem outside_of_before {q : OpRef} (hq : q ∈ s.before) {v : ValueRef}
    (hv : ctx.DefinedWithin q v) : σ v = v := by
  obtain ⟨p, hp, hw⟩ := hv
  refine d.outside v fun m hm ⟨p', hp', hw'⟩ => (s.apart h hq hw).1 m hm ?_
  obtain rfl := Option.some.inj (hp.symm.trans hp')
  exact hw'

omit h in
/-- Operands are renamed. -/
theorem operandsOf {p : OpRef} (hex : ctx.HasOp p) (hlive : ¬ctx₁.isErased p) :
    ctx₁.operandsOf p = (ctx.operandsOf p).map σ := by
  have hlive' : ¬ctx.isErased p := fun he => hlive (d.evolves.erased p he)
  have hheld := d.held p hex hlive
  rwa [heldBy_eq, heldBy_eq, if_neg hlive, if_neg hlive'] at hheld

end Done

end Queue

/-- What is held outside the operation that moves is renamed like all values of the
    operation, since only its results are held there. -/
theorem Absorb.Done.rename_eq {root q copy p : OpRef} {w : ValueRef} {t : ctx.Absorb o q}
    (e : t.Done σ copy ctx₁) (h : ctx.Tight root) (ho : ctx.Within o root)
    (hw : w ∈ ctx.heldBy p) (hp : ¬ctx.Within p q) : t.rename σ w = σ w := by
  rw [rename]
  split
  · rfl
  · rename_i hres
    exact (e.outside w fun hdefined => hp (sealed_previous h t ho w hdefined hres p hw)).symm

/-! ## One operation more -/

namespace Queue.Done

section

variable {s : ctx.Queue o moved} {root q copy : OpRef} {front : List OpRef}
  {t : ctx₁.Absorb o q} {σ₁ : ValueRef → ValueRef} (d : s.Done σ copies ctx₁) (h : ctx.Sound)
  (h₁ : ctx₁.Tight root) (ho : ctx₁.Within o root) (hq : q ∈ s.before)
  (e : t.Done σ₁ copy ctx₂)

include d h h₁ ho hq

/-- What moves next has been kept, up to the renaming so far. -/
theorem retains (t : ctx₁.Absorb o q) : Retains ctx q σ ctx₁ := by
  have hex : ctx.HasOp q := h.coherent.hasOp_of_mem (b := s.place) (by simp [s.place_ops, hq])
  have hregion := s.region_not_within_before h hq
  have hroot := t.within_root h₁.toStable ho
  have hwithin {z : OpRef} (hz : ctx.Within z q) : ctx₁.Within z q :=
    d.within h hz (s.apart h hq hz).1
  exact {
    evolves := d.evolves
    opsOf := fun b z hb hz => d.opsOf_inside h hb fun hoz => hregion (hoz.trans hz)
    operands := fun z hz => d.operandsOf (h.coherent.hasOp_of_within' hz hex)
      (h₁.live z ((hwithin hz).trans hroot))
    fixed := fun v hv => d.outside_of_before h hq hv
    visible := fun z hz => h₁.visible (hwithin hz) hroot }

include e

/-- The copies so far stay copies, up to the next renaming. -/
theorem spares : Spares ctx σ (σ₁ ∘ σ) ctx₁ ctx₂ := by
  have hc := h.coherent
  have hc₁ := d.sound.coherent
  have hex : ctx.HasOp q := hc.hasOp_of_mem (b := s.place) (by simp [s.place_ops, hq])
  have hregion := s.region_not_within_before h hq
  have hnot {z : OpRef} (hnew : ¬ctx.HasOp z) : ¬ctx₁.Within z q := fun hw =>
    hnew (d.within_tree h hex hregion hw).1
  have hlive {z : OpRef} (hnew : ¬ctx.HasOp z) (hz : ctx₁.HasOp z)
      (hlive : ctx₁.isErased z = false) :
      ¬ctx₂.isErased z := by
    rw [e.erased z hz, hlive]
    exact fun hor => hor.elim (hnot hnew) Bool.false_ne_true
  refine ⟨e.evolves, fun z hnew hz hz' => Bool.eq_false_iff.2 (hlive hnew hz hz'),
    fun b hnew hb => ?_, fun z hnew hz hz' => ⟨σ₁, fun _ => rfl, ?_⟩, fun z hnew hz v hv => ?_,
    fun b hnew hb v hv => ?_⟩
  · have hbody : b ≠ t.team.body := by
      rintro rfl
      rw [← t.team.eq_body hc₁ (d.evolves.holder hc (s.team.holder hc))] at hnew
      exact hnew (s.hasBlock_body h)
    rw [e.other b hb hbody, filter_ne_self fun hm => hnew ?_]
    rw [hc₁.ops.owner_unique hm (show q ∈ ctx₁.opsOf s.place from ?_)]
    · exact s.hasBlock_place h
    · simp [d.place, hq]
  · rw [e.operandsOf hz (hlive hnew hz hz')]
    refine List.map_congr_left fun w hw => e.rename_eq h₁ ho (p := z) ?_ (hnot hnew)
    rwa [heldBy_eq, hz', if_neg Bool.false_ne_true]
  · refine e.outside (σ v) fun ⟨p, hp, hw⟩ => hnot hnew ?_
    obtain ⟨n, hsource⟩ := (mem_results_iff hc₁).1 hv
    rw [definer, hsource] at hp
    exact Option.some.inj hp ▸ hw
  · refine e.outside (σ v) fun ⟨p, hp, hw⟩ => hnew ?_
    obtain ⟨n, hsource⟩ := (mem_args_iff hc₁).1 hv
    rw [definer, hsource] at hp
    exact (d.evolves.holder_old hc hc₁ (d.within_tree h hex hregion hw).1 hp).1

/-- The operation right before the row moves after it. -/
theorem cons (hbefore : s.before = front ++ [q]) :
    (s.next hbefore).Done (σ₁ ∘ σ) (copy :: copies) ctx₂ := by
  have hc := h.coherent
  have hc₁ := d.sound.coherent
  have hqplace : q ∈ ctx.opsOf s.place := by simp [s.place_ops, hq]
  have hex : ctx.HasOp q := hc.hasOp_of_mem hqplace
  have hregion := s.region_not_within_before h hq
  have hbody : s.team.body = t.team.body :=
    t.team.eq_body hc₁ (d.evolves.holder hc (s.team.holder hc))
  have hplace : t.place = s.place :=
    hc₁.ops.owner_unique (show o ∈ _ by simp [t.place_ops]) (by simp [d.place])
  obtain ⟨hfront, hafter⟩ : t.before = front ∧ o :: t.after = o :: s.after := by
    have hops := d.place
    rw [← hplace, t.place_ops, hbefore, List.append_assoc] at hops
    exact Position.split_unique (t.place_ops ▸ hc₁.ops.nodup t.place) hops
  have htree {p : OpRef} (hp : ctx.HasOp p) : ctx₁.Within p q ↔ ctx.Within p q :=
    ⟨d.within_old h hp, fun hw => d.within h hw (s.apart h hq hw).1⟩
  have hvalues : ctx.values.size ≤ ctx₁.values.size := d.evolves.values_size
  have hvalues₁ : ctx₁.values.size ≤ ctx₂.values.size := e.evolves.values_size
  -- the values of the row are named once, those of the next operation after that
  have hrow {m : OpRef} (hm : m ∈ moved) {v : ValueRef} (hv : ctx.DefinedWithin m v) :
      σ₁ (σ v) = σ v := e.outside _ (d.not_definedWithin_copy h hq hm hv)
  have hnext {v : ValueRef} (hv : ctx.DefinedWithin q v) : σ v = v ∧ ctx₁.DefinedWithin q v :=
    ⟨d.outside_of_before h hq hv, (d.definedWithin_iff h hq).2 hv⟩
  have hfresh {v : ValueRef} (hv : ctx.DefinedWithin q v) :
      ctx₁.values.size ≤ (σ₁ (σ v)).index ∧ (σ₁ (σ v)).index < ctx₂.values.size := by
    rw [(hnext hv).1]
    exact e.fresh v (hnext hv).2
  have hne {m : OpRef} (hm : m ∈ moved) {v w : ValueRef} (hv : ctx.DefinedWithin m v)
      (hw : ctx.DefinedWithin q w) : σ₁ (σ v) ≠ σ₁ (σ w) := fun heq => by
    have hlt := (d.fresh m hm v hv).2
    have hle := (hfresh hw).1
    rw [← heq, hrow hm hv] at hle
    omega
  refine ⟨⟨fun v hv => ?_, fun m hm v hv => ?_, fun m hm v hv m' hm' w hw heq => ?_,
    .cons ⟨ctx₁.ops.size + 1, ?_⟩ ?_⟩, d.evolves.trans e.evolves, e.sound, fun p hp => ?_, ?_, ?_,
    fun b hb hb' hb'' => ?_, fun p hp => ?_, fun p hp hlive => ?_, fun p hp hnew => ?_⟩
  · rw [Function.comp_apply, d.outside v fun m hm => hv m (List.mem_cons_of_mem q hm)]
    exact e.outside v fun hw => hv q List.mem_cons_self ((d.definedWithin_iff h hq).1 hw)
  · rcases List.mem_cons.1 hm with rfl | hm
    · have := hfresh hv
      rw [Function.comp_apply]
      omega
    · have := d.fresh m hm v hv
      rw [Function.comp_apply, hrow hm hv]
      omega
  · rw [Function.comp_apply, Function.comp_apply] at heq
    rcases List.mem_cons.1 hm with hmq | hm <;> rcases List.mem_cons.1 hm' with hmq' | hm'
    · rw [(hnext (hmq ▸ hv)).1, (hnext (hmq' ▸ hw)).1] at heq
      exact e.injective v w (hnext (hmq ▸ hv)).2 (hnext (hmq' ▸ hw)).2 heq
    · exact absurd heq.symm (hne hm' hw (hmq ▸ hv))
    · exact absurd heq (hne hm hv (hmq' ▸ hw))
    · rw [hrow hm hv, hrow hm' hw] at heq
      exact d.injective m hm v hv m' hm' w hw heq
  · exact CopyOf.of_kept hc (d.retains h h₁ ho hq t) (.refl q) hex e.copyOf
  · exact d.copyOf.imp fun m c ⟨n, hcopy⟩ => ⟨n, hcopy.evolve (d.spares h h₁ ho hq e)⟩
  · rw [e.blockOf p (d.evolves.hasOp hp), d.blockOf p hp]
    by_cases hpq : p = q
    · rw [if_pos hpq, if_pos (hpq ▸ List.mem_cons_self)]
    · simp only [hpq, if_false, List.mem_cons, false_or]
  · have hops := e.place d.sound
    rwa [hplace, hfront, hafter] at hops
  · have hops := e.body
    rwa [← hbody, d.body] at hops
  · rw [e.other b (d.evolves.hasBlock hb) (hbody ▸ hb''), d.other b hb hb' hb'',
      filter_ne_self fun hm => hb' (hc.ops.owner_unique hm hqplace)]
  · rw [e.erased p (d.evolves.hasOp hp), htree hp, d.erased p hp]
    simp only [List.mem_cons, exists_eq_or_imp, or_assoc]
  · have hlive₁ : ¬ctx₁.isErased p := fun he => hlive (e.evolves.erased p he)
    have hp₁ := d.evolves.hasOp hp
    rw [e.held p hp₁ hlive, ← List.map_map, ← d.held p hp hlive₁]
    exact List.map_congr_left fun w hw => e.rename_eq h₁ ho hw fun hw =>
      hlive ((e.erased p hp₁).2 (.inl hw))
  · by_cases hp₁ : ctx₁.HasOp p
    · obtain ⟨c, hc, hw⟩ := d.only p hp₁ hnew
      exact ⟨c, List.mem_cons_of_mem copy hc, e.within d.sound hw fun hw =>
        hnew (d.within_tree h hex hregion hw).1⟩
    · exact ⟨copy, List.mem_cons_self, e.only p hp hp₁⟩

end

end Queue.Done

end Offload.Context
