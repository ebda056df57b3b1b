import Offload.Parallel.Merge
import Offload.Proofs.Parallel.Invariant
import Offload.Proofs.Parallel.Swap
import Offload.Proofs.Pattern.Success

/-!
# Fusing two regions

Of two parallel regions in a row (`Fuse`) the second is appended to the first: a barrier
takes the place of the last operation of the first, what is in the second is put behind
it, and the second is erased (`Fuse.Done`). Scope is kept but for the arguments of the
body of the second region, which are foreign afterwards (`Fuse.Done.inScope`).
-/

namespace Offload

namespace Context

variable {ctx ctx' : Context}

/-- Two parallel regions in a row. -/
structure Fuse (ctx : Context) (o previous : OpRef) where
  first : ctx.Team previous
  second : ctx.Team o
  place : BlockRef
  before : List OpRef
  after : List OpRef
  place_ops : ctx.opsOf place = before ++ previous :: o :: after

namespace Fuse

variable {o previous : OpRef} (s : ctx.Fuse o previous)

include s

theorem blockOf_region (h : ctx.Coherent) : ctx.blockOf o = some s.place :=
  (h.ops.owner_iff _ _).2 (by simp [s.place_ops])

theorem blockOf_previous (h : ctx.Coherent) : ctx.blockOf previous = some s.place :=
  (h.ops.owner_iff _ _).2 (by simp [s.place_ops])

theorem above_region (h : ctx.Coherent) : ctx.above o = ctx.holder s.place := by
  rw [above, s.blockOf_region h]
  rfl

theorem above_previous (h : ctx.Coherent) : ctx.above previous = ctx.holder s.place := by
  rw [above, s.blockOf_previous h]
  rfl

theorem ne (h : ctx.Coherent) : o ≠ previous := by
  have hnodup := h.ops.nodup s.place
  rw [s.place_ops, List.nodup_append, List.nodup_cons] at hnodup
  rintro rfl
  exact hnodup.2.1.1 List.mem_cons_self

theorem above_last (h : ctx.Coherent) : ctx.above s.first.last = some previous :=
  (h.above_of_mem (b := s.first.body) (by simp [s.first.ops])).trans (s.first.holder h)

theorem above_content (h : ctx.Coherent) {p : OpRef} (hp : p ∈ ctx.opsOf s.second.body) :
    ctx.above p = some o := (h.above_of_mem hp).trans (s.second.holder h)

theorem bodies_ne (h : ctx.Coherent) : s.first.body ≠ s.second.body := by
  intro e
  have hholder := s.first.holder h
  rw [e, s.second.holder h] at hholder
  exact s.ne h (Option.some.inj hholder)

theorem first_ne_place (h : ctx.Sound) : s.first.body ≠ s.place := by
  intro e
  have habove := s.above_previous h.coherent
  rw [← e, s.first.holder h.coherent] at habove
  exact h.grounded.not_within_above habove (.refl previous)

theorem second_ne_place (h : ctx.Sound) : s.second.body ≠ s.place := by
  intro e
  have habove := s.above_region h.coherent
  rw [← e, s.second.holder h.coherent] at habove
  exact h.grounded.not_within_above habove (.refl o)

theorem region_not_within (h : ctx.Sound) : ¬ctx.Within o previous := fun hw =>
  s.ne h.coherent (h.eq_of_within_of_blockOf (s.blockOf_region h.coherent)
    (s.blockOf_previous h.coherent) hw)

/-- Neither region is in what is erased with the end of the first. -/
theorem region_not_within_last (h : ctx.Sound) : ¬ctx.Within o s.first.last := fun hw =>
  s.region_not_within h (hw.trans (within_of_above (s.above_last h.coherent)))

theorem previous_not_within_last (h : ctx.Sound) : ¬ctx.Within previous s.first.last := fun hw =>
  h.grounded.not_within_above (s.above_last h.coherent) hw

end Fuse

/-- The first region ends with a barrier in the place of its last operation, which is
    erased. -/
structure Fuse.Ready {o previous : OpRef} (s : ctx.Fuse o previous) (barrier : OpRef)
    (ctx₁ : Context) : Prop where
  evolves : ctx.Evolves ctx₁
  sound : ctx₁.Sound
  blockOf : ∀ p, ctx.HasOp p →
    ctx₁.blockOf p = if p = s.first.last then none else ctx.blockOf p
  first : ctx₁.opsOf s.first.body = s.first.contents ++ [barrier]
  other : ∀ b, b ≠ s.first.body → ctx₁.opsOf b = ctx.opsOf b
  held : ∀ p, ¬ctx₁.isErased p → ctx₁.heldBy p = ctx.heldBy p
  erased : ∀ p, ctx.HasOp p → (ctx₁.isErased p ↔ ctx.Within p s.first.last ∨ ctx.isErased p)
  isNew : ¬ctx.HasOp barrier
  bare : ctx₁.Bare .barrier barrier

/-- Two regions were fused. -/
structure Fuse.Done {o previous : OpRef} (s : ctx.Fuse o previous) (barrier : OpRef)
    (ctx' : Context) : Prop where
  evolves : ctx.Evolves ctx'
  sound : ctx'.Sound
  blockOf : ∀ p, ctx.HasOp p → ctx'.blockOf p = if p = o ∨ p = s.first.last then none
    else if p ∈ ctx.opsOf s.second.body then some s.first.body else ctx.blockOf p
  place : ctx'.opsOf s.place = s.before ++ previous :: s.after
  first : ctx'.opsOf s.first.body = s.first.contents ++ barrier :: ctx.opsOf s.second.body
  second : ctx'.opsOf s.second.body = []
  other : ∀ b, b ≠ s.place → b ≠ s.first.body → b ≠ s.second.body → ctx'.opsOf b = ctx.opsOf b
  held : ∀ p, ¬ctx'.isErased p → ctx'.heldBy p = ctx.heldBy p
  erased : ∀ p, ctx.HasOp p →
    (ctx'.isErased p ↔ p = o ∨ ctx.Within p s.first.last ∨ ctx.isErased p)
  isNew : ¬ctx.HasOp barrier
  bare : ctx'.Bare .barrier barrier

namespace Fuse.Ready

variable {o previous barrier : OpRef} {s : ctx.Fuse o previous} {ctx₁ ctx₂ : Context}

theorem place (r : s.Ready barrier ctx₁) (h : ctx.Sound) :
    ctx₁.opsOf s.place = s.before ++ previous :: o :: s.after :=
  (r.other _ (s.first_ne_place h).symm).trans s.place_ops

theorem second (r : s.Ready barrier ctx₁) (h : ctx.Sound) :
    ctx₁.opsOf s.second.body = ctx.opsOf s.second.body :=
  r.other _ (s.bodies_ne h.coherent).symm

/-- What is in the second region is not in the first one. -/
theorem not_mem_first (r : s.Ready barrier ctx₁) (h : ctx.Sound) {p : OpRef}
    (hp : p ∈ ctx.opsOf s.second.body) : p ∉ ctx₁.opsOf s.first.body := fun hm => by
  rw [r.first, List.mem_append, List.mem_singleton] at hm
  rcases hm with hm | rfl
  · exact h.coherent.not_mem_of_ne (b := s.first.body) (by simp [s.first.ops, hm])
      (s.bodies_ne h.coherent).symm hp
  · exact r.isNew (h.coherent.hasOp_of_mem hp)

/-- The first region is not nested in anything in the second one. -/
theorem not_within (r : s.Ready barrier ctx₁) (h : ctx.Sound) {t p : OpRef}
    (ht : ctx₁.holder s.first.body = some t) (hp : p ∈ ctx.opsOf s.second.body) :
    ¬ctx₁.Within t p := fun hw => by
  have hc₁ := r.sound.coherent
  rw [r.evolves.holder h.coherent (s.first.holder h.coherent)] at ht
  obtain rfl := Option.some.inj ht
  have habove : ctx₁.above p = some o := by
    rw [hc₁.above_of_mem (r.second h ▸ hp)]
    exact r.evolves.holder h.coherent (s.second.holder h.coherent)
  refine s.ne h.coherent (r.sound.eq_of_within_of_blockOf (b := s.place) ?_ ?_
    (hw.trans (within_of_above habove))).symm
  · exact (hc₁.ops.owner_iff _ _).2 (by simp [r.place h])
  · exact (hc₁.ops.owner_iff _ _).2 (by simp [r.place h])

/-- What is in the second region can be moved behind what is in the first one. -/
theorem gathers {e : Editor} (r : s.Ready barrier e.context) (h : ctx.Sound) :
    ∃ e', e.moveOpsToEnd (ctx.opsOf s.second.body) s.first.body = .ok e' ∧
      (e.Recorded → e'.Recorded) ∧ e.context.Gathered (ctx.opsOf s.second.body) s.first.body
        (e.context.opsOf s.first.body ++ ctx.opsOf s.second.body) e'.context :=
  Editor.moveOpsToEnd_gathered r.sound
    (r.evolves.hasBlock (h.coherent.hasBlock_of_holder (s.first.holder h.coherent)))
    (fun _ hp => r.evolves.hasOp (h.coherent.hasOp_of_mem hp)) (h.coherent.ops.nodup s.second.body)
    (fun _ hp => r.not_mem_first h hp) fun _ ht _ hp => r.not_within h ht hp

section Gathered

variable (r : s.Ready barrier ctx₁) (h : ctx.Sound)
  (hg : ctx₁.Gathered (ctx.opsOf s.second.body) s.first.body
    (ctx₁.opsOf s.first.body ++ ctx.opsOf s.second.body) ctx₂)

include r h hg

omit h in
theorem evolves_gathered : ctx.Evolves ctx₂ := r.evolves.trans hg.relisted.evolves

omit h in
theorem first_gathered :
    ctx₂.opsOf s.first.body = s.first.contents ++ barrier :: ctx.opsOf s.second.body := by
  rw [hg.opsOf, if_pos rfl, r.first]
  simp

theorem second_gathered : ctx₂.opsOf s.second.body = [] := by
  rw [hg.opsOf, if_neg (s.bodies_ne h.coherent).symm, r.second h, List.filter_eq_nil_iff]
  simp

theorem other_gathered {b : BlockRef} (hfirst : b ≠ s.first.body) (hsecond : b ≠ s.second.body) :
    ctx₂.opsOf b = ctx.opsOf b := by
  rw [hg.opsOf, if_neg hfirst, r.other b hfirst, List.filter_eq_self]
  intro p hp
  rw [decide_eq_true_eq]
  exact h.coherent.not_mem_of_ne hp hsecond.symm

/-- Nothing is left in the second region. -/
theorem within_gathered (p : OpRef) : ctx₂.Within p o ↔ p = o := by
  refine ⟨fun hw => (within_iff_below.1 hw).resolve_right ?_, fun e => e ▸ .refl _⟩
  rintro ⟨c, hc', -⟩
  obtain ⟨b, hb, hholder, hm⟩ :=
    (r.evolves_gathered hg).listed_of_above h.coherent hg.sound.coherent s.second.hasOp hc'
  rw [s.second.eq_body h.coherent hholder, r.second_gathered h hg] at hm
  cases hm

theorem region_not_mem {b : BlockRef} (hne : b ≠ s.place) : o ∉ ctx₂.opsOf b := fun hm =>
  hne (hg.sound.coherent.ops.owner_unique hm (by
    rw [r.other_gathered h hg (s.first_ne_place h).symm (s.second_ne_place h).symm, s.place_ops]
    simp))

/-- Then the second region is erased. -/
theorem done (herasure : ctx₂.Erasure o ctx') : s.Done barrier ctx' := by
  have hc := h.coherent
  have hbarrier {p : OpRef} (hp : ctx.HasOp p) : p ≠ barrier := fun e => r.isNew (e ▸ hp)
  have hlast : s.first.last ∈ ctx.opsOf s.first.body := by simp [s.first.ops]
  refine ⟨(r.evolves_gathered hg).trans herasure.evolves, herasure.sound, fun p hp => ?_, ?_, ?_,
    ?_, fun b hne hfirst hsecond => ?_, fun p hlive => ?_, fun p hp => ?_, r.isNew, ?_⟩
  · rw [herasure.blockOf, hg.blockOf r.sound.coherent (by simp), r.blockOf p hp]
    by_cases ho : p = o
    · rw [if_pos ho, if_pos (.inl ho)]
    by_cases hlast' : p = s.first.last
    · have hnotin := h.coherent.not_mem_of_ne hlast (s.bodies_ne hc).symm
      rw [if_neg ho, if_neg (hlast' ▸ hnotin), if_pos hlast', if_pos (.inr hlast')]
    · rw [if_neg ho, if_neg hlast', if_neg (not_or.2 ⟨ho, hlast'⟩)]
  · have hnodup := hc.ops.nodup s.place
    have hops : ctx.opsOf s.place = (s.before ++ [previous]) ++ o :: s.after := by
      rw [s.place_ops]
      simp
    rw [hops, List.nodup_append, List.nodup_cons] at hnodup
    have hbefore : o ∉ s.before ++ [previous] := fun hm =>
      hnodup.2.2 _ hm _ List.mem_cons_self rfl
    rw [herasure.opsOf, r.other_gathered h hg (s.first_ne_place h).symm (s.second_ne_place h).symm,
      hops, List.filter_append, filter_ne_self hbefore, List.filter_cons_of_neg (by simp),
      filter_ne_self hnodup.2.1.1]
    simp
  · rw [herasure.opsOf, filter_ne_self (r.region_not_mem h hg (s.first_ne_place h)),
      r.first_gathered hg]
  · rw [herasure.opsOf, r.second_gathered h hg]
    rfl
  · rw [herasure.opsOf, filter_ne_self (r.region_not_mem h hg hne),
      r.other_gathered h hg hfirst hsecond]
  · have hlive₁ : ¬ctx₁.isErased p := fun he =>
      hlive ((herasure.erased p).2 (.inr (hg.relisted.erased ▸ he)))
    rw [herasure.held p hlive, hg.relisted.heldBy, r.held p hlive₁]
  · rw [herasure.erased, r.within_gathered h hg, hg.relisted.erased, r.erased p hp]
  · exact (r.bare.relisted hg.relisted).erasure herasure fun hw =>
      hbarrier s.second.hasOp ((r.within_gathered h hg _).1 hw).symm

end Gathered

end Fuse.Ready

namespace Fuse.Done

variable {o previous barrier : OpRef} {s : ctx.Fuse o previous}

/-! ## Where things are -/

/-- What is listed was there before, or is the barrier. -/
theorem listed (d : s.Done barrier ctx') (h : ctx.Coherent) {p : OpRef} {b : BlockRef}
    (hp : p ∈ ctx'.opsOf b) : p = barrier ∨ ctx.HasOp p := by
  by_cases hplace : b = s.place
  · refine .inr (h.hasOp_of_mem (b := s.place) ?_)
    rw [hplace, d.place] at hp
    rw [s.place_ops]
    simp only [List.mem_append, List.mem_cons] at hp ⊢
    tauto
  by_cases hfirst : b = s.first.body
  · rw [hfirst, d.first, List.mem_append, List.mem_cons] at hp
    rcases hp with hp | rfl | hp
    · exact .inr (h.hasOp_of_mem (b := s.first.body) (by simp [s.first.ops, hp]))
    · exact .inl rfl
    · exact .inr (h.hasOp_of_mem hp)
  by_cases hsecond : b = s.second.body
  · rw [hsecond, d.second] at hp
    cases hp
  · rw [d.other b hplace hfirst hsecond] at hp
    exact .inr (h.hasOp_of_mem hp)

theorem above_region (d : s.Done barrier ctx') : ctx'.above o = none := by
  rw [above, d.blockOf o s.second.hasOp, if_pos (.inl rfl)]
  rfl

theorem above_last (d : s.Done barrier ctx') (h : ctx.Coherent) :
    ctx'.above s.first.last = none := by
  rw [above, d.blockOf _ (h.hasOp_of_above (s.above_last h)).1, if_pos (.inr rfl)]
  rfl

/-- What was in the second region is in the first one now. -/
theorem above_content (d : s.Done barrier ctx') (h : ctx.Sound) {p : OpRef} (ho : p ≠ o)
    (hlast : p ≠ s.first.last) (hp : ctx.above p = some o) : ctx'.above p = some previous := by
  obtain ⟨b, hb, hholder⟩ := Option.bind_eq_some_iff.1 hp
  obtain rfl := s.second.eq_body h.coherent hholder
  rw [above, d.blockOf p (h.coherent.hasOp_of_above hp).1, if_neg (by tauto),
    if_pos ((h.coherent.ops.owner_iff p _).1 hb)]
  exact d.evolves.holder h.coherent (s.first.holder h.coherent)

/-- All others are where they were. -/
theorem above_other (d : s.Done barrier ctx') (h : ctx.Sound) {p : OpRef} (hex : ctx.HasOp p)
    (ho : p ≠ o) (hlast : p ≠ s.first.last) (hp : ctx.above p ≠ some o) :
    ctx'.above p = ctx.above p := by
  have hblock : p ∉ ctx.opsOf s.second.body := fun hm => hp (s.above_content h.coherent hm)
  exact d.evolves.above_eq h.coherent
    (by rw [d.blockOf p hex, if_neg (by tauto), if_neg hblock])

theorem above_previous (d : s.Done barrier ctx') (h : ctx.Sound) :
    ctx'.above previous = ctx.above o := by
  have hne : ctx.above previous ≠ some o := fun e =>
    h.grounded.not_within_above ((s.above_region h.coherent).trans
      ((s.above_previous h.coherent).symm.trans e)) (.refl o)
  rw [d.above_other h s.first.hasOp (s.ne h.coherent).symm
    (fun e => s.previous_not_within_last h (e ▸ .refl _)) hne, s.above_region h.coherent,
    s.above_previous h.coherent]

/-- What was in an operation still is, unless one of them was erased. -/
theorem within (d : s.Done barrier ctx') (h : ctx.Sound) {p a : OpRef} (hw : ctx.Within p a)
    (ho : p ≠ o) (hlast : ¬ctx.Within p s.first.last) (ha : a ≠ o) : ctx'.Within p a := by
  suffices (p ≠ o → ¬ctx.Within p s.first.last → ctx'.Within p a) ∧
      (p = o → ctx'.Within previous a) from this.1 ho hlast
  clear ho hlast
  induction hw using Relation.ReflTransGen.head_induction_on with
  | refl => exact ⟨fun _ _ => .refl a, fun e => absurd e ha⟩
  | @head p t hstep _ ih =>
    refine ⟨fun ho hlast => ?_, ?_⟩
    · have hne : p ≠ s.first.last := fun e => hlast (e ▸ .refl _)
      by_cases hto : t = o
      · exact (within_of_above (d.above_content h ho hne (hto ▸ hstep))).trans (ih.2 hto)
      · have habove := d.above_other h (h.coherent.hasOp_of_above hstep).1 ho hne
          (by rw [hstep]; simpa using hto)
        exact (within_of_above (habove.trans hstep)).trans
          (ih.1 hto fun hw => hlast ((within_of_above hstep).trans hw))
    · rintro rfl
      refine (within_of_above ((d.above_previous h).trans hstep)).trans (ih.1 ?_ fun hw => ?_)
      · rintro rfl
        exact h.grounded.not_within_above hstep (.refl _)
      · exact s.region_not_within_last h ((within_of_above hstep).trans hw)

/-- What is in an operation around the regions was so before, but for the barrier, and
    has not been erased. -/
theorem within_before (d : s.Done barrier ctx') (h : ctx.Sound) {p root : OpRef}
    (hroot : ctx.Within o root) (hne : o ≠ root) (hw : ctx'.Within p root) :
    p = barrier ∨ ctx.HasOp p ∧ ctx.Within p root ∧ p ≠ o ∧ ¬ctx.Within p s.first.last := by
  have hc := h.coherent
  induction hw using Relation.ReflTransGen.head_induction_on with
  | refl =>
    refine .inr ⟨hc.hasOp_of_within hroot s.second.hasOp, .refl root, hne.symm, fun hw => ?_⟩
    exact s.region_not_within_last h (hroot.trans hw)
  | @head p t hstep _ ih =>
    obtain ⟨b, hb, -⟩ := Option.bind_eq_some_iff.1 hstep
    rcases d.listed hc ((d.sound.coherent.ops.owner_iff p b).1 hb) with rfl | hex
    · exact .inl rfl
    have ho : p ≠ o := by
      rintro rfl
      rw [d.above_region] at hstep
      cases hstep
    have hlast : p ≠ s.first.last := by
      rintro rfl
      rw [d.above_last hc] at hstep
      cases hstep
    have ht : ctx.HasOp t ∧ ctx.Within t root ∧ t ≠ o ∧ ¬ctx.Within t s.first.last :=
      ih.resolve_left fun e =>
        d.bare.not_within d.sound.coherent (fun e => d.isNew (e ▸ hex))
          (e ▸ within_of_above hstep)
    right
    by_cases hp : ctx.above p = some o
    · refine ⟨hex, (within_of_above hp).trans hroot, ho, fun hw => ?_⟩
      obtain ⟨u, hu, hw⟩ := (within_iff_above.1 hw).resolve_left hlast
      obtain rfl := Option.some.inj (hp.symm.trans hu)
      exact s.region_not_within_last h hw
    · rw [d.above_other h hex ho hlast hp] at hstep
      refine ⟨hex, (within_of_above hstep).trans ht.2.1, ho, fun hw => ?_⟩
      obtain ⟨u, hu, hw⟩ := (within_iff_above.1 hw).resolve_left hlast
      obtain rfl := Option.some.inj (hstep.symm.trans hu)
      exact ht.2.2.2 hw

/-! ## Scope -/

/-- The arguments of the body of the second region are foreign now. -/
theorem foreign_arg (d : s.Done barrier ctx') (h : ctx.Sound) {v : ValueRef}
    (hv : v ∈ ctx.args s.second.body) : ctx'.Foreign v := by
  refine ⟨o, d.evolves.definer h.coherent ((definer_of_mem_args h.coherent hv).trans
    (s.second.holder h.coherent)), ?_⟩
  exact (d.erased o s.second.hasOp).2 (.inl rfl)

/-- The regions have the same scope, as neither has results. -/
theorem inScope_previous (h : ctx.Coherent) (s : ctx.Fuse o previous) {v : ValueRef}
    (hv : ctx.InScope o v) : ctx.InScope previous v := by
  have hops : ctx.opsOf s.place = (s.before ++ [previous]) ++ o :: s.after := by
    rw [s.place_ops]
    simp
  refine (h.inScope_iff s.place_ops).2 ?_
  rcases (h.inScope_iff hops).1 hv with hv | ⟨p, hp, hv⟩ | hv
  · exact .inl hv
  · rcases List.mem_append.1 hp with hp | hp
    · exact .inr (.inl ⟨p, hp, hv⟩)
    · rw [List.mem_singleton.1 hp, s.first.results] at hv
      cases hv
  · exact .inr (.inr hv)

theorem place' (d : s.Done barrier ctx') (h : ctx.Sound) :
    ctx'.opsOf s.place = (ctx.opsOf s.place).filter (· ≠ o) := by
  have hnodup := h.coherent.ops.nodup s.place
  have hops : ctx.opsOf s.place = (s.before ++ [previous]) ++ o :: s.after := by
    rw [s.place_ops]
    simp
  rw [hops, List.nodup_append, List.nodup_cons] at hnodup
  have hbefore : o ∉ s.before ++ [previous] := fun hm =>
    hnodup.2.2 _ hm _ List.mem_cons_self rfl
  rw [d.place, hops, List.filter_append, filter_ne_self hbefore, List.filter_cons_of_neg (by simp),
    filter_ne_self hnodup.2.1.1]
  simp

/-- Scope is kept outside what was erased, but for the arguments of the second region. -/
theorem inScope (d : s.Done barrier ctx') (h : ctx.Sound) {p : OpRef} {v : ValueRef} (ho : p ≠ o)
    (hlast : ¬ctx.Within p s.first.last) (hargs : v ∉ ctx.args s.second.body)
    (hv : ctx.InScope p v) : ctx'.InScope p v := by
  have hc := h.coherent
  suffices (p ≠ o → ¬ctx.Within p s.first.last → ctx.InScope p v → ctx'.InScope p v) ∧
      (p = o → ctx.InScope previous v → ctx'.InScope previous v) from this.1 ho hlast hv
  clear ho hlast hv
  induction p using h.grounded.above_induction with
  | step p ih =>
    refine ⟨fun ho hlast hv => ?_, ?_⟩
    · obtain ⟨b, before, after, hsplit⟩ := hc.exists_split_of_inScope hv
      have hp : p ∈ ctx.opsOf b := by simp [hsplit]
      have hup (a : OpRef) (ha : ctx.holder b = some a) (hne : a ≠ o) (hv : ctx.InScope a v) :
          ctx'.InScope a v :=
        have habove := (hc.above_of_mem hp).trans ha
        (ih a habove).1 hne (fun hw => hlast ((within_of_above habove).trans hw)) hv
      by_cases hsecond : b = s.second.body
      · -- the operation is behind the barrier now
        subst hsecond
        have hops : ctx'.opsOf s.first.body =
            (s.first.contents ++ barrier :: before) ++ p :: after := by
          rw [d.first, hsplit]
          simp
        refine (d.sound.coherent.inScope_iff hops).2 ?_
        rcases (hc.inScope_iff hsplit).1 hv with hv | ⟨q, hq, hv⟩ | ⟨a, ha, hv⟩
        · exact absurd hv hargs
        · refine .inr (.inl ⟨q, List.mem_append_right _ (List.mem_cons_of_mem barrier hq), ?_⟩)
          rwa [d.evolves.results (hc.hasOp_of_mem (b := s.second.body) (by simp [hsplit, hq]))]
        · obtain rfl := Option.some.inj ((s.second.holder hc).symm.trans ha)
          exact .inr (.inr ⟨previous, d.evolves.holder hc (s.first.holder hc),
            (ih o (s.above_content hc hp)).2 rfl (inScope_previous hc s hv)⟩)
      have hne (a : OpRef) (ha : ctx.holder b = some a) : a ≠ o := by
        rintro rfl
        exact hsecond (s.second.eq_body hc ha)
      by_cases hplace : b = s.place
      · subst hplace
        refine d.evolves.inScope_of_split h d.sound hsplit hv
          (show _ = before.filter (· ≠ o) ++ p :: after.filter (· ≠ o) from ?_)
          (fun q hq hv => List.mem_filter.2 ⟨hq, ?_⟩) fun a ha => hup a ha (hne a ha)
        · rw [d.place' h, hsplit, List.filter_append, List.filter_cons_of_pos (by simpa using ho)]
        · -- the second region has no results
          rw [decide_eq_true_eq]
          rintro rfl
          rw [s.second.results] at hv
          cases hv
      by_cases hfirst : b = s.first.body
      · subst hfirst
        have hcontent : p ∈ s.first.contents := by
          rw [s.first.ops] at hp
          refine (List.mem_append.1 hp).resolve_right fun hm => hlast ?_
          rw [List.mem_singleton.1 hm]
          exact .refl _
        obtain ⟨l, l', hl⟩ := List.append_of_mem hcontent
        have heq : before ++ p :: after = l ++ p :: (l' ++ [s.first.last]) := by
          rw [← hsplit, s.first.ops, hl]
          simp
        obtain ⟨rfl, -⟩ := Position.split_unique (hsplit ▸ hc.ops.nodup _) heq
        exact d.evolves.inScope_of_split h d.sound hsplit hv
          (show _ = before ++ p :: (l' ++ barrier :: ctx.opsOf s.second.body) by rw [d.first, hl]; simp)
          (fun q hq _ => hq) fun a ha => hup a ha (hne a ha)
      · exact d.evolves.inScope_of_split h d.sound hsplit hv
          (by rw [d.other b hplace hfirst hsecond, hsplit]) (fun q hq _ => hq)
          fun a ha => hup a ha (hne a ha)
    · rintro rfl hv
      refine d.evolves.inScope_of_split h d.sound s.place_ops hv d.place (fun q hq _ => hq)
        fun a ha hv => ?_
      have habove := (s.above_region hc).trans ha
      refine (ih a habove).1 ?_ (fun hw => ?_) hv
      · rintro rfl
        exact h.grounded.not_within_above habove (.refl _)
      · exact s.region_not_within_last h ((within_of_above habove).trans hw)

/-! ## The invariant -/

/-- The last operation of a block stays so, but for that of the first region; there the
    last operation of the second region comes to be last. -/
theorem getLast? (d : s.Done barrier ctx') (h : ctx.Sound) {b : BlockRef} {last : OpRef}
    (hlast : (ctx.opsOf b).getLast? = some last) (ho : last ≠ o) (hfirst : b ≠ s.first.body)
    (hsecond : b ≠ s.second.body) : (ctx'.opsOf b).getLast? = some last := by
  by_cases hplace : b = s.place
  · rw [hplace] at hlast
    rw [hplace, d.place' h]
    exact Position.getLast?_filter hlast (by simpa using ho)
  · rwa [d.other b hplace hfirst hsecond]

theorem getLast?_first (d : s.Done barrier ctx') :
    (ctx'.opsOf s.first.body).getLast? = some s.second.last := by
  rw [d.first, s.second.ops]
  simp [List.getLast?_append, List.getLast?_cons]

theorem ne_of_isTerminator (s : ctx.Fuse o previous) {p : OpRef}
    (hp : (ctx.kindOf p).isTerminator) : p ≠ o := by
  rintro rfl
  rw [s.second.kind] at hp
  exact OpKind.parallel_not_isTerminator hp

/-- What is discarded stays so, unless it was erased. -/
theorem discarded (d : s.Done barrier ctx') {root : OpRef} (h : ctx.Stable root) {p : OpRef}
    (hp : ctx.Within p root) (ho : p ≠ o) (hlast : ¬ctx.Within p s.first.last)
    (hd : ctx.Discarded p) : ctx'.Discarded p := by
  have hc := h.sound.coherent
  obtain ⟨b, a, last, hb, ha, hend, hw, hterm⟩ := h.discarded hp hd
  have hne := ne_of_isTerminator s hterm
  have hw' := d.within h.sound hw ho hlast hne
  have hfirst : b ≠ s.first.body := by
    rintro rfl
    rw [s.first.ops, List.getLast?_concat] at hend
    exact hlast (Option.some.inj hend ▸ hw)
  by_cases hsecond : b = s.second.body
  · subst hsecond
    rw [s.second.ops, List.getLast?_concat] at hend
    refine ⟨s.first.body, previous, s.second.last, d.evolves.holder hc (s.first.holder hc), ?_,
      d.getLast?_first, Option.some.inj hend ▸ hw'⟩
    rw [d.evolves.kindOf s.first.hasOp, s.first.kind]
  · refine ⟨b, a, last, d.evolves.holder hc hb, ?_, d.getLast? h.sound hend hne hfirst hsecond, hw'⟩
    rwa [d.evolves.kindOf (hc.hasOp_of_holder hb)]

theorem stable (d : s.Done barrier ctx') {root : OpRef} (h : ctx.Stable root)
    (hroot : ctx.Within o root) (hne : o ≠ root) : ctx'.Stable root := by
  have hc := h.sound.coherent
  have hlive {p : OpRef} (hex : ctx.HasOp p) (hw : ctx.Within p root) (ho : p ≠ o)
      (hlast : ¬ctx.Within p s.first.last) : ¬ctx'.isErased p := by
    rw [d.erased p hex]
    rintro (e | hw' | he)
    · exact ho e
    · exact hlast hw'
    · exact h.live p hw he
  have hbefore {p : OpRef} (hp : ctx'.Within p root) := d.within_before h.sound hroot hne hp
  refine ⟨d.sound, d.evolves.hasOp h.hasRoot, ?_, fun p hp => ?_, fun p hp => ?_,
    fun p hp hneeds r hr b hb => ?_, fun p hp hkept v hv => ?_⟩
  · have hroot : root ∉ ctx.opsOf s.second.body :=
      hc.ops.not_mem_of_free h.detached s.second.body
    rw [d.blockOf root h.hasRoot, if_neg hroot, h.detached, ite_self]
  · rcases hbefore hp with rfl | ⟨hex, hw, ho, hlast⟩
    · rw [d.bare.live]
      exact Bool.false_ne_true
    · exact hlive hex hw ho hlast
  · rcases hbefore hp with rfl | ⟨hex, hw, ho, hlast⟩
    · exact d.bare.shaped
    · exact d.evolves.shaped hc hex (hlive hex hw ho hlast) (h.shaped p hw)
  · rcases hbefore hp with rfl | ⟨hex, hw, ho, -⟩
    · rw [d.bare.regions] at hr
      cases hr
    · rw [d.evolves.kindOf hex] at hneeds
      rw [d.evolves.regionsOf hex] at hr
      rw [d.evolves.blocksOf (hc.hasRegion_of_mem hr)] at hb
      have hholder : ctx.holder b = some p := hc.holder_of_mem hr hb
      obtain ⟨last, hlast, hterm⟩ := h.ended p hw hneeds r hr b hb
      by_cases hfirst : b = s.first.body
      · subst hfirst
        refine ⟨s.second.last, d.getLast?_first, ?_⟩
        rw [d.evolves.kindOf (hc.hasOp_of_mem (b := s.second.body) (by simp [s.second.ops]))]
        exact s.second.ends
      · refine ⟨last, d.getLast? h.sound hlast (ne_of_isTerminator s hterm) hfirst ?_, ?_⟩
        · rintro rfl
          exact ho (Option.some.inj (hholder.symm.trans (s.second.holder hc)))
        · rwa [d.evolves.kindOf (hc.hasOp_of_mem (List.mem_of_getLast? hlast))]
  · rcases hbefore hp with rfl | ⟨hex, hw, ho, hlast⟩
    · rw [d.bare.operands] at hv
      cases hv
    · have hlive' := hlive hex hw ho hlast
      rw [d.evolves.operandsOf hlive' (d.held p hlive')] at hv
      have hkept' : ¬ctx.Discarded p := fun hd => hkept (d.discarded h hw ho hlast hd)
      rcases h.inScope p hw hkept' v hv with hscope | hforeign
      · by_cases hargs : v ∈ ctx.args s.second.body
        · exact .inr (d.foreign_arg h.sound hargs)
        · exact .inl (d.inScope h.sound ho hlast hargs hscope)
      · exact .inr (d.evolves.foreign hc hforeign)

end Fuse.Done

end Context

namespace Parallel

open Context

variable {e e' : Editor} {o previous : OpRef}

/-- The last operation of the first region is replaced by a barrier. -/
theorem fuse_ready {e₁ : Editor} {barrier : OpRef} {ctx₁ : Context} (h : e.context.Sound)
    (s : e.context.Fuse o previous) (hcreated : e.context.Created .barrier barrier ctx₁)
    (hreplace : (e.withContext ctx₁).replaceTerminator s.first.body barrier = .ok e₁) :
    s.Ready barrier e₁.context := by
  have hc := h.coherent
  obtain ⟨last, ctx₂, hlast, herasure, hput⟩ :=
    Editor.replaceTerminator_spec (e := e.withContext ctx₁) hcreated.sound hreplace
  change (ctx₁.opsOf _).getLast? = _ at hlast
  change ctx₁.Erasure _ _ at herasure
  rw [hcreated.opsOf, s.first.ops, List.getLast?_concat] at hlast
  obtain rfl := Option.some.inj hlast
  have hbarrier {p : OpRef} (hp : e.context.HasOp p) : p ≠ barrier := fun e =>
    hcreated.isNew (e ▸ hp)
  have hlast_mem : s.first.last ∈ e.context.opsOf s.first.body := by simp [s.first.ops]
  have hbare : ctx₂.Bare .barrier barrier := hcreated.bare.erasure herasure fun hw => by
    rcases within_iff_above.1 hw with e | ⟨t, ht, -⟩
    · exact hbarrier (hc.hasOp_of_mem hlast_mem) e.symm
    · obtain ⟨b, hb, -⟩ := Option.bind_eq_some_iff.1 ht
      exact hcreated.not_mem hc b ((hcreated.sound.coherent.ops.owner_iff _ _).1 hb)
  have habove (p : OpRef) : ctx₁.above p = e.context.above p := by
    rw [above, above, hcreated.blockOf, hcreated.holder]
  refine ⟨(hcreated.evolves.trans herasure.evolves).trans hput.relisted.evolves,
    herasure.sound.put hput fun t ht => ?_, fun p hp => ?_, ?_, fun b hne => ?_, fun p hlive => ?_,
    fun p hp => ?_, hcreated.isNew, hbare.relisted hput.relisted⟩
  · rw [(hcreated.evolves.trans herasure.evolves).holder hc (s.first.holder hc)] at ht
    obtain rfl := Option.some.inj ht
    exact hbare.not_within herasure.sound.coherent (hbarrier s.first.hasOp)
  · rw [hput.blockOf, if_neg (hbarrier hp), herasure.blockOf, hcreated.blockOf]
  · have hnodup := s.first.ops ▸ hc.ops.nodup s.first.body
    rw [hput.opsOf, if_pos rfl, herasure.opsOf, hcreated.opsOf, s.first.ops, filter_ne_last hnodup]
  · rw [hput.opsOf, if_neg hne, herasure.opsOf, hcreated.opsOf,
      filter_ne_self (hc.not_mem_of_ne hlast_mem hne),
      filter_ne_self fun hm => hbarrier (hc.hasOp_of_mem hm) rfl]
  · rw [hput.relisted.erased] at hlive
    rw [hput.relisted.heldBy, herasure.held p hlive, hcreated.held]
  · rw [hput.relisted.erased, herasure.erased, hc.within_congr (fun p _ => habove p) hp,
      hcreated.erased]

theorem fuse_spec (h : e.context.Sound) (s : e.context.Fuse o previous)
    (hrun : fuse e o previous = .ok e') : ∃ barrier, s.Done barrier e'.context := by
  have hc := h.coherent
  rw [fuse] at hrun
  obtain ⟨row, -, hrun⟩ := Outcome.bind_eq_ok.1 hrun
  obtain ⟨target, htarget, hrun⟩ := Outcome.bind_eq_ok.1 hrun
  obtain ⟨⟨ctx₁, barrier⟩, hcreate, hrun⟩ := Outcome.bind_eq_ok.1 hrun
  simp only [Outcome.bind_eq_ok] at hrun
  obtain ⟨e₁, hreplace, source, hsource, block, hblock, e₂, hgather, herase⟩ := hrun
  obtain rfl := s.first.blockAt hc (.refl _) htarget
  have r := fuse_ready h s (h.createOp_created hcreate) hreplace
  obtain rfl := s.second.blockAt hc r.evolves hsource
  rw [show block.ops = e.context.opsOf s.second.body from
    (readBlock_of_block hblock _ _).symm.trans (r.second h)] at hgather
  obtain ⟨_, hgather', -, hg⟩ := r.gathers h
  obtain rfl := Except.ok.inj (hgather'.symm.trans hgather)
  exact ⟨barrier, r.done h hg (Editor.eraseOp_erasure hg.sound herase)⟩

/-- Two regions in a row can be fused, if what is defined in the last operation of the
    first one is used there alone. -/
theorem exists_fuse (h : e.context.Sound) (s : e.context.Fuse o previous)
    (hclosed : e.context.Closed s.first.last) :
    ∃ e' barrier, fuse e o previous = .ok e' ∧ (e.Recorded → e'.Recorded) ∧
      s.Done barrier e'.context := by
  have hc := h.coherent
  obtain ⟨row, hrow⟩ := hasOp_iff.1 s.second.hasOp
  have htarget : e.context.blockAt previous 0 = .ok s.first.body :=
    hc.blockAt_ok (r := s.first.region) (by simp [s.first.regions]) (by simp [s.first.blocks])
  have hcreated := h.created row.location .barrier
  generalize hadd : e.context.addOp (.bare row.location .barrier) = added at hcreated
  obtain ⟨ctx₁, barrier⟩ := added
  -- a barrier takes the place of the last operation
  have hrecorded (hrec : e.Recorded) : (e.withContext ctx₁).Recorded :=
    hrec.withContext fun p hp => (hcreated.hasOp p).2 (.inl hp)
  have hlast : s.first.last ∈ e.context.opsOf s.first.body := by simp [s.first.ops]
  have hexists := hc.hasOp_of_mem hlast
  have hwithin (p : OpRef) : ctx₁.Within p s.first.last ↔ e.context.Within p s.first.last := by
    have habove : ctx₁.above = e.context.above := by
      funext p
      rw [above, above, hcreated.blockOf, hcreated.holder]
    rw [Within, habove]
    rfl
  have hunused (p : OpRef) (hp : ctx₁.Within p s.first.last) (v : ValueRef) (hv : v ∈ ctx₁.results p)
      (q : OpRef) (hq : v ∈ ctx₁.heldBy q) : ctx₁.Within q s.first.last := by
    have hp' := (hwithin p).1 hp
    rw [hcreated.evolves.results (hc.hasOp_of_within' hp' hexists)] at hv
    rw [hcreated.held] at hq
    exact (hwithin q).2 (hclosed v ⟨p, definer_of_mem_results hc hv, hp'⟩ q hq)
  have hlast₁ : ((e.withContext ctx₁).context.opsOf s.first.body).getLast? =
      some s.first.last := by
    change (ctx₁.opsOf _).getLast? = _
    rw [hcreated.opsOf, s.first.ops, List.getLast?_concat]
  obtain ⟨e₁, hreplace, hrec₁⟩ := Editor.replaceTerminator_ok (e := e.withContext ctx₁)
    hcreated.sound hlast₁ hcreated.bare.hasOp
    (by
      change ctx₁.blockOf _ = _
      rw [hcreated.blockOf]
      exact readOp_of_not_hasOp hcreated.isNew _ _)
    hunused
  have r := fuse_ready h s hcreated hreplace
  have hsource : e₁.context.blockAt o 0 = .ok s.second.body := by
    refine r.sound.coherent.blockAt_ok (r := s.second.region) ?_ ?_
    · rw [r.evolves.regionsOf s.second.hasOp]
      simp [s.second.regions]
    · rw [r.evolves.blocksOf (hc.hasRegion_of_mem (o := o) (by simp [s.second.regions]))]
      simp [s.second.blocks]
  -- what is in the second region goes behind it
  obtain ⟨block, hblock⟩ := hasBlock_iff.1
    (r.evolves.hasBlock (hc.hasBlock_of_holder (s.second.holder hc)))
  have hblock' : block.ops = e.context.opsOf s.second.body :=
    (readBlock_of_block hblock _ _).symm.trans (r.second h)
  obtain ⟨e₂, hgather, hrec₂, hg⟩ := r.gathers h
  -- nothing is left to be used in the second region
  have hev₂ := r.evolves_gathered hg
  obtain ⟨e', herase, hrec'⟩ := Editor.eraseOp_ok (o := o) hg.sound (hev₂.hasOp s.second.hasOp)
    fun p hp v hv q hq => by
      obtain rfl := (r.within_gathered h hg p).1 hp
      rw [hev₂.results s.second.hasOp, s.second.results] at hv
      cases hv
  refine ⟨e', barrier, ?_, fun hrec => hrec' (hrec₂ (hrec₁ (hrecorded hrec))),
    r.done h hg (Editor.eraseOp_erasure hg.sound herase)⟩
  simp only [fuse, hrow, Outcome.ok_bind, htarget, createOp_bare, hadd, hreplace, hsource, hblock,
    hblock', hgather, herase]

end Parallel

end Offload
