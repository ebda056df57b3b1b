import Offload.Parallel.Merge
import Offload.Proofs.Ir.Mirror
import Offload.Proofs.Parallel.Invariant
import Offload.Proofs.Pattern.Success

/-!
# Moving operations into a region

What stands right before a parallel region may move into it (`Absorb`), if it is
read-only and its results are used nowhere but inside the region. A copy of it is put
first in the body, its results are renamed, and it is erased (`Absorb.Done`). Nothing
else changes, and scope is kept, with the values of the operation renamed to those of
the copy (`Absorb.Done.inScope`, `Absorb.Done.mirror`).
-/

namespace Offload

namespace Context

variable {ctx ctx' : Context}

/-! ## Shapes of copies -/

section Copies

variable {source : Context} {top o o' : OpRef} {σ : ValueRef → ValueRef} {n : Nat}

theorem CopyOf.shaped (h : CopyOf source top σ ctx (n + 1) o o') (hs : source.Shaped o) :
    ctx.Shaped o' := by
  obtain ⟨hop, hregions⟩ := h
  refine ⟨fun shape hshape => ?_, fun hkind r' hr' b' hb' => ?_⟩
  · have hfits := hs.fits shape (hop.kind ▸ hshape)
    refine ⟨by rw [hop.count]; exact hfits.operands, fun m hm => ?_, ?_, ?_⟩
    · rw [hop.results, List.length_map]
      exact hfits.results m hm
    · have hcounts := hregions.imp fun r r' hr => hr.blocks.length_eq
      refine List.forall₂_map_left_iff (f := fun r => (ctx.blocksOf r).length)
        (R := fun n count => BlockCount.admits count n) |>.1 ?_
      have hlengths : (ctx.regionsOf o').map (fun r => (ctx.blocksOf r).length) =
          (source.regionsOf o).map fun r => (source.blocksOf r).length := by
        rw [← List.forall₂_eq_eq_eq, List.forall₂_map_left_iff, List.forall₂_map_right_iff]
        exact hcounts.flip.imp fun r r' e => e.symm
      rw [hlengths, List.forall₂_map_left_iff]
      exact hfits.regions
    · rw [hop.attributes]
      exact hfits.attributes
  · rw [hop.kind] at hkind
    obtain ⟨rest', hrest'⟩ := List.head?_eq_some_iff.1 hr'
    obtain ⟨more', hmore'⟩ := List.head?_eq_some_iff.1 hb'
    rw [hrest'] at hregions
    obtain ⟨r, rest, hr, -, hrest⟩ := List.forall₂_cons_right_iff.1 hregions
    have hblocks := hr.blocks
    rw [hmore'] at hblocks
    obtain ⟨b, more, hb, -, hmore⟩ := List.forall₂_cons_right_iff.1 hblocks
    have hargs := hs.counts hkind r (by rw [hrest]; rfl) b (by rw [hmore]; rfl)
    rw [hb.args]
    exact fun e => hargs (List.map_eq_nil_iff.1 e)

/-- The blocks of a copy end with terminators where those of the source do. -/
theorem CopyOf.ended (h : CopyOf source top σ ctx (n + 1) o o')
    (hs : ∀ r ∈ source.regionsOf o, ∀ b ∈ source.blocksOf r, source.Ended b) :
    ∀ r ∈ ctx.regionsOf o', ∀ b ∈ ctx.blocksOf r, ctx.Ended b := by
  intro r' hr' b' hb'
  obtain ⟨r, hr, hregion⟩ := Outcome.exists_of_mem_right h.2 hr'
  obtain ⟨b, hb, hblock⟩ := Outcome.exists_of_mem_right hregion.blocks hb'
  obtain ⟨last, hlast, hterm⟩ := hs r hr b hb
  obtain ⟨before, hops⟩ := List.getLast?_eq_some_iff.1 hlast
  have hforall := hblock.ops.flip
  rw [hops] at hforall
  obtain ⟨before', last', after', hops', -, hcopy, hafter⟩ :=
    Position.exists_split_of_forall₂ hforall
  cases hafter
  refine ⟨last', by rw [hops', List.getLast?_concat], ?_⟩
  rwa [CopyOf.opCopy hcopy |>.kind]

end Copies

/-- A place where what is before a region can move into it. -/
structure Absorb (ctx : Context) (o previous : OpRef) where
  team : ctx.Team o
  place : BlockRef
  before : List OpRef
  after : List OpRef
  place_ops : ctx.opsOf place = before ++ previous :: o :: after
  kind : ctx.kindOf previous ≠ .parallel
  readOnly : ctx.isReadOnly previous = .ok true
  used : ∀ v ∈ ctx.results previous, ∀ u ∈ ctx.uses.get v, ctx.Within u.user o

namespace Absorb

variable {o previous : OpRef} (s : ctx.Absorb o previous)

/-- What becomes of an operand outside the operation. -/
def rename (_ : ctx.Absorb o previous) (σ : ValueRef → ValueRef) (v : ValueRef) : ValueRef :=
  if v ∈ ctx.results previous then σ v else v

include s

theorem above_region (h : ctx.Coherent) : ctx.above o = ctx.holder s.place :=
  h.above_of_mem (by simp [s.place_ops])

theorem above_previous (h : ctx.Coherent) : ctx.above previous = ctx.holder s.place :=
  h.above_of_mem (by simp [s.place_ops])

theorem blockOf_region (h : ctx.Coherent) : ctx.blockOf o = some s.place :=
  (h.ops.owner_iff _ _).2 (by simp [s.place_ops])

theorem blockOf_previous (h : ctx.Coherent) : ctx.blockOf previous = some s.place :=
  (h.ops.owner_iff _ _).2 (by simp [s.place_ops])

theorem ne (h : ctx.Coherent) : o ≠ previous := by
  have hnodup := h.ops.nodup s.place
  rw [s.place_ops, List.nodup_append, List.nodup_cons] at hnodup
  rintro rfl
  exact hnodup.2.1.1 List.mem_cons_self

theorem region_not_within (h : ctx.Sound) : ¬ctx.Within o previous := fun hw =>
  s.ne h.coherent (h.eq_of_within_of_blockOf (s.blockOf_region h.coherent)
    (s.blockOf_previous h.coherent) hw)

theorem previous_not_within (h : ctx.Sound) : ¬ctx.Within previous o := fun hw =>
  s.ne h.coherent (h.eq_of_within_of_blockOf (s.blockOf_previous h.coherent)
    (s.blockOf_region h.coherent) hw).symm

/-- What holds the region is not in the operation before it. -/
theorem holder_not_within (h : ctx.Sound) {a : OpRef} (ha : ctx.holder s.place = some a) :
    ¬ctx.Within a previous := fun hw =>
  s.region_not_within h ((within_of_above ((s.above_region h.coherent).trans ha)).trans hw)

theorem body_ne_place (h : ctx.Sound) : s.team.body ≠ s.place := by
  intro e
  have habove := s.above_region h.coherent
  rw [← e, s.team.holder h.coherent] at habove
  exact h.grounded.not_within_above habove (.refl o)

/-- The operation is in the program that the region is in. -/
theorem within_root {root : OpRef} (h : ctx.Stable root) (ho : ctx.Within o root) :
    ctx.Within previous root := by
  have hc := h.sound.coherent
  rcases within_iff_above.1 ho with rfl | ⟨t, ht, hw⟩
  · have := s.blockOf_region hc
    rw [h.detached] at this
    cases this
  · rw [s.above_region hc, ← s.above_previous hc] at ht
    exact (within_of_above ht).trans hw

/-- The region is behind the operation, which is last nowhere. -/
theorem getLast?_ne (h : ctx.Coherent) (b : BlockRef) : (ctx.opsOf b).getLast? ≠ some previous := by
  intro hlast
  obtain rfl := h.ops.owner_unique (List.mem_of_getLast? hlast)
    (show previous ∈ ctx.opsOf s.place by simp [s.place_ops])
  have hnodup := h.ops.nodup s.place
  rw [s.place_ops] at hlast hnodup
  have hmem : previous ∈ o :: s.after := List.mem_of_getLast? (by simpa using hlast)
  exact (List.nodup_cons.1 (List.nodup_append.1 hnodup).2.1).1 hmem

theorem previous_not_mem_body (h : ctx.Sound) : previous ∉ ctx.opsOf s.team.body := fun hm =>
  s.body_ne_place h (h.coherent.ops.owner_unique hm (by simp [s.place_ops]))

end Absorb

/-- The copy stands first in the region, and its results are used in the place of those
    of the operation, which is still where it was. -/
structure Absorb.Replaced {o previous : OpRef} (s : ctx.Absorb o previous)
    (σ : ValueRef → ValueRef) (copy : OpRef) (ctx₁ : Context) : Prop where
  evolves : ctx.Evolves ctx₁
  sound : ctx₁.Sound
  blockOf : ∀ p, ctx.HasOp p → ctx₁.blockOf p = ctx.blockOf p
  body : ctx₁.opsOf s.team.body = copy :: ctx.opsOf s.team.body
  other : ∀ b, ctx.HasBlock b → b ≠ s.team.body → ctx₁.opsOf b = ctx.opsOf b
  erased : ∀ p, ctx.HasOp p → ctx₁.isErased p = ctx.isErased p
  held : ∀ p, ctx.HasOp p → ctx₁.heldBy p = (ctx.heldBy p).map (s.rename σ)
  isNew : ¬ctx.HasOp copy
  only : ∀ p, ctx₁.HasOp p → ¬ctx.HasOp p → ctx₁.Within p copy
  outside : ∀ v, ¬ctx.DefinedWithin previous v → σ v = v
  fresh : ∀ v, ctx.DefinedWithin previous v →
    ctx.values.size ≤ (σ v).index ∧ (σ v).index < ctx₁.values.size
  injective : ∀ v w, ctx.DefinedWithin previous v → ctx.DefinedWithin previous w →
    σ v = σ w → v = w
  copyOf : CopyOf ctx previous σ ctx₁ (ctx.ops.size + 1) previous copy

/-- The operation before a region was moved into it. -/
structure Absorb.Done {o previous : OpRef} (s : ctx.Absorb o previous)
    (σ : ValueRef → ValueRef) (copy : OpRef) (ctx' : Context) : Prop where
  evolves : ctx.Evolves ctx'
  sound : ctx'.Sound
  blockOf : ∀ p, ctx.HasOp p → ctx'.blockOf p = if p = previous then none else ctx.blockOf p
  body : ctx'.opsOf s.team.body = copy :: ctx.opsOf s.team.body
  other : ∀ b, ctx.HasBlock b → b ≠ s.team.body →
    ctx'.opsOf b = (ctx.opsOf b).filter (· ≠ previous)
  erased : ∀ p, ctx.HasOp p → (ctx'.isErased p ↔ ctx.Within p previous ∨ ctx.isErased p)
  held : ∀ p, ctx.HasOp p → ¬ctx'.isErased p → ctx'.heldBy p = (ctx.heldBy p).map (s.rename σ)
  isNew : ¬ctx.HasOp copy
  only : ∀ p, ctx'.HasOp p → ¬ctx.HasOp p → ctx'.Within p copy
  outside : ∀ v, ¬ctx.DefinedWithin previous v → σ v = v
  fresh : ∀ v, ctx.DefinedWithin previous v →
    ctx.values.size ≤ (σ v).index ∧ (σ v).index < ctx'.values.size
  injective : ∀ v w, ctx.DefinedWithin previous v → ctx.DefinedWithin previous w →
    σ v = σ w → v = w
  copyOf : CopyOf ctx previous σ ctx' (ctx.ops.size + 1) previous copy

namespace Absorb.Replaced

variable {o previous copy : OpRef} {s : ctx.Absorb o previous} {σ : ValueRef → ValueRef}
  {ctx₁ : Context}

theorem above (r : s.Replaced σ copy ctx₁) (h : ctx.Sound) {p : OpRef} (hp : ctx.HasOp p) :
    ctx₁.above p = ctx.above p := r.evolves.above_eq h.coherent (r.blockOf p hp)

theorem within_iff (r : s.Replaced σ copy ctx₁) (h : ctx.Sound) {p a : OpRef}
    (hp : ctx.HasOp p) : ctx₁.Within p a ↔ ctx.Within p a :=
  h.coherent.within_congr (fun _ => r.above h) hp

/-- Nothing new is nested in the operation. -/
theorem hasOp_of_within (r : s.Replaced σ copy ctx₁) (h : ctx.Sound) {p : OpRef}
    (hw : ctx₁.Within p previous) : ctx.HasOp p := by
  have hc := h.coherent
  have hprevious : ctx.HasOp previous := hc.hasOp_of_mem (b := s.place) (by simp [s.place_ops])
  have hnew (b : BlockRef) (hb : ctx.HasBlock b) (p : OpRef) (hmem : p ∈ ctx₁.opsOf b)
      (hp : ¬ctx.HasOp p) : p = copy ∧ ctx.holder b = some o := by
    by_cases hbody : b = s.team.body
    · rw [hbody, r.body] at hmem
      exact ⟨(List.mem_cons.1 hmem).resolve_right fun hm => hp (hc.hasOp_of_mem hm),
        hbody ▸ s.team.holder hc⟩
    · rw [r.other b hb hbody] at hmem
      exact absurd (hc.hasOp_of_mem hmem) hp
  rcases r.evolves.within_cases hc r.sound.coherent
    (fun p hp t ht => by rwa [r.above h hp] at ht) hnew hprevious hw with ⟨hex, -⟩ | ⟨-, -, hw⟩
  · exact hex
  · exact absurd hw (s.region_not_within h)

theorem hasOp_previous (_ : s.Replaced σ copy ctx₁) (h : ctx.Sound) : ctx.HasOp previous :=
  h.coherent.hasOp_of_mem (b := s.place) (by simp [s.place_ops])

/-- What is new holds what an operation of the tree holds, renamed. -/
theorem heldBy_new (r : s.Replaced σ copy ctx₁) (h : ctx.Sound)
    (hvisible : ∀ z, ctx.Within z previous → ∀ v ∈ ctx.operandsOf z, Visible ctx previous z v)
    {q : OpRef} (hq : ctx₁.HasOp q) (hnew : ¬ctx.HasOp q) :
    ∃ z, ctx.Within z previous ∧ ctx₁.heldBy q = (ctx.operandsOf z).map σ := by
  obtain ⟨m, z, hz, hcopy, -⟩ := CopyOf.exists_mirror (P := fun _ _ => True) h.coherent
    r.sound.coherent r.copyOf trivial (fun _ _ _ _ _ _ _ _ _ => trivial) (r.only q hq hnew)
  refine ⟨z, hz, ?_⟩
  rw [heldBy_eq, hcopy.1.live, if_neg Bool.false_ne_true]
  exact hcopy.1.operands (hvisible z hz)

/-- No result in the operation is used outside it any more, if none but its own was. -/
theorem unused (r : s.Replaced σ copy ctx₁) (h : ctx.Sound) (hsealed : ctx.Sealed previous)
    (hvisible : ∀ z, ctx.Within z previous → ∀ v ∈ ctx.operandsOf z, Visible ctx previous z v)
    {p : OpRef} (hp : ctx₁.Within p previous) {v : ValueRef} (hv : v ∈ ctx₁.results p)
    {q : OpRef} (hq : v ∈ ctx₁.heldBy q) : ctx₁.Within q previous := by
  have hex := r.hasOp_of_within h hp
  rw [r.evolves.results hex] at hv
  have hdefined : ctx.DefinedWithin previous v :=
    ⟨p, definer_of_mem_results h.coherent hv, (r.within_iff h hex).1 hp⟩
  -- what is renamed is fresh, but the value is not
  have hold (w : ValueRef) (hw : ctx.DefinedWithin previous w) : σ w ≠ v := by
    intro e
    have := (r.fresh w hw).1
    have := index_lt_of_definedWithin hdefined
    rw [e] at *
    omega
  by_cases hqold : ctx.HasOp q
  · rw [r.held q hqold] at hq
    obtain ⟨w, hw, hrename⟩ := List.mem_map.1 hq
    rw [Absorb.rename] at hrename
    split at hrename
    · rename_i hres
      exact absurd hrename (hold w (h.coherent.definedWithin_iff.2 (.inl hres)))
    · rename_i hres
      rw [hrename] at hw hres
      exact (r.within_iff h hqold).2 (hsealed v hdefined hres q hw)
  · have hqex : ctx₁.HasOp q := by
      by_contra hn
      rw [heldBy, readOp_of_not_hasOp hn] at hq
      cases hq
    obtain ⟨z, hz, hheld⟩ := r.heldBy_new h hvisible hqex hqold
    rw [hheld] at hq
    obtain ⟨w, hw, hrename⟩ := List.mem_map.1 hq
    by_cases hdw : ctx.DefinedWithin previous w
    · exact absurd hrename (hold w hdw)
    · rw [r.outside w hdw] at hrename
      exact absurd (hrename ▸ hdefined) hdw

/-- Then the operation is erased. -/
theorem done (r : s.Replaced σ copy ctx₁) (h : ctx.Sound) (herasure : ctx₁.Erasure previous ctx') :
    s.Done σ copy ctx' := by
  have hc := h.coherent
  have hprevious := r.hasOp_previous h
  have hplace : previous ∈ ctx₁.opsOf s.place := by
    rw [r.other _ (hc.hasBlock_of_blockOf (s.blockOf_region hc)) (s.body_ne_place h).symm,
      s.place_ops]
    simp
  have hlive (p : OpRef) (hp : ¬ctx.HasOp p) (hex : ctx₁.isErased p = false) :
      ctx'.isErased p = false := by
    rw [← Bool.not_eq_true, herasure.erased]
    rintro (hw | he)
    · exact hp (r.hasOp_of_within h hw)
    · rw [hex] at he
      cases he
  have hspares : Spares ctx σ σ ctx₁ ctx' := by
    refine .of_fixed herasure.evolves (fun p hp _ => hlive p hp) (fun b hb _ => ?_)
      fun p hp _ hex => ⟨id, fun _ => rfl, ?_⟩
    · have hne : b ≠ s.place := fun e => hb (e ▸ hc.hasBlock_of_blockOf (s.blockOf_region hc))
      rw [herasure.opsOf,
        filter_ne_self fun hm => hne (r.sound.coherent.ops.owner_unique hm hplace)]
    · have hheld := herasure.held p (by rw [hlive p hp hex]; exact Bool.false_ne_true)
      rwa [heldBy_eq, heldBy_eq, hlive p hp hex, hex, if_neg Bool.false_ne_true,
        if_neg Bool.false_ne_true, ← List.map_id (ctx₁.operandsOf p)] at hheld
  refine ⟨r.evolves.trans herasure.evolves, herasure.sound, fun p hp => ?_, ?_,
    fun b hb hbody => ?_, fun p hp => ?_, fun p hp hlive => ?_, r.isNew, fun p hp hnew => ?_,
    r.outside, fun v hv => ?_, r.injective, r.copyOf.evolve hspares⟩
  · rw [herasure.blockOf, r.blockOf p hp]
  · rw [herasure.opsOf, r.body, filter_ne_self]
    rw [List.mem_cons, not_or]
    exact ⟨fun e => r.isNew (e ▸ hprevious), s.previous_not_mem_body h⟩
  · rw [herasure.opsOf, r.other b hb hbody]
  · rw [herasure.erased, r.within_iff h hp, r.erased p hp]
  · rw [herasure.held p hlive, r.held p hp]
  · have hw := r.only p (herasure.inPlace.hasOp.1 hp) hnew
    clear hp
    induction hw using Relation.ReflTransGen.head_induction_on with
    | refl => exact .refl copy
    | @head p t habove hwt ih =>
      have ht : ¬ctx.HasOp t := fun ht =>
        r.isNew (hc.hasOp_of_within ((r.within_iff h ht).1 hwt) ht)
      have hblock : ctx'.blockOf p = ctx₁.blockOf p := by
        rw [herasure.blockOf, if_neg fun e : p = previous => hnew (e ▸ hprevious)]
      exact (within_of_above ((herasure.evolves.above_eq r.sound.coherent hblock).trans habove)).trans
        (ih ht)
  · rw [herasure.inPlace.values]
    exact r.fresh v hv

end Absorb.Replaced

namespace Absorb.Done

variable {o previous copy : OpRef} {s : ctx.Absorb o previous} {σ : ValueRef → ValueRef}

/-! ## Where things are -/

theorem opCopy (d : s.Done σ copy ctx') : OpCopy ctx previous σ ctx' previous copy := d.copyOf.1

theorem hasBlock_place (_ : s.Done σ copy ctx') (h : ctx.Sound) : ctx.HasBlock s.place :=
  h.coherent.hasBlock_of_blockOf (s.blockOf_region h.coherent)

theorem place (d : s.Done σ copy ctx') (h : ctx.Sound) :
    ctx'.opsOf s.place = s.before ++ o :: s.after := by
  have hnodup := h.coherent.ops.nodup s.place
  rw [s.place_ops, List.nodup_append, List.nodup_cons] at hnodup
  have hbefore : previous ∉ s.before := fun hm => hnodup.2.2 _ hm _ List.mem_cons_self rfl
  rw [d.other _ (d.hasBlock_place h) (s.body_ne_place h).symm, s.place_ops, List.filter_append,
    filter_ne_self hbefore, List.filter_cons_of_neg (by simp), filter_ne_self hnodup.2.1.1]

theorem above_previous (d : s.Done σ copy ctx') (h : ctx.Sound) : ctx'.above previous = none := by
  rw [above, d.blockOf previous (h.coherent.hasOp_of_mem (b := s.place) (by simp [s.place_ops])),
    if_pos rfl]
  rfl

/-- All others are where they were. -/
theorem above_old (d : s.Done σ copy ctx') (h : ctx.Sound) {p : OpRef} (hp : ctx.HasOp p)
    (hne : p ≠ previous) : ctx'.above p = ctx.above p :=
  d.evolves.above_eq h.coherent (by rw [d.blockOf p hp, if_neg hne])

theorem above_copy (d : s.Done σ copy ctx') (h : ctx.Sound) : ctx'.above copy = some o :=
  (d.sound.coherent.above_of_mem (b := s.team.body) (by simp [d.body])).trans
    (d.evolves.holder h.coherent (s.team.holder h.coherent))

/-- What is in an operation that was there was in it before, or is in the copy. -/
theorem within_before (d : s.Done σ copy ctx') (h : ctx.Sound) {p a : OpRef} (ha : ctx.HasOp a)
    (hw : ctx'.Within p a) : ctx.HasOp p ∧ ctx.Within p a ∨
      ¬ctx.HasOp p ∧ ctx'.Within p copy ∧ ctx.Within o a := by
  refine d.evolves.within_cases h.coherent d.sound.coherent (fun p hp t ht => ?_)
    (fun b hb p hmem hp => ?_) ha hw
  · rwa [d.above_old h hp] at ht
    rintro rfl
    rw [d.above_previous h] at ht
    cases ht
  · by_cases hbody : b = s.team.body
    · subst hbody
      rw [d.body] at hmem
      exact ⟨(List.mem_cons.1 hmem).resolve_right fun hm => hp (h.coherent.hasOp_of_mem hm),
        s.team.holder h.coherent⟩
    · rw [d.other b hb hbody] at hmem
      exact absurd (h.coherent.hasOp_of_mem (List.mem_filter.1 hmem).1) hp

/-- What is not in the erased operation is where it was. -/
theorem within (d : s.Done σ copy ctx') (h : ctx.Sound) {p a : OpRef} (hw : ctx.Within p a)
    (hp : ¬ctx.Within p previous) : ctx'.Within p a := by
  induction hw using Relation.ReflTransGen.head_induction_on with
  | refl => exact .refl a
  | @head p t hstep _ ih =>
    have hne : p ≠ previous := fun e => hp (e ▸ .refl p)
    refine (within_of_above ((d.above_old h (h.coherent.hasOp_of_above hstep).1 hne).trans
      hstep)).trans (ih fun ht => hp ((within_of_above hstep).trans ht))

/-- Nothing that stays in the program is in the erased operation. -/
theorem not_within_previous (d : s.Done σ copy ctx') (h : ctx.Sound) {p root : OpRef}
    (hroot : ¬ctx.Within root previous) (hex : ctx.HasOp p) (hw : ctx'.Within p root) :
    ¬ctx.Within p previous := by
  induction hw using Relation.ReflTransGen.head_induction_on with
  | refl => exact hroot
  | @head p t hstep _ ih =>
    have hne : p ≠ previous := by
      rintro rfl
      rw [d.above_previous h] at hstep
      cases hstep
    rw [d.above_old h hex hne] at hstep
    intro hp
    obtain ⟨q, hq, hw⟩ := (within_iff_above.1 hp).resolve_left hne
    obtain rfl := Option.some.inj (hstep.symm.trans hq)
    exact ih (h.coherent.hasOp_of_above hstep).2 hw

/-! ## Scope -/

/-- What is in scope stays so outside the erased operation, but for its results. -/
theorem inScope (d : s.Done σ copy ctx') (h : ctx.Sound) {p : OpRef} {v : ValueRef}
    (hp : ¬ctx.Within p previous) (hres : v ∉ ctx.results previous) (hv : ctx.InScope p v) :
    ctx'.InScope p v := by
  have hc := h.coherent
  induction p using h.grounded.above_induction with
  | step p ih =>
    obtain ⟨b, before, after, hsplit⟩ := hc.exists_split_of_inScope hv
    have hmem : p ∈ ctx.opsOf b := by simp [hsplit]
    have hb : ctx.HasBlock b := hc.hasBlock_of_blockOf ((hc.ops.owner_iff p b).2 hmem)
    have hne : p ≠ previous := fun e => hp (e ▸ .refl p)
    have hup (a : OpRef) (ha : ctx.holder b = some a) (hv : ctx.InScope a v) : ctx'.InScope a v :=
      have habove := (hc.above_of_mem hmem).trans ha
      ih a habove (fun hw => hp ((within_of_above habove).trans hw)) hv
    by_cases hbody : b = s.team.body
    · subst hbody
      refine d.evolves.inScope_of_split h d.sound hsplit hv
        (show _ = (copy :: before) ++ p :: after by rw [d.body, hsplit]; rfl)
        (fun q hq _ => List.mem_cons_of_mem copy hq) hup
    · refine d.evolves.inScope_of_split h d.sound hsplit hv
        (show _ = before.filter (· ≠ previous) ++ p :: after.filter (· ≠ previous) from ?_)
        (fun q hq hv => List.mem_filter.2 ⟨hq, ?_⟩) hup
      · rw [d.other b hb hbody, hsplit, List.filter_append, List.filter_cons_of_pos (by simpa using hne)]
      · rw [decide_eq_true_eq]
        rintro rfl
        exact hres hv

/-- Inside the region the results of the copy are in scope. -/
theorem inScope_results (d : s.Done σ copy ctx') (h : ctx.Sound) {p : OpRef} {v : ValueRef}
    (hp : ctx.Within p o) (hne : p ≠ o) (hv : v ∈ ctx.results previous) :
    ctx'.InScope p (σ v) := by
  obtain ⟨c, hc, hw⟩ := (within_iff_below.1 hp).resolve_left hne
  obtain ⟨b, hb, hholder⟩ := Option.bind_eq_some_iff.1 hc
  obtain rfl := s.team.eq_body h.coherent hholder
  obtain ⟨before, after, hops⟩ := List.append_of_mem ((h.coherent.ops.owner_iff _ _).1 hb)
  have hscope : ctx'.InScope c (σ v) := by
    have hbody : ctx'.opsOf s.team.body = (copy :: before) ++ c :: after := by
      rw [d.body, hops]
      rfl
    refine (d.sound.coherent.inScope_iff hbody).2 (.inr (.inl ⟨copy, List.mem_cons_self, ?_⟩))
    rw [d.opCopy.results]
    exact List.mem_map_of_mem hv
  refine hscope.within (d.within h hw fun hw' => ?_)
  rcases hw'.total hp with hw | hw
  · exact s.previous_not_within h hw
  · exact s.region_not_within h hw

/-- What was in scope at the operation is in scope at its copy. -/
theorem inScope_copy (d : s.Done σ copy ctx') (h : ctx.Sound) {v : ValueRef}
    (hv : ctx.InScope previous v) : ctx'.InScope copy (σ v) := by
  have hdefined := h.not_definedWithin_of_inScope hv
  have hres : v ∉ ctx.results previous := fun hm =>
    hdefined (h.coherent.definedWithin_iff.2 (.inl hm))
  rw [d.outside v hdefined]
  refine InScope.within ?_ (within_of_above (d.above_copy h))
  refine (d.sound.coherent.inScope_iff (d.place h)).2 ?_
  rcases (h.coherent.inScope_iff s.place_ops).1 hv with hv | ⟨p, hp, hv⟩ | ⟨a, ha, hv⟩
  · exact .inl (by rwa [d.evolves.args (d.hasBlock_place h)])
  · refine .inr (.inl ⟨p, hp, ?_⟩)
    rwa [d.evolves.results (h.coherent.hasOp_of_mem (b := s.place) (by simp [s.place_ops, hp]))]
  · exact .inr (.inr ⟨a, d.evolves.holder h.coherent ha,
      d.inScope h (s.holder_not_within h ha) hres hv⟩)

/-- Scope is passed down in a copy as it is in the source. -/
theorem inScope_beside (d : s.Done σ copy ctx') (h : ctx.Sound) {n : Nat} {y y' z z' : OpRef}
    (hbeside : Beside ctx previous σ ctx' n y y' z z')
    (hy : ∀ v, ctx.InScope y v → ctx'.InScope y' (σ v)) {v : ValueRef} (hv : ctx.InScope z v) :
    ctx'.InScope z' (σ v) := by
  obtain ⟨b, b', before, before', after, after', hb, hb', hops, hops', hargs, hbefore, -⟩ :=
    hbeside.place
  refine (d.sound.coherent.inScope_iff hops').2 ?_
  rcases (h.coherent.inScope_iff hops).1 hv with hv | ⟨p, hp, hv⟩ | ⟨a, ha, hv⟩
  · exact .inl (hargs ▸ List.mem_map_of_mem hv)
  · obtain ⟨p', hp', hcopy⟩ := Outcome.exists_of_mem_left hbefore hp
    refine .inr (.inl ⟨p', hp', ?_⟩)
    rw [hcopy.opCopy.results]
    exact List.mem_map_of_mem hv
  · obtain rfl := Option.some.inj (hb.symm.trans ha)
    exact .inr (.inr ⟨y', hb', hy v hv⟩)

/-! ## What is discarded -/

theorem getLast? (d : s.Done σ copy ctx') {b : BlockRef} {last : OpRef}
    (hb : ctx.HasBlock b) (hlast : (ctx.opsOf b).getLast? = some last) (hne : last ≠ previous) :
    (ctx'.opsOf b).getLast? = some last := by
  by_cases hbody : b = s.team.body
  · rw [hbody, d.body, List.getLast?_cons, ← hbody, hlast]
    rfl
  · rw [d.other b hb hbody]
    exact Position.getLast?_filter hlast (by simpa using hne)

theorem discarded (d : s.Done σ copy ctx') (h : ctx.Sound) {p : OpRef}
    (hp : ¬ctx.Within p previous) (hd : ctx.Discarded p) : ctx'.Discarded p := by
  obtain ⟨b, a, last, hb, ha, hlast, hw⟩ := hd
  have hmem := List.mem_of_getLast? hlast
  refine ⟨b, a, last, d.evolves.holder h.coherent hb, ?_, d.getLast? ?_ hlast ?_, d.within h hw hp⟩
  · rwa [d.evolves.kindOf (h.coherent.hasOp_of_holder hb)]
  · exact h.coherent.hasBlock_of_blockOf ((h.coherent.ops.owner_iff last b).2 hmem)
  · rintro rfl
    exact hp hw

/-- What is discarded with the operation is discarded with the region after it. -/
theorem discarded_copy (d : s.Done σ copy ctx') (h : ctx.Sound) (hd : ctx.Discarded previous) :
    ctx'.Discarded copy := by
  have hregion : ctx.Discarded o := by
    obtain ⟨b, a, last, hb, ha, hlast, hw⟩ := hd
    refine ⟨b, a, last, hb, ha, hlast, ?_⟩
    rcases within_iff_above.1 hw with rfl | ⟨t, ht, hw⟩
    · exact absurd hlast (s.getLast?_ne h.coherent b)
    · rw [s.above_previous h.coherent] at ht
      exact (within_of_above ((s.above_region h.coherent).trans ht)).trans hw
  obtain ⟨b, a, last, hb, ha, hlast, hw⟩ := d.discarded h (s.region_not_within h) hregion
  exact ⟨b, a, last, hb, ha, hlast, (within_of_above (d.above_copy h)).trans hw⟩

/-- What is discarded in the source is discarded in the copy. -/
theorem discarded_beside (h : ctx.Sound) (hs : ctx'.Sound) {n : Nat} {y y' z z' : OpRef}
    (hkind : ctx'.kindOf y' = ctx.kindOf y) (hbeside : Beside ctx previous σ ctx' n y y' z z')
    (hy : ctx.Discarded y → ctx'.Discarded y') (hd : ctx.Discarded z) : ctx'.Discarded z' := by
  obtain ⟨b, b', before, before', after, after', hb, hb', hops, hops', -, -, hafter⟩ :=
    hbeside.place
  have habove : ctx'.above z' = some y' :=
    (hs.coherent.above_of_mem (by simp [hops'])).trans hb'
  obtain ⟨c, a, last, hc, ha, hlast, hw⟩ := hd
  rcases within_iff_above.1 hw with rfl | ⟨t, ht, hw⟩
  · obtain rfl := h.coherent.ops.owner_unique (List.mem_of_getLast? hlast)
      (show z ∈ ctx.opsOf b by simp [hops])
    obtain rfl := Option.some.inj (hb.symm.trans hc)
    refine ⟨b', y', z', hb', hkind.trans ha, ?_, .refl z'⟩
    -- nothing is behind it in either block
    have hnodup := h.coherent.ops.nodup c
    rw [hops] at hlast hnodup
    cases hafter with
    | nil => rw [hops', List.getLast?_concat]
    | cons _ _ =>
      have hmem := List.mem_of_getLast? (show _ = some z by simpa using hlast)
      exact absurd hmem (List.nodup_cons.1 (List.nodup_append.1 hnodup).2.1).1
  · rw [h.coherent.above_of_mem (b := b) (by simp [hops]), hb] at ht
    obtain rfl := Option.some.inj ht
    obtain ⟨c', a', last', hc', ha', hlast', hw'⟩ := hy ⟨c, a, last, hc, ha, hlast, hw⟩
    exact ⟨c', a', last', hc', ha', hlast', (within_of_above habove).trans hw'⟩

/-- What is nested in the copy mirrors something nested in the operation, with its scope;
    if that is discarded, then so is the other. -/
theorem mirror (d : s.Done σ copy ctx') (h : ctx.Sound) {z' : OpRef} (hz : ctx'.Within z' copy) :
    ∃ m z, ctx.Within z previous ∧ CopyOf ctx previous σ ctx' (m + 1) z z' ∧
      (∀ v, ctx.InScope z v → ctx'.InScope z' (σ v)) ∧
      (ctx.Discarded z → ctx'.Discarded z') := by
  refine CopyOf.exists_mirror
    (P := fun z z' => (∀ v, ctx.InScope z v → ctx'.InScope z' (σ v)) ∧
      (ctx.Discarded z → ctx'.Discarded z')) h.coherent d.sound.coherent d.copyOf
    ⟨fun v hv => d.inScope_copy h hv, d.discarded_copy h⟩
    (fun m y y' z z' hy hP hop hbeside => ⟨fun v hv => ?_, fun hd => ?_⟩) hz
  · exact d.inScope_beside h hbeside hP.1 hv
  · exact discarded_beside h d.sound hop.kind hbeside hP.2 hd

/-! ## The invariant -/

/-- Operands are kept, but for the results of the erased operation. -/
theorem operandsOf (d : s.Done σ copy ctx') {p : OpRef} (hp : ctx.HasOp p)
    (hlive : ¬ctx'.isErased p) :
    ctx'.operandsOf p = (ctx.operandsOf p).map (s.rename σ) := by
  have hlive' : ¬ctx.isErased p := fun he => hlive (d.evolves.erased p he)
  have hheld := d.held p hp hlive
  rwa [heldBy_eq, heldBy_eq, if_neg hlive, if_neg hlive'] at hheld

/-- The results of the operation are operands inside the region alone. -/
theorem within_of_mem_results (h : ctx.Sound) (s : ctx.Absorb o previous) {p : OpRef}
    {v : ValueRef} (hlive : ¬ctx.isErased p) (hv : v ∈ ctx.operandsOf p)
    (hres : v ∈ ctx.results previous) : ctx.Within p o ∧ p ≠ o := by
  obtain ⟨i, hi⟩ := List.mem_iff_getElem?.1 hv
  refine ⟨s.used v hres ⟨p, i⟩ (h.coherent.uses.mem_iff v ⟨p, i⟩ |>.2 ?_), ?_⟩
  · rwa [heldBy_eq, if_neg hlive]
  · rintro rfl
    rw [s.team.operands] at hv
    cases hv

theorem stable (d : s.Done σ copy ctx') {root : OpRef} (h : ctx.Stable root)
    (hroot : ctx.Within o root) : ctx'.Stable root := by
  have hc := h.sound.coherent
  have hprevious : ctx.Within previous root := s.within_root h hroot
  have hne : root ≠ previous := by
    rintro rfl
    have := s.blockOf_previous hc
    rw [h.detached] at this
    cases this
  have hroot' : ¬ctx.Within root previous := fun hw =>
    hne (h.sound.grounded.antisymm hw hprevious)
  -- what is in the program was there before, or is in the copy
  have hcases {p : OpRef} (hp : ctx'.Within p root) :
      ctx.HasOp p ∧ ctx.Within p root ∧ ¬ctx.Within p previous ∨ ctx'.Within p copy := by
    rcases d.within_before h.sound h.hasRoot hp with ⟨hex, hw⟩ | ⟨-, hw, -⟩
    · exact .inl ⟨hex, hw, d.not_within_previous h.sound hroot' hex hp⟩
    · exact .inr hw
  have hlive {p : OpRef} (hex : ctx.HasOp p) (hw : ctx.Within p root)
      (hp : ¬ctx.Within p previous) : ¬ctx'.isErased p := by
    rw [d.erased p hex]
    exact fun he => he.elim hp (h.live p hw)
  refine ⟨d.sound, d.evolves.hasOp h.hasRoot, ?_, fun p hp => ?_, fun p hp => ?_,
    fun p hp hneeds => ?_, fun p hp hkept v hv => ?_⟩
  · rw [d.blockOf root h.hasRoot, if_neg hne, h.detached]
  · rcases hcases hp with ⟨hex, hw, hp⟩ | hw
    · exact hlive hex hw hp
    · obtain ⟨m, z, -, hcopy, -⟩ := d.mirror h.sound hw
      rw [hcopy.1.live]
      exact Bool.false_ne_true
  · rcases hcases hp with ⟨hex, hw, hp⟩ | hw
    · exact d.evolves.shaped hc hex (hlive hex hw hp) (h.shaped p hw)
    · obtain ⟨m, z, hz, hcopy, -⟩ := d.mirror h.sound hw
      exact CopyOf.shaped hcopy (h.shaped z (hz.trans hprevious))
  · rcases hcases hp with ⟨hex, hw, hp⟩ | hw
    · intro r hr b hb
      rw [d.evolves.kindOf hex] at hneeds
      rw [d.evolves.regionsOf hex] at hr
      rw [d.evolves.blocksOf (hc.hasRegion_of_mem hr)] at hb
      obtain ⟨last, hlast, hterm⟩ := h.ended p hw hneeds r hr b hb
      refine ⟨last, d.getLast? (hc.hasBlock_of_mem hb) hlast ?_, ?_⟩
      · rintro rfl
        exact s.getLast?_ne hc b hlast
      · rwa [d.evolves.kindOf (hc.hasOp_of_mem (List.mem_of_getLast? hlast))]
    · obtain ⟨m, z, hz, hcopy, -⟩ := d.mirror h.sound hw
      rw [hcopy.1.kind] at hneeds
      exact CopyOf.ended hcopy (h.ended z (hz.trans hprevious) hneeds)
  · rcases hcases hp with ⟨hex, hw, hp⟩ | hw
    · rw [d.operandsOf hex (hlive hex hw hp)] at hv
      obtain ⟨v, hmem, rfl⟩ := List.mem_map.1 hv
      have hkept' : ¬ctx.Discarded p := fun hd => hkept (d.discarded h.sound hp hd)
      rw [rename]
      split
      · rename_i hres
        obtain ⟨hin, hne⟩ := within_of_mem_results h.sound s (h.live p hw) hmem hres
        exact .inl (d.inScope_results h.sound hin hne hres)
      · rename_i hres
        exact (h.inScope p hw hkept' v hmem).imp (d.inScope h.sound hp hres) (d.evolves.foreign hc)
    · obtain ⟨m, z, hz, hcopy, hscope, hdiscarded⟩ := d.mirror h.sound hw
      have hkept' : ¬ctx.Discarded z := fun hd => hkept (hdiscarded hd)
      have hoperands := h.inScope z (hz.trans hprevious) hkept'
      have houtside (v : ValueRef) (hv : ctx.Foreign v) : ¬ctx.DefinedWithin previous v :=
        h.not_definedWithin_of_foreign hprevious hv
      rw [hcopy.1.operands fun v hv => (hoperands v hv).imp hc.earlier_of_inScope (houtside v)] at hv
      obtain ⟨v, hmem, rfl⟩ := List.mem_map.1 hv
      refine (hoperands v hmem).imp (hscope v) fun hforeign => ?_
      rw [d.outside v (houtside v hforeign)]
      exact d.evolves.foreign hc hforeign

end Absorb.Done

end Context

namespace Parallel

open Context

variable {e e' : Editor} {o previous : OpRef}

theorem previous_eq_some {ctx : Context} (hrun : ctx.previous o = .ok (some previous)) :
    ∃ b before after, ctx.opsOf b = before ++ previous :: o :: after := by
  obtain ⟨row, hrow, hrun⟩ := Outcome.bind_eq_ok.1 hrun
  cases hb : row.parent with
  | none => simp [hb] at hrun
  | some b =>
    simp only [hb, Outcome.bind_eq_ok] at hrun
    obtain ⟨block, hblock, hrun⟩ := hrun
    have hops : ctx.opsOf b = block.ops := readBlock_of_block hblock _ _
    split at hrun
    · rename_i i hi
      obtain ⟨before, after, hl, -, hlength⟩ := Position.idxOf?_eq_some_iff.1 hi
      have hi := Outcome.pure_eq_ok.1 hrun
      rcases List.eq_nil_or_concat before with rfl | ⟨before, last, rfl⟩
      · cases hlength
      · have hbefore : before.length = i := by simpa using hlength
        rw [hl, ← hbefore] at hi
        refine ⟨b, before, after, ?_⟩
        have hlast : last = previous := by simpa using hi
        rw [hops, hl, hlast]
        simp
    · simp at hrun

/-- The copy stands first in the region. -/
theorem absorb_copied {e₂ : Editor} {copy : OpRef} (h : e.context.Sound)
    (s : e.context.Absorb o previous)
    (hclone : e.cloneOpAtStart previous s.team.body = .ok (e₂, copy)) :
    ∃ ctx₁ map, e.context.Cloned previous .empty ctx₁ map copy ∧
      ctx₁.Put copy s.team.body (copy :: ctx₁.opsOf s.team.body) e₂.context ∧
      e₂.context.Sound ∧ e.context.Evolves e₂.context ∧
      CopyOf e.context previous map.apply e₂.context (e.context.ops.size + 1) previous copy := by
  have hc := h.coherent
  obtain ⟨ctx₁, map, -, hcloned, hput⟩ := Editor.cloneOpAtStart_spec h hclone
  have hcopy : ¬e.context.HasOp copy := hcloned.isNew
  have hbodyOf : e.context.HasBlock s.team.body := hc.hasBlock_of_holder (s.team.holder hc)
  have hsound₂ : e₂.context.Sound := hcloned.sound.put hput fun t ht hw => by
    rw [hcloned.evolves.holder hc (s.team.holder hc)] at ht
    obtain rfl := Option.some.inj ht
    rw [hc.within_congr (fun p hp => hcloned.above hc hp) s.team.hasOp] at hw
    exact hcopy (hc.hasOp_of_within hw s.team.hasOp)
  have hspares : Spares e.context map.apply map.apply ctx₁ e₂.context := by
    refine .of_fixed hput.relisted.evolves (fun p _ _ hp => ?_) (fun b hb _ => ?_)
      fun p _ _ _ => ⟨id, fun _ => rfl, ?_⟩
    · rwa [hput.relisted.erased]
    · have hne : b ≠ s.team.body := fun e => hb (e ▸ hbodyOf)
      rw [hput.opsOf, if_neg hne, filter_ne_self fun hm => ?_]
      have := (hcloned.sound.coherent.ops.owner_iff copy b).2 hm
      rw [hcloned.free] at this
      cases this
    · rw [hput.relisted.operands, List.map_id]
  exact ⟨ctx₁, map, hcloned, hput, hsound₂, hcloned.evolves.trans hput.relisted.evolves,
    hcloned.copyOf.evolve hspares⟩

/-- The copy is made, and its results are used in the place of the others. -/
theorem absorb_replaced {e₂ e₃ : Editor} {copy : OpRef} (h : e.context.Sound)
    (s : e.context.Absorb o previous)
    (hclone : e.cloneOpAtStart previous s.team.body = .ok (e₂, copy))
    (hreplace : Editor.replaceValues e₂
      ((e₂.context.results previous).zip (e₂.context.results copy)) = .ok e₃) :
    ∃ σ, s.Replaced σ copy e₃.context := by
  have hc := h.coherent
  obtain ⟨ctx₁, map, hcloned, hput, hsound₂, hev₂, hcopy₂⟩ := absorb_copied h s hclone
  have hprevious : e.context.HasOp previous := hc.hasOp_of_mem (b := s.place) (by simp [s.place_ops])
  have hcopy : ¬e.context.HasOp copy := hcloned.isNew
  have hne {p : OpRef} (hp : e.context.HasOp p) : p ≠ copy := fun e => hcopy (e ▸ hp)
  have hops₂ (b : BlockRef) (hb : e.context.HasBlock b) : e₂.context.opsOf b =
      if b = s.team.body then copy :: e.context.opsOf b else e.context.opsOf b := by
    have hb₁ : ctx₁.opsOf b = e.context.opsOf b := hcloned.extends.readBlock hb _ _
    rw [hput.opsOf]
    split
    · rename_i hbody
      rw [← hbody, hb₁]
    · rw [hb₁, filter_ne_self fun hm => hcopy (hc.hasOp_of_mem hm)]
  have hresults₂ : e₂.context.results copy = (e.context.results previous).map map.apply :=
    hcopy₂.1.results
  have hdefined (v : ValueRef) (hv : v ∈ e.context.results previous) :
      e.context.DefinedWithin previous v := hc.definedWithin_iff.2 (.inl hv)
  have hfresh (v w : ValueRef) (hv : e.context.DefinedWithin previous v)
      (hw : w ∈ e.context.results previous) : map.apply v ≠ w := by
    intro hvw
    have := (hcloned.fresh v hv).1
    have := index_lt_of_definedWithin (hdefined w hw)
    rw [hvw] at *
    omega
  -- then its results take the place of the others
  rw [hev₂.results hprevious, hresults₂] at hreplace
  obtain ⟨ρ, hrenamed, hmap, hfix⟩ := Editor.replaceValues_renamed hsound₂
    (List.length_map _).symm (hc.results_nodup previous) (fun v hv hm => by
      obtain ⟨w, hw, rfl⟩ := List.mem_map.1 hv
      exact hfresh w _ (hdefined w hw) hm rfl) hreplace
  have hρ : ρ = s.rename map.apply := by
    funext v
    rw [Absorb.rename]
    split
    · rename_i hv
      exact List.map_inj_left.1 hmap v hv
    · rename_i hv
      exact hfix v hv
  refine ⟨map.apply, hev₂.trans hrenamed.evolves, hrenamed.sound, fun p hp => ?_, ?_,
    fun b hb hbody => ?_, fun p hp => ?_, fun p hp => ?_, hcopy, fun p hp hnew => ?_,
    hcloned.outside, fun v hv => ?_, hcloned.injective,
    CopyOf.evolve (.of_fixed hrenamed.evolves (fun p _ _ hlive => ?_) (fun b _ _ => ?_)
      fun p hp hex hlive => ⟨ρ, fun v => ?_, ?_⟩) hcopy₂⟩
  · rw [hrenamed.blockOf, hput.blockOf, if_neg (hne hp), hcloned.blockOf hp]
  · rw [hrenamed.opsOf, hops₂ _ (hc.hasBlock_of_holder (s.team.holder hc)), if_pos rfl]
  · rw [hrenamed.opsOf, hops₂ b hb, if_neg hbody]
  · rw [hrenamed.erased, hput.relisted.erased, isErased_eq_readOp, hcloned.extends.readOp hp,
      ← isErased_eq_readOp]
  · rw [hrenamed.held, hput.relisted.heldBy, hρ]
    congr 1
    exact hcloned.extends.readOp hp _ _
  · -- putting the copy into the region does not change what is nested in it
    have hw := hput.within_self (hcloned.only p
      (hput.relisted.inPlace.hasOp.1 (hrenamed.inPlace.hasOp.1 hp)) hnew)
    rwa [Within, hrenamed.inPlace.above hrenamed.blockOf]
  · rw [hrenamed.inPlace.values, hput.relisted.inPlace.values]
    exact hcloned.fresh v hv
  · rwa [hrenamed.erased]
  · rw [hrenamed.opsOf]
  · by_cases hv : e.context.DefinedWithin previous v
    · exact hfix _ fun hm => hfresh v _ hv hm rfl
    · have hv' : map.apply v = v := hcloned.outside v hv
      rw [hv']
      exact hfix v fun hm => hv (hdefined v hm)
  · have hheld := hrenamed.held p
    rwa [heldBy_eq, heldBy_eq, hrenamed.erased, hlive, if_neg Bool.false_ne_true,
      if_neg Bool.false_ne_true] at hheld

theorem absorb_spec (h : e.context.Sound) (s : e.context.Absorb o previous)
    (hrun : absorb e o previous = .ok e') : ∃ σ copy, s.Done σ copy e'.context := by
  simp only [absorb, Outcome.bind_eq_ok, Prod.exists] at hrun
  obtain ⟨body, hbody, e₂, copy, hclone, hreplace⟩ := hrun
  obtain rfl := s.team.blockAt h.coherent (.refl _) hbody
  obtain ⟨-, e₃, hreplace, herase⟩ := Editor.replaceOpWithValues_eq_ok.1 hreplace
  obtain ⟨σ, r⟩ := absorb_replaced h s hclone hreplace
  exact ⟨σ, copy, r.done h (Editor.eraseOp_erasure r.sound herase)⟩

/-- An operation can move into the region, if what is defined strictly inside it is used
    there alone. -/
theorem exists_absorb (h : e.context.Sound) (s : e.context.Absorb o previous)
    (hsealed : e.context.Sealed previous)
    (hvisible : ∀ z, e.context.Within z previous → ∀ v ∈ e.context.operandsOf z,
      Visible e.context previous z v) :
    ∃ e' σ copy, absorb e o previous = .ok e' ∧ (e.Recorded → e'.Recorded) ∧
      s.Done σ copy e'.context := by
  have hc := h.coherent
  have hbody : e.context.blockAt o 0 = .ok s.team.body :=
    hc.blockAt_ok (r := s.team.region) (by simp [s.team.regions]) (by simp [s.team.blocks])
  have hprevious : e.context.HasOp previous := hc.hasOp_of_mem (b := s.place) (by simp [s.place_ops])
  obtain ⟨e₂, copy, hclone, hrec₂⟩ := Editor.cloneOpAtStart_ok h hprevious
    (hc.hasBlock_of_holder (s.team.holder hc))
  obtain ⟨ctx₁, map, -, -, hsound₂, hev₂, hcopy₂⟩ := absorb_copied h s hclone
  obtain ⟨e₃, hreplace, hrec₃⟩ := Editor.replaceValues_ok hsound₂.coherent
    ((e₂.context.results previous).zip (e₂.context.results copy))
  obtain ⟨σ, r⟩ := absorb_replaced h s hclone hreplace
  obtain ⟨e', herase, hrec'⟩ := Editor.eraseOp_ok r.sound (r.evolves.hasOp hprevious)
    fun p hp v hv q hq => r.unused h hsealed hvisible hp hv hq
  refine ⟨e', σ, copy, ?_, fun hrec => hrec' (hrec₃ (hrec₂ hrec)),
    r.done h (Editor.eraseOp_erasure r.sound herase)⟩
  simp only [absorb, hbody, hclone, Outcome.ok_bind]
  refine Editor.replaceOpWithValues_eq_ok.2 ⟨?_, e₃, hreplace, herase⟩
  rw [hcopy₂.1.results, List.length_map, hev₂.results hprevious]

end Parallel

end Offload
