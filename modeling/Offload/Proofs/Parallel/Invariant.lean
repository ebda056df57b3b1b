import Offload.Dialect.Access
import Offload.Proofs.Pattern.Editor
import Offload.Proofs.Validity

/-!
# What the parallel patterns keep

The patterns do not keep programs valid, but they keep enough of it to know what
they do (`Stable`): nothing in the program is erased, every operation has the shape
of its kind, the blocks of those that need it end with a terminator — there may
be others before it — and most operands are in scope. The exceptions are

* the operands of what is *discarded*: the last operation of a parallel region,
  and what is nested in it, which may use what was moved out of the region;
* *foreign* values, which belong to an erased operation: the arguments of the body
  of a region that was merged with the one before it.
-/

namespace Offload.Context

variable {ctx : Context}

/-- A block ends with a terminator. -/
def Ended (ctx : Context) (b : BlockRef) : Prop :=
  ∃ last, (ctx.opsOf b).getLast? = some last ∧ (ctx.kindOf last).isTerminator

/-- An operation is the last one of a parallel region, or nested in it. -/
def Discarded (ctx : Context) (o : OpRef) : Prop :=
  ∃ b p last, ctx.holder b = some p ∧ ctx.kindOf p = .parallel ∧
    (ctx.opsOf b).getLast? = some last ∧ ctx.Within o last

/-- A value belongs to an erased operation. -/
def Foreign (ctx : Context) (v : ValueRef) : Prop :=
  ∃ o, ctx.definer v = some o ∧ ctx.isErased o

/-- What the patterns keep of a program. -/
structure Stable (ctx : Context) (root : OpRef) : Prop where
  sound : ctx.Sound
  hasRoot : ctx.HasOp root
  detached : ctx.blockOf root = none
  live : ∀ o, ctx.Within o root → ¬ctx.isErased o
  shaped : ∀ o, ctx.Within o root → ctx.Shaped o
  ended : ∀ o, ctx.Within o root → (ctx.kindOf o).needsTerminator →
    ∀ r ∈ ctx.regionsOf o, ∀ b ∈ ctx.blocksOf r, ctx.Ended b
  inScope : ∀ o, ctx.Within o root → ¬ctx.Discarded o →
    ∀ v ∈ ctx.operandsOf o, ctx.InScope o v ∨ ctx.Foreign v

theorem EndsWell.ended {b : BlockRef} (h : ctx.EndsWell b) : ctx.Ended b := by
  obtain ⟨before, last, hops, hlast, -⟩ := h
  exact ⟨last, by rw [hops, List.getLast?_concat], hlast⟩

/-- A valid program without erased operations has it all. -/
theorem Valid.stable {root : OpRef} (h : ctx.Valid root) (hsound : ctx.Sound)
    (hroot : ctx.HasOp root) (hdetached : ctx.blockOf root = none)
    (hlive : ∀ o, ctx.Within o root → ¬ctx.isErased o) : ctx.Stable root where
  sound := hsound
  hasRoot := hroot
  detached := hdetached
  live := hlive
  shaped := h.shaped
  ended o ho hneeds r hr b hb := (h.terminated o ho hneeds r hr b hb).ended
  inScope o ho _ v hv := .inl (h.inScope o ho v hv)

/-- An operation that something in the program is nested in is in the program. -/
theorem Stable.within_root {root o a : OpRef} (h : ctx.Stable root) (ho : ctx.Within o root)
    (ha : ctx.Within o a) : ctx.Within a root := by
  rcases ho.total ha with hw | hw
  · rcases within_iff_above.1 hw with rfl | ⟨p, hp, -⟩
    · exact .refl root
    · rw [above, h.detached] at hp
      cases hp
  · exact hw

/-- What is last in a parallel region of the program is a terminator. -/
theorem Stable.discarded {root o : OpRef} (h : ctx.Stable root) (ho : ctx.Within o root)
    (hd : ctx.Discarded o) : ∃ b p last, ctx.holder b = some p ∧ ctx.kindOf p = .parallel ∧
      (ctx.opsOf b).getLast? = some last ∧ ctx.Within o last ∧
      (ctx.kindOf last).isTerminator := by
  obtain ⟨b, p, last, hb, hp, hlast, hw⟩ := hd
  obtain ⟨r, hr, howner⟩ := Option.bind_eq_some_iff.1 hb
  have habove : ctx.above last = some p :=
    (h.sound.coherent.above_of_mem (List.mem_of_getLast? hlast)).trans hb
  obtain ⟨last', hlast', hkind⟩ := h.ended p
    (h.within_root ho (hw.trans (within_of_above habove))) (by rw [hp]; decide) r
    ((h.sound.coherent.regions.owner_iff r p).1 howner) b
    ((h.sound.coherent.blocks.owner_iff b r).1 hr)
  obtain rfl := Option.some.inj (hlast.symm.trans hlast')
  exact ⟨b, p, last, hb, hp, hlast, hw, hkind⟩

/-- What is foreign does not belong to anything in the program. -/
theorem Stable.not_definedWithin_of_foreign {root o : OpRef} {v : ValueRef} (h : ctx.Stable root)
    (ho : ctx.Within o root) (hv : ctx.Foreign v) : ¬ctx.DefinedWithin o v := by
  rintro ⟨p, hp, hw⟩
  obtain ⟨q, hq, herased⟩ := hv
  obtain rfl := Option.some.inj (hp.symm.trans hq)
  exact h.live p (hw.trans ho) herased

/-! ## What stays -/

namespace Evolves

variable {ctx' : Context} (h : ctx.Evolves ctx')

include h

theorem kindOf {o : OpRef} (ho : ctx.HasOp o) : ctx'.kindOf o = ctx.kindOf o :=
  h.readOp ho _ _ fun _ => rfl

theorem foreign (hc : ctx.Coherent) {v : ValueRef} (hv : ctx.Foreign v) : ctx'.Foreign v := by
  obtain ⟨o, hdefiner, herased⟩ := hv
  exact ⟨o, h.definer hc hdefiner, h.erased o herased⟩

/-- An operation that is not erased keeps its shape. -/
theorem shaped (hc : ctx.Coherent) {o : OpRef} (ho : ctx.HasOp o) (hlive : ¬ctx'.isErased o)
    (hs : ctx.Shaped o) : ctx'.Shaped o := by
  have hlive' : ¬ctx.isErased o := fun he => hlive (h.erased o he)
  have hregions := h.regionsOf ho
  have hblocks (r : RegionRef) (hr : r ∈ ctx.regionsOf o) : ctx'.blocksOf r = ctx.blocksOf r :=
    h.blocksOf (hc.hasRegion_of_mem hr)
  refine ⟨fun shape hshape => ?_, fun hkind r hr b hb => ?_⟩
  · rw [h.kindOf ho] at hshape
    have hfits := hs.fits shape hshape
    have hheld := h.held o ho hlive
    rw [heldBy_eq, heldBy_eq, if_neg hlive, if_neg hlive'] at hheld
    refine ⟨by rw [hheld]; exact hfits.operands, fun n hn => ?_, ?_, ?_⟩
    · rw [h.results ho]
      exact hfits.results n hn
    · rw [hregions]
      have hcounts := List.map_congr_left fun r hr => congrArg List.length (hblocks r hr)
      refine List.forall₂_map_left_iff (f := fun r => (ctx'.blocksOf r).length)
        (R := fun n count => BlockCount.admits count n) |>.1 ?_
      rw [hcounts, List.forall₂_map_left_iff]
      exact hfits.regions
    · rw [attributesOf, h.readOp ho _ _ fun _ => rfl]
      exact hfits.attributes
  · rw [hregions] at hr
    rw [hblocks r (List.mem_of_head? hr)] at hb
    rw [h.args (hc.hasBlock_of_mem (List.mem_of_head? hb))]
    exact hs.counts (by rwa [h.kindOf ho] at hkind) r hr b hb

/-- What is held by an operation that is not erased are its operands. -/
theorem operandsOf {o : OpRef} (hlive : ¬ctx'.isErased o) (hheld : ctx'.heldBy o = ctx.heldBy o) :
    ctx'.operandsOf o = ctx.operandsOf o := by
  have hlive' : ¬ctx.isErased o := fun he => hlive (h.erased o he)
  rwa [heldBy_eq, heldBy_eq, if_neg hlive, if_neg hlive'] at hheld

end Evolves

/-! ## Look-ups -/

theorem terminator?_eq_ok {b : BlockRef} {last : Option OpRef}
    (hrun : ctx.terminator? b = .ok last) : ctx.HasBlock b ∧ last = (ctx.opsOf b).getLast? := by
  obtain ⟨row, hrow, hrun⟩ := Outcome.bind_eq_ok.1 hrun
  refine ⟨hasBlock_iff.2 ⟨row, hrow⟩, ?_⟩
  rw [opsOf, readBlock_of_block hrow]
  exact (Outcome.pure_eq_ok.1 hrun).symm

theorem blockAt_eq_ok {o : OpRef} {n : Nat} {b : BlockRef}
    (hrun : ctx.blockAt o n = .ok b) :
    ∃ r, (ctx.regionsOf o)[n]? = some r ∧ (ctx.blocksOf r).head? = some b := by
  obtain ⟨r, hr, hrun⟩ := Outcome.bind_eq_ok.1 hrun
  obtain ⟨row, hrow, hr⟩ := Outcome.bind_eq_ok.1 hr
  obtain ⟨entry, hentry, hb⟩ := Outcome.bind_eq_ok.1 hrun
  obtain ⟨region, hregion, hentry⟩ := Outcome.bind_eq_ok.1 hentry
  obtain rfl := Outcome.pure_eq_ok.1 hentry
  refine ⟨r, ?_, ?_⟩
  · rw [regionsOf, readOp_of_op hrow]
    exact found_eq_ok_iff.1 hr
  · rw [blocksOf, readRegion_of_region hregion]
    exact found_eq_ok_iff.1 hb

theorem Coherent.blockAt_ok (h : ctx.Coherent) {o : OpRef} {n : Nat} {r : RegionRef} {b : BlockRef}
    (hr : (ctx.regionsOf o)[n]? = some r) (hb : (ctx.blocksOf r).head? = some b) :
    ctx.blockAt o n = .ok b := by
  have hmem := List.mem_of_getElem? hr
  obtain ⟨row, hrow⟩ := hasOp_iff.1 (h.hasOp_of_holder (h.holder_of_mem hmem (List.mem_of_head? hb)))
  obtain ⟨region, hregion⟩ := hasRegion_iff.1 (h.hasRegion_of_mem hmem)
  rw [regionsOf, readOp_of_op hrow] at hr
  rw [blocksOf, readRegion_of_region hregion] at hb
  simp only [blockAt, regionAt, entry?, hrow, Outcome.ok_bind, found_eq_ok_iff.2 hr, hregion]
  exact found_eq_ok_iff.2 hb

/-- A barrier has no shape to depart from. -/
theorem Bare.shaped {o : OpRef} (h : ctx.Bare .barrier o) : ctx.Shaped o := by
  refine ⟨fun shape hshape => ?_, fun hkind => ?_⟩
  · rw [h.kind, show OpKind.barrier.shape? = none by decide] at hshape
    cases hshape
  · rw [h.kind] at hkind
    exact absurd hkind (by decide)

/-! ## The shapes of operations that hold others -/

/-- A parallel region. It has one block, which ends with a terminator. -/
structure Team (ctx : Context) (o : OpRef) where
  region : RegionRef
  body : BlockRef
  contents : List OpRef
  last : OpRef
  kind : ctx.kindOf o = .parallel
  operands : ctx.operandsOf o = []
  results : ctx.results o = []
  regions : ctx.regionsOf o = [region]
  blocks : ctx.blocksOf region = [body]
  ops : ctx.opsOf body = contents ++ [last]
  ends : (ctx.kindOf last).isTerminator

theorem eq_singleton_of_forall₂ {α β : Type} {r : α → β → Prop} {l : List α} {b : β}
    (h : List.Forall₂ r l [b]) : ∃ a, l = [a] ∧ r a b := by
  cases h with
  | cons hab htail =>
    cases htail
    exact ⟨_, rfl, hab⟩

theorem shape?_parallel : OpKind.parallel.shape? =
    some { operands := .exactly 0, results := some 0, regions := [.one] } := by decide

theorem shape?_loop : OpKind.loop.shape? =
    some { operands := .atLeast 3, results := none, regions := [.one] } := by decide

theorem shape?_conditional : OpKind.conditional.shape? =
    some { operands := .exactly 1, results := none, regions := [.one, .atMostOne] } := by decide

/-- One block is as many as exactly one. -/
theorem eq_singleton_of_admits {r : RegionRef}
    (h : BlockCount.one.admits (ctx.blocksOf r).length) : ∃ b, ctx.blocksOf r = [b] :=
  List.length_eq_one_iff.1 (of_decide_eq_true h)

namespace Stable

variable {root o : OpRef}

theorem nonempty_team (h : ctx.Stable root) (ho : ctx.Within o root)
    (hkind : ctx.kindOf o = .parallel) : Nonempty (ctx.Team o) := by
  have hfits := (h.shaped o ho).fits _ (by rw [hkind]; exact shape?_parallel)
  obtain ⟨r, hr, hcount⟩ := eq_singleton_of_forall₂ hfits.regions
  obtain ⟨b, hb⟩ := eq_singleton_of_admits hcount
  obtain ⟨last, hend, hlast⟩ :=
    h.ended o ho (by rw [hkind]; decide) r (by simp [hr]) b (by simp [hb])
  obtain ⟨before, hops⟩ := List.getLast?_eq_some_iff.1 hend
  exact ⟨r, b, before, last, hkind, List.length_eq_zero_iff.1 (of_decide_eq_true hfits.operands),
    List.length_eq_zero_iff.1 (hfits.results 0 rfl), hr, hb, hops, hlast⟩

/-- A loop has one block. -/
theorem loop_block (h : ctx.Stable root) (ho : ctx.Within o root)
    (hkind : ctx.kindOf o = .loop) :
    ∃ r b, ctx.regionsOf o = [r] ∧ ctx.blocksOf r = [b] ∧ ctx.Ended b := by
  have hfits := (h.shaped o ho).fits _ (by rw [hkind]; exact shape?_loop)
  obtain ⟨r, hr, hcount⟩ := eq_singleton_of_forall₂ hfits.regions
  obtain ⟨b, hb⟩ := eq_singleton_of_admits hcount
  exact ⟨r, b, hr, hb, h.ended o ho (by rw [hkind]; decide) r (by simp [hr]) b (by simp [hb])⟩

/-- The first branch of a conditional has one block. -/
theorem branch_block (h : ctx.Stable root) (ho : ctx.Within o root)
    (hkind : ctx.kindOf o = .conditional) :
    ∃ r rest b, ctx.regionsOf o = r :: rest ∧ ctx.blocksOf r = [b] ∧ ctx.Ended b := by
  have hfits := (h.shaped o ho).fits _ (by rw [hkind]; exact shape?_conditional)
  cases hregions : ctx.regionsOf o with
  | nil =>
    have hr := hfits.regions
    rw [hregions] at hr
    cases hr
  | cons r rest =>
    have hr := hfits.regions
    rw [hregions] at hr
    obtain ⟨hcount, -⟩ := List.forall₂_cons.1 hr
    obtain ⟨b, hb⟩ := eq_singleton_of_admits hcount
    exact ⟨r, rest, b, rfl, hb,
      h.ended o ho (by rw [hkind]; decide) r (by simp [hregions]) b (by simp [hb])⟩

end Stable

namespace Team

variable {o : OpRef} (t : ctx.Team o)

include t

theorem holder (h : ctx.Coherent) : ctx.holder t.body = some o :=
  h.holder_of_mem (r := t.region) (by simp [t.regions]) (by simp [t.blocks])

/-- All that is directly in a parallel region is in its body. -/
theorem eq_body (h : ctx.Coherent) {b : BlockRef} (hb : ctx.holder b = some o) : b = t.body := by
  obtain ⟨r, hr, ho⟩ := Option.bind_eq_some_iff.1 hb
  have hr' := (h.regions.owner_iff r o).1 ho
  rw [t.regions, List.mem_singleton] at hr'
  have hb' := (h.blocks.owner_iff b r).1 hr
  rwa [hr', t.blocks, List.mem_singleton] at hb'

theorem mem_of_above (h : ctx.Coherent) {p : OpRef} (hp : ctx.above p = some o) :
    p ∈ ctx.opsOf t.body := by
  obtain ⟨b, hb, hholder⟩ := Option.bind_eq_some_iff.1 hp
  rw [← t.eq_body h hholder]
  exact (h.ops.owner_iff p b).1 hb

/-- What is defined in a region is defined in its body. -/
theorem definedInBlock (h : ctx.Coherent) {v : ValueRef} (hv : ctx.DefinedWithin o v) :
    ctx.DefinedInBlock t.body v := by
  rcases h.definedWithin_iff.1 hv with hv | ⟨r, hr, b, hb, hv⟩
  · rw [t.results] at hv
    cases hv
  · rw [t.regions, List.mem_singleton] at hr
    rw [hr, t.blocks, List.mem_singleton] at hb
    exact hb ▸ hv

theorem hasOp : ctx.HasOp o := by
  by_contra hn
  have := t.regions
  rw [regionsOf, readOp_of_not_hasOp hn] at this
  cases this

/-- The last operation is discarded. -/
theorem discarded (h : ctx.Coherent) {p : OpRef} (hp : ctx.Within p t.last) : ctx.Discarded p :=
  ⟨t.body, o, t.last, t.holder h, t.kind, by rw [t.ops, List.getLast?_concat], hp⟩

end Team

theorem Team.blockAt {ctx' : Context} {o : OpRef} (t : ctx.Team o) (hc : ctx.Coherent)
    (h : ctx.Evolves ctx') {b : BlockRef} (hrun : ctx'.blockAt o 0 = .ok b) : b = t.body := by
  obtain ⟨r, hr, hb⟩ := blockAt_eq_ok hrun
  rw [h.regionsOf t.hasOp, t.regions] at hr
  obtain rfl := Option.some.inj hr
  rw [h.blocksOf (hc.hasRegion_of_mem (o := o) (by simp [t.regions])), t.blocks] at hb
  exact (Option.some.inj hb).symm

end Offload.Context
