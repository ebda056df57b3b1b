import Offload.Effects
import Offload.Proofs.Validity

/-!
# Side effects in read-only operations

Whether an operation without regions is read-only is a matter of its kind alone
(`isReadOnly_eq_ok_iff`). An operation that is not read-only can be nested in one that
is: only operations with recursive effects are asked for what is in them. The others
that are read-only have no regions by their shape, unless they end a block
(`exists_terminator_of_isReadOnly`).
-/

namespace Offload

namespace OpKind

variable {kind : OpKind}

/-- Kinds with traits are registered. -/
theorem mem_registry {traits : Traits} (h : kind.traits? = some traits) :
    (kind, traits) ∈ registry :=
  Position.mem_of_lookup h

/-- What only reads, and is not asked for what is in it, has no regions or ends a
    block. -/
theorem isTerminator_of_onlyReads (hreads : Context.onlyReads kind) (hown : ¬kind.isRecursive) :
    kind.isTerminator ∨ ∃ shape, kind.shape? = some shape ∧ shape.regions = [] := by
  have hregistry : ∀ p ∈ registry, Context.onlyReads p.1 →
      p.1.isRecursive ∨ p.1.isTerminator ∨ ∃ shape ∈ p.1.shape?, shape.regions = [] := by decide
  cases htraits : kind.traits? with
  | none =>
    have heffects : kind.effects? = none := by rw [effects?, htraits, Option.bind_none]
    rw [Context.onlyReads, heffects] at hreads
    exact absurd hreads hown
  | some traits => exact (hregistry _ (mem_registry htraits) hreads).resolve_left hown

end OpKind

namespace Context

variable {ctx : Context} {o x : OpRef}

/-- An operation without regions is read-only iff its kind is. -/
theorem isReadOnly_eq_ok_iff (ho : ctx.HasOp o) (hregions : ctx.regionsOf o = []) {answer : Bool} :
    ctx.isReadOnly o = .ok answer ↔ onlyReads (ctx.kindOf o) = answer := by
  obtain ⟨row, hrow⟩ := hasOp_iff.1 ho
  rw [regionsOf, readOp_of_op hrow] at hregions
  simp only [isReadOnly, isReadOnlyWithin, kind_ok ho, hrow, Outcome.ok_bind, hregions]
  split
  · exact Outcome.pure_eq_ok
  · exact Outcome.pure_eq_ok

/-- Whether an operation is read-only can always be told. -/
theorem Sound.isReadOnly_ok (h : ctx.Sound) (ho : ctx.HasOp o) :
    ∃ answer, ctx.isReadOnly o = .ok answer := by
  have hc := h.coherent
  obtain ⟨depth, hdepth, hsize⟩ := h.grounded.exists_depth hc
  have key {n : Nat} {o : OpRef} (ho : ctx.HasOp o) (hn : ctx.ops.size ≤ depth o + n) :
      ∃ answer, ctx.isReadOnlyWithin n o = .ok answer := by
    induction n generalizing o with
    | zero =>
      have := hsize o ho
      omega
    | succ n ih =>
      obtain ⟨row, hrow⟩ := hasOp_iff.1 ho
      have hregions : ctx.regionsOf o = row.regions := readOp_of_op hrow _ _
      suffices ∃ inside, (row.regions.allM fun r => do
          (← ctx.region r).blocks.allM fun b => do
            (← ctx.block b).ops.allM (ctx.isReadOnlyWithin n)) = .ok inside by
        obtain ⟨inside, hinside⟩ := this
        simp only [isReadOnlyWithin, kind_ok ho, hrow, Outcome.ok_bind, hinside]
        split
        · cases inside <;> exact ⟨_, rfl⟩
        · exact ⟨_, rfl⟩
      refine Outcome.allM_ok fun r hr => ?_
      rw [← hregions] at hr
      obtain ⟨region, hregion⟩ := hasRegion_iff.1 (hc.hasRegion_of_mem hr)
      have hblocks : ctx.blocksOf r = region.blocks := readRegion_of_region hregion _ _
      rw [hregion, Outcome.ok_bind]
      refine Outcome.allM_ok fun b hb => ?_
      rw [← hblocks] at hb
      obtain ⟨block, hblock⟩ := hasBlock_iff.1 (hc.hasBlock_of_mem hb)
      have hops : ctx.opsOf b = block.ops := readBlock_of_block hblock _ _
      rw [hblock, Outcome.ok_bind]
      refine Outcome.allM_ok fun c hm => ?_
      rw [← hops] at hm
      have := hdepth c o ((hc.above_of_mem hm).trans (hc.holder_of_mem hr hb))
      exact ih (hc.hasOp_of_mem hm) (by omega)
  exact key ho (by omega)

/-- What is right in a read-only operation with recursive effects is read-only. -/
theorem Coherent.isReadOnlyWithin_child (h : ctx.Coherent) {n : Nat} {c : OpRef}
    (hrun : ctx.isReadOnlyWithin (n + 1) o = .ok true) (hkind : (ctx.kindOf o).isRecursive)
    (hc : ctx.above c = some o) : ctx.isReadOnlyWithin n c = .ok true := by
  obtain ⟨b, hb, hholder⟩ := Option.bind_eq_some_iff.1 hc
  obtain ⟨r, hr, howner⟩ := Option.bind_eq_some_iff.1 hholder
  have hmem := (h.regions.owner_iff r o).1 howner
  obtain ⟨row, hrow⟩ := hasOp_iff.1 (h.hasOp_of_above hc).2
  obtain ⟨region, hregion⟩ := hasRegion_iff.1 (h.hasRegion_of_mem hmem)
  obtain ⟨block, hblock⟩ := hasBlock_iff.1 (h.hasBlock_of_blockOf hb)
  rw [regionsOf, readOp_of_op hrow] at hmem
  have hlisted := (h.blocks.owner_iff b r).1 hr
  rw [blocksOf, readRegion_of_region hregion] at hlisted
  have hops := (h.ops.owner_iff c b).1 hb
  rw [opsOf, readBlock_of_block hblock] at hops
  simp only [isReadOnlyWithin, kind_ok (hasOp_iff.2 ⟨row, hrow⟩), hkind, hrow, Outcome.ok_bind,
    if_true] at hrun
  obtain ⟨inside, hinside, hrun⟩ := Outcome.bind_eq_ok.1 hrun
  cases inside with
  | false => simp at hrun
  | true =>
    have hblocks := Outcome.allM_eq_true.1 hinside r hmem
    rw [hregion, Outcome.ok_bind] at hblocks
    have hall := Outcome.allM_eq_true.1 hblocks b hlisted
    rw [hblock, Outcome.ok_bind] at hall
    exact Outcome.allM_eq_true.1 hall c hops

theorem isReadOnlyWithin_onlyReads {n : Nat} (hrun : ctx.isReadOnlyWithin n o = .ok true) :
    onlyReads (ctx.kindOf o) := by
  cases n with
  | zero => cases hrun
  | succ n =>
    rw [isReadOnlyWithin] at hrun
    obtain ⟨kind, hkind, hrun⟩ := Outcome.bind_eq_ok.1 hrun
    obtain ⟨-, rfl⟩ := kind_eq_ok hkind
    split at hrun
    · simp only [Outcome.bind_eq_ok] at hrun
      obtain ⟨row, -, inside, -, hrun⟩ := hrun
      cases inside with
      | false => simp at hrun
      | true => exact Outcome.pure_eq_ok.1 hrun
    · exact Outcome.pure_eq_ok.1 hrun

/-- What is not read-only and nested in something that is, is nested in something that
    ends a block. -/
theorem Coherent.exists_terminator_of_isReadOnlyWithin (h : ctx.Coherent) {n : Nat}
    (hshaped : ∀ p, ctx.Within p o → ctx.Shaped p) (hrun : ctx.isReadOnlyWithin n o = .ok true)
    (hx : ctx.Within x o) (heffect : ¬onlyReads (ctx.kindOf x)) :
    ∃ a, ctx.Within x a ∧ (ctx.kindOf a).isTerminator := by
  induction n generalizing o with
  | zero => cases hrun
  | succ n ih =>
    obtain rfl | ⟨c, hc, hw⟩ := within_iff_below.1 hx
    · exact absurd (isReadOnlyWithin_onlyReads hrun) heffect
    by_cases hrecursive : (ctx.kindOf o).isRecursive
    · exact ih (fun p hp => hshaped p (hp.trans (within_of_above hc)))
        (h.isReadOnlyWithin_child hrun hrecursive hc) hw
    · refine ⟨o, hx, ?_⟩
      refine (OpKind.isTerminator_of_onlyReads (isReadOnlyWithin_onlyReads hrun)
        hrecursive).resolve_right ?_
      rintro ⟨shape, hshape, hnone⟩
      -- the shape leaves no place for what is in it
      have hregions := ((hshaped o (.refl o)).fits shape hshape).regions
      rw [hnone, List.forall₂_nil_right_iff] at hregions
      obtain ⟨b, hb, hholder⟩ := Option.bind_eq_some_iff.1 hc
      obtain ⟨r, hr, howner⟩ := Option.bind_eq_some_iff.1 hholder
      have hmem := (h.regions.owner_iff r o).1 howner
      rw [hregions] at hmem
      cases hmem

end Context

end Offload
