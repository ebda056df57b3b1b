import Offload.Proofs.Ir.Nesting
import Offload.Proofs.Ir.Placement
import Offload.Proofs.Ir.Rewire

/-!
# Sound contexts

A context is *sound* if it is coherent and grounded. Every change of programs
keeps it sound, with the one condition that an operation is not put into its own
tree.
-/

namespace Offload.Context

/-- The tables agree, and no way up is endless. -/
structure Sound (ctx : Context) : Prop where
  coherent : ctx.Coherent
  grounded : ctx.Grounded

variable {ctx ctx' : Context}

theorem sound_empty : empty.Sound := ⟨coherent_empty, grounded_empty⟩

/-- Types, paths and symbols have no part in it. -/
theorem Sound.intern (h : ctx.Sound) (types : InternTable TypeNode)
    (paths symbols : InternTable String) :
    ({ ctx with types := types, paths := paths, symbols := symbols } : Context).Sound :=
  ⟨⟨h.coherent.ops, h.coherent.blocks, h.coherent.regions,
    ⟨h.coherent.uses.mem_iff, h.coherent.uses.nodup⟩,
    ⟨h.coherent.values.result_iff, h.coherent.values.argument_iff,
      h.coherent.values.results_length, h.coherent.values.args_length⟩⟩, h.grounded⟩

/-! ## Changes in place -/

theorem InPlace.regionOf (h : ctx.InPlace ctx') : ctx'.regionOf = ctx.regionOf :=
  h.readBlock _ _ fun _ => rfl

theorem InPlace.ownerOf (h : ctx.InPlace ctx') : ctx'.ownerOf = ctx.ownerOf := h.readRegion _ _

theorem InPlace.holder (h : ctx.InPlace ctx') : ctx'.holder = ctx.holder := by
  funext b
  rw [Context.holder, Context.holder, h.regionOf, h.ownerOf]

theorem InPlace.above (h : ctx.InPlace ctx') (hb : ctx'.blockOf = ctx.blockOf) :
    ctx'.above = ctx.above := by
  funext o
  rw [Context.above, Context.above, hb, h.holder]

theorem Put.above {o : OpRef} {b : BlockRef} {l : List OpRef} (h : ctx.Put o b l ctx')
    (p : OpRef) : ctx'.above p = if p = o then ctx.holder b else ctx.above p := by
  rw [Context.above, h.blockOf, h.relisted.inPlace.holder]
  split <;> rfl

/-- An operation is put into a block that is not in its own tree. -/
theorem Sound.put {o : OpRef} {b : BlockRef} {l : List OpRef} (h : ctx.Sound)
    (hput : ctx.Put o b l ctx') (hout : ∀ t, ctx.holder b = some t → ¬ctx.Within t o) :
    ctx'.Sound := by
  have habove (p : OpRef) : ctx'.above p = if p ∈ [o] then ctx.holder b else ctx.above p := by
    simp only [hput.above, List.mem_singleton]
  exact ⟨h.coherent.put hput, h.grounded.attach habove fun t ht p hp =>
    List.mem_singleton.1 hp ▸ hout t ht⟩

theorem Sound.append {o : OpRef} {b : BlockRef} (h : ctx.Sound) (ho : ctx.HasOp o)
    (hb : ctx.HasBlock b) (hfree : ctx.blockOf o = none)
    (hout : ∀ t, ctx.holder b = some t → ¬ctx.Within t o) : (ctx.append b o).Sound :=
  h.put (pushOp_put h.coherent (pushOp_eq_ok.2 ⟨ho, hb, hfree, rfl⟩)) hout

theorem Sound.detached (h : ctx.Sound) (o : OpRef) : (ctx.detached o).Sound := by
  refine ⟨h.coherent.detached o, h.grounded.mono fun p q hq => ?_⟩
  rw [Context.above, h.coherent.blockOf_detached, relisted_detached.inPlace.holder] at hq
  split at hq
  · cases hq
  · exact hq

theorem Sound.rewired {old new : ValueRef} (h : ctx.Sound) (hne : old ≠ new)
    (hw : ctx.Rewired old new ctx') : ctx'.Sound :=
  ⟨hw.coherent h.coherent hne, h.grounded.mono fun o p hp => by
    rwa [hw.inPlace.above hw.blockOf] at hp⟩

theorem Sound.marked {tree : List OpRef} (h : ctx.Sound) (hm : ctx.Marked tree ctx') :
    ctx'.Sound :=
  ⟨hm.coherent h.coherent, h.grounded.mono fun o p hp => by
    rwa [hm.inPlace.above hm.blockOf] at hp⟩

/-! ## Allocation -/

section Allocation

variable {blueprint : Blueprint} {location : Location} {argTypes : List TypeRef}
  {ops : List OpRef} {blocks : List BlockRef}

theorem blockOf_addOp (o : OpRef) : (ctx.addOp blueprint).1.blockOf o = ctx.blockOf o := by
  rw [blockOf, readOp_addOp]
  split
  · rename_i ho
    rw [ho, blockOf, readOp_of_not_hasOp not_hasOp_size, freshRow]
  · rfl

/-- What is directly in an operation still is, and so is what the regions of the new
    operation hold. -/
theorem above_addOp {o p : OpRef} (hp : (ctx.addOp blueprint).1.above o = some p) :
    p = ⟨ctx.ops.size⟩ ∨ ctx.above o = some p := by
  rw [above_eq_some_iff] at hp ⊢
  obtain ⟨b, r, hb, hr, hp⟩ := hp
  rw [blockOf_addOp] at hb
  rw [regionOf, readBlock_addOp] at hr
  rw [ownerOf, readRegion_addOp] at hp
  split at hp
  · left
    by_cases hex : ctx.HasRegion r
    · obtain ⟨row, hrow⟩ := hasRegion_iff.1 hex
      rw [readRegion_of_region hrow] at hp
      exact (Option.some.inj hp).symm
    · rw [readRegion_of_not_hasRegion hex] at hp
      cases hp
  · exact .inr ⟨b, r, hb, hr, hp⟩

theorem Sound.addOp (h : ctx.Sound) (hex : ∀ r ∈ blueprint.regions, ctx.HasRegion r)
    (hfree : ∀ r ∈ blueprint.regions, ctx.ownerOf r = none) (hnodup : blueprint.regions.Nodup) :
    (ctx.addOp blueprint).1.Sound := by
  refine ⟨h.coherent.addOp hex hfree hnodup, ?_⟩
  obtain ⟨rank, hrank⟩ := h.grounded
  -- the new operation is in none, so it may come lowest
  refine ⟨fun o => if o = ⟨ctx.ops.size⟩ then 0 else rank o + 1, fun o p hp => ?_⟩
  have ho : o ≠ ⟨ctx.ops.size⟩ := by
    rintro rfl
    obtain ⟨b, hb, -⟩ := Option.bind_eq_some_iff.1 hp
    rw [blockOf_addOp, blockOf, readOp_of_not_hasOp not_hasOp_size] at hb
    cases hb
  simp only [if_neg ho]
  split
  · omega
  · rename_i hne
    have := hrank o p ((above_addOp hp).resolve_left hne)
    omega

theorem Sound.addBlock (h : ctx.Sound) (hex : ∀ o ∈ ops, ctx.HasOp o)
    (hfree : ∀ o ∈ ops, ctx.blockOf o = none) (hnodup : ops.Nodup) :
    (ctx.addBlock location argTypes ops).1.Sound := by
  refine ⟨h.coherent.addBlock hex hfree hnodup, h.grounded.mono fun o p hp => ?_⟩
  rw [above_eq_some_iff] at hp ⊢
  obtain ⟨b, r, hb, hr, hp⟩ := hp
  rw [regionOf, readBlock_addBlock] at hr
  rw [ownerOf, readRegion_addBlock] at hp
  split at hr
  · cases hr
  · rename_i hne
    refine ⟨b, r, ?_, hr, hp⟩
    rw [blockOf, readOp_addBlock] at hb
    split at hb
    · rename_i ho
      obtain ⟨row, hrow⟩ := hasOp_iff.1 (hex o ho)
      rw [readOp_of_op hrow] at hb
      exact absurd (Option.some.inj hb).symm hne
    · exact hb

theorem Sound.addRegion (h : ctx.Sound) (hex : ∀ b ∈ blocks, ctx.HasBlock b)
    (hfree : ∀ b ∈ blocks, ctx.regionOf b = none) (hnodup : blocks.Nodup) :
    (ctx.addRegion location blocks).1.Sound := by
  refine ⟨h.coherent.addRegion hex hfree hnodup, h.grounded.mono fun o p hp => ?_⟩
  rw [above_eq_some_iff] at hp ⊢
  obtain ⟨b, r, hb, hr, hp⟩ := hp
  rw [blockOf, readOp_addRegion] at hb
  rw [ownerOf, readRegion_addRegion] at hp
  split at hp
  · cases hp
  · rename_i hne
    refine ⟨b, r, hb, ?_, hp⟩
    rw [regionOf, readBlock_addRegion] at hr
    split at hr
    · rename_i hm
      obtain ⟨row, hrow⟩ := hasBlock_iff.1 (hex b hm)
      rw [readBlock_of_block hrow] at hr
      exact absurd (Option.some.inj hr).symm hne
    · exact hr

end Allocation

end Offload.Context
