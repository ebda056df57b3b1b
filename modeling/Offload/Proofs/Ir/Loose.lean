import Offload.Proofs.Ir.Growth
import Offload.Proofs.Ir.Sound

/-!
# What has no owner

Copying and building allocate from the inside out: an operation, a block or a region is
made without an owner, and the next step owns it. Between two steps little is
*loose* — that is, there and without an owner — beyond what was so at the start
(`Loosened`). Once a single operation is, all that was made is nested in it
(`Loosened.within`).
-/

namespace Offload.Context

/-- An operation is there, and in no block. -/
def LooseOp (ctx : Context) (o : OpRef) : Prop := ctx.readOp (·.parent = none) False o

/-- A block is there, and in no region. -/
def LooseBlock (ctx : Context) (b : BlockRef) : Prop := ctx.readBlock (·.parent = none) False b

/-- A region is there, and of no operation. -/
def LooseRegion (ctx : Context) (r : RegionRef) : Prop := ctx.readRegion (·.parent = none) False r

variable {ctx ctx₁ ctx₂ : Context}

theorem looseOp_iff {o : OpRef} : ctx.LooseOp o ↔ ctx.HasOp o ∧ ctx.blockOf o = none := by
  by_cases ho : ctx.HasOp o
  · obtain ⟨row, hrow⟩ := hasOp_iff.1 ho
    rw [LooseOp, blockOf, readOp_of_op hrow, readOp_of_op hrow, and_iff_right ho]
  · rw [LooseOp, readOp_of_not_hasOp ho]
    exact iff_of_false id fun h => ho h.1

theorem looseBlock_iff {b : BlockRef} :
    ctx.LooseBlock b ↔ ctx.HasBlock b ∧ ctx.regionOf b = none := by
  by_cases hb : ctx.HasBlock b
  · obtain ⟨row, hrow⟩ := hasBlock_iff.1 hb
    rw [LooseBlock, regionOf, readBlock_of_block hrow, readBlock_of_block hrow, and_iff_right hb]
  · rw [LooseBlock, readBlock_of_not_hasBlock hb]
    exact iff_of_false id fun h => hb h.1

theorem looseRegion_iff {r : RegionRef} :
    ctx.LooseRegion r ↔ ctx.HasRegion r ∧ ctx.ownerOf r = none := by
  by_cases hr : ctx.HasRegion r
  · obtain ⟨row, hrow⟩ := hasRegion_iff.1 hr
    rw [LooseRegion, ownerOf, readRegion_of_region hrow, readRegion_of_region hrow,
      and_iff_right hr]
  · rw [LooseRegion, readRegion_of_not_hasRegion hr]
    exact iff_of_false id fun h => hr h.1

theorem not_readOp {f : Operation → Prop} (hf : ∀ row, ¬f row) (o : OpRef) :
    ¬ctx.readOp f False o := by
  rw [readOp]
  cases ctx.ops[o.index]? with
  | none => exact id
  | some row => exact hf row

theorem not_readBlock {f : Block → Prop} (hf : ∀ row, ¬f row) (b : BlockRef) :
    ¬ctx.readBlock f False b := by
  rw [readBlock]
  cases ctx.blocks[b.index]? with
  | none => exact id
  | some row => exact hf row

theorem not_readRegion {f : Region → Prop} (hf : ∀ row, ¬f row) (r : RegionRef) :
    ¬ctx.readRegion f False r := by
  rw [readRegion]
  cases ctx.regions[r.index]? with
  | none => exact id
  | some row => exact hf row

/-- Nothing is loose but what was so before, and the given entities. -/
structure Loosened (ctx : Context) (os : List OpRef) (bs : List BlockRef) (rs : List RegionRef)
    (ctx₁ : Context) : Prop where
  ops : ∀ o, ctx₁.LooseOp o → o ∈ os ∨ ctx.LooseOp o
  blocks : ∀ b, ctx₁.LooseBlock b → b ∈ bs ∨ ctx.LooseBlock b
  regions : ∀ r, ctx₁.LooseRegion r → r ∈ rs ∨ ctx.LooseRegion r

namespace Loosened

variable {os os' : List OpRef} {bs bs' : List BlockRef} {rs rs' : List RegionRef}

theorem refl (ctx : Context) : ctx.Loosened [] [] [] ctx :=
  ⟨fun _ => .inr, fun _ => .inr, fun _ => .inr⟩

theorem trans (h₁ : ctx.Loosened os bs rs ctx₁) (h₂ : ctx₁.Loosened os' bs' rs' ctx₂) :
    ctx.Loosened (os ++ os') (bs ++ bs') (rs ++ rs') ctx₂ where
  ops o ho := by
    rw [List.mem_append, or_comm (a := o ∈ os), or_assoc]
    exact (h₂.ops o ho).imp_right (h₁.ops o)
  blocks b hb := by
    rw [List.mem_append, or_comm (a := b ∈ bs), or_assoc]
    exact (h₂.blocks b hb).imp_right (h₁.blocks b)
  regions r hr := by
    rw [List.mem_append, or_comm (a := r ∈ rs), or_assoc]
    exact (h₂.regions r hr).imp_right (h₁.regions r)

theorem addBlock (h : ctx.Loosened os bs rs ctx₁) (location : Location)
    (argTypes : List TypeRef) :
    ctx.Loosened os (⟨ctx₁.blocks.size⟩ :: bs) rs (ctx₁.addBlock location argTypes []).1 where
  ops o ho := h.ops o (by rwa [LooseOp, readOp_addBlock, if_neg List.not_mem_nil] at ho)
  blocks b hb := by
    rw [LooseBlock, readBlock_addBlock] at hb
    split at hb
    · rename_i e
      exact .inl (e ▸ List.mem_cons_self)
    · exact (h.blocks b hb).imp_left (List.mem_cons_of_mem _)
  regions r hr := h.regions r (by rwa [LooseRegion, readRegion_addBlock] at hr)

/-- The blocks of a new region have an owner. -/
theorem addRegion (h : ctx.Loosened os bs rs ctx₁) (location : Location) :
    ctx.Loosened os [] (⟨ctx₁.regions.size⟩ :: rs) (ctx₁.addRegion location bs).1 where
  ops o ho := h.ops o (by rwa [LooseOp, readOp_addRegion] at ho)
  blocks b hb := by
    rw [LooseBlock, readBlock_addRegion] at hb
    split at hb
    · exact absurd hb (not_readBlock (fun _ => Option.some_ne_none _) b)
    · exact .inr ((h.blocks b hb).resolve_left ‹_›)
  regions r hr := by
    rw [LooseRegion, readRegion_addRegion] at hr
    split at hr
    · rename_i e
      exact .inl (e ▸ List.mem_cons_self)
    · exact (h.regions r hr).imp_left (List.mem_cons_of_mem _)

/-- The regions of a new operation have an owner. -/
theorem addOp {blueprint : Blueprint} (h : ctx.Loosened os bs blueprint.regions ctx₁) :
    ctx.Loosened (⟨ctx₁.ops.size⟩ :: os) bs [] (ctx₁.addOp blueprint).1 where
  ops o ho := by
    rw [LooseOp, readOp_addOp] at ho
    split at ho
    · rename_i e
      exact .inl (e ▸ List.mem_cons_self)
    · exact (h.ops o ho).imp_left (List.mem_cons_of_mem _)
  blocks b hb := h.blocks b (by rwa [LooseBlock, readBlock_addOp] at hb)
  regions r hr := by
    rw [LooseRegion, readRegion_addOp] at hr
    split at hr
    · exact absurd hr (not_readRegion (fun _ => Option.some_ne_none _) r)
    · exact .inr ((h.regions r hr).resolve_left ‹_›)

/-- An operation at the end of a block has an owner. -/
theorem append {o : OpRef} (h : ctx.Loosened (o :: os) bs rs ctx₁) (b : BlockRef) :
    ctx.Loosened os bs rs (ctx₁.append b o) where
  ops p hp := by
    rw [LooseOp, Context.append, readOp_modifyBlock, readOp_modifyOp] at hp
    split at hp
    · exact absurd hp (not_readOp (fun _ => Option.some_ne_none _) p)
    · exact (h.ops p hp).imp_left fun hm => (List.mem_cons.1 hm).resolve_left ‹_›
  blocks c hc := h.blocks c (by
    rw [LooseBlock, Context.append, readBlock_modifyBlock] at hc
    split at hc <;> exact hc)
  regions r hr := h.regions r hr

/-- If one operation is loose, all that was made is nested in it. -/
theorem within {top : OpRef} (h : ctx.Loosened [top] [] [] ctx₁) (hext : ctx.Extends ctx₁)
    (hold : ctx.Coherent) (hs : ctx₁.Sound) {o : OpRef} (ho : ctx₁.HasOp o)
    (hnew : ¬ctx.HasOp o) : ctx₁.Within o top := by
  have hc := hs.coherent
  -- what is above something new is new as well, since old rows list old ones alone
  induction o using hs.grounded.above_induction with
  | step o ih =>
    cases hb : ctx₁.blockOf o with
    | none =>
      rcases h.ops o (looseOp_iff.2 ⟨ho, hb⟩) with hm | hm
      · rw [List.mem_singleton.1 hm]
        exact .refl top
      · exact absurd (looseOp_iff.1 hm).1 hnew
    | some b =>
      have hblock : ¬ctx.HasBlock b := fun hm => by
        have hmem := (hc.ops.owner_iff o b).1 hb
        rw [opsOf, hext.readBlock hm] at hmem
        exact hnew (hold.hasOp_of_mem hmem)
      cases hr : ctx₁.regionOf b with
      | none =>
        have hm := h.blocks b (looseBlock_iff.2 ⟨hc.hasBlock_of_blockOf hb, hr⟩)
        exact absurd (looseBlock_iff.1 (hm.resolve_left List.not_mem_nil)).1 hblock
      | some r =>
        have hregion : ¬ctx.HasRegion r := fun hm => by
          have hmem := (hc.blocks.owner_iff b r).1 hr
          rw [blocksOf, hext.readRegion hm] at hmem
          exact hblock (hold.hasBlock_of_mem hmem)
        cases ha : ctx₁.ownerOf r with
        | none =>
          have hm := h.regions r (looseRegion_iff.2 ⟨hc.hasRegion_of_regionOf hr, ha⟩)
          exact absurd (looseRegion_iff.1 (hm.resolve_left List.not_mem_nil)).1 hregion
        | some a =>
          have habove : ctx₁.above o = some a := above_eq_some_iff.2 ⟨b, r, hb, hr, ha⟩
          have hop : ¬ctx.HasOp a := fun hm => by
            have hmem := (hc.regions.owner_iff r a).1 ha
            rw [regionsOf, hext.readOp hm] at hmem
            exact hregion (hold.hasRegion_of_mem hmem)
          exact (within_of_above habove).trans (ih a habove (hc.hasOp_of_ownerOf ha) hop)

end Loosened

end Offload.Context
