import Offload.Proofs.Ir.Coherent

/-!
# What changes leave as it is

The row of an operation has three parts that change during its life: the block
that it is in, its operands, and the mark that it has been erased. Of the row of
a block, the list of operations changes. Everything else is *fixed* when the row
is allocated.

A change that allocates nothing keeps the tables but for those parts
(`InPlace`), and any sequence of changes keeps the fixed parts of the rows that
were there before (`Evolves`).
-/

namespace Offload

/-- The part of an operation that never changes. -/
def Operation.fixed (row : Operation) : Operation :=
  { row with operands := [], parent := none, erased := false }

/-- The part of a block that never changes. -/
def Block.fixed (row : Block) : Block := { row with ops := [] }

namespace Context

/-- Contexts with the same rows, up to places, operands and marks. -/
structure InPlace (ctx ctx' : Context) : Prop where
  ops : ctx'.ops.map Operation.fixed = ctx.ops.map Operation.fixed
  blocks : ctx'.blocks.map Block.fixed = ctx.blocks.map Block.fixed
  regions : ctx'.regions = ctx.regions
  values : ctx'.values = ctx.values
  types : ctx'.types = ctx.types
  paths : ctx'.paths = ctx.paths

theorem map_modify {α β : Type} (rows : Array α) (i : Nat) (f : α → α) (g : α → β)
    (h : ∀ a, g (f a) = g a) : (rows.modify i f).map g = rows.map g := by
  refine Array.ext_getElem? fun j => ?_
  rw [Array.getElem?_map, Array.getElem?_modify, Array.getElem?_map]
  split
  · rw [Option.map_map, show g ∘ f = g from funext h]
  · rfl

namespace InPlace

variable {ctx ctx₁ ctx₂ : Context} {α : Type}

theorem refl (ctx : Context) : ctx.InPlace ctx := ⟨rfl, rfl, rfl, rfl, rfl, rfl⟩

theorem trans (h₁ : ctx.InPlace ctx₁) (h₂ : ctx₁.InPlace ctx₂) : ctx.InPlace ctx₂ :=
  ⟨h₂.ops.trans h₁.ops, h₂.blocks.trans h₁.blocks, h₂.regions.trans h₁.regions,
    h₂.values.trans h₁.values, h₂.types.trans h₁.types, h₂.paths.trans h₁.paths⟩

theorem modifyOp (o : OpRef) (g : Operation → Operation) (hg : ∀ row, (g row).fixed = row.fixed) :
    ctx.InPlace (ctx.modifyOp o g) :=
  ⟨map_modify _ _ _ _ hg, rfl, rfl, rfl, rfl, rfl⟩

theorem modifyBlock (b : BlockRef) (g : Block → Block) (hg : ∀ row, (g row).fixed = row.fixed) :
    ctx.InPlace (ctx.modifyBlock b g) :=
  ⟨rfl, map_modify _ _ _ _ hg, rfl, rfl, rfl, rfl⟩

/-- Nothing is read differently off the fixed part of an operation. -/
theorem readOp (h : ctx.InPlace ctx₁) (f : Operation → α) (default : α)
    (hf : ∀ row : Operation, f row.fixed = f row) :
    ctx₁.readOp f default = ctx.readOp f default := by
  funext o
  have key (c : Context) :
      c.readOp f default o = ((c.ops.map Operation.fixed)[o.index]?.map f).getD default := by
    rw [Context.readOp, Array.getElem?_map, Option.map_map, show f ∘ Operation.fixed = f from
      funext hf]
  rw [key, key, h.ops]

/-- Nothing is read differently off the fixed part of a block. -/
theorem readBlock (h : ctx.InPlace ctx₁) (f : Block → α) (default : α)
    (hf : ∀ row : Block, f row.fixed = f row) :
    ctx₁.readBlock f default = ctx.readBlock f default := by
  funext b
  have key (c : Context) :
      c.readBlock f default b = ((c.blocks.map Block.fixed)[b.index]?.map f).getD default := by
    rw [Context.readBlock, Array.getElem?_map, Option.map_map, show f ∘ Block.fixed = f from
      funext hf]
  rw [key, key, h.blocks]

theorem readRegion (h : ctx.InPlace ctx₁) (f : Region → α) (default : α) :
    ctx₁.readRegion f default = ctx.readRegion f default := by
  funext r
  rw [Context.readRegion, Context.readRegion, h.regions]

theorem ops_size (h : ctx.InPlace ctx₁) : ctx₁.ops.size = ctx.ops.size := by
  simpa using congrArg Array.size h.ops

theorem blocks_size (h : ctx.InPlace ctx₁) : ctx₁.blocks.size = ctx.blocks.size := by
  simpa using congrArg Array.size h.blocks

theorem hasOp (h : ctx.InPlace ctx₁) {o : OpRef} : ctx₁.HasOp o ↔ ctx.HasOp o := by
  rw [HasOp, HasOp, h.ops_size]

theorem hasBlock (h : ctx.InPlace ctx₁) {b : BlockRef} : ctx₁.HasBlock b ↔ ctx.HasBlock b := by
  rw [HasBlock, HasBlock, h.blocks_size]

theorem results (h : ctx.InPlace ctx₁) : ctx₁.results = ctx.results := by
  rw [results_eq_readOp, results_eq_readOp]
  exact h.readOp _ _ fun _ => rfl

theorem args (h : ctx.InPlace ctx₁) : ctx₁.args = ctx.args := by
  rw [args_eq_readBlock, args_eq_readBlock]
  exact h.readBlock _ _ fun _ => rfl

theorem sourceOf (h : ctx.InPlace ctx₁) : ctx₁.sourceOf = ctx.sourceOf := by
  funext v
  rw [Context.sourceOf, Context.sourceOf, h.values]

/-- A context stays coherent if the ownership of operations and the use chains
    do. -/
theorem coherent (h : ctx.InPlace ctx₁) (hc : ctx.Coherent)
    (hops : Linked ctx₁.blockOf ctx₁.opsOf) (huses : ctx₁.UsesExact) : ctx₁.Coherent where
  ops := hops
  blocks := hc.blocks.congr (fun b => congrFun (h.readBlock _ _ fun _ => rfl) b)
    fun r => congrFun (h.readRegion _ _) r
  regions := hc.regions.congr (fun r => congrFun (h.readRegion _ _) r)
    fun o => congrFun (h.readOp _ _ fun _ => rfl) o
  uses := huses
  values := ⟨fun o n v => by rw [h.results, h.sourceOf, hc.values.result_iff],
    fun b n v => by rw [h.args, h.sourceOf, hc.values.argument_iff],
    fun o => by rw [h.results, h.readOp _ _ fun _ => rfl, hc.values.results_length],
    fun b => by rw [h.args, h.readBlock _ _ fun _ => rfl, hc.values.args_length]⟩

end InPlace

/-- What an operation holds are its operands, unless it has been erased. -/
theorem heldBy_eq {ctx : Context} (o : OpRef) :
    ctx.heldBy o = if ctx.isErased o then [] else ctx.operandsOf o := by
  rw [isErased_eq_readOp, heldBy, operandsOf]
  by_cases ho : ctx.HasOp o
  · obtain ⟨row, hrow⟩ := hasOp_iff.1 ho
    simp only [readOp_of_op hrow]
  · simp only [readOp_of_not_hasOp ho, ite_self]

end Context

end Offload
