import Offload.Proofs.Ir.Frame
import Offload.Proofs.Ir.Reachable

/-!
# Contexts without operands

Who owns what, and what has been erased, does not depend on operands. So a context
whose operands were written to, past the use chains, is still as it should be but
for its operands and chains: its *bare* context (`bare`), without either, is sound.
What looks at nesting alone cannot tell a context from its bare one.
-/

namespace Offload

/-- An operation without operands. -/
def Operation.bare (row : Operation) : Operation := { row with operands := [] }

namespace Context

variable {ctx : Context} {o root : OpRef}

/-- A context without operands and use chains. -/
def bare (ctx : Context) : Context :=
  { ctx with ops := ctx.ops.map Operation.bare, uses := .empty }

/-! ## What is read off a bare context -/

theorem op_bare (o : OpRef) : ctx.bare.op o = Operation.bare <$> ctx.op o := by
  rw [op, op, bare, Array.getElem?_map]
  cases ctx.ops[o.index]? <;> rfl

theorem op_bare_of_op {row : Operation} (hrow : ctx.op o = .ok row) :
    ctx.bare.op o = .ok row.bare := by
  rw [op_bare, hrow]
  rfl

theorem size_ops_bare : ctx.bare.ops.size = ctx.ops.size := Array.size_map ..

theorem readOp_bare {α : Type} (f : Operation → α) (default : α) (hf : ∀ row, f row.bare = f row) :
    ctx.bare.readOp f default = ctx.readOp f default := by
  funext p
  rw [readOp, readOp, bare, Array.getElem?_map, Option.map_map,
    show f ∘ Operation.bare = f from funext hf]

@[simp]
theorem hasOp_bare : ctx.bare.HasOp o ↔ ctx.HasOp o := by simp [HasOp, bare]

theorem results_bare : ctx.bare.results = ctx.results := by
  rw [results_eq_readOp, results_eq_readOp]
  exact readOp_bare _ _ fun _ => rfl

theorem blockOf_bare : ctx.bare.blockOf = ctx.blockOf := by
  funext p
  rw [blockOf, readOp_bare _ _ fun _ => rfl]

theorem above_bare : ctx.bare.above = ctx.above := by
  funext p
  rw [above, above, blockOf_bare]
  rfl

theorem within_bare {a : OpRef} : ctx.bare.Within o a ↔ ctx.Within o a := by
  rw [Within, Within, above_bare]

theorem inPlace_bare : ctx.InPlace ctx.bare :=
  ⟨by
    rw [bare, Array.map_map]
    rfl, rfl, rfl, rfl, rfl, rfl⟩

/-- A bare context holds nothing, so its chains have nothing to agree with. -/
theorem Sound.bare (h : ctx.Sound) : ctx.bare.Sound := by
  refine ⟨inPlace_bare.coherent h.coherent ?_ ⟨fun v u => ?_, fun v => List.nodup_nil⟩,
    h.grounded.mono fun p q hq => by rwa [above_bare] at hq⟩
  · exact h.coherent.ops.congr (congrFun (readOp_bare _ _ fun _ => rfl)) fun _ => rfl
  · have hheld : ctx.bare.heldBy u.user = [] := by
      rw [heldBy, readOp, Context.bare, Array.getElem?_map]
      cases ctx.ops[u.user.index]? <;> simp [Operation.bare]
    rw [hheld]
    exact iff_of_false List.not_mem_nil (by simp)

/-- To write other operands into rows makes no difference to the bare context. -/
theorem bare_modifyOp {change : Operation → Operation} (h : ∀ row, (change row).bare = row.bare)
    (o : OpRef) : (ctx.modifyOp o change).bare = ctx.bare := by
  rw [bare, bare, modifyOp, map_modify _ _ _ _ h]

/-! ## What looks at nesting alone -/

theorem parentOp_bare (o : OpRef) : ctx.bare.parentOp o = ctx.parentOp o := by
  rw [parentOp, parentOp, op_bare]
  cases ctx.op o <;> rfl

theorem isAncestorWithin_bare (a : OpRef) (n : Nat) (o : OpRef) :
    ctx.bare.isAncestorWithin a n o = ctx.isAncestorWithin a n o := by
  induction n generalizing o with
  | zero => rfl
  | succ n ih => simp only [isAncestorWithin, parentOp_bare, ih]

theorem isAncestor_bare (a o : OpRef) : ctx.bare.isAncestor a o = ctx.isAncestor a o := by
  rw [isAncestor, isAncestor, isAncestorWithin_bare, size_ops_bare]

theorem children_bare (o : OpRef) : ctx.bare.children o = ctx.children o := by
  rw [children, children, op_bare]
  cases ctx.op o <;> rfl

theorem subtreeWithin_bare (n : Nat) (o : OpRef) :
    ctx.bare.subtreeWithin n o = ctx.subtreeWithin n o := by
  induction n generalizing o with
  | zero => rfl
  | succ n ih => simp only [subtreeWithin, children_bare, funext ih]

theorem subtree_bare (o : OpRef) : ctx.bare.subtree o = ctx.subtree o := by
  rw [subtree, subtree, subtreeWithin_bare, size_ops_bare]

end Context

end Offload
