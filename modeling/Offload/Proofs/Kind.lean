import Offload.Dialect.Kind
import Offload.Proofs.Ir.Rows

/-!
# Kinds as readings

The kind of an operation and its attributes are readings like the links are. The
facts about kinds that the parallel patterns rely on stand here as well: an
operation that ends a block is none of those that hold others.
-/

namespace Offload

namespace Context

variable {ctx : Context} {o : OpRef} {kind : OpKind}

/-- The kind of an operation. -/
abbrev kindOf (ctx : Context) : OpRef → OpKind := ctx.readOp (·.kind) ⟨"", ""⟩

/-- The attributes of an operation. -/
abbrev attributesOf (ctx : Context) : OpRef → Attributes := ctx.readOp (·.attributes) {}

theorem kind_eq_ok (hrun : ctx.kind o = .ok kind) : ctx.HasOp o ∧ ctx.kindOf o = kind := by
  obtain ⟨row, hrow, hrun⟩ := Outcome.bind_eq_ok.1 hrun
  exact ⟨hasOp_iff.2 ⟨row, hrow⟩, (readOp_of_op hrow _ _).trans (Outcome.pure_eq_ok.1 hrun)⟩

theorem kind_ok (ho : ctx.HasOp o) : ctx.kind o = .ok (ctx.kindOf o) := by
  obtain ⟨row, hrow⟩ := hasOp_iff.1 ho
  rw [Context.kind, hrow, kindOf, readOp_of_op hrow]
  rfl

theorem isKind_ok (ho : ctx.HasOp o) : ctx.isKind o kind = .ok (decide (ctx.kindOf o = kind)) := by
  rw [isKind, kind_ok ho]
  rfl

theorem isKind_eq_ok {answer : Bool} (hrun : ctx.isKind o kind = .ok answer) :
    ctx.HasOp o ∧ answer = decide (ctx.kindOf o = kind) := by
  obtain ⟨k, hk, hrun⟩ := Outcome.bind_eq_ok.1 hrun
  obtain ⟨ho, rfl⟩ := kind_eq_ok hk
  exact ⟨ho, (Outcome.pure_eq_ok.1 hrun).symm⟩

end Context

namespace OpKind

theorem parallel_not_isTerminator : ¬parallel.isTerminator := by decide

theorem loop_not_isTerminator : ¬loop.isTerminator := by decide

theorem conditional_not_isTerminator : ¬conditional.isTerminator := by decide

end OpKind

end Offload
