import Offload.Ir.Handle

/-!
# Faults

A *fault* is a breach of contract by the caller of the library: a handle that
names nothing, an operation attached twice, an accessor applied to an
operation that lacks the attribute it reads. A fault ends the computation that
met it. Expected failures — malformed text, a module that does not verify — are
not faults, and have error types of their own.

Every fault is a cause, with the handles involved; `Fault.message` words those
that are worth wording. The others (`dangling`, `mismatch`, `overflow`,
`bottomless`, `endless`) have no words of their own.
-/

namespace Offload

/-- A breach of contract by a caller. -/
inductive Fault
  /-- A handle, or a position in a list, names nothing. -/
  | dangling
  /-- Two lists that must have the same length, or two handles that must be
      equal, differ. -/
  | mismatch
  /-- A number does not fit its width. -/
  | overflow
  /-- The operations are nested in a cycle. -/
  | bottomless
  /-- A computation used up its budget. -/
  | endless
  | regionTaken (region : RegionRef) (owner op : OpRef)
  | blockTaken (block : BlockRef) (owner region : RegionRef)
  | pushAttached (op : OpRef) (block : BlockRef)
  | insertAttached (op : OpRef) (block : BlockRef)
  | anchorElsewhere
  | anchorDetached
  | eraseAttached (op : OpRef) (block : BlockRef)
  | eraseUsed (value : ValueRef) (uses : Nat)
  | noTerminator
  | missingAttribute (key : String)
  | unnamedFunction
  | untypedFunction
  | unnamedCallee
  | unnamedGpuModule
  | invalidAfter (pass findings : String)
  | powiType (type : String)
  deriving DecidableEq, Repr

/-- The words for a fault, for those that have words. -/
def Fault.message : Fault → Option String
  | dangling | mismatch | overflow | bottomless | endless => none
  | regionTaken region owner op =>
    s!"create_op: region {region} already belongs to operation {owner}; cannot reassign to {op}"
  | blockTaken block owner region =>
    s!"create_region: block {block} already belongs to region {owner}; "
      ++ s!"cannot reassign to {region}"
  | pushAttached op block =>
    s!"push_op: operation {op} already belongs to block Some({block}); "
      ++ "remove it from the old block first"
  | insertAttached op block =>
    s!"insert_op_at: operation {op} already belongs to block Some({block}); "
      ++ "remove it from the old block first"
  | anchorElsewhere => "insert_op_before: `before` op not found in block"
  | anchorDetached => "move_op_before: `before` op is not attached to a block"
  | eraseAttached op block =>
    s!"remove_op: operation {op} is still attached to block Some({block}); "
      ++ "call detach_op first"
  | eraseUsed value uses =>
    s!"remove_op: result value {value} still has {uses} use(s); "
      ++ "replace all uses before removing the operation"
  | noTerminator => "replace_terminator: block has no operations"
  | missingAttribute key => s!"missing attribute: {key}"
  | unnamedFunction => "func.func without sym_name"
  | untypedFunction => "func.func without type"
  | unnamedCallee => "func.call without callee"
  | unnamedGpuModule => "gpu.module without sym_name"
  | invalidAfter pass findings => s!"IR validation failed after `{pass}`:\n{findings}"
  | powiType type => s!"powi on unsupported type {type}"

/-- The value of a look-up that its caller promises to succeed. -/
def found {α : Type} : Option α → Except Fault α
  | some a => .ok a
  | none => .error .dangling

@[simp]
theorem found_some {α : Type} (a : α) : found (some a) = .ok a := rfl

theorem found_eq_ok_iff {α : Type} {o : Option α} {a : α} : found o = .ok a ↔ o = some a := by
  cases o <;> simp [found]

end Offload
