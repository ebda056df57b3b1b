import Offload.Dialect.Kind
import Offload.Ir.Nesting

/-!
# Read-only operations

An operation is *read-only* if running it at most reads memory, as far as the
traits of the kinds involved tell. An operation with declared effects is
read-only if all of them are reads. One with recursive effects is read-only if
all operations directly under it are, and its own declared effects, if any, are
reads. Of any other operation nothing is known, so it is not read-only.
-/

namespace Offload.Context

/-- Whether declared effects, of which there may be none, are all reads. -/
def onlyReads (kind : OpKind) : Bool :=
  match kind.effects? with
  | some effects => effects.all (· = .read)
  | none => kind.isRecursive

/-- Whether an operation is read-only, looking `n` levels deep. -/
def isReadOnlyWithin (ctx : Context) : (n : Nat) → OpRef → Except Fault Bool
  | 0, _ => throw .bottomless
  | n + 1, o => do
    let kind ← ctx.kind o
    if kind.isRecursive then
      let inside ← (← ctx.op o).regions.allM fun r => do
        (← ctx.region r).blocks.allM fun b => do
          (← ctx.block b).ops.allM (isReadOnlyWithin ctx n)
      if !inside then return false
    return onlyReads kind

/-- Whether an operation at most reads memory. -/
def isReadOnly (ctx : Context) (o : OpRef) : Except Fault Bool :=
  ctx.isReadOnlyWithin (ctx.ops.size + 1) o

end Offload.Context
