import Offload.Dialect.Make
import Offload.Effects
import Offload.Pattern.Greedy

/-!
# Merging parallel regions

A parallel region launches a team of workers, and joins them at its end. Two
regions in a row are merged into one, with a barrier where the first one ended:

```text
omp.parallel {            omp.parallel {
  codeA                     codeA
  omp.terminator            omp.barrier
}                  ==>      %c = arith.const
%c = arith.const            codeB(%c)
omp.parallel {              omp.terminator
  codeB(%c)               }
  omp.terminator
}
```

What stands between them moves into the second region first, from the last
operation to the first, as long as it is read-only and used nowhere but inside
that region: then it makes no difference that every worker runs it.
-/

namespace Offload.Parallel

/-- Follow the owners of an operation to the outermost one, `n` steps at most. -/
def outermostWithin (ctx : Context) : (n : Nat) → OpRef → Except Fault OpRef
  | 0, o => return o
  | n + 1, o => do
    match ← ctx.parentOp o with
    | some parent => outermostWithin ctx n parent
    | none => return o

/-- The function around an operation; without one, the outermost operation
    around it. -/
def scopeOf (ctx : Context) (o : OpRef) : Except Fault OpRef := do
  match ← ctx.enclosing (·.kind = .func) o with
  | some function => return function
  | none => outermostWithin ctx (ctx.ops.size + 1) o

/-- Whether the scope of an operation has a parallel region outside it. -/
def hasOther (ctx : Context) (o : OpRef) : Except Fault Bool := do
  let visit (other : OpRef) (_ : Unit) : Except Fault (Unit × WalkStep) := do
    if !(← ctx.isKind other .parallel) then return ((), .advance)
    else if ← ctx.isAncestor o other then return ((), .skip)
    else return ((), .stop)
  return (← ctx.walk visit (← scopeOf ctx o) ()).2

/-- Whether the results of an operation are used nowhere but inside another. -/
def usedOnlyInside (ctx : Context) (o region : OpRef) : Except Fault Bool :=
  (ctx.results o).allM fun v => (ctx.uses.get v).allM fun u => ctx.isAncestor region u.user

/-- Move the operation before a parallel region into it: a copy takes its place
    at the start of the body. -/
def absorb (e : Editor) (o previous : OpRef) : Except Fault Editor := do
  let body ← e.context.blockAt o 0
  let (e, copy) ← e.cloneOpAtStart previous body
  e.replaceOpWithValues previous (e.context.results copy)

/-- Where the way back from a parallel region ends. -/
inductive Stop
  /-- At another parallel region. -/
  | atRegion (previous : OpRef)
  /-- At an operation that cannot be moved, or at the start of the block. -/
  | atWall
  deriving DecidableEq, Repr

/-- Move operations before a parallel region into it, `n` of them at most. The
    answer has the number of them, and what stopped the way back. -/
def absorbAll (o : OpRef) : (n : Nat) → Editor → (moved : Nat) →
    Except Fault (Editor × Nat × Stop)
  | 0, e, moved => return (e, moved, .atWall)
  | n + 1, e, moved => do
    let some previous := (← e.context.previous o) | return (e, moved, .atWall)
    if ← e.context.isKind previous .parallel then return (e, moved, .atRegion previous)
    else if !(← e.context.isReadOnly previous) then return (e, moved, .atWall)
    else if !(← usedOnlyInside e.context previous o) then return (e, moved, .atWall)
    else absorbAll o n (← absorb e o previous) (moved + 1)

/-- Append the body of a parallel region to that of the one before it, with a
    barrier between them. -/
def fuse (e : Editor) (o previous : OpRef) : Except Fault Editor := do
  let location := (← e.context.op o).location
  let target ← e.context.blockAt previous 0
  let (context, barrier) ← e.context.createOp (.bare location .barrier)
  let e ← (e.withContext context).replaceTerminator target barrier
  let source ← e.context.blockAt o 0
  let e ← e.moveOpsToEnd (← e.context.block source).ops target
  e.eraseOp o

/-- Merge a parallel region with the one before it, if it has one. Without one,
    it applies as well if something could be moved into the region. -/
def merge? (e : Editor) (o : OpRef) : Except Fault (Option Editor) := do
  if !(← e.context.isKind o .parallel) then return none
  let some b := (← e.context.op o).parent | return none
  let ops := (← e.context.block b).ops
  if ops.head? = some o then return none
  if !(← hasOther e.context o) then return none
  let (e, moved, stop) ← absorbAll o (ops.length + 1) e 0
  match stop with
  | .atRegion previous => return some (← fuse e o previous)
  | .atWall => return if moved = 0 then none else some e

/-- Merge adjacent parallel regions. -/
def merge : Pattern where
  kind? := some .parallel
  attempt := merge?

end Offload.Parallel
