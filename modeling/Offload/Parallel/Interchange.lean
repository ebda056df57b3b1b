import Offload.Dialect.Make
import Offload.Pattern.Greedy

/-!
# Interchanging parallel regions with what is around them

A loop that does nothing but launch a team in every iteration becomes a team
that runs the loop. A barrier ends every iteration, where the team was joined:

```text
scf.for %i {                 omp.parallel {
  omp.parallel {               scf.for %i {
    body(%i)          ==>        body(%i)
    omp.terminator               omp.barrier
  }                              scf.yield
  scf.yield                    }
}                              omp.terminator
                             }
```

The same goes for a conditional that does nothing but launch a team if its
condition holds. It runs once, and needs no barrier. Neither may have results,
which the region could not hand out.
-/

namespace Offload.Parallel

/-- The operation around a parallel region that is alone in its block but for
    the terminator; only if it has no results. -/
def soleParent? (ctx : Context) (o : OpRef) : Except Fault (Option OpRef) := do
  if !(← ctx.isKind o .parallel) then return none
  let some b := (← ctx.op o).parent | return none
  if (← ctx.block b).ops.length ≠ 2 then return none
  let some parent := (← ctx.parentOp o) | return none
  return if (ctx.results parent).isEmpty then some parent else none

/-- Put a barrier before the end of a block, if the block has one. -/
def insertBarrier (e : Editor) (location : Location) (b : BlockRef) : Except Fault Editor := do
  match ← e.context.terminator? b with
  | none => return e
  | some last =>
    let (context, barrier) ← e.context.createOp (.bare location .barrier)
    (e.withContext context).insertOpBefore last barrier

/-- Swap a parallel region with the operation around it: the region takes the
    place of that operation, the block around the region takes its contents, and
    the operation moves into its body. -/
def swap (e : Editor) (o outer : OpRef) (outerBlock : BlockRef) (withBarrier : Bool) :
    Except Fault Editor := do
  let e ← e.moveOpBefore o outer
  let body ← e.context.blockAt o 0
  match ← e.context.terminator? body with
  | none => return e
  | some last =>
    let contents := (← e.context.block body).ops.filter (· ≠ last)
    let e ← e.moveOpsToStart contents outerBlock
    let e ← if withBarrier then insertBarrier e (← e.context.op o).location outerBlock
      else pure e
    e.moveOpBefore outer last

/-- Whether the body of a parallel region has no operations. -/
def isHollow (ctx : Context) (o : OpRef) : Except Fault Bool := do
  return (← ctx.terminator? (← ctx.blockAt o 0)).isNone

/-- Swap a parallel region with the loop around it. -/
def leaveLoop? (e : Editor) (o : OpRef) : Except Fault (Option Editor) := do
  let some outer := (← soleParent? e.context o) | return none
  if !(← e.context.isKind outer .loop) then return none
  if ← isHollow e.context o then return none
  return some (← swap e o outer (← e.context.blockAt outer 0) true)

/-- Swap a parallel region with the conditional in whose first branch it is. -/
def leaveConditional? (e : Editor) (o : OpRef) : Except Fault (Option Editor) := do
  let some outer := (← soleParent? e.context o) | return none
  if !(← e.context.isKind outer .conditional) then return none
  let branch ← e.context.blockAt outer 0
  if (← e.context.op o).parent ≠ some branch then return none
  if ← isHollow e.context o then return none
  return some (← swap e o outer branch false)

/-- Move a parallel region out of a loop. -/
def leaveLoop : Pattern where
  kind? := some .parallel
  attempt := leaveLoop?

/-- Move a parallel region out of a conditional. -/
def leaveConditional : Pattern where
  kind? := some .parallel
  attempt := leaveConditional?

end Offload.Parallel
