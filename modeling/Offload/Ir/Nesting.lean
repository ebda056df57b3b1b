import Offload.Ir.Context

/-!
# Nesting

Operations are nested through regions and blocks. Downward, `subtree` and
`nested` list what lies under an operation, and `walk` visits it with the choice
to skip parts or to stop; all three go through regions, blocks and operations in
their order, and meet an operation before what is nested in it. Upward,
`parentOp`, `isAncestor` and `enclosing` follow the owners.

An operation is nested in at most as many others as there are operations. Only
in a context whose links form a cycle is it nested deeper; then the functions
that look down meet the fault `bottomless`, and the ones that look up end.
-/

namespace Offload

/-- How to go on after an operation has been visited. -/
inductive WalkStep
  /-- Visit what is nested in it. -/
  | advance
  /-- Leave out what is nested in it. -/
  | skip
  /-- End the walk. -/
  | stop
  deriving DecidableEq, Repr

namespace Context

variable (ctx : Context)

/-! ## Downward -/

/-- The operations in the blocks of a region. -/
def regionOps (r : RegionRef) : Except Fault (List OpRef) := do
  (← ctx.region r).blocks.flatMapM fun b => return (← ctx.block b).ops

/-- The operations directly under an operation. -/
def children (o : OpRef) : Except Fault (List OpRef) := do
  (← ctx.op o).regions.flatMapM ctx.regionOps

/-- An operation and what is nested in it, `n` levels at most. -/
def subtreeWithin : (n : Nat) → OpRef → Except Fault (List OpRef)
  | 0, _ => throw .bottomless
  | n + 1, o => do return o :: (← (← ctx.children o).flatMapM (subtreeWithin n))

/-- An operation and everything nested in it. -/
def subtree (o : OpRef) : Except Fault (List OpRef) := ctx.subtreeWithin (ctx.ops.size + 1) o

/-- Everything nested in an operation. -/
def nested (o : OpRef) : Except Fault (List OpRef) := return (← ctx.subtree o).tail

section Walk

variable {σ : Type}

/-- Go through a list with a step that says whether to stop. -/
def walkAll {α : Type} (step : α → σ → Except Fault (σ × Bool)) :
    List α → σ → Except Fault (σ × Bool)
  | [], s => return (s, false)
  | a :: as, s => do
    let (s, stopped) ← step a s
    if stopped then return (s, true) else walkAll step as s

/-- Go through the operations of a block. -/
def walkBlock (step : OpRef → σ → Except Fault (σ × Bool)) (b : BlockRef) (s : σ) :
    Except Fault (σ × Bool) := do
  walkAll step (← ctx.block b).ops s

/-- Go through the operations of a region. -/
def walkRegion (step : OpRef → σ → Except Fault (σ × Bool)) (r : RegionRef) (s : σ) :
    Except Fault (σ × Bool) := do
  walkAll (ctx.walkBlock step) (← ctx.region r).blocks s

/-- Visit an operation and what is nested in it, `n` levels at most. The answer
    says whether the walk was stopped. -/
def walkWithin (visit : OpRef → σ → Except Fault (σ × WalkStep)) :
    (n : Nat) → OpRef → σ → Except Fault (σ × Bool)
  | 0, _, _ => throw .bottomless
  | n + 1, o, s => do
    match ← visit o s with
    | (s, .stop) => return (s, true)
    | (s, .skip) => return (s, false)
    | (s, .advance) =>
      walkAll (ctx.walkRegion (walkWithin visit n)) (← ctx.op o).regions s

/-- Visit an operation and everything nested in it. -/
def walk (visit : OpRef → σ → Except Fault (σ × WalkStep)) (o : OpRef) (s : σ) :
    Except Fault (σ × Bool) :=
  ctx.walkWithin visit (ctx.ops.size + 1) o s

end Walk

/-! ## Upward -/

/-- The operation whose regions hold an operation. -/
def parentOp (o : OpRef) : Except Fault (Option OpRef) := do
  let some b := (← ctx.op o).parent | return none
  let some r := (← ctx.block b).parent | return none
  return (← ctx.region r).parent

/-- Whether `ancestor` is met among the first `n` steps up from an operation. -/
def isAncestorWithin (ancestor : OpRef) : (n : Nat) → OpRef → Except Fault Bool
  | 0, _ => return false
  | n + 1, o => do
    if o = ancestor then return true
    match ← ctx.parentOp o with
    | some parent => isAncestorWithin ancestor n parent
    | none => return false

/-- Whether an operation is `ancestor`, or nested in it. -/
def isAncestor (ancestor o : OpRef) : Except Fault Bool :=
  ctx.isAncestorWithin ancestor (ctx.ops.size + 1) o

/-- The first operation with a property among the first `n` steps up. -/
def enclosingWithin (p : Operation → Bool) : (n : Nat) → OpRef → Except Fault (Option OpRef)
  | 0, _ => return none
  | n + 1, o => do
    match ← ctx.parentOp o with
    | none => return none
    | some parent =>
      if p (← ctx.op parent) then return some parent else enclosingWithin p n parent

/-- The innermost operation with a property that an operation is nested in. -/
def enclosing (p : Operation → Bool) (o : OpRef) : Except Fault (Option OpRef) :=
  ctx.enclosingWithin p (ctx.ops.size + 1) o

/-- The operation right before an operation in its block. -/
def previous (o : OpRef) : Except Fault (Option OpRef) := do
  let some b := (← ctx.op o).parent | return none
  let ops := (← ctx.block b).ops
  match ops.idxOf? o with
  | some (i + 1) => return ops[i]?
  | _ => return none

end Context

end Offload
