import Offload.Dialect.Kind
import Offload.Pattern.Editor

/-!
# Applying patterns until nothing changes

A *pattern* looks at an operation, and either changes the program around it or
does not apply. `Greedy.run` applies patterns to the operations nested in a root,
never to the root itself, in passes, until a pass changes nothing or the cap on
the number of passes is reached.

A pass takes operations from a queue that starts with all of them, in the order
of the program. For each it looks for the first pattern that applies, if any: an
index has the places of the patterns by the kind of operations that they look at
(`PatternIndex`). After a change, the operations touched by it and those around
them are queued again — those that are not yet changed in this pass, not erased
and not in the queue. So no operation is changed twice in a pass. What is in the
queue is kept as a set beside it.

Patterns may go on for ever making new operations to change. A pass therefore
has a budget of operations that it may take from the queue, and faults when it
is used up; the default budget lies beyond any program that a machine can hold.
-/

namespace Offload

/-- A way to change the program around an operation. -/
structure Pattern where
  /-- The kind of the operations that the pattern looks at; of any, if none is
      given. -/
  kind? : Option OpKind
  /-- The program after the change, unless the pattern does not apply. -/
  attempt : Editor → OpRef → Except Fault (Option Editor)

/-- The places of patterns in their list, by the kind of operations that they
    look at. -/
structure PatternIndex where
  /-- The places of those that look at one kind; the first entry of a kind
      counts. -/
  byKind : List (OpKind × List Nat)
  /-- The places of those that look at operations of any kind. -/
  generic : List Nat

namespace PatternIndex

def empty : PatternIndex := ⟨[], []⟩

variable (index : PatternIndex)

/-- The places of the patterns that look at operations of one kind and no
    others. -/
def under (kind : OpKind) : List Nat := (index.byKind.lookup kind).getD []

/-- The index with the place of one more pattern. -/
def add (pattern : Pattern) (place : Nat) : PatternIndex :=
  match pattern.kind? with
  | some kind => { index with byKind := (kind, index.under kind ++ [place]) :: index.byKind }
  | none => { index with generic := index.generic ++ [place] }

/-- The index of a list of patterns. -/
def of (patterns : List Pattern) : PatternIndex :=
  patterns.zipIdx.foldl (fun index (pattern, place) => index.add pattern place) empty

/-- The places of the patterns to try on an operation of some kind, in their
    order. -/
def candidates (kind : OpKind) : List Nat :=
  let places := index.under kind
  if index.generic.isEmpty then places
  else sortBy (fun i j => i ≤ j) (places ++ index.generic)

end PatternIndex

/-- What came of applying patterns. -/
structure GreedyResult where
  /-- The number of passes. -/
  passes : Nat
  /-- The number of changes. -/
  changes : Nat
  /-- Whether the last pass changed nothing. -/
  reachedFixpoint : Bool
  deriving DecidableEq, Repr

/-- Patterns, and how long to apply them. -/
structure Greedy where
  patterns : List Pattern
  /-- The cap on the number of passes. -/
  maxPasses : Nat := 47
  /-- The cap on the number of operations taken from the queue in a pass. -/
  budget : Nat := 0x4000000000000000

/-- The state of a pass. -/
structure Pass where
  context : Context
  /-- The operations still to look at. -/
  queue : List OpRef
  /-- The same operations, as a set. -/
  queued : List OpRef
  /-- The operations changed in this pass. -/
  changed : List OpRef
  changes : Nat

namespace Pass

/-- A pass that has yet to look at some operations. -/
def start (context : Context) (queue : List OpRef) : Pass :=
  { context, queue, queued := queue, changed := [], changes := 0 }

/-- An operation was taken from the queue, and others are left. -/
def taken (pass : Pass) (o : OpRef) (queue : List OpRef) : Pass :=
  { pass with queue, queued := pass.queued.filter (· ≠ o) }

/-- Queue an operation, if it is still to be looked at and is not in the queue. -/
def enqueue (pass : Pass) (o : OpRef) : Pass :=
  if !pass.context.isErased o && !pass.changed.contains o && !pass.queued.contains o then
    { pass with queue := pass.queue ++ [o], queued := o :: pass.queued }
  else pass

/-- Queue an operation and those around it up to the root, as far as they are
    still to be looked at; `n` operations at most. -/
def wake (root : OpRef) : (n : Nat) → Pass → OpRef → Except Fault Pass
  | 0, pass, _ => return pass
  | n + 1, pass, o => do
    if o = root then return pass
    let pass := pass.enqueue o
    match ← pass.context.parentOp o with
    | some parent => wake root n pass parent
    | none => return pass

/-- Queue operations and those around them. -/
def wakeAll (root : OpRef) : Pass → List OpRef → Except Fault Pass
  | pass, [] => return pass
  | pass, o :: os => do wakeAll root (← pass.wake root (pass.context.ops.size + 1) o) os

end Pass

namespace Greedy

variable (greedy : Greedy)

/-- The places of the patterns. -/
def index : PatternIndex := .of greedy.patterns

/-- The first of the patterns in some places that applies to an operation,
    applied. -/
def firstAt (ctx : Context) (o : OpRef) : (places : List Nat) → Except Fault (Option Editor)
  | [] => return none
  | place :: rest => do
    let pattern ← found greedy.patterns[place]?
    match ← pattern.attempt { context := ctx } o with
    | some e => return some e
    | none => firstAt ctx o rest

/-- Look at an operation from the queue. -/
def visit (root : OpRef) (pass : Pass) (o : OpRef) : Except Fault Pass := do
  if pass.context.isErased o || o = root then return pass
  if !(← pass.context.isAncestor root o) then return pass
  let places := greedy.index.candidates (← pass.context.kind o)
  match ← greedy.firstAt pass.context o places with
  | none => return pass
  | some e =>
    let pass := { pass with
      context := e.context
      changed := o :: pass.changed
      changes := pass.changes + 1 }
    pass.wakeAll root e.touched

/-- Look at the operations in the queue until it is empty, `n` at most. -/
def drain (root : OpRef) : (n : Nat) → Pass → Except Fault Pass
  | n, pass =>
    match pass.queue with
    | [] => return pass
    | o :: queue =>
      match n with
      | 0 => throw .endless
      | n + 1 => do drain root n (← greedy.visit root (pass.taken o queue) o)

/-- One pass over what is nested in a root: the program after it, and the number
    of changes. -/
def runPass (ctx : Context) (root : OpRef) : Except Fault (Context × Nat) := do
  let queue ← ctx.nested root
  let pass ← greedy.drain root greedy.budget (.start ctx queue)
  return (pass.context, pass.changes)

/-- Up to `n` more passes, after some. -/
def runPasses (root : OpRef) : (n : Nat) → Context → (passes changes : Nat) →
    Except Fault (Context × GreedyResult)
  | 0, ctx, passes, changes => return (ctx, ⟨passes, changes, false⟩)
  | n + 1, ctx, passes, changes => do
    let (ctx, new) ← greedy.runPass ctx root
    if new = 0 then return (ctx, ⟨passes + 1, changes, true⟩)
    else runPasses root n ctx (passes + 1) (changes + new)

/-- Apply the patterns to what is nested in a root. -/
def run (ctx : Context) (root : OpRef) : Except Fault (Context × GreedyResult) :=
  greedy.runPasses root greedy.maxPasses ctx 0 0

end Greedy

end Offload
