import Offload.Ir.Clone

/-!
# Editors

An `Editor` is a context together with a record of what has been done to it:
the operations that were created, moved or changed (`touched`), each once and in
the order in which they first were, and those that were erased. Patterns change
programs through an editor, so that whoever applies them knows what to look at
again.
-/

namespace Offload

/-- A context, and what has been done to it. -/
structure Editor where
  context : Context
  touched : List OpRef := []
  erased : List OpRef := []
  deriving Inhabited

namespace Editor

variable (e : Editor)

/-- Whether anything has been done. -/
def hasChanges : Bool := !e.touched.isEmpty || !e.erased.isEmpty

/-- Note that an operation was changed. -/
def touch (o : OpRef) : Editor :=
  if o ∈ e.touched then e else { e with touched := e.touched ++ [o] }

/-- Note that some operations were changed. -/
def touchAll (os : List OpRef) : Editor := os.foldl touch e

/-- Another context in the place of the old one. -/
def withContext (context : Context) : Editor := { e with context }

/-! ## Creation -/

/-- Create a detached operation. -/
def createOp (blueprint : Blueprint) : Except Fault (Editor × OpRef) := do
  let (context, o) ← e.context.createOp blueprint
  return ((e.withContext context).touch o, o)

/-- Put an operation right before another one. -/
def insertOpBefore (anchor o : OpRef) : Except Fault Editor := do
  return (e.withContext (← e.context.moveOpBefore o anchor)).touch o

/-- Put a detached operation at the start of a block. -/
def insertOpAtStart (b : BlockRef) (o : OpRef) : Except Fault Editor := do
  return (e.withContext (← e.context.insertOpAt b 0 o)).touch o

/-- Put a detached operation at the end of a block. -/
def insertOpAtEnd (b : BlockRef) (o : OpRef) : Except Fault Editor := do
  return (e.withContext (← e.context.pushOp b o)).touch o

/-- Put a copy of an operation at the start of a block. -/
def cloneOpAtStart (o : OpRef) (b : BlockRef) : Except Fault (Editor × OpRef) := do
  let (context, _, copy) ← e.context.cloneOp o .empty
  return (← (e.withContext context).insertOpAtStart b copy, copy)

/-! ## Erasure -/

/-- Erase an operation and everything nested in it. Its results must be
    unused. -/
def eraseOp (o : OpRef) : Except Fault Editor := do
  let e := match ← e.context.parentOp o with
    | some parent => e.touch parent
    | none => e
  let context ← (← e.context.detachOp o).eraseOp o
  return { context, touched := e.touched.filter (· ≠ o), erased := e.erased ++ [o] }

/-- Put values in the place of others, one by one. -/
def replaceValues : Editor → List (ValueRef × ValueRef) → Except Fault Editor
  | e, [] => return e
  | e, (old, new) :: rest => do
    let users := (e.context.uses.get old).map Use.user
    let context ← e.context.replaceAllUses old new
    replaceValues ((e.withContext context).touchAll users) rest

/-- Put values in the place of the results of an operation, and erase it. -/
def replaceOpWithValues (o : OpRef) (values : List ValueRef) : Except Fault Editor := do
  let results := e.context.results o
  if results.length ≠ values.length then throw .mismatch
  (← e.replaceValues (results.zip values)).eraseOp o

/-! ## Movement -/

/-- Move an operation right before another one. -/
def moveOpBefore (o anchor : OpRef) : Except Fault Editor := e.insertOpBefore anchor o

/-- Move operations to a position of a block and those after it. -/
def moveOpsTo (b : BlockRef) : Editor → (position : Nat) → List OpRef → Except Fault Editor
  | e, _, [] => return e
  | e, position, o :: os => do
    let context ← (← e.context.detachOp o).insertOpAt b position o
    moveOpsTo b ((e.withContext context).touch o) (position + 1) os

/-- Move operations to the start of a block, in their order. -/
def moveOpsToStart (os : List OpRef) (b : BlockRef) : Except Fault Editor := moveOpsTo b e 0 os

/-- Move operations to the end of a block, in their order. -/
def moveOpsToEnd : Editor → List OpRef → BlockRef → Except Fault Editor
  | e, [], _ => return e
  | e, o :: os, b => do
    let context ← (← e.context.detachOp o).pushOp b o
    moveOpsToEnd ((e.withContext context).touch o) os b

/-- Erase the last operation of a block, and put another one in its place. -/
def replaceTerminator (b : BlockRef) (o : OpRef) : Except Fault Editor := do
  match ← e.context.terminator? b with
  | some old => (← e.eraseOp old).insertOpAtEnd b o
  | none => throw .noTerminator

end Editor

end Offload
