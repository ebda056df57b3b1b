import Offload.Ir.Edit

/-!
# Copying operations

A clone of an operation is a detached copy of it with everything nested in it,
made of fresh entities throughout. Operands that a `ValueMap` maps are mapped,
all others are shared with the operation itself. While the copy is made the map grows:
every result and every block argument is mapped to its copy, so that uses inside
the copy stay inside it.
-/

namespace Offload

/-- A finite map of values, the latest entry first. -/
structure ValueMap where
  entries : List (ValueRef × ValueRef)
  deriving DecidableEq, Repr, Inhabited

namespace ValueMap

def empty : ValueMap := ⟨[]⟩

/-- The value that a value is mapped to; itself, if it is not mapped. -/
def apply (m : ValueMap) (v : ValueRef) : ValueRef := (m.entries.lookup v).getD v

/-- Map a value, in the place of an earlier entry. -/
def insert (m : ValueMap) (v w : ValueRef) : ValueMap :=
  ⟨(v, w) :: m.entries.filter (·.1 ≠ v)⟩

/-- Map values one by one. -/
def insertAll (m : ValueMap) (vs ws : List ValueRef) : ValueMap :=
  (vs.zip ws).foldl (fun m (v, w) => m.insert v w) m

end ValueMap

/-- The state of copying: the context and the map so far. -/
structure Cloning where
  context : Context
  map : ValueMap

abbrev CloneM := StateT Cloning (Except Fault)

namespace Clone

/-- Change the context. -/
def onContext {α : Type} (step : Context → Context × α) : CloneM α :=
  modifyGet fun s =>
    let (context, a) := step s.context
    (a, { s with context })

/-- Map values to their copies. -/
def record (vs ws : List ValueRef) : CloneM Unit :=
  modify fun s => { s with map := s.map.insertAll vs ws }

/-- Copy a block, given how to copy operations. -/
def block (op : OpRef → CloneM OpRef) (b : BlockRef) : CloneM BlockRef := do
  let source ← (← get).context.block b
  let copy ← onContext (·.addBlock source.location source.argTypes [])
  record source.args ((← get).context.args copy)
  for o in source.ops do
    let o' ← op o
    onContext fun ctx => (ctx.append copy o', ())
  return copy

/-- Copy a region, given how to copy operations. -/
def region (op : OpRef → CloneM OpRef) (r : RegionRef) : CloneM RegionRef := do
  let source ← (← get).context.region r
  let blocks ← source.blocks.mapM (block op)
  onContext (·.addRegion source.location blocks)

/-- Copy an operation in which operations are nested at most `n` deep. -/
def opWithin : (n : Nat) → OpRef → CloneM OpRef
  | 0, _ => throw .bottomless
  | n + 1, o => do
    let source ← (← get).context.op o
    let operands := source.operands.map (← get).map.apply
    let regions ← source.regions.mapM (region (opWithin n))
    let copy ← onContext (·.addOp { source.toBlueprint with operands, regions })
    record source.results ((← get).context.results copy)
    return copy

end Clone

/-- Copy an operation with everything nested in it. -/
def Context.cloneOp (ctx : Context) (o : OpRef) (map : ValueMap) :
    Except Fault (Context × ValueMap × OpRef) := do
  let (copy, s) ← (Clone.opWithin (ctx.ops.size + 1) o).run { context := ctx, map }
  return (s.context, s.map, copy)

end Offload
