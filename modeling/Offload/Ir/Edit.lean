import Offload.Ir.Nesting

/-!
# Changing programs

The ways in which a program may be changed. Each of them keeps the tables of
the context in step: what is listed in an owner records that owner, and the use
chain of a value lists exactly the operand slots that hold it.

A change that would break this faults instead. Operations, blocks and regions
have at most one owner, so what is owned must be detached first; an operation is
erased with everything nested in it, and only if no result of these is used by
what remains.
-/

namespace Offload.Context

variable (ctx : Context)

/-! ## Creation -/

/-- Whether regions are free for an operation to own, given those that it owns
    already. -/
def checkRegionsFree (o : OpRef) : (owned : List RegionRef) → List RegionRef → Except Fault Unit
  | _, [] => return
  | owned, r :: rs => do
    let region ← ctx.region r
    match if r ∈ owned then some o else region.parent with
    | some owner => throw (.regionTaken r owner o)
    | none => checkRegionsFree o (r :: owned) rs

/-- Create a detached operation, which owns its regions. -/
def createOp (blueprint : Blueprint) : Except Fault (Context × OpRef) := do
  ctx.checkRegionsFree ⟨ctx.ops.size⟩ [] blueprint.regions
  return ctx.addOp blueprint

/-- Create a detached block. -/
def createBlock (location : Location) (argTypes : List TypeRef) (ops : List OpRef) :
    Except Fault (Context × BlockRef) := do
  for o in ops do
    let _ ← ctx.op o
  return ctx.addBlock location argTypes ops

/-- Whether blocks are free for a region to own, given those that it owns
    already. -/
def checkBlocksFree (r : RegionRef) : (owned : List BlockRef) → List BlockRef → Except Fault Unit
  | _, [] => return
  | owned, b :: bs => do
    let block ← ctx.block b
    match if b ∈ owned then some r else block.parent with
    | some owner => throw (.blockTaken b owner r)
    | none => checkBlocksFree r (b :: owned) bs

/-- Create a detached region, which owns its blocks. -/
def createRegion (location : Location) (blocks : List BlockRef) :
    Except Fault (Context × RegionRef) := do
  ctx.checkBlocksFree ⟨ctx.regions.size⟩ [] blocks
  return ctx.addRegion location blocks

/-- Create a region of one empty block. -/
def createBody (location : Location) (argTypes : List TypeRef) :
    Context × RegionRef × BlockRef :=
  let (ctx, b) := ctx.addBlock location argTypes []
  let (ctx, r) := ctx.addRegion location [b]
  (ctx, r, b)

/-! ## Attachment -/

/-- List a detached operation at the end of a block. -/
def pushOp (b : BlockRef) (o : OpRef) : Except Fault Context := do
  match (← ctx.op o).parent with
  | some block => throw (.pushAttached o block)
  | none =>
    let _ ← ctx.block b
    return ctx.append b o

/-- List a detached operation at a position of a block. -/
def insertOpAt (b : BlockRef) (position : Nat) (o : OpRef) : Except Fault Context := do
  match (← ctx.op o).parent with
  | some block => throw (.insertAttached o block)
  | none =>
    if (← ctx.block b).ops.length < position then throw .dangling
    return (ctx.modifyBlock b fun block =>
        { block with ops := block.ops.insertIdx position o }).modifyOp o fun operation =>
      { operation with parent := some b }

/-- List a detached operation before another one of a block. -/
def insertOpBefore (b : BlockRef) (anchor o : OpRef) : Except Fault Context := do
  match (← ctx.block b).ops.idxOf? anchor with
  | some position => ctx.insertOpAt b position o
  | none => throw .anchorElsewhere

/-- Take an operation out of the list of a block. -/
def removeOpFromBlock (b : BlockRef) (o : OpRef) : Except Fault Context := do
  let _ ← ctx.block b
  let operation ← ctx.op o
  let ctx := ctx.modifyBlock b fun block => { block with ops := block.ops.filter (· ≠ o) }
  return if operation.parent = some b then
      ctx.modifyOp o fun operation => { operation with parent := none }
    else ctx

/-- Take an operation out of its block, if it is in one. -/
def detachOp (o : OpRef) : Except Fault Context := do
  match (← ctx.op o).parent with
  | some b => ctx.removeOpFromBlock b o
  | none => return ctx

/-- Move an operation right before another one. -/
def moveOpBefore (o anchor : OpRef) : Except Fault Context := do
  match (← ctx.op anchor).parent with
  | some b => (← ctx.detachOp o).insertOpBefore b anchor o
  | none => throw .anchorDetached

/-! ## Uses -/

/-- Drop the uses of operands by an operation, from position `slot`. -/
def dropUses (uses : UseTable) (user : OpRef) : (slot : Nat) → List ValueRef → UseTable
  | _, [] => uses
  | slot, v :: vs =>
    dropUses (uses.set v ((uses.get v).filter (· ≠ ⟨user, slot⟩))) user (slot + 1) vs

/-- Drop the uses of all operands of some operations. -/
def dropUsesOf : Context → List OpRef → Except Fault Context
  | ctx, [] => return ctx
  | ctx, o :: os => do
    let operation ← ctx.op o
    dropUsesOf { ctx with uses := dropUses ctx.uses o 0 operation.operands } os

/-- Put another value into the slots that a value is used in. -/
def redirect (old new : ValueRef) : Context → List Use → Except Fault Context
  | ctx, [] => return ctx
  | ctx, u :: us => do
    let held ← found (← ctx.op u.user).operands[u.slot]?
    if held ≠ old then throw .mismatch
    let ctx := ctx.modifyOp u.user fun operation =>
      { operation with operands := operation.operands.set u.slot new }
    redirect old new { ctx with uses := ctx.uses.push new u } us

/-- Put another value in the place of a value, wherever it is used. -/
def replaceAllUses (old new : ValueRef) : Except Fault Context :=
  if old = new then return ctx
  else redirect old new { ctx with uses := ctx.uses.set old [] } (ctx.uses.get old)

/-! ## Erasure -/

/-- Whether no value among some is in use. -/
def checkUnused : List ValueRef → Except Fault Unit
  | [] => return
  | v :: vs => do
    let n := (ctx.uses.get v).length
    if n ≠ 0 then throw (.eraseUsed v n)
    checkUnused vs

/-- Erase a detached operation and everything nested in it. -/
def eraseOp (o : OpRef) : Except Fault Context := do
  match (← ctx.op o).parent with
  | some b => throw (.eraseAttached o b)
  | none =>
    let tree ← ctx.subtree o
    let ctx ← ctx.dropUsesOf tree
    ctx.checkUnused (tree.flatMap ctx.results)
    return tree.foldl
      (fun ctx o => ctx.modifyOp o fun operation => { operation with erased := true }) ctx

end Offload.Context
