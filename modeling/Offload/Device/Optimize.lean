import Offload.Device.Defect
import Offload.Device.Fold
import Offload.Device.Sweep

/-!
# Optimization

`Module.optimize` runs the passes of a level over a well-formed module, and then
makes it fit for the device.

| level | passes                              |
|-------|-------------------------------------|
| 0     | none                                |
| 1     | dead instructions are removed       |
| 2     | constants are folded before that    |
| 3     | dead functions are removed at last  |

The cleanups for the device do not depend on the level: every address is
computed `inbounds`, floating-point operations may be contracted, and what is
there for debuggers alone is removed (`Module.stripDebug`).
-/

namespace Offload.Device

namespace Module

variable (m : Module)

/-! ## The pipeline -/

/-- The passes of a level. If size matters, dead functions are removed at every
    level. -/
def passes (level : Nat) (small : Bool) : Module :=
  let m := if 2 ≤ level then m.mapFunctions (·.foldConstants) else m
  let m := if 1 ≤ level then m.mapFunctions (·.sweepInstructions) else m
  if 3 ≤ level || small then m.sweepFunctions else m

/-- Run the passes over a module that must be well formed, before and after them.
    Defects come with the module as it is when they are found. -/
def runPasses (level : Nat) (small : Bool) : Except (List Defect) Unit × Module :=
  if !m.defects.isEmpty then (.error m.defects, m)
  else
    let m := m.passes level small
    if !m.defects.isEmpty then (.error m.defects, m) else (.ok (), m)

/-! ## Cleanups -/

/-- Compute every address `inbounds`. -/
def markInbounds : Module :=
  m.mapFunctions (·.mapActions fun
    | .address _ element base indexType index => .address true element base indexType index
    | a => a)

/-- Allow all floating-point operations to be contracted. -/
def markContract : Module :=
  m.mapFunctions (·.mapInstructions fun i =>
    if i.action.isFloatMath then { i with contract := true } else i)

/-- Whether a name belongs to the support for debuggers. -/
def isDebugName (name : String) : Bool := name.startsWith "llvm.dbg."

/-- A function without its calls for debuggers and without remarks. -/
def stripDebugFrom (f : Function) : Function :=
  let f := f.filterInstructions fun i => !i.action.callee?.any isDebugName
  { f.mapInstructions ({ · with debug := none }) with debug := none }

/-- The nodes that some nodes lead to, with those found before. At most `n` nodes
    are looked at. -/
def reach : (n : Nat) → (todo found : List NodeRef) → List NodeRef
  | 0, _, found => found
  | _, [], found => found
  | n + 1, r :: todo, found =>
    if found.contains r then reach n todo found
    else reach n (((m.node? r).map Node.references).getD [] ++ todo) (r :: found)

/-- The nodes that the lists lead to. Every number is expanded once, so a bound
    on the steps are the entries of the lists and the references of all nodes. -/
def reachable : List NodeRef :=
  let entries := m.lists.flatMap (·.nodes)
  let references := m.nodes.nodes.flatMap (·.references)
  m.reach (entries.length + references.length + 1) entries []

/-- Remove what is there for debuggers alone, and the nodes to which nothing else
    leads. -/
def stripDebug : Module :=
  let functions := m.functions.filter fun f => !(f.isDeclaration && isDebugName f.name)
  let m := { m with
    functions := functions.map stripDebugFrom
    lists := m.lists.filter fun l => !isDebugName l.name }
  { m with nodes := m.nodes.restrict m.reachable.contains }

/-- All cleanups. -/
def cleanUp : Module := m.markInbounds.markContract.stripDebug

end Module

/-! ## Optimization -/

/-- Why a module cannot be optimized. -/
inductive OptimizeError
  | invalidLevel (level : Int)
  | failed (messages : List String)
  deriving DecidableEq, Repr

/-- The words for an error. -/
def OptimizeError.message : OptimizeError → String
  | invalidLevel level => s!"Invalid serialize to gpu blob optimization level {level}"
  | failed messages =>
    String.join (messages.map fun message => s!"Could not optimize LLVM IR: {message}\n")

namespace Module

variable (m : Module)

/-- A level within the limits. -/
def checkLevel (level : Int) : Except OptimizeError Nat :=
  if 0 ≤ level ∧ level ≤ 3 then .ok level.toNat else .error (.invalidLevel level)

/-- Run a transform, whose failure is a list of messages, and the cleanups after
    it. The module is returned as it was when an error stopped this. -/
def optimizeWith (transform : Module → Except (List String) Unit × Module) (level : Int) :
    Except OptimizeError Unit × Module :=
  match checkLevel level with
  | .error e => (.error e, m)
  | .ok _ =>
    match transform m with
    | (.error messages, m) => (.error (.failed messages), m)
    | (.ok (), m) => (.ok (), m.cleanUp)

/-- Optimize at a level from 0 to 3. -/
def optimize (level : Int) : Except OptimizeError Unit × Module :=
  m.optimizeWith (fun m =>
    let (outcome, m) := m.runPasses level.toNat false
    (outcome.mapError (·.map (·.message)), m)) level

end Module

end Offload.Device
