import Offload.Dialect.Access
import Offload.Ir.Nesting

/-!
# Validity

A program is *valid* if five checks of its root find nothing:

* *use chains*: the operands under the root and the use chains of their values
  agree, in both directions;
* *terminators*: every block of an operation that needs one ends with its only
  terminator;
* *links*: what is listed in an owner records that owner;
* *scoping*: every operand is defined before its use, in the same block or in
  one around it;
* *shapes*: operations of known kinds have the operands, results, regions,
  blocks and attributes that their accessors read.

The first three say that the tables of the context tell one story, the fourth
that the program makes sense, and the last that the accessors find what they read.
A check lists what it finds in the order of the program.
-/

namespace Offload

/-! ## Findings -/

/-- How many blocks a region should have. -/
inductive BlockCount
  | one
  | atMostOne
  | any
  deriving DecidableEq, Repr

namespace BlockCount

def admits : BlockCount → Nat → Bool
  | one, n => n = 1
  | atMostOne, n => n ≤ 1
  | any, _ => true

def text : BlockCount → String
  | one => "exactly one block"
  | atMostOne => "at most one block"
  | any => "any number of blocks"

end BlockCount

/-- What an attribute should be. -/
inductive AttributeSort
  | any
  | symbol
  | type
  | dimension
  deriving DecidableEq, Repr

namespace AttributeSort

def admits : AttributeSort → Attribute → Bool
  | any, _ => true
  | symbol, a => a.asSymbol?.isSome
  | type, a => a.asType?.isSome
  | dimension, a => (a.asSymbol?.bind Dimension.ofName?).isSome

def text : AttributeSort → String
  | any => "a value"
  | symbol => "a symbol"
  | type => "a type"
  | dimension => "one of @x, @y, @z"

end AttributeSort

/-- How many operands an operation should have. -/
inductive OperandCount
  | exactly (n : Nat)
  | atLeast (n : Nat)
  deriving DecidableEq, Repr

namespace OperandCount

def admits : OperandCount → Nat → Bool
  | exactly n, found => found = n
  | atLeast n, found => n ≤ found

def text : OperandCount → String
  | exactly n => s!"{n}"
  | atLeast n => s!"at least {n}"

end OperandCount

/-- How an operation departs from the shape of its kind. -/
inductive ShapeFlaw
  | operands (expected : OperandCount) (found : Nat)
  | results (expected found : Nat)
  | regions (expected found : Nat)
  | blocks (region : Nat) (expected : BlockCount) (found : Nat)
  | missing (key : String)
  | illSorted (key : String) (expected : AttributeSort)
  deriving DecidableEq, Repr

/-- The words for a flaw, after the name of the operation. -/
def ShapeFlaw.text : ShapeFlaw → String
  | operands expected found => s!"takes {expected.text} operand(s), found {found}"
  | results expected found => s!"produces {expected} result(s), found {found}"
  | regions expected found => s!"needs {expected} region(s), found {found}"
  | blocks region expected found => s!"region #{region} needs {expected.text}, found {found}"
  | missing key => s!"is missing attribute `{key}`"
  | illSorted key expected => s!"attribute `{key}` must be {expected.text}"

/-- Something that makes a program invalid. Operations come with their kinds,
    for the words. -/
inductive Finding
  | missingUse (slot : Nat) (kind : OpKind) (op : OpRef) (value : ValueRef)
  | erasedUse (value : ValueRef) (user : OpRef)
  | staleUse (value : ValueRef) (user : OpRef) (slot : Nat)
  | terminators (block : BlockRef) (kind : OpKind) (op : OpRef) (found : Nat)
  | regionOwner (region : RegionRef) (owner : OpRef) (recorded : Option OpRef)
  | blockOwner (block : BlockRef) (owner : RegionRef) (recorded : Option RegionRef)
  | opOwner (kind : OpKind) (op : OpRef) (owner : BlockRef) (recorded : Option BlockRef)
  | erasedListed (op : OpRef) (block : BlockRef)
  | outOfScope (slot : Nat) (kind : OpKind) (op : OpRef) (value : ValueRef) (source : ValueDef)
  | shape (kind : OpKind) (op : OpRef) (flaw : ShapeFlaw)
  | noInductionVariable (op : OpRef)
  deriving DecidableEq, Repr

/-- The words for a finding. -/
def Finding.message : Finding → String
  | missingUse slot kind op value =>
    s!"operand #{slot} of {kind} ({op}) uses {value} but no use-chain entry exists"
  | erasedUse value user => s!"{value} is still used by erased operation {user}"
  | staleUse value user slot =>
    s!"use-chain entry for {value} claims use by {user} operand #{slot}, "
      ++ "but no such operand exists"
  | terminators block kind op found =>
    s!"{block} in {kind} ({op}) must end with exactly one terminator, found {found}"
  | regionOwner region owner recorded =>
    s!"{region} is owned by {owner} but records parent {optionalText recorded}"
  | blockOwner block owner recorded =>
    s!"{block} is listed in {owner} but records parent {optionalText recorded}"
  | opOwner kind op owner recorded =>
    s!"{kind} ({op}) is listed in {owner} but records parent {optionalText recorded}"
  | erasedListed op block => s!"erased operation {op} is still listed in {block}"
  | outOfScope slot kind op value source =>
    s!"operand #{slot} of {kind} ({op}) is {value}, {source}, which is not in scope"
  | shape kind op flaw => s!"{kind} ({op}) {flaw.text}"
  | noInductionVariable op => s!"scf.for ({op}) body has no induction variable"

/-- What each of the checks found. -/
structure Findings where
  useChains : List Finding
  terminators : List Finding
  links : List Finding
  scoping : List Finding
  shapes : List Finding
  deriving DecidableEq, Repr

namespace Findings

/-- Whether nothing was found. -/
def isEmpty (f : Findings) : Bool :=
  f.useChains.isEmpty && f.terminators.isEmpty && f.links.isEmpty && f.scoping.isEmpty
    && f.shapes.isEmpty

/-- The report of one check. -/
def reportOf (label : String) (findings : List Finding) : String :=
  if findings.isEmpty then ""
  else s!"{findings.length} {label} error(s) found:\n"
    ++ String.join (findings.map fun f => s!"  - {f.message}\n")

/-- The report of all checks. -/
def text (f : Findings) : String :=
  if f.isEmpty then "validation passed"
  else
    reportOf "use-chain" f.useChains
      ++ reportOf "terminator" f.terminators
      ++ reportOf "structure" f.links
      ++ reportOf "scoping" f.scoping
      ++ reportOf "shape" f.shapes

end Findings

/-! ## Shapes -/

/-- The parts that operations of a kind have. -/
structure Shape where
  operands : OperandCount
  /-- The number of results, if it is fixed. -/
  results : Option Nat
  regions : List BlockCount := []
  attributes : List (String × AttributeSort) := []
  deriving DecidableEq, Repr

namespace OpKind

/-- The shape of grid queries. -/
def gridShape : Shape where
  operands := .exactly 0
  results := some 1
  attributes := [("dimension", .dimension)]

/-- The kinds with a shape. -/
def shapes : List (OpKind × Shape) :=
  (binary.map fun kind => (kind, { operands := .exactly 2, results := some 1 })) ++ [
    (coreModule, { operands := .exactly 0, results := some 0, regions := [.one] }),
    (func, {
      operands := .exactly 0
      results := some 0
      regions := [.any]
      attributes := [("sym_name", .symbol), ("type", .type)] }),
    (call, { operands := .atLeast 0, results := none, attributes := [("callee", .symbol)] }),
    (gpuModule, {
      operands := .exactly 0
      results := some 0
      regions := [.one]
      attributes := [("sym_name", .symbol)] }),
    (threadId, gridShape),
    (blockId, gridShape),
    (blockDim, gridShape),
    (parallel, { operands := .exactly 0, results := some 0, regions := [.one] }),
    (loop, { operands := .atLeast 3, results := none, regions := [.one] }),
    (conditional, { operands := .exactly 1, results := none, regions := [.one, .atMostOne] }),
    (const, { operands := .exactly 0, results := some 1, attributes := [("value", .any)] }),
    (alloca, { operands := .exactly 0, results := some 1, attributes := [("elem_type", .type)] }),
    (load, { operands := .exactly 1, results := some 1 }),
    (store, { operands := .exactly 2, results := some 0 }),
    (offset, { operands := .exactly 2, results := some 1, attributes := [("elem_type", .type)] })]

/-- The shape of a kind, if it has one. -/
def shape? (kind : OpKind) : Option Shape := shapes.lookup kind

/-- Whether every block of operations of a kind ends with a terminator. -/
def needsTerminator (kind : OpKind) : Bool :=
  [parallel, loop, conditional, func].contains kind

end OpKind

namespace Context

variable (ctx : Context)

/-! ## Use chains -/

/-- A value in an operand slot. -/
structure Slot where
  value : ValueRef
  use : Use
  deriving DecidableEq

/-- The operand slots of an operation, with the values in them. -/
def slotsOf (o : OpRef) : Except Fault (List Slot) := do
  return (← ctx.op o).operands.zipIdx.map fun (v, n) => ⟨v, ⟨o, n⟩⟩

/-- The values defined by an operation and by the blocks of its regions. -/
def definedBy (o : OpRef) : Except Fault (List ValueRef) := do
  let args ← (← ctx.op o).regions.flatMapM fun r => do
    return (← ctx.region r).blocks.flatMap ctx.args
  return ctx.results o ++ args

/-- An operand slot that its value does not know of. -/
def missingUse? (s : Slot) : Except Fault (Option Finding) := do
  if (ctx.uses.get s.value).contains s.use then return none
  else return some (.missingUse s.use.slot (← ctx.kind s.use.user) s.use.user s.value)

/-- A use that is none, of a value that has it in its chain. -/
def falseUse? (root : OpRef) (slots : List Slot) (v : ValueRef) (u : Use) :
    Except Fault (Option Finding) := do
  if ctx.isErased u.user then return some (.erasedUse v u.user)
  else if (← ctx.isAncestor root u.user) && !slots.contains ⟨v, u⟩ then
    return some (.staleUse v u.user u.slot)
  else return none

/-- Whether the use chains agree with the operands under a root. -/
def checkUseChains (root : OpRef) : Except Fault (List Finding) := do
  let ops ← ctx.subtree root
  let slots := (← ops.flatMapM ctx.slotsOf).eraseDups
  let defined ← ops.flatMapM ctx.definedBy
  let missing ← slots.filterMapM ctx.missingUse?
  let values := (defined ++ slots.map Slot.value).eraseDups
  let wrong ← values.flatMapM fun v => (ctx.uses.get v).filterMapM (ctx.falseUse? root slots v)
  return missing ++ wrong

/-! ## Terminators -/

/-- A block of an operation that does not end with its only terminator. -/
def badTerminator? (kind : OpKind) (o : OpRef) (b : BlockRef) :
    Except Fault (Option Finding) := do
  let kinds ← (← ctx.block b).ops.mapM ctx.kind
  let found := (kinds.filter OpKind.isTerminator).length
  if kinds.getLast?.any OpKind.isTerminator && found = 1 then return none
  else return some (.terminators b kind o found)

/-- Whether the blocks of an operation end as they must. -/
def checkTerminatorsOf (o : OpRef) : Except Fault (List Finding) := do
  let kind ← ctx.kind o
  if kind.needsTerminator then
    (← ctx.op o).regions.flatMapM fun r => do
      (← ctx.region r).blocks.filterMapM (ctx.badTerminator? kind o)
  else return []

/-- Whether the blocks under a root end as they must. -/
def checkTerminators (root : OpRef) : Except Fault (List Finding) := do
  (← ctx.subtree root).flatMapM ctx.checkTerminatorsOf

/-! ## Links -/

/-- Whether an operation listed in a block records it. -/
def checkOpLink (b : BlockRef) (o : OpRef) : Except Fault (List Finding) := do
  let operation ← ctx.op o
  return (if operation.parent = some b then []
      else [.opOwner operation.kind o b operation.parent])
    ++ (if operation.erased then [.erasedListed o b] else [])

/-- Whether a block listed in a region records it, and its operations the
    block. -/
def checkBlockLinks (r : RegionRef) (b : BlockRef) : Except Fault (List Finding) := do
  let block ← ctx.block b
  return (if block.parent = some r then [] else [.blockOwner b r block.parent])
    ++ (← block.ops.flatMapM (ctx.checkOpLink b))

/-- Whether a region of an operation records it, and what is in the region what
    it is in. -/
def checkRegionLinks (o : OpRef) (r : RegionRef) : Except Fault (List Finding) := do
  let region ← ctx.region r
  return (if region.parent = some o then [] else [.regionOwner r o region.parent])
    ++ (← region.blocks.flatMapM (ctx.checkBlockLinks r))

/-- Whether all owners under a root are recorded. -/
def checkLinks (root : OpRef) : Except Fault (List Finding) := do
  (← ctx.subtree root).flatMapM fun o => do
    (← ctx.op o).regions.flatMapM (ctx.checkRegionLinks o)

/-! ## Scoping -/

/-- Whether an operation, or one of the `n` around it, is in a block: behind
    position `after`, if one is given. -/
def isVisibleWithin (b : BlockRef) (after : Option Nat) : (n : Nat) → OpRef → Except Fault Bool
  | 0, _ => return false
  | n + 1, o => do
    if (← ctx.op o).parent = some b then
      match after with
      | none => return true
      | some position => return ((← ctx.block b).ops.idxOf? o).any (position < ·)
    else
      match ← ctx.parentOp o with
      | some parent => isVisibleWithin b after n parent
      | none => return false

/-- Whether what is defined in a block is in scope at an operation. -/
def isVisible (b : BlockRef) (after : Option Nat) (user : OpRef) : Except Fault Bool :=
  ctx.isVisibleWithin b after (ctx.ops.size + 1) user

/-- Whether a value is in scope at an operation. -/
def inScope (source : ValueDef) (user : OpRef) : Except Fault Bool := do
  match source with
  | .argument b _ => ctx.isVisible b none user
  | .result o _ =>
    let some b := (← ctx.op o).parent | return false
    match (← ctx.block b).ops.idxOf? o with
    | some position => ctx.isVisible b (some position) user
    | none => return false

/-- An operand that is not in scope. -/
def outOfScope? (s : Slot) : Except Fault (Option Finding) := do
  let source := (← ctx.value s.value).source
  if ← ctx.inScope source s.use.user then return none
  else return some (.outOfScope s.use.slot (← ctx.kind s.use.user) s.use.user s.value source)

/-- Whether all operands under a root are in scope. -/
def checkScoping (root : OpRef) : Except Fault (List Finding) := do
  (← ctx.subtree root).flatMapM fun o => do (← ctx.slotsOf o).filterMapM ctx.outOfScope?

/-! ## Shapes -/

/-- How the regions of an operation depart from a shape. -/
def regionFlaws (expected : List BlockCount) (regions : List RegionRef) :
    Except Fault (List ShapeFlaw) := do
  if regions.length ≠ expected.length then
    return [.regions expected.length regions.length]
  else
    (regions.zip expected).zipIdx.filterMapM fun ((r, count), n) => do
      let found := (← ctx.region r).blocks.length
      return if count.admits found then none else some (.blocks n count found)

/-- How the attributes of an operation depart from a shape. -/
def attributeFlaws (expected : List (String × AttributeSort)) (as : Attributes) :
    List ShapeFlaw :=
  expected.filterMap fun (key, sort) =>
    match as.get? key with
    | none => some (.missing key)
    | some a => if sort.admits a then none else some (.illSorted key sort)

/-- How an operation departs from a shape. -/
def flaws (shape : Shape) (o : OpRef) : Except Fault (List ShapeFlaw) := do
  let operation ← ctx.op o
  let operands := operation.operands.length
  let results := operation.results.length
  return (if shape.operands.admits operands then [] else [.operands shape.operands operands])
    ++ (match shape.results with
      | some expected => if results = expected then [] else [.results expected results]
      | none => [])
    ++ (← ctx.regionFlaws shape.regions operation.regions)
    ++ attributeFlaws shape.attributes operation.attributes

/-- A loop without an induction variable, which is the first argument of its
    body. -/
def noInductionVariable? (o : OpRef) : Except Fault (List Finding) := do
  let some r := (← ctx.op o).regions.head? | return []
  let some b := (← ctx.entry? r) | return []
  return if (ctx.args b).isEmpty then [.noInductionVariable o] else []

/-- Whether an operation has the shape of its kind. -/
def checkShapeOf (o : OpRef) : Except Fault (List Finding) := do
  let kind ← ctx.kind o
  let flaws ← match kind.shape? with
    | some shape => ctx.flaws shape o
    | none => pure []
  let loops ← if kind = .loop then ctx.noInductionVariable? o else pure []
  return flaws.map (.shape kind o) ++ loops

/-- Whether all operations under a root have the shape of their kind. -/
def checkShapes (root : OpRef) : Except Fault (List Finding) := do
  (← ctx.subtree root).flatMapM ctx.checkShapeOf

/-! ## All checks -/

/-- What the checks of a root find. -/
def findings (root : OpRef) : Except Fault Findings := do
  return {
    useChains := ← ctx.checkUseChains root
    terminators := ← ctx.checkTerminators root
    links := ← ctx.checkLinks root
    scoping := ← ctx.checkScoping root
    shapes := ← ctx.checkShapes root }

end Context

end Offload
