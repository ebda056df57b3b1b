import Offload.Device.Module

/-!
# Well-formed modules

A module is well formed if every name in it means exactly one thing: functions
have distinct names, the values and the labels of a function are distinct,
operands, targets, callees and nodes exist, calls and returns agree with the
signatures, and every block ends with its only terminator.

`Module.defects` lists the departures from this: those of the functions first,
in the order of the text, then those of the metadata. A value may be used
before the instruction that assigns it, and in other blocks.
-/

namespace Offload.Device

/-- A departure from well-formedness. Where there are two names, the first is
    that of the function. -/
inductive Defect
  | repeatedFunction (name : String)
  | repeatedLabel (function : String)
  | repeatedValue (function value : String)
  | unnamedParameter (function : String)
  | voidValue (function value : String)
  | noTerminator (function label : String)
  | earlyTerminator (function label : String)
  | unknownValue (function value : String)
  | unknownBlock (function label : String)
  | unknownCallee (function callee : String)
  | returns (function : String) (actual declared : DataType)
  | argumentCount (function callee : String) (declared actual : Nat)
  | callType (function callee : String) (declared actual : DataType)
  | unknownNode (node : NodeRef)
  | unknownFunction (name : String)
  deriving DecidableEq, Repr

/-- The words for a defect. -/
def Defect.message : Defect → String
  | repeatedFunction name => s!"function @{name} is defined twice"
  | repeatedLabel function => s!"@{function}: duplicate block label"
  | repeatedValue function value => s!"@{function}: %{value} is defined twice"
  | unnamedParameter function => s!"@{function}: unnamed parameter in definition"
  | voidValue function value => s!"@{function}: %{value} names a void value"
  | noTerminator function label => s!"@{function}: block {label} has no terminator"
  | earlyTerminator function label => s!"@{function}: terminator in the middle of block {label}"
  | unknownValue function value => s!"@{function}: use of undefined value %{value}"
  | unknownBlock function label => s!"@{function}: branch to unknown block {label}"
  | unknownCallee function callee => s!"@{function}: call to unknown function @{callee}"
  | returns function actual declared => s!"@{function}: returns {actual}, declared {declared}"
  | argumentCount function callee declared actual =>
    s!"@{function}: @{callee} expects {declared} arguments, got {actual}"
  | callType function callee declared actual =>
    s!"@{function}: @{callee} returns {declared}, called as {actual}"
  | unknownNode node => s!"reference to undefined metadata {node}"
  | unknownFunction name => s!"metadata refers to unknown function @{name}"

/-- A defect that is there if a condition holds. -/
def Defect.when (condition : Bool) (d : Defect) : List Defect := if condition then [d] else []

/-- The names of a list that occur in it before, each time they do. -/
def repeats (seen : List String) : List String → List String
  | [] => []
  | name :: names =>
    (if seen.contains name then [name] else []) ++ repeats (name :: seen) names

namespace Function

variable (f : Function)

/-- The names of the values of a function: those of its parameters and those
    that its instructions assign. -/
def values : List String :=
  f.parameters.filterMap (·.name) ++ f.instructions.filterMap (·.result)

def labels : List String := f.blocks.map (·.label)

/-- Defects of the parameters, given the names before them. -/
def parameterDefects (seen : List String) : List Parameter → List Defect
  | [] => []
  | p :: ps =>
    match p.name with
    | none => .unnamedParameter f.name :: parameterDefects seen ps
    | some name =>
      Defect.when (seen.contains name) (.repeatedValue f.name name)
        ++ parameterDefects (name :: seen) ps

/-- Defects of the values that instructions assign, given the names before
    them. -/
def resultDefects (seen : List String) : List Instruction → List Defect
  | [] => []
  | i :: is =>
    match i.result with
    | none => resultDefects seen is
    | some name =>
      Defect.when (i.action.resultType = .void) (.voidValue f.name name)
        ++ Defect.when (seen.contains name) (.repeatedValue f.name name)
        ++ resultDefects (name :: seen) is

/-- The defect of a target that is no block. -/
def targetDefects (target : String) : List Defect :=
  Defect.when (!f.labels.contains target) (.unknownBlock f.name target)

end Function

namespace Module

variable (m : Module)

/-- The defect of a number that no node has. -/
def nodeDefects (r : NodeRef) : List Defect :=
  Defect.when (!m.nodes.contains r) (.unknownNode r)

/-- Defects of what an action refers to outside its operands. -/
def actionDefects (f : Function) : Action → List Defect
  | .ret value =>
    let type := (value.map Prod.fst).getD .void
    Defect.when (type ≠ f.returnType) (.returns f.name type f.returnType)
  | .jump target => f.targetDefects target
  | .branch _ thenTarget elseTarget => f.targetDefects thenTarget ++ f.targetDefects elseTarget
  | .call returnType callee args =>
    match m.function? callee with
    | none => [.unknownCallee f.name callee]
    | some g =>
      Defect.when (g.parameters.length ≠ args.length)
          (.argumentCount f.name callee g.parameters.length args.length)
        ++ Defect.when (g.returnType ≠ returnType)
          (.callType f.name callee g.returnType returnType)
  | _ => []

/-- Defects of an instruction. -/
def instructionDefects (f : Function) (i : Instruction) : List Defect :=
  (i.action.operands.filterMap (·.asValue?)).flatMap (fun name =>
      Defect.when (!f.values.contains name) (.unknownValue f.name name))
    ++ (i.debug.toList.flatMap m.nodeDefects)
    ++ m.actionDefects f i.action

/-- Defects of the instructions of a block, in which terminators but the last
    instruction are early. -/
def bodyDefects (f : Function) (label : String) : List Instruction → List Defect
  | [] => []
  | i :: is =>
    Defect.when (i.action.isTerminator && !is.isEmpty) (.earlyTerminator f.name label)
      ++ m.instructionDefects f i ++ bodyDefects f label is

/-- Defects of a block. -/
def blockDefects (f : Function) (b : Block) : List Defect :=
  Defect.when (!(b.instructions.getLast?.any (·.action.isTerminator))) (.noTerminator f.name b.label)
    ++ m.bodyDefects f b.label b.instructions

/-- Defects of a function. -/
def functionDefects (f : Function) : List Defect :=
  f.debug.toList.flatMap m.nodeDefects
    ++ if f.isDeclaration then []
      else
        Defect.when (!(repeats [] f.labels).isEmpty) (.repeatedLabel f.name)
          ++ f.parameterDefects [] f.parameters
          ++ f.resultDefects (f.parameters.filterMap (·.name)) f.instructions
          ++ f.blocks.flatMap (m.blockDefects f)

/-- Defects of the metadata. -/
def metadataDefects : List Defect :=
  m.lists.flatMap (fun l => l.nodes.flatMap m.nodeDefects)
    ++ m.nodes.nodes.flatMap fun node =>
      node.references.flatMap m.nodeDefects
        ++ node.functions.flatMap fun name =>
          Defect.when (m.function? name).isNone (.unknownFunction name)

/-- The defects of a module, in the order in which they are reported. -/
def defects : List Defect :=
  (repeats [] (m.functions.map (·.name))).map .repeatedFunction
    ++ m.functions.flatMap m.functionDefects ++ m.metadataDefects

end Module

/-- The report on defects, on one line. -/
def defectsText (ds : List Defect) : String := "; ".intercalate (ds.map (·.message))

end Offload.Device
