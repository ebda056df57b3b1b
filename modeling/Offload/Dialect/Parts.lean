import Offload.Dialect.Access

/-!
# The parts of known operations by name

`Context.parts?` lists the parts of an operation of a known kind, each under its
name: what the accessors of that kind return, in one list. It faults iff one of
them does, and at the first that does.
-/

namespace Offload

/-- A part of an operation. -/
inductive Part
  | value (v : ValueRef)
  | values (vs : List ValueRef)
  | type (t : Option TypeRef)
  | types (ts : List TypeRef)
  | region (r : RegionRef)
  | block (b : Option BlockRef)
  | text (s : Option String)
  | flag (b : Bool)
  | bytes (data : Option (List UInt8))
  | attribute (a : Attribute)
  deriving DecidableEq, Repr

/-- A part under its name. -/
abbrev NamedPart := String × Part

namespace Context

variable (ctx : Context) (o : OpRef)

/-- The `n`-th operand, under a name. -/
def operandPart (name : String) (n : Nat) : Except Fault NamedPart :=
  return (name, .value (← ctx.operand o n))

/-- The result. -/
def resultPart : Except Fault NamedPart := return ("result", .value (← ctx.result o 0))

/-- The `n`-th region, under a name. -/
def regionPart (name : String) (n : Nat) : Except Fault NamedPart :=
  return (name, .region (← ctx.regionAt o n))

/-- The first block of the first region, under a name. -/
def blockPart (name : String) : Except Fault NamedPart :=
  return (name, .block (some (← ctx.blockAt o 0)))

/-- The type of the elements that an operation counts in. -/
def elementPart : Except Fault NamedPart :=
  return ("elem_type", .type (some (← ctx.elementType o)))

/-- The parts of a function. -/
def functionParts : Except Fault (List NamedPart) := do
  let type ← ctx.functionType o
  return [
    ("type", .type (some type)),
    ("sym_name", .text (some (← ctx.functionName o))),
    ← ctx.regionPart o "body" 0,
    ("entry", .block (← ctx.entry? (← ctx.regionAt o 0))),
    ("declaration", .flag (← ctx.isDeclaration o)),
    ("kernel", .flag (← ctx.isKernel o)),
    ("ret", .type (← ctx.returnType? type)),
    ("params", .types (← ctx.paramTypes type))]

/-- The parts of a loop. -/
def loopParts : Except Fault (List NamedPart) := do
  return [
    ← ctx.operandPart o "lower" 0,
    ← ctx.operandPart o "upper" 1,
    ← ctx.operandPart o "step" 2,
    ("init", .values ((← ctx.op o).operands.drop 3)),
    ← ctx.regionPart o "body" 0,
    ← ctx.blockPart o "body_block",
    ("induction_var", .value (← ctx.arg (← ctx.blockAt o 0) 0))]

/-- The parts of an operation, if it is of a known kind with parts. -/
def parts? : Except Fault (Option (List NamedPart)) := do
  let op ← ctx.op o
  let kind := op.kind
  if OpKind.binary.contains kind then
    return some [← ctx.operandPart o "lhs" 0, ← ctx.operandPart o "rhs" 1, ← ctx.resultPart o]
  else if [OpKind.threadId, .blockId, .blockDim].contains kind then
    return some [("dimension", .text (some (← ctx.dimension o).name)), ← ctx.resultPart o]
  else if kind = .coreModule then
    return some [("sym_name", .text (← ctx.symbolName? o)), ← ctx.regionPart o "body" 0,
      ← ctx.blockPart o "body_block"]
  else if kind = .gpuModule then
    return some [("sym_name", .text (some (← ctx.gpuModuleName o))), ← ctx.regionPart o "body" 0,
      ← ctx.blockPart o "body_block", ("binary", .bytes (← ctx.binary? o))]
  else if kind = .func then return some (← ctx.functionParts o)
  else if kind = .call then
    return some [("callee", .text (some (← ctx.callee o))), ("args", .values op.operands),
      ("results", .values (ctx.results o))]
  else if [OpKind.funcReturn, .yield].contains kind then
    return some [("values", .values op.operands)]
  else if kind = .const then
    return some [("value", .attribute (← ctx.constant o)), ← ctx.resultPart o]
  else if kind = .alloca then return some [← ctx.elementPart o, ← ctx.resultPart o]
  else if kind = .load then return some [← ctx.operandPart o "ptr" 0, ← ctx.resultPart o]
  else if kind = .store then
    return some [← ctx.operandPart o "value" 0, ← ctx.operandPart o "ptr" 1]
  else if kind = .offset then
    return some [← ctx.operandPart o "base" 0, ← ctx.operandPart o "index" 1, ← ctx.elementPart o,
      ← ctx.resultPart o]
  else if kind = .parallel then
    return some [← ctx.regionPart o "body" 0, ← ctx.blockPart o "body_block"]
  else if kind = .loop then return some (← ctx.loopParts o)
  else if kind = .conditional then
    return some [← ctx.operandPart o "cond" 0, ← ctx.regionPart o "then" 0,
      ← ctx.regionPart o "else" 1, ← ctx.blockPart o "then_block"]
  else return none

end Context

end Offload
