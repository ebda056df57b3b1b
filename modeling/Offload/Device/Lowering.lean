import Offload.Device.Module
import Offload.Dialect.Access
import Offload.Ir.Nesting

/-!
# From programs to device code

The functions of a `gpu.module` become functions of a module of device code. A
function that can be lowered has one block, of operations without regions:
scalar arithmetic, memory, calls and grid queries. A constant becomes an operand
of the instructions that use it; every other operation becomes an instruction,
or two, and its result a value. Values are numbered in the order in which they
get their meaning.

What the device provides itself are *intrinsics*, functions that are declared
after all others.
-/

namespace Offload.Device

/-- Why a program cannot be lowered. -/
inductive LowerError
  | unsupportedOperation (kind : OpKind)
  /-- An operation has to do with data of a type that has no lowered form. -/
  | unsupportedType (kind : OpKind)
  /-- A function takes or returns data of such a type. -/
  | unsupportedSignature (function : String)
  | multipleBlocks (function : String)
  | undefinedValue (function : String)
  deriving DecidableEq, Repr

/-- The words for an error. -/
def LowerError.message : LowerError → String
  | unsupportedOperation kind => s!"unsupported operation {kind}"
  | unsupportedType kind => s!"unsupported type in {kind}"
  | unsupportedSignature function => s!"unsupported type in @{function}"
  | multipleBlocks function => s!"function @{function} has more than one block"
  | undefinedValue function => s!"value used before its definition in @{function}"

/-- A computation on a program that can fail, or fault. -/
abbrev Lowered := ExceptT LowerError (Except Fault)

/-- The types of `core` and their lowered forms. -/
def scalarTypes : List (String × DataType) :=
  [("i1", .i1), ("i32", .i32), ("i64", .i64), ("f32", .float), ("f64", .double), ("ptr", .ptr),
    ("nil", .void)]

/-- The lowered form of a type, if it has one. -/
def lowerType? (ctx : Context) (t : TypeRef) : Except Fault (Option DataType) := do
  let node ← ctx.type t
  return if node.dialect = "core" then scalarTypes.lookup node.name else none

/-! ## Functions being built -/

/-- What has been built of a function: the operands that stand for the values of
    the program, and the instructions. -/
structure Building where
  operands : List (ValueRef × Operand) := []
  /-- The number of the next value. -/
  next : Nat := 0
  instructions : List Instruction := []
  intrinsics : List Function := []

/-- A step of building a function. -/
abbrev Builder := StateT Building Lowered

namespace Builder

/-- A new name for a value. -/
def fresh : Builder String := do
  let n := (← get).next
  modify fun b => { b with next := n + 1 }
  return toString n

/-- Let an operand stand for a value of the program. -/
def assign (v : ValueRef) (o : Operand) : Builder Unit :=
  modify fun b => { b with operands := (v, o) :: b.operands }

/-- Append an instruction. -/
def push (i : Instruction) : Builder Unit :=
  modify fun b => { b with instructions := b.instructions ++ [i] }

/-- Append an instruction without a value. -/
def perform (a : Action) : Builder Unit := push { result := none, action := a }

/-- Append an instruction for a value of the program. -/
def define (v : ValueRef) (a : Action) : Builder Unit := do
  let name ← fresh
  assign v (.value name)
  push { result := some name, action := a }

/-- Declare an intrinsic, once. -/
def require (name : String) (returnType : DataType) (types : List DataType) : Builder Unit :=
  modify fun b =>
    if b.intrinsics.any (·.name = name) then b
    else { b with intrinsics := b.intrinsics ++ [.declaration name returnType types] }

end Builder

/-! ## Operations -/

/-- An operation that is lowered, and the name of its function. -/
structure Site where
  ctx : Context
  function : String
  op : OpRef
  kind : OpKind

namespace Site

variable (s : Site)

/-- The operand that stands for a value. -/
def operandFor (v : ValueRef) : Builder Operand := do
  match (← get).operands.lookup v with
  | some o => return o
  | none => throw (.undefinedValue s.function)

def unsupported {α : Type} : Builder α := throw (.unsupportedOperation s.kind)
def unsupportedType {α : Type} : Builder α := throw (.unsupportedType s.kind)

/-- The lowered form of a type. -/
def lowerType (t : TypeRef) : Builder DataType := do
  match ← lowerType? s.ctx t with
  | some t => return t
  | none => s.unsupportedType

/-- The lowered type of a value. -/
def typeFor (v : ValueRef) : Builder DataType := do s.lowerType (← s.ctx.typeOf v)

/-- The `n`-th operand of the operation. -/
def operand (n : Nat) : Builder ValueRef := s.ctx.operand s.op n

/-- The result of the operation. -/
def result : Builder ValueRef := s.ctx.result s.op 0

/-- A constant is an operand. -/
def const : Builder Unit := do
  let result ← s.result
  let type ← s.typeFor result
  let o ← match ← s.ctx.constant s.op, type with
    | .atom (.bool b), _ => pure (Operand.int (if b then 1 else 0))
    | .atom (.int bits), .i1 => pure (.int (bits &&& 1).toInt64)
    | .atom (.int bits), .i32 => pure (.int bits.toUInt32.toInt32.toInt64)
    | .atom (.int bits), .i64 => pure (.int bits.toInt64)
    | .atom (.float x), .float => pure (.float x)
    | .atom (.float x), .double => pure (.float x)
    | _, _ => s.unsupportedType
  Builder.assign result o

/-- The operation of device code for one of `arith`, by its name. -/
def binaryOp? (name : String) (isFloat : Bool) : Option BinaryOp :=
  if isFloat then
    [("add", BinaryOp.fadd), ("sub", .fsub), ("mul", .fmul), ("div", .fdiv), ("rem", .frem)].lookup
      name
  else
    [("add", BinaryOp.add), ("sub", .sub), ("mul", .mul), ("div", .sdiv), ("rem", .srem)].lookup name

/-- An operation on two scalars of one type. -/
def binary : Builder Unit := do
  let lhs ← s.operand 0
  let rhs ← s.operand 1
  let result ← s.result
  let type ← s.typeFor result
  match binaryOp? s.kind.name type.isFloat with
  | none => s.unsupported
  | some op => Builder.define result (.binary op type (← s.operandFor lhs) (← s.operandFor rhs))

/-- The comparison of integers with a name. -/
def intComparison? (name : String) : Option IntComparison :=
  [("cmp_eq", IntComparison.eq), ("cmp_ne", .ne), ("cmp_lt", .slt), ("cmp_le", .sle),
    ("cmp_gt", .sgt), ("cmp_ge", .sge)].lookup name

/-- The comparison of floating-point numbers with a name. -/
def floatComparison? (name : String) : Option FloatComparison :=
  [("cmp_eq", FloatComparison.oeq), ("cmp_ne", .one), ("cmp_lt", .olt), ("cmp_le", .ole),
    ("cmp_gt", .ogt), ("cmp_ge", .oge)].lookup name

def compare : Builder Unit := do
  let v ← s.operand 0
  let w ← s.operand 1
  let type ← s.typeFor v
  let lhs ← s.operandFor v
  let rhs ← s.operandFor w
  let action ←
    if type.isFloat then
      match floatComparison? s.kind.name with
      | some c => pure (Action.compareFloat c type lhs rhs)
      | none => s.unsupported
    else
      match intComparison? s.kind.name with
      | some c => pure (.compareInt c type lhs rhs)
      | none => s.unsupported
  Builder.define (← s.result) action

/-- An integer power is a call of an intrinsic. -/
def power : Builder Unit := do
  let base ← s.typeFor (← s.operand 0)
  let exponent ← s.typeFor (← s.operand 1)
  let suffix ← match base with
    | .float => pure "f32"
    | .double => pure "f64"
    | _ => s.unsupportedType
  if exponent ≠ .i32 then s.unsupportedType
  let callee := s!"llvm.powi.{suffix}.i32"
  Builder.require callee base [base, .i32]
  let args := [(base, ← s.operandFor (← s.operand 0)), (.i32, ← s.operandFor (← s.operand 1))]
  Builder.define (← s.result) (.call base callee args)

def load : Builder Unit := do
  let result ← s.result
  let type ← s.typeFor result
  Builder.define result (.load type (← s.operandFor (← s.operand 0)))

def store : Builder Unit := do
  let value ← s.operand 0
  let type ← s.typeFor value
  let value ← s.operandFor value
  Builder.perform (.store type value (← s.operandFor (← s.operand 1)))

def alloca : Builder Unit := do
  let type ← s.lowerType (← s.ctx.elementType s.op)
  Builder.define (← s.result) (.alloca type)

/-- The address of an element. -/
def offset : Builder Unit := do
  let element ← s.lowerType (← s.ctx.elementType s.op)
  let index ← s.operand 1
  let indexType ← s.typeFor index
  let base ← s.operandFor (← s.operand 0)
  let index ← s.operandFor index
  Builder.define (← s.result) (.address false element base indexType index)

def call : Builder Unit := do
  let args ← (← s.ctx.op s.op).operands.mapM fun v => return (← s.typeFor v, ← s.operandFor v)
  let callee ← s.ctx.callee s.op
  match s.ctx.results s.op with
  | [] => Builder.perform (.call .void callee args)
  | [result] => Builder.define result (.call (← s.typeFor result) callee args)
  | _ => s.unsupported

def funcReturn : Builder Unit := do
  match (← s.ctx.op s.op).operands with
  | [] => Builder.perform (.ret none)
  | [v] => Builder.perform (.ret (some (← s.typeFor v, ← s.operandFor v)))
  | _ => s.unsupported

/-- A grid query reads a register of the device, of 32 bits. -/
def gridQuery (register : String) : Builder Unit := do
  let dimension ← s.ctx.dimension s.op
  let callee := s!"llvm.nvvm.read.ptx.sreg.{register}.{dimension.name}"
  Builder.require callee .i32 []
  let query := Action.call .i32 callee []
  let result ← s.result
  match ← s.typeFor result with
  | .i32 => Builder.define result query
  | .i64 =>
    let narrow ← Builder.fresh
    Builder.push { result := some narrow, action := query }
    Builder.define result (.convert .zext .i32 (.value narrow) .i64)
  | _ => s.unsupportedType

/-- A barrier is a call of an intrinsic. -/
def barrier : Builder Unit := do
  Builder.require "llvm.nvvm.barrier0" .void []
  Builder.perform (.call .void "llvm.nvvm.barrier0" [])

/-- The operation, as it is lowered by its kind. -/
def lower : Builder Unit := do
  if !(← s.ctx.op s.op).regions.isEmpty then s.unsupported
  else if s.kind = .const then s.const
  else if s.kind = .powi then s.power
  else if s.kind.dialect = "arith" && (binaryOp? s.kind.name false).isSome then s.binary
  else if s.kind.dialect = "arith" && "cmp_".toList.isPrefixOf s.kind.name.toList then s.compare
  else if s.kind = .load then s.load
  else if s.kind = .store then s.store
  else if s.kind = .alloca then s.alloca
  else if s.kind = .offset then s.offset
  else if s.kind = .call then s.call
  else if s.kind = .funcReturn then s.funcReturn
  else if s.kind = .threadId then s.gridQuery "tid"
  else if s.kind = .blockId then s.gridQuery "ctaid"
  else if s.kind = .blockDim then s.gridQuery "ntid"
  else if s.kind = .gpuBarrier then barrier
  else s.unsupported

end Site

/-! ## Functions -/

/-- The operations of a block, after names for its arguments. -/
def lowerBlock (ctx : Context) (name : String) (block : BlockRef) (types : List DataType) :
    Builder (List Parameter) := do
  let parameters ← ((ctx.args block).zip types).mapM fun (arg, type) => do
    let value ← Builder.fresh
    Builder.assign arg (.value value)
    return ⟨type, some value⟩
  (← ctx.block block).ops.forM fun op => do Site.lower ⟨ctx, name, op, ← ctx.kind op⟩
  return parameters

/-- A function, with the intrinsics that it calls. -/
def lowerFunction (ctx : Context) (op : OpRef) : Lowered (Function × List Function) := do
  let kind ← ctx.kind op
  if kind ≠ .func then throw (.unsupportedOperation kind)
  let name ← ctx.functionName op
  let type ← ctx.functionType op
  let returnType ← match ← ctx.returnType? type with
    | some t => lowerType? ctx t
    | none => pure none
  let some returnType := returnType | throw (.unsupportedSignature name)
  let types ← (← ctx.paramTypes type).mapM fun t => do
    match ← lowerType? ctx t with
    | some t => return t
    | none => throw (.unsupportedSignature name)
  match (← ctx.region (← ctx.regionAt op 0)).blocks with
  | [] => return (.declaration name returnType types, [])
  | [block] =>
    let (parameters, b) ← (lowerBlock ctx name block types).run {}
    let function : Function :=
      { name, linkage := .external, returnType, parameters,
        blocks := [⟨"entry", b.instructions⟩] }
    return (function, b.intrinsics)
  | _ => throw (.multipleBlocks name)

/-! ## Modules -/

/-- The functions of a list of operations, appended to a module; those that are
    marked become its kernels. -/
def lowerFunctions (ctx : Context) (m : Module) (intrinsics : List Function) :
    List OpRef → Lowered (Module × List Function)
  | [] => return (m, intrinsics)
  | op :: ops => do
    let (f, needed) ← lowerFunction ctx op
    let m := { m with functions := m.functions ++ [f] }
    let m ← if !f.isDeclaration && (← ctx.isKernel op) then m.annotateKernel f.name else pure m
    lowerFunctions ctx m (intrinsics ++ needed) ops

/-- The device code of a `gpu.module`, under a name. -/
def lowerModule (ctx : Context) (op : OpRef) (name : String) : Lowered Module := do
  let ops := (← ctx.block (← ctx.blockAt op 0)).ops
  let (m, intrinsics) ← lowerFunctions ctx { name } [] ops
  return intrinsics.foldl (fun m f => m.declare f.name f.returnType f.parameterTypes) m

end Offload.Device
