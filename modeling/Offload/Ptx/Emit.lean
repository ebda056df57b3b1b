import Offload.Device.Module
import Offload.Ptx.Assembly

/-!
# Writing modules in assembly

Every function of a module becomes one in assembly, and the kernels become
entrances. A value gets a register when its instruction is reached, in a class
that follows from its type; constants that cannot stand in an instruction get
registers too.

Functions that are only declared belong to other units, and those whose names
start with `llvm.` to the device: a call of one becomes an instruction, if there
is one for it.
-/

namespace Offload.Ptx

open Device (BinaryOp IntComparison FloatComparison Conversion)

variable [TripleLibrary]

/-- Why a function cannot be written in assembly. -/
inductive EmitCause
  /-- Nothing is kept in a register. -/
  | voidInRegister
  /-- A predicate is moved, loaded or stored. -/
  | predicateInMemory
  | noResult
  | noRegister (value : String)
  | unnamedParameter
  | noEquivalent (op : BinaryOp)
  | onPredicate (op : BinaryOp)
  | onIntegers (op : BinaryOp)
  | conversion (op : Conversion) (source target : Device.DataType)
  | kernelReturns
  | noLowering (callee : String)
  | unknownCallee (callee : String)
  deriving DecidableEq, Repr

/-- The words for a cause. -/
def EmitCause.message : EmitCause → String
  | voidInRegister => "void value in register"
  | predicateInMemory => "i1 values cannot be moved through memory"
  | noResult => "instruction without a result"
  | noRegister value => s!"%{value} has no register"
  | unnamedParameter => "unnamed parameter"
  | noEquivalent op => s!"{op.keyword} has no PTX equivalent"
  | onPredicate op => s!"{op.keyword} on i1"
  | onIntegers op => s!"{op.keyword} on integers"
  | conversion op source target => s!"unsupported cast {op.keyword} {source} to {target}"
  | kernelReturns => "kernels cannot return a value"
  | noLowering callee => s!"no PTX lowering for @{callee}"
  | unknownCallee callee => s!"call to unknown function @{callee}"

/-- Why a module cannot be written in assembly: the cause, and the function it
    was found in. -/
structure EmitError where
  function : String
  cause : EmitCause
  deriving DecidableEq, Repr

/-- The words for an error. -/
def EmitError.message (e : EmitError) : String := s!"@{e.function}: {e.cause.message}"

/-! ## Types -/

namespace Target

variable (t : Target)

/-- The class of the registers for a type. -/
def registerClass : Device.DataType → Except EmitCause RegisterClass
  | .i1 => .ok .pred
  | .i32 => .ok .b32
  | .i64 => .ok .b64
  | .float => .ok .f32
  | .double => .ok .f64
  | .ptr => .ok (if t.isWide then .b64 else .b32)
  | .void => .error .voidInRegister

/-- How data of a type are moved, loaded and stored. -/
def moveType (type : Device.DataType) : Except EmitCause DataType := do
  match ← t.registerClass type with
  | .pred => throw .predicateInMemory
  | .b32 => return .u32
  | .b64 => return .u64
  | .f32 => return .f32
  | .f64 => return .f64

/-- How integers of a type are computed with. -/
def intType (type : Device.DataType) : DataType :=
  match t.registerClass type with
  | .ok .b64 => .s64
  | _ => .s32

/-- How the bits of integers of a type are computed with. -/
def bitsType (type : Device.DataType) : DataType :=
  if t.intType type = .s64 then .b64 else .b32

/-- How addresses are computed with. -/
def addressType : DataType := if t.isWide then .s64 else .s32

/-- The type of a parameter in a signature. -/
def parameterType (isEntry : Bool) : Device.DataType → DataType
  | .i1 | .i32 => if isEntry then .u32 else .b32
  | .float => if isEntry then .f32 else .b32
  | .double => if isEntry then .f64 else .b64
  | .i64 => if isEntry then .u64 else .b64
  | .ptr =>
    if t.isWide then (if isEntry then .u64 else .b64) else (if isEntry then .u32 else .b32)
  | .void => .b64

/-- The signature of a function. -/
def signature (isEntry : Bool) (f : Device.Function) : Signature where
  name := symbolName f.name
  isEntry
  returns := if f.returnType = .void then none else some (t.parameterType false f.returnType)
  parameters := f.parameterTypes.map (t.parameterType isEntry)

end Target

/-! ## Emitters -/

/-- What has been written of a function, with the register of every value. -/
structure Progress where
  registers : List (String × Register)
  counts : RegisterClass → Nat
  depots : List Nat
  lines : List Line

/-- Nothing. -/
def Progress.start : Progress := ⟨[], fun _ => 0, [], []⟩

/-- What an emitter knows about its surroundings. -/
structure Scope where
  target : Target
  module : Device.Module
  function : Device.Function
  isKernel : Bool

/-- A step of writing a function. -/
abbrev Emitter := ReaderT Scope (StateT Progress (Except EmitCause))

namespace Emitter

/-- The symbol of the function. -/
def functionSymbol : Emitter String := return symbolName (← read).function.name

/-- A new register of a class. -/
def fresh (c : RegisterClass) : Emitter Register := do
  let number := (← get).counts c + 1
  modify fun p => { p with counts := fun d => if d = c then number else p.counts d }
  return ⟨c, number⟩

/-- A new register for a type. -/
def freshFor (type : Device.DataType) : Emitter Register := do
  fresh (← (← read).target.registerClass type)

/-- Keep a value in a register. -/
def assign (name : String) (r : Register) : Emitter Unit :=
  modify fun p => { p with registers := (name, r) :: p.registers }

/-- Write a line. -/
def line (l : Line) : Emitter Unit :=
  modify fun p => { p with lines := l :: p.lines }

/-- Write an instruction. -/
def code (i : Instruction) : Emitter Unit := line (.code i)

/-- A new register for the value of an instruction. -/
def define (i : Device.Instruction) : Emitter Register := do
  match i.result with
  | none => throw .noResult
  | some name =>
    let r ← freshFor i.action.resultType
    assign name r
    return r

/-- The type that `Target.moveType` gives. -/
def moveType (type : Device.DataType) : Emitter DataType := do
  (← read).target.moveType type

/-- An operand as it stands in an instruction. -/
def value (type : Device.DataType) : Device.Operand → Emitter Operand
  | .value name => do
    match (← get).registers.lookup name with
    | some r => return .register r
    | none => throw (.noRegister name)
  | .symbol name => return .symbol (symbolName name)
  | .int n => return .int n.toInt
  | .float x => return if type = .float then .single x.toSingleBits else .double x.bits

/-- An operand that is no constant; constants are put into a register. -/
def register (type : Device.DataType) (o : Device.Operand) : Emitter Operand := do
  let v ← value type o
  if !o.isConstant then return v
  else
    let c ← (← read).target.registerClass type
    let r ← fresh c
    if c = .pred then
      code (.compare "ne" .u32 r (.int (if v = .int 0 then 0 else 1)) (.int 0))
    else code (.unary "mov" (← moveType type) r v)
    return .register r

/-- The label of a block. -/
def blockLabel (label : String) : Emitter String := do
  return s!"$L__{← functionSymbol}_{symbolName label}"

/-! ## Instructions -/

/-- The words before the type for an operation on floating-point numbers. -/
def floatOpcode (op : BinaryOp) (contract : Bool) : Emitter String :=
  let rounding := if contract then "" else ".rn"
  match op with
  | .fadd => return "add" ++ rounding
  | .fsub => return "sub" ++ rounding
  | .fmul => return "mul" ++ rounding
  | .fdiv => return "div.rn"
  | _ => throw (.noEquivalent op)

/-- The word before the type for an operation on predicates. -/
def predicateOpcode (op : BinaryOp) : Emitter String :=
  match op with
  | .and | .or | .xor => return op.keyword
  | _ => throw (.onPredicate op)

/-- The words before the type, and the type, for an operation on integers. -/
def intOpcode (op : BinaryOp) (type : Device.DataType) : Emitter (String × DataType) := do
  let t := (← read).target
  match op with
  | .add | .sub => return (op.keyword, t.intType type)
  | .mul => return ("mul.lo", t.intType type)
  | .sdiv => return ("div", t.intType type)
  | .srem => return ("rem", t.intType type)
  | .and | .or | .xor => return (op.keyword, t.bitsType type)
  | _ => throw (.onIntegers op)

def binary (i : Device.Instruction) (op : BinaryOp) (type : Device.DataType)
    (lhs rhs : Device.Operand) : Emitter Unit := do
  let lhs ← value type lhs
  let rhs ← value type rhs
  let dst ← define i
  if op.isFloat then
    let t ← moveType type
    code (.binary (← floatOpcode op i.contract) t dst lhs rhs)
  else if type = .i1 then code (.binary (← predicateOpcode op) .pred dst lhs rhs)
  else
    let (opcode, t) ← intOpcode op type
    code (.binary opcode t dst lhs rhs)

/-- The word for a comparison of integers. -/
def intComparison : IntComparison → String
  | .eq => "eq"
  | .ne => "ne"
  | .slt => "lt"
  | .sle => "le"
  | .sgt => "gt"
  | .sge => "ge"

/-- The word for a comparison of floating-point numbers. -/
def floatComparison : FloatComparison → String
  | .oeq => "eq"
  | .one => "ne"
  | .olt => "lt"
  | .ole => "le"
  | .ogt => "gt"
  | .oge => "ge"

def convert (i : Device.Instruction) (op : Conversion) (source : Device.DataType)
    (o : Device.Operand) (target : Device.DataType) : Emitter Unit := do
  let src ← register source o
  let dst ← define i
  let intType := (← read).target.intType
  match op, source, target with
  | .zext, .i1, _ => code (.select (← moveType target) dst 1 0 src)
  | .sext, .i1, _ => code (.select (intType target) dst (-1) 0 src)
  | .zext, .i32, .i64 => code (.convert "" .u64 .u32 dst src)
  | .sext, .i32, .i64 => code (.convert "" .s64 .s32 dst src)
  | .trunc, .i64, .i32 => code (.convert "" .u32 .u64 dst src)
  | .trunc, _, .i1 =>
    let type := if source = .i64 then DataType.b64 else .b32
    let low ← freshFor source
    code (.binary "and" type low src (.int 1))
    code (.compare "ne" type dst (.register low) (.int 0))
  | .sitofp, .i32, .float | .sitofp, .i32, .double | .sitofp, .i64, .float
  | .sitofp, .i64, .double => code (.convert ".rn" (← moveType target) (intType source) dst src)
  | .fptosi, .float, .i32 | .fptosi, .float, .i64 | .fptosi, .double, .i32
  | .fptosi, .double, .i64 => code (.convert ".rzi" (intType target) (← moveType source) dst src)
  | _, _, _ => throw (.conversion op source target)

/-- A variable in local memory. -/
def alloca (i : Device.Instruction) (type : Device.DataType) : Emitter Unit := do
  let size := max 1 (type.storeSize (← read).target.pointerBytes)
  let depot := depotName (← functionSymbol) (← get).depots.length
  modify fun p => { p with depots := p.depots ++ [size] }
  let t ← moveType .ptr
  let dst ← define i
  code (.unary "mov" t dst (.symbol depot))
  code (.unary "cvta.local" t dst (.register dst))

/-- The address of an element. A constant index becomes a constant distance. -/
def address (i : Device.Instruction) (element : Device.DataType) (base : Device.Operand)
    (indexType : Device.DataType) (index : Device.Operand) : Emitter Unit := do
  let t := (← read).target
  let stride := element.storeSize t.pointerBytes
  let base ← register .ptr base
  let dst ← define i
  match index with
  | .int n => code (.binary "add" t.addressType dst base (.int (n * Int64.ofNat stride).toInt))
  | _ =>
    let index ← value indexType index
    if t.isWide && indexType ≠ .i64 then code (.multiplyAdd true .s32 dst index stride base)
    else code (.multiplyAdd false t.addressType dst index stride base)

/-- What follows a text at the front of another. -/
def after? (front text : String) : Option String :=
  if front.toList.isPrefixOf text.toList then some (String.ofList (text.toList.drop front.length))
  else none

/-- A call of a function that belongs to the device. -/
def intrinsic (i : Device.Instruction) (callee : String) : Emitter Unit := do
  if callee = "llvm.nvvm.barrier0" then code .barrier
  else
    match after? "llvm.nvvm.read.ptx.sreg." callee with
    | some name =>
      let dst ← define i
      code (.unary "mov" .u32 dst (.special name))
    | none => throw (.noLowering callee)

/-- Store the arguments of a call into new parameters. -/
def arguments (args : List (Device.DataType × Operand)) : Emitter (List String) := do
  let t := (← read).target
  (args.zipIdx).mapM fun ((type, v), n) => do
    let name := s!"param{n}"
    let type := t.parameterType false type
    code (.parameter type name)
    code (.store ".param" type (.symbol name) v)
    return name

def call (i : Device.Instruction) (returnType : Device.DataType) (callee : String)
    (args : List (Device.DataType × Device.Operand)) : Emitter Unit := do
  if "llvm.".toList.isPrefixOf callee.toList then intrinsic i callee
  else
    if ((← read).module.function? callee).isNone then throw (.unknownCallee callee)
    let args ← args.mapM fun (type, a) => return (type, ← register type a)
    line .opening
    let names ← arguments args
    if returnType = .void then code (.call none (symbolName callee) names)
    else
      code (.parameter ((← read).target.parameterType false returnType) "retval0")
      code (.call (some "retval0") (symbolName callee) names)
      let dst ← define i
      code (.load ".param" (← moveType returnType) dst (.symbol "retval0"))
    line .closing

def ret (returned : Option (Device.DataType × Device.Operand)) : Emitter Unit := do
  if let some (type, o) := returned then
    if (← read).isKernel then throw .kernelReturns
    let v ← register type o
    let type := (← read).target.parameterType false type
    code (.store ".param" type (.symbol "func_retval0") v)
  code .ret

def branch (condition : Device.Operand) (thenTarget elseTarget : String) : Emitter Unit := do
  let thenLabel ← blockLabel thenTarget
  let elseLabel ← blockLabel elseTarget
  match condition with
  | .int n => code (.jump (if n &&& 1 = 1 then thenLabel else elseLabel))
  | _ =>
    code (.branch (← value .i1 condition) thenLabel)
    code (.jump elseLabel)

def instruction (i : Device.Instruction) : Emitter Unit := do
  match i.action with
  | .binary op type lhs rhs => binary i op type lhs rhs
  | .negate type o =>
    let v ← register type o
    let t ← moveType type
    code (.unary "neg" t (← define i) v)
  | .compareInt c type lhs rhs =>
    let lhs ← register type lhs
    let rhs ← value type rhs
    code (.compare (intComparison c) ((← read).target.intType type) (← define i) lhs rhs)
  | .compareFloat c type lhs rhs =>
    let lhs ← register type lhs
    let rhs ← value type rhs
    let t ← moveType type
    code (.compare (floatComparison c) t (← define i) lhs rhs)
  | .convert op source o target => convert i op source o target
  | .load type pointer =>
    let pointer ← register .ptr pointer
    let t ← moveType type
    code (.load "" t (← define i) pointer)
  | .store type o pointer =>
    let v ← register type o
    let pointer ← register .ptr pointer
    code (.store "" (← moveType type) pointer v)
  | .alloca type => alloca i type
  | .address _ element base indexType index => address i element base indexType index
  | .call returnType callee args => call i returnType callee args
  | .ret returned => ret returned
  | .jump target => code (.jump (← blockLabel target))
  | .branch condition thenTarget elseTarget => branch condition thenTarget elseTarget

/-! ## Functions -/

/-- Read a parameter into a register. -/
def parameter (p : Device.Parameter) (n : Nat) : Emitter Unit := do
  match p.name with
  | none => throw .unnamedParameter
  | some name =>
    let source : Operand := .symbol (parameterName (← functionSymbol) n)
    let r ← freshFor p.type
    if p.type = .i1 then
      let raw ← fresh .b32
      code (.load ".param" .u32 raw source)
      code (.compare "ne" .u32 r (.register raw) (.int 0))
    else code (.load ".param" (← moveType p.type) r source)
    assign name r

/-- The body of the function. -/
def body : Emitter Unit := do
  let f := (← read).function
  f.parameters.zipIdx.forM fun (p, n) => parameter p n
  f.blocks.forM fun b => do
    line (.label (← blockLabel b.label))
    b.instructions.forM instruction

end Emitter

/-- A function in assembly. -/
def emitFunction (scope : Scope) : Except EmitError Function := do
  let f := scope.function
  let ((), p) ← ((Emitter.body.run scope).run .start).mapError (⟨f.name, ·⟩)
  return {
    signature := scope.target.signature scope.isKernel f
    isVisible := scope.isKernel || f.linkage = .external
    registers := p.counts
    depots := p.depots
    lines := p.lines.reverse }

/-- A module in assembly. -/
def emit (t : Target) (m : Device.Module) : Except EmitError Assembly := do
  let kernels := m.kernels
  let isKernel (f : Device.Function) : Bool := kernels.contains f.name
  let defined := m.functions.filter (!·.isDeclaration)
  return {
    target := t
    externs := (m.functions.filter fun f =>
      f.isDeclaration && !"llvm.".toList.isPrefixOf f.name.toList).map (t.signature false)
    prototypes := (defined.filter (!isKernel ·)).map fun f =>
      (f.linkage = .external, t.signature false f)
    functions := ← defined.mapM fun f => emitFunction ⟨t, m, f, isKernel f⟩ }

end Offload.Ptx
