import Offload.Number.Double

/-!
# Instructions of device code

Device code computes on *values*, which are named locally in a function and
assigned once, and on constants. An instruction is an `Action` with the name of
the value that it assigns, if it has one.

Every word of the text format belongs to one constructor: the functions
`keyword` write it, and the functions `ofKeyword?` find it again.
-/

namespace Offload.Device

/-! ## Data types -/

/-- The type of a datum; `void` is that of no datum. -/
inductive DataType
  | void
  | i1
  | i32
  | i64
  | float
  | double
  | ptr
  deriving DecidableEq, Hashable, Repr, Inhabited

namespace DataType

/-- The word for a type. -/
def keyword : DataType → String
  | void => "void"
  | i1 => "i1"
  | i32 => "i32"
  | i64 => "i64"
  | float => "float"
  | double => "double"
  | ptr => "ptr"

def all : List DataType := [void, i1, i32, i64, float, double, ptr]

/-- The type with a given word. -/
def ofKeyword? (word : String) : Option DataType := all.find? (·.keyword = word)

instance : ToString DataType := ⟨keyword⟩

def isFloat (t : DataType) : Bool := t = float || t = double

/-- The number of bytes that a datum takes in memory, with pointers of
    `pointerBytes`. -/
def storeSize (pointerBytes : Nat) : DataType → Nat
  | void => 0
  | i1 => 1
  | i32 | float => 4
  | i64 | double => 8
  | ptr => pointerBytes

end DataType

/-! ## Operands -/

/-- What an instruction computes on. Integers are read in the width that the
    instruction gives them. -/
inductive Operand
  /-- A value of the function. -/
  | value (name : String)
  /-- The address of a function. -/
  | symbol (name : String)
  | int (n : Int64)
  | float (x : Double)
  deriving DecidableEq, Repr, Inhabited

namespace Operand

/-- The name of a value. -/
def asValue? : Operand → Option String
  | value name => some name
  | _ => none

def isConstant : Operand → Bool
  | int _ | float _ => true
  | _ => false

/-- Equality of operands as numbers: the zeros are the same, and a NaN differs
    from all. -/
def same : Operand → Operand → Bool
  | float x, float y => x.same y
  | a, b => a = b

end Operand

/-! ## Kinds of instructions -/

/-- An operation on two operands of one type. -/
inductive BinaryOp
  | add
  | sub
  | mul
  | sdiv
  | srem
  | and
  | or
  | xor
  | fadd
  | fsub
  | fmul
  | fdiv
  | frem
  deriving DecidableEq, Hashable, Repr, Inhabited

namespace BinaryOp

def keyword : BinaryOp → String
  | add => "add"
  | sub => "sub"
  | mul => "mul"
  | sdiv => "sdiv"
  | srem => "srem"
  | and => "and"
  | or => "or"
  | xor => "xor"
  | fadd => "fadd"
  | fsub => "fsub"
  | fmul => "fmul"
  | fdiv => "fdiv"
  | frem => "frem"

def all : List BinaryOp :=
  [add, sub, mul, sdiv, srem, and, or, xor, fadd, fsub, fmul, fdiv, frem]

def ofKeyword? (word : String) : Option BinaryOp := all.find? (·.keyword = word)

/-- Whether the operation is one on floating-point numbers. -/
def isFloat : BinaryOp → Bool
  | fadd | fsub | fmul | fdiv | frem => true
  | _ => false

end BinaryOp

/-- A comparison of integers, as signed numbers. -/
inductive IntComparison
  | eq
  | ne
  | slt
  | sle
  | sgt
  | sge
  deriving DecidableEq, Hashable, Repr, Inhabited

namespace IntComparison

def keyword : IntComparison → String
  | eq => "eq"
  | ne => "ne"
  | slt => "slt"
  | sle => "sle"
  | sgt => "sgt"
  | sge => "sge"

def all : List IntComparison := [eq, ne, slt, sle, sgt, sge]

def ofKeyword? (word : String) : Option IntComparison := all.find? (·.keyword = word)

end IntComparison

/-- A comparison of floating-point numbers, which fails on a NaN. -/
inductive FloatComparison
  | oeq
  | one
  | olt
  | ole
  | ogt
  | oge
  deriving DecidableEq, Hashable, Repr, Inhabited

namespace FloatComparison

def keyword : FloatComparison → String
  | oeq => "oeq"
  | one => "one"
  | olt => "olt"
  | ole => "ole"
  | ogt => "ogt"
  | oge => "oge"

def all : List FloatComparison := [oeq, one, olt, ole, ogt, oge]

def ofKeyword? (word : String) : Option FloatComparison := all.find? (·.keyword = word)

end FloatComparison

/-- A conversion between types. -/
inductive Conversion
  | zext
  | sext
  | trunc
  | sitofp
  | fptosi
  deriving DecidableEq, Hashable, Repr, Inhabited

namespace Conversion

def keyword : Conversion → String
  | zext => "zext"
  | sext => "sext"
  | trunc => "trunc"
  | sitofp => "sitofp"
  | fptosi => "fptosi"

def all : List Conversion := [zext, sext, trunc, sitofp, fptosi]

def ofKeyword? (word : String) : Option Conversion := all.find? (·.keyword = word)

end Conversion

/-! ## Actions -/

/-- What an instruction does. -/
inductive Action
  | binary (op : BinaryOp) (type : DataType) (lhs rhs : Operand)
  | negate (type : DataType) (value : Operand)
  | compareInt (comparison : IntComparison) (type : DataType) (lhs rhs : Operand)
  | compareFloat (comparison : FloatComparison) (type : DataType) (lhs rhs : Operand)
  | convert (op : Conversion) (source : DataType) (value : Operand) (target : DataType)
  | load (type : DataType) (pointer : Operand)
  | store (type : DataType) (value pointer : Operand)
  | alloca (type : DataType)
  /-- The address of an element, counted from a base address. -/
  | address (inbounds : Bool) (element : DataType) (base : Operand)
      (indexType : DataType) (index : Operand)
  | call (returnType : DataType) (callee : String) (args : List (DataType × Operand))
  | ret (value : Option (DataType × Operand))
  | jump (target : String)
  | branch (condition : Operand) (thenTarget elseTarget : String)
  deriving DecidableEq, Repr, Inhabited

namespace Action

/-- Whether the action ends a block. -/
def isTerminator : Action → Bool
  | ret _ | jump _ | branch .. => true
  | _ => false

/-- Whether the action computes with floating-point numbers. -/
def isFloatMath : Action → Bool
  | binary op .. => op.isFloat
  | negate .. | compareFloat .. => true
  | call returnType .. => returnType.isFloat
  | _ => false

/-- Whether nothing but the value of the action matters. -/
def isDeadIfUnused : Action → Bool
  | binary .. | negate .. | compareInt .. | compareFloat .. | convert .. | load ..
  | alloca _ | address .. => true
  | _ => false

/-- The operands, in the order of the text. -/
def operands : Action → List Operand
  | binary _ _ lhs rhs | compareInt _ _ lhs rhs | compareFloat _ _ lhs rhs => [lhs, rhs]
  | negate _ value | convert _ _ value _ => [value]
  | load _ pointer => [pointer]
  | store _ value pointer => [value, pointer]
  | alloca _ | jump _ => []
  | address _ _ base _ index => [base, index]
  | call _ _ args => args.map Prod.snd
  | ret value => value.toList.map Prod.snd
  | branch condition .. => [condition]

/-- The action on other operands. -/
def mapOperands (f : Operand → Operand) : Action → Action
  | binary op type lhs rhs => binary op type (f lhs) (f rhs)
  | negate type value => negate type (f value)
  | compareInt comparison type lhs rhs => compareInt comparison type (f lhs) (f rhs)
  | compareFloat comparison type lhs rhs => compareFloat comparison type (f lhs) (f rhs)
  | convert op source value target => convert op source (f value) target
  | load type pointer => load type (f pointer)
  | store type value pointer => store type (f value) (f pointer)
  | alloca type => alloca type
  | address inbounds element base indexType index =>
    address inbounds element (f base) indexType (f index)
  | call returnType callee args => call returnType callee (args.map fun (t, a) => (t, f a))
  | ret value => ret (value.map fun (t, a) => (t, f a))
  | jump target => jump target
  | branch condition thenTarget elseTarget => branch (f condition) thenTarget elseTarget

/-- The type of the value of the action. -/
def resultType : Action → DataType
  | binary _ type .. | negate type _ | load type _ => type
  | compareInt .. | compareFloat .. => .i1
  | convert _ _ _ target => target
  | alloca _ | address .. => .ptr
  | call returnType .. => returnType
  | store .. | ret _ | jump _ | branch .. => .void

/-- The function that a call names. -/
def callee? : Action → Option String
  | call _ callee _ => some callee
  | _ => none

/-- The action with another name for a called function. -/
def mapCallee (f : String → String) : Action → Action
  | call returnType callee args => call returnType (f callee) args
  | a => a

@[simp]
theorem operands_mapOperands (f : Operand → Operand) (a : Action) :
    (a.mapOperands f).operands = a.operands.map f := by
  cases a <;> simp [mapOperands, operands, Function.comp_def]
  case ret value => cases value <;> rfl

end Action

end Offload.Device
