import Offload.Device.Module

/-!
# Constant folding

An instruction on constants alone is replaced by its value (`Action.fold?`):
the instruction goes, and the constant takes the place of its result. One such
instruction is folded at a time, the first in the text, until there is none.

Integers wrap, and are cut to the width of the result. A division that has no
result stays as it is. Floating-point results are rounded to the precision of
their type.
-/

namespace Offload.Device

/-- An integer, cut to the width of a type. One bit is read as zero or one, other
    widths as signed numbers. -/
def DataType.cut (t : DataType) (n : Int64) : Int64 :=
  match t with
  | i1 => n &&& 1
  | i32 => n.toInt32.toInt64
  | _ => n

/-- A number, rounded to the precision of a type. -/
def DataType.round (t : DataType) (x : Double) : Double :=
  if t = float then x.roundToSingle else x

/-- An operation on integers. A division by zero has no result, nor has one
    whose quotient is too large. -/
def BinaryOp.foldInt (op : BinaryOp) (a b : Int64) : Option Int64 :=
  let divides := b ≠ 0 ∧ ¬(a = Int64.minValue ∧ b = -1)
  match op with
  | add => some (a + b)
  | sub => some (a - b)
  | mul => some (a * b)
  | sdiv => if divides then some (a / b) else none
  | srem => if divides then some (a % b) else none
  | and => some (a &&& b)
  | or => some (a ||| b)
  | xor => some (a ^^^ b)
  | _ => none

/-- An operation on floating-point numbers. -/
def BinaryOp.foldFloat (op : BinaryOp) (x y : Double) : Option Double :=
  match op with
  | fadd => some (x.add y)
  | fsub => some (x.sub y)
  | fmul => some (x.mul y)
  | fdiv => some (x.div y)
  | frem => some (x.rem y)
  | _ => none

def IntComparison.holds (c : IntComparison) (a b : Int64) : Bool :=
  match c with
  | eq => a = b
  | ne => a ≠ b
  | slt => a < b
  | sle => a ≤ b
  | sgt => b < a
  | sge => b ≤ a

def FloatComparison.holds (c : FloatComparison) (x y : Double) : Bool :=
  match c with
  | oeq => x.same y
  | one => !x.isNaN && !y.isNaN && !x.same y
  | olt => x.lt y
  | ole => x.le y
  | ogt => y.lt x
  | oge => y.le x

/-- A conversion of a constant. -/
def Conversion.fold? (op : Conversion) (source target : DataType) : Operand → Option Operand
  | .int n =>
    match op with
    | zext =>
      some <| .int <| match source with
        | .i1 => n &&& 1
        | .i32 => n &&& 0xFFFFFFFF
        | _ => n
    | sext => some (.int (if source = .i1 then -(n &&& 1) else n))
    | trunc => some (.int (target.cut n))
    | sitofp => some (.float (target.round (.ofInt64 n)))
    | fptosi => none
  | .float x =>
    if op = fptosi ∧ x.isFinite then some (.int (target.cut x.toInt64)) else none
  | _ => none

/-- The value of an action on constants. -/
def Action.fold? : Action → Option Operand
  | binary op type (.int a) (.int b) => (op.foldInt a b).map fun n => .int (type.cut n)
  | binary op type (.float x) (.float y) => (op.foldFloat x y).map fun z => .float (type.round z)
  | negate type (.float x) => some (.float (type.round x.neg))
  | compareInt c _ (.int a) (.int b) => some (.int (if c.holds a b then 1 else 0))
  | compareFloat c _ (.float x) (.float y) => some (.int (if c.holds x y then 1 else 0))
  | convert op source value target => op.fold? source target value
  | _ => none

/-- The value that an instruction assigns, and the constant that it is. -/
def Instruction.fold? (i : Instruction) : Option (String × Operand) := do
  return (← i.result, ← i.action.fold?)

/-- Take the first foldable instruction out of a list. -/
def takeFoldable : List Instruction → Option ((String × Operand) × List Instruction)
  | [] => none
  | i :: is =>
    match i.fold? with
    | some found => some (found, is)
    | none => (takeFoldable is).map fun (found, rest) => (found, i :: rest)

/-- Take the first foldable instruction out of blocks. -/
def takeFoldableFrom : List Block → Option ((String × Operand) × List Block)
  | [] => none
  | b :: bs =>
    match takeFoldable b.instructions with
    | some (found, rest) => some (found, { b with instructions := rest } :: bs)
    | none => (takeFoldableFrom bs).map fun (found, rest) => (found, b :: rest)

namespace Function

/-- Put an operand in the place of every use of a value. -/
def replaceValue (f : Function) (name : String) (o : Operand) : Function :=
  f.mapActions (·.mapOperands fun p => if p = .value name then o else p)

/-- Fold the first instruction that can be folded. -/
def foldOnce (f : Function) : Option Function :=
  (takeFoldableFrom f.blocks).map fun ((name, o), blocks) =>
    { f with blocks }.replaceValue name o

/-- Fold instructions, at most `n` of them. -/
def foldWithin : (n : Nat) → Function → Function
  | 0, f => f
  | n + 1, f =>
    match f.foldOnce with
    | some f => foldWithin n f
    | none => f

/-- Fold all instructions that can be folded. Every fold takes an instruction
    away. -/
def foldConstants (f : Function) : Function := f.foldWithin f.instructions.length

end Function

end Offload.Device
