import Offload.Number.Digits
import Offload.Number.Double
import Offload.Ptx.Target

/-!
# Assembly

The assembly language of the device, as far as the library writes it. A *unit*
declares functions and defines some of them. The body of a function is a list of
lines: labels, instructions, and the brackets around a call.

Registers come in classes. `Instruction.uses` lists the registers of an
instruction with the classes that it takes them to have, so that an instruction
is sound iff every register in it is of the class it is listed with.
-/

namespace Offload.Ptx

/-! ## Registers -/

/-- What a register holds. -/
inductive RegisterClass
  | pred
  | b32
  | b64
  | f32
  | f64
  deriving DecidableEq, Hashable, Repr, Inhabited

namespace RegisterClass

/-- What the names of the registers start with. -/
def sigil : RegisterClass → String
  | pred => "%p"
  | b32 => "%r"
  | b64 => "%rd"
  | f32 => "%f"
  | f64 => "%fd"

def keyword : RegisterClass → String
  | pred => "pred"
  | b32 => "b32"
  | b64 => "b64"
  | f32 => "f32"
  | f64 => "f64"

/-- The classes, in the order in which their registers are declared. -/
def all : List RegisterClass := [pred, b32, b64, f32, f64]

end RegisterClass

/-- A register; the registers of a class are numbered from one. -/
structure Register where
  cls : RegisterClass
  number : Nat
  deriving DecidableEq, Hashable, Repr, Inhabited

def Register.text (r : Register) : String := s!"{r.cls.sigil}{r.number}"

/-! ## Types -/

/-- How an instruction reads and writes data. -/
inductive DataType
  | pred
  | s32
  | u32
  | b32
  | s64
  | u64
  | b64
  | f32
  | f64
  deriving DecidableEq, Hashable, Repr, Inhabited

namespace DataType

def keyword : DataType → String
  | pred => "pred"
  | s32 => "s32"
  | u32 => "u32"
  | b32 => "b32"
  | s64 => "s64"
  | u64 => "u64"
  | b64 => "b64"
  | f32 => "f32"
  | f64 => "f64"

instance : ToString DataType := ⟨keyword⟩

/-- The class of the registers that hold data of a type. -/
def cls : DataType → RegisterClass
  | pred => .pred
  | s32 | u32 | b32 => .b32
  | s64 | u64 | b64 => .b64
  | f32 => .f32
  | f64 => .f64

end DataType

/-! ## Instructions -/

/-- What an instruction reads. -/
inductive Operand
  | register (r : Register)
  /-- The address of a function, a variable or a parameter. -/
  | symbol (name : String)
  /-- A register that the device sets. -/
  | special (name : String)
  | int (n : Int)
  /-- A number by its bits. -/
  | single (bits : UInt32)
  | double (bits : UInt64)
  deriving DecidableEq, Repr, Inhabited

namespace Operand

def text : Operand → String
  | register r => r.text
  | symbol name => name
  | special name => "%" ++ name
  | int n => toString n
  | single bits => "0f" ++ (hexText 8 bits.toNat).toUpper
  | double bits => "0d" ++ (hexText 16 bits.toNat).toUpper

instance : ToString Operand := ⟨text⟩

/-- The register that is read. -/
def asRegister? : Operand → Option Register
  | register r => some r
  | _ => none

end Operand

instance : ToString Register := ⟨Register.text⟩

/-- An instruction. The word `opcode` is what stands before the type. -/
inductive Instruction
  | unary (opcode : String) (type : DataType) (dst : Register) (src : Operand)
  | binary (opcode : String) (type : DataType) (dst : Register) (lhs rhs : Operand)
  /-- `base + index * stride`, in the width of an address; a `wide` one takes an
      index of 32 bits for an address of 64. -/
  | multiplyAdd (wide : Bool) (type : DataType) (dst : Register) (index : Operand)
      (stride : Nat) (base : Operand)
  /-- Set a predicate. -/
  | compare (comparison : String) (type : DataType) (dst : Register) (lhs rhs : Operand)
  /-- One of two numbers, by a predicate. -/
  | select (type : DataType) (dst : Register) (yes no : Int) (selector : Operand)
  | convert (rounding : String) (target source : DataType) (dst : Register) (src : Operand)
  /-- Read memory, or a parameter if `space` says so. -/
  | load (space : String) (type : DataType) (dst : Register) (address : Operand)
  | store (space : String) (type : DataType) (address value : Operand)
  /-- Declare a parameter for a call. -/
  | parameter (type : DataType) (name : String)
  | call (result : Option String) (callee : String) (args : List String)
  | ret
  | jump (target : String)
  | branch (guard : Operand) (target : String)
  | barrier
  deriving DecidableEq, Repr, Inhabited

namespace Instruction

def text : Instruction → String
  | unary opcode type dst src => s!"{opcode}.{type} {dst}, {src}"
  | binary opcode type dst lhs rhs => s!"{opcode}.{type} {dst}, {lhs}, {rhs}"
  | multiplyAdd wide type dst index stride base =>
    (if wide then "mad.wide" else "mad.lo") ++ s!".{type} {dst}, {index}, {stride}, {base}"
  | compare comparison type dst lhs rhs => s!"setp.{comparison}.{type} {dst}, {lhs}, {rhs}"
  | select type dst yes no selector => s!"selp.{type} {dst}, {yes}, {no}, {selector}"
  | convert rounding target source dst src => s!"cvt{rounding}.{target}.{source} {dst}, {src}"
  | load space type dst address => s!"ld{space}.{type} {dst}, [{address}]"
  | store space type address value => s!"st{space}.{type} [{address}], {value}"
  | parameter type name => s!".param .{type} {name}"
  | call result callee args =>
    "call.uni "
      ++ (match result with
        | some name => s!"({name}), "
        | none => "")
      ++ s!"{callee}, (" ++ ", ".intercalate args ++ ")"
  | ret => "ret"
  | jump target => s!"bra.uni {target}"
  | branch guard target => s!"@{guard} bra {target}"
  | barrier => "bar.sync 0"

end Instruction

/-! ## Functions -/

/-- A line of a body. -/
inductive Line
  | label (name : String)
  | code (i : Instruction)
  /-- The bracket before a call and its parameters. -/
  | opening
  | closing
  deriving DecidableEq, Repr, Inhabited

def Line.text : Line → String
  | label name => s!"{name}:\n"
  | code i => s!"\t{i.text};\n"
  | opening => "\t\x7b\n"
  | closing => "\t\x7d\n"

/-- How a function is called. An entrance of the device returns nothing. -/
structure Signature where
  name : String
  isEntry : Bool
  returns : Option DataType
  parameters : List DataType
  deriving DecidableEq, Repr, Inhabited

/-- The name of a parameter of a function. -/
def parameterName (function : String) (index : Nat) : String := s!"{function}_param_{index}"

/-- The name of a variable of a function, which lies in local memory. -/
def depotName (function : String) (index : Nat) : String := s!"__local_depot_{function}_{index}"

def Signature.text (s : Signature) : String :=
  (if s.isEntry then ".entry "
    else ".func " ++ match s.returns with
      | some type => s!"(.param .{type} func_retval0) "
      | none => "")
    ++ s.name ++ "("
    ++ ",".intercalate (s.parameters.mapIdx fun i type =>
      s!"\n\t.param .{type} {parameterName s.name i}")
    ++ (if s.parameters.isEmpty then ")" else "\n)")

/-- A function with its body. -/
structure Function where
  signature : Signature
  isVisible : Bool
  /-- The number of registers of each class. -/
  registers : RegisterClass → Nat
  /-- The sizes of the variables in local memory, in bytes. -/
  depots : List Nat
  lines : List Line

/-- What makes a function known to other units. -/
def visibility (isVisible : Bool) : String := if isVisible then ".visible " else ""

def Function.text (f : Function) : String :=
  visibility f.isVisible ++ f.signature.text ++ "\n\x7b\n"
    ++ String.join (RegisterClass.all.map fun c =>
      if f.registers c = 0 then ""
      else s!"\t.reg .{c.keyword} {c.sigil}<{f.registers c + 1}>;\n")
    ++ String.join (f.depots.mapIdx fun i size =>
      s!"\t.local .align 8 .b8 {depotName f.signature.name i}[{size}];\n")
    ++ "\n" ++ String.join (f.lines.map (·.text)) ++ "\x7d\n"

/-! ## Units -/

/-- An assembly unit. Functions that it defines are declared before, so that the
    order of the definitions does not matter. -/
structure Assembly where
  target : Target
  externs : List Signature
  prototypes : List (Bool × Signature)
  functions : List Function

def Assembly.text [TripleLibrary] (a : Assembly) : String :=
  let (major, minor) := a.target.version
  "//\n// Generated by weft\n//\n\n"
    ++ s!".version {major}.{minor}\n"
    ++ s!".target {a.target.chip}\n"
    ++ s!".address_size {8 * a.target.pointerBytes}\n"
    ++ String.join (a.externs.map fun s => s!"\n.extern {s.text};\n")
    ++ String.join (a.prototypes.map fun (isVisible, s) =>
      s!"\n{visibility isVisible}{s.text};\n")
    ++ String.join (a.functions.map fun f => s!"\n{f.text}")

end Offload.Ptx
