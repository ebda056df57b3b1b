import Offload.Device.Module
import Offload.Number.Decimal

/-!
# Writing device code

The text of a module in one form: the targets, the functions in order, the
named lists, and the nodes in the order of their numbers, with an empty line
before every function, the lists and the nodes. Blocks are separated by empty
lines.
-/

namespace Offload.Device

/-- Floating-point constants have an exponent from `1e16` on, and below
    `1e-4`. -/
def floatLayout : FloatLayout where
  isPositional lead := -5 < lead && lead < 16

/-- A text between quotes: quotes and backslashes are written in hexadecimal. -/
def escape (s : String) : String :=
  String.ofList <| s.toList.flatMap fun c =>
    if c = '"' then "\\22".toList else if c = '\\' then "\\5C".toList else [c]

def quoted (s : String) : String := "\"" ++ escape s ++ "\""

/-- Texts with commas between them. -/
def commas (texts : List String) : String := ", ".intercalate texts

/-! ## Instructions -/

def Operand.text : Operand → String
  | value name => "%" ++ name
  | symbol name => "@" ++ name
  | int n => toString n.toInt
  | float x => floatLayout.text x

instance : ToString Operand := ⟨Operand.text⟩

/-- The text of an action, for which `flags` stands after the first word if it
    takes flags. -/
def Action.text (flags : String) : Action → String
  | binary op type lhs rhs => s!"{op.keyword}{flags} {type} {lhs}, {rhs}"
  | negate type value => s!"fneg{flags} {type} {value}"
  | compareInt comparison type lhs rhs => s!"icmp {comparison.keyword} {type} {lhs}, {rhs}"
  | compareFloat comparison type lhs rhs =>
    s!"fcmp{flags} {comparison.keyword} {type} {lhs}, {rhs}"
  | convert op source value target => s!"{op.keyword} {source} {value} to {target}"
  | load type pointer => s!"load {type}, ptr {pointer}"
  | store type value pointer => s!"store {type} {value}, ptr {pointer}"
  | alloca type => s!"alloca {type}"
  | address inbounds element base indexType index =>
    "getelementptr" ++ (if inbounds then " inbounds" else "")
      ++ s!" {element}, ptr {base}, {indexType} {index}"
  | call returnType callee args =>
    s!"call{flags} {returnType} @{callee}(" ++ commas (args.map fun (t, a) => s!"{t} {a}") ++ ")"
  | ret none => "ret void"
  | ret (some (type, value)) => s!"ret {type} {value}"
  | jump target => s!"br label %{target}"
  | branch condition thenTarget elseTarget =>
    s!"br i1 {condition}, label %{thenTarget}, label %{elseTarget}"

def Instruction.text (i : Instruction) : String :=
  (match i.result with
    | some name => s!"%{name} = "
    | none => "")
    ++ i.action.text (if i.contract then " contract" else "")
    ++ match i.debug with
      | some r => s!", !dbg {r}"
      | none => ""

/-! ## Functions -/

/-- A block: a line for its label and one for each instruction. -/
def Block.text (b : Block) : String :=
  b.label ++ ":\n" ++ String.join (b.instructions.map fun i => "  " ++ i.text ++ "\n")

def Parameter.text (p : Parameter) : String :=
  match p.name with
  | some name => s!"{p.type} %{name}"
  | none => p.type.keyword

/-- A function. A declaration shows the types of its parameters alone. -/
def Function.text (f : Function) : String :=
  if f.isDeclaration then
    s!"declare {f.returnType} @{f.name}(" ++ commas (f.parameterTypes.map (·.keyword)) ++ ")\n"
  else
    "define " ++ (if f.linkage = .internal then "internal " else "")
      ++ s!"{f.returnType} @{f.name}(" ++ commas (f.parameters.map (·.text)) ++ ")"
      ++ (match f.debug with
        | some r => s!" !dbg {r}"
        | none => "")
      ++ " \x7b\n" ++ "\n".intercalate (f.blocks.map (·.text)) ++ "\x7d\n"

/-! ## Metadata -/

def NodeOperand.write : NodeOperand → String
  | null => "null"
  | text s => "!" ++ quoted s
  | int type n => s!"{type} {n.toInt}"
  | function name => s!"ptr @{name}"
  | node r => r.text

def Node.text : Node → String
  | tuple parts => "!\x7b" ++ commas (parts.map (·.write)) ++ "\x7d"
  | record name fields =>
    s!"!{name}(" ++ commas (fields.map fun (key, value) => s!"{key}: {value}") ++ ")"

def NodeDef.text (d : NodeDef) : String :=
  (if d.distinct then "distinct " else "") ++ d.node.text

def NodeList.text (l : NodeList) : String :=
  s!"!{l.name} = !\x7b" ++ commas (l.nodes.map (·.text)) ++ "\x7d\n"

/-! ## Modules -/

def Module.text (m : Module) : String :=
  s!"; ModuleID = '{m.name}'\n"
    ++ (match m.dataLayout with
      | some layout => s!"target datalayout = {quoted layout}\n"
      | none => "")
    ++ (match m.triple with
      | some triple => s!"target triple = {quoted triple}\n"
      | none => "")
    ++ String.join (m.functions.map fun f => "\n" ++ f.text)
    ++ (if m.lists.isEmpty then "" else "\n" ++ String.join (m.lists.map (·.text)))
    ++ (if m.nodes.entries.isEmpty then ""
      else "\n" ++ String.join (m.nodes.entries.map fun (r, d) => s!"{r} = {d.text}\n"))

end Offload.Device
