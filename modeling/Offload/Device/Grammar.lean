import Offload.Device.Module
import Offload.Number.Decimal
import Offload.Text.Blank
import Offload.Text.Reader

/-!
# The grammar of device code

The text of a module has a line for every instruction, label, function header,
node and list:

```text
define internal float @square(float %x) !dbg !2 {
entry:
  %0 = fmul contract float %x, %x, !dbg !3
  ret float %0
}

!2 = distinct !DISubprogram(name: "square", unit: !1)
```

The readers here take the parts of one line. Some words are read and forgotten:
flags about overflow, all fast-math flags but `contract` (which `fast`
includes), and attribute groups.
-/

namespace Offload.Device.Grammar

open Text Text.Reader

/-! ## Words -/

/-- Skip blanks. -/
def blanks : Reader Unit := do
  let _ ← takeWhile fun c => c = ' ' || c = '\t'

def isWordChar (c : Char) : Bool := c.isAlphanum || c = '_' || c = '.'
def isNameChar (c : Char) : Bool := isWordChar c || c = '$' || c = '-'

/-- A word: a keyword, a type or a key. -/
def word : Reader String := String.ofList <$> takeWhile1 isWordChar

/-- A word with a meaning. -/
def meaning {α : Type} (of? : String → Option α) : Reader α := do
  match of? (← word) with
  | some a => return a
  | none => fail

/-- The word `w`, and not just the start of another. -/
def keyword (w : String) : Reader Unit := meaning fun v => if v = w then some () else none

/-- As many words with a meaning as there are, after blanks. -/
def flags {α : Type} (of? : String → Option α) : Reader (List α) := do
  let n := (← rest).length
  go n
where
  go : Nat → Reader (List α)
    | 0 => pure []
    | n + 1 => do
      match ← optional (do blanks; meaning of?) with
      | some a => return a :: (← go n)
      | none => return []

/-- Something between blanks. -/
def between {α : Type} (p : Reader α) : Reader α := do
  blanks
  let a ← p
  blanks
  return a

def comma : Reader Unit := between (char ',')

/-- A name after a mark. -/
def marked (mark : Char) : Reader String := do
  char mark
  String.ofList <$> takeWhile1 isNameChar

/-- The name of a value or a label. -/
def valueName : Reader String := marked '%'

/-- The name of a function. -/
def symbolName : Reader String := marked '@'

def type : Reader DataType := meaning DataType.ofKeyword?

/-- Items between parentheses. -/
def listed {α : Type} (item : Reader α) : Reader (List α) := do
  char '('
  blanks
  let items ← separated item comma
  blanks
  char ')'
  return items

/-! ## Constants -/

/-- An integer of 64 bits with an optional sign. It has no leading zeros, and
    zero has no sign. -/
def integer : Reader Int64 := do
  match ← optional (satisfy fun c => c = '+' || c = '-') with
  | none => Int64.ofNat <$> natural 0x8000000000000000
  | some sign =>
    if ← startsWith '0' then fail
    else if sign = '-' then return -Int64.ofNat (← natural 0x8000000000000001)
    else Int64.ofNat <$> natural 0x8000000000000000

/-- The digits of a number, with a fraction and an exponent if they follow. -/
def decimal : Reader Double := do
  let negative := (← optional (char '-')).isSome
  let whole ← takeWhile1 Char.isDigit
  let fraction ← optional do
    char '.'
    takeWhile Char.isDigit
  let exponent ← optional do
    let _ ← satisfy fun c => c = 'e' || c = 'E'
    let sign ← optional (satisfy fun c => c = '+' || c = '-')
    return (sign == some '-', ← takeWhile1 Char.isDigit)
  let (down, exponent) := exponent.getD (false, [])
  return (Decimal.ofText whole (fraction.getD []) down exponent).toDouble negative

/-- A number, or the name of one that has no digits. -/
def float : Reader Double :=
  decimal
    <|> (do literal "-inf"; return .infinity true)
    <|> (do literal "inf"; return .infinity false)
    <|> (do literal "NaN"; return .nan)

/-- The code that a hexadecimal number of at most two digits spells, which may
    have a plus sign. -/
def hexCode : List Char → Option Nat
  | ['+', low] => hexValue low
  | [high, low] => do return 16 * (← hexValue high) + (← hexValue low)
  | _ => none

/-- The characters up to a closing quote. Every escape is a backslash with two
    hexadecimal digits. At most `n` characters are taken. -/
def quotedRest : (n : Nat) → Reader (List Char)
  | 0 => fail
  | n + 1 => do
    match ← anyChar with
    | '"' => return []
    | '\\' =>
      let high ← anyChar
      let low ← anyChar
      match hexCode [high, low] with
      | some code => return Char.ofNat code :: (← quotedRest n)
      | none => fail
    | c => return c :: (← quotedRest n)

/-- A text in quotes. -/
def quoted : Reader String := do
  char '"'
  let n := (← rest).length
  String.ofList <$> quotedRest (n + 1)

/-- An operand of a known type, which decides between the two ways to read a
    number. -/
def operand (t : DataType) : Reader Operand := do
  match (← rest).head? with
  | some '%' => .value <$> valueName
  | some '@' => .symbol <$> symbolName
  | _ =>
    if t.isFloat then .float <$> float
    else
      (do keyword "true"; return .int 1)
        <|> (do keyword "false"; return .int 0)
        <|> (.int <$> integer)

/-- An operand after its type. -/
def typedOperand : Reader (DataType × Operand) := do
  let t ← type
  blanks
  return (t, ← operand t)

/-- An operand after a type that is always the same, and is forgotten. -/
def pointerOperand : Reader Operand := do
  return (← typedOperand).2

def nodeRef : Reader NodeRef := do
  char '!'
  return ⟨(← natural UInt32.size).toUInt32⟩

/-! ## Instructions -/

/-- The fast-math flags, and whether they allow contraction. -/
def fastMath : Reader Bool := do
  let found ← flags fun w =>
    if ["contract", "fast"].contains w then some true
    else if ["nnan", "ninf", "nsz", "arcp", "afn", "reassoc"].contains w then some false
    else none
  return found.contains true

/-- Flags about overflow, which are forgotten. -/
def wrapFlags : Reader Unit := do
  let _ ← flags fun w => if ["nsw", "nuw", "exact"].contains w then some () else none

/-- A label as the target of a jump. -/
def label : Reader String := do
  keyword "label"
  blanks
  valueName

/-- Two operands of one type. -/
def operands : Reader (DataType × Operand × Operand) := do
  let (t, lhs) ← typedOperand
  comma
  return (t, lhs, ← operand t)

/-- A comparison of floating-point numbers, after its flags. -/
def compareFloat : Reader Action := do
  blanks
  let comparison ← meaning FloatComparison.ofKeyword?
  blanks
  let (t, lhs, rhs) ← operands
  return .compareFloat comparison t lhs rhs

def compareInt : Reader Action := do
  blanks
  let comparison ← meaning IntComparison.ofKeyword?
  blanks
  let (t, lhs, rhs) ← operands
  return .compareInt comparison t lhs rhs

def binary (op : BinaryOp) : Reader Action := do
  wrapFlags
  blanks
  let (t, lhs, rhs) ← operands
  return .binary op t lhs rhs

def convert (op : Conversion) : Reader Action := do
  blanks
  let (source, value) ← typedOperand
  between (keyword "to")
  return .convert op source value (← type)

def load : Reader Action := do
  blanks
  let t ← type
  comma
  return .load t (← pointerOperand)

def store : Reader Action := do
  blanks
  let (t, value) ← typedOperand
  comma
  return .store t value (← pointerOperand)

def address : Reader Action := do
  let inbounds ← optional do
    blanks
    keyword "inbounds"
  blanks
  let element ← type
  comma
  let base ← pointerOperand
  comma
  let (indexType, index) ← typedOperand
  return .address inbounds.isSome element base indexType index

/-- A call, after its flags. -/
def call : Reader Action := do
  blanks
  let returnType ← type
  blanks
  let callee ← symbolName
  return .call returnType callee (← listed typedOperand)

def ret : Reader Action := do
  blanks
  (do keyword "void"; return .ret none) <|> (do return .ret (some (← typedOperand)))

/-- A jump or a branch. -/
def jump : Reader Action := do
  blanks
  if "label".toList.isPrefixOf (← rest) then return .jump (← label)
  else
    let condition ← pointerOperand
    comma
    let thenTarget ← label
    comma
    return .branch condition thenTarget (← label)

/-- What follows the word `opcode`, and whether the result may be contracted. -/
def action (opcode : String) : Reader (Bool × Action) := do
  let plain (p : Reader Action) : Reader (Bool × Action) := (false, ·) <$> p
  let flagged (p : Reader Action) : Reader (Bool × Action) := do
    let contract ← fastMath
    return (contract, ← p)
  match BinaryOp.ofKeyword? opcode, Conversion.ofKeyword? opcode, opcode with
  | some op, _, _ => flagged (binary op)
  | none, some op, _ => plain (convert op)
  | none, none, "fneg" => flagged do
    blanks
    let (t, value) ← typedOperand
    return .negate t value
  | none, none, "icmp" => plain compareInt
  | none, none, "fcmp" => flagged compareFloat
  | none, none, "load" => plain load
  | none, none, "store" => plain store
  | none, none, "alloca" => plain do
    blanks
    return .alloca (← type)
  | none, none, "getelementptr" => plain address
  | none, none, "call" => flagged call
  | none, none, "tail" => do
    blanks
    keyword "call"
    flagged call
  | none, none, "ret" => plain ret
  | none, none, "br" => plain jump
  | none, none, _ => fail

/-- An instruction. -/
def instruction : Reader Instruction := do
  let result ← optional do
    let name ← valueName
    between (char '=')
    return name
  let (contract, action) ← action (← word)
  let debug ← optional do
    comma
    literal "!dbg"
    blanks
    nodeRef
  return { result, action, contract, debug }

/-! ## Functions -/

def parameter : Reader Parameter := do
  let t ← type
  let name ← optional do
    blanks
    valueName
  return ⟨t, name⟩

/-- The header of a function, up to the opening brace if it has a body. -/
def header : Reader Function := do
  let defined ← (do keyword "define"; return true) <|> (do keyword "declare"; return false)
  blanks
  let linkage ← optional do
    let linkage ← meaning fun w =>
      if ["internal", "private"].contains w then some Linkage.internal
      else if ["external", "dso_local"].contains w then some .external
      else none
    blanks
    return linkage
  let returnType ← type
  blanks
  let name ← symbolName
  let parameters ← listed parameter
  let _ ← optional do
    blanks
    char '#'
    takeWhile1 Char.isDigit
  let debug ← optional do
    blanks
    literal "!dbg"
    blanks
    nodeRef
  if defined then
    blanks
    char '{'
  return { name, linkage := linkage.getD .external, returnType, parameters, blocks := [], debug }

/-! ## Metadata -/

/-- A part of a tuple. -/
def nodeOperand : Reader NodeOperand := do
  match ← rest with
  | '!' :: '"' :: _ =>
    char '!'
    return .text (← quoted)
  | '!' :: _ => return .node (← nodeRef)
  | _ =>
    (do keyword "null"; return .null) <|> do
      let t ← type
      blanks
      if t = .ptr then return .function (← symbolName)
      else return .int t (← integer)

/-- The value of a field, as it is written. -/
def fieldValue : Reader String := do
  let s ← rest
  if ← startsWith '"' then
    let _ ← quoted
    let s' ← rest
    return String.ofList (s.take (s.length - s'.length))
  else
    return String.ofList (trimEnd (← takeWhile1 fun c => c ≠ ',' && c ≠ ')'))

def field : Reader (String × String) := do
  let key ← word
  between (char ':')
  return (key, ← fieldValue)

/-- A tuple, after its exclamation mark. -/
def tuple : Reader Node := do
  char '{'
  blanks
  let parts ← separated nodeOperand comma
  blanks
  char '}'
  return .tuple parts

/-- A record, after its exclamation mark. -/
def record : Reader Node := do
  let name ← word
  return .record name (← listed field)

/-- A node with its number. -/
def nodeDef : Reader (NodeRef × NodeDef) := do
  let r ← nodeRef
  between (char '=')
  let distinct ← optional do
    keyword "distinct"
    blanks
  char '!'
  let node ← if ← startsWith '{' then tuple else record
  return (r, ⟨distinct.isSome, node⟩)

/-- A named list of nodes. -/
def nodeList : Reader NodeList := do
  char '!'
  let c ← satisfy fun c => c.isAlpha || c = '_' || c = '.'
  let cs ← takeWhile fun c => isWordChar c || c = '-'
  between (char '=')
  literal "!\x7b"
  blanks
  let nodes ← separated nodeRef comma
  blanks
  char '}'
  return ⟨String.ofList (c :: cs), nodes⟩

/-! ## Targets -/

/-- What a target line sets. -/
inductive TargetLine
  | triple (text : String)
  | dataLayout (text : String)

def targetLine : Reader TargetLine := do
  keyword "target"
  blanks
  let make ← (do keyword "triple"; return TargetLine.triple)
    <|> (do keyword "datalayout"; return TargetLine.dataLayout)
  between (char '=')
  return make (← quoted)

end Offload.Device.Grammar
