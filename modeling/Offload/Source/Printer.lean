import Offload.Number.Decimal
import Offload.Source.Term
import Offload.Text.Alphanumeric
import Offload.Text.Quoted

/-!
# Writing terms

Every operation is written in one form, a line for its head and, between braces
at its end, its regions, two columns further in:

```text
gpu.module @kernels {
  func.func @scale {gpu.kernel = unit, type = func.fn(core.nil, core.ptr)} {
    ^bb0(%0: core.ptr):
      %1 = mem.load %0 : core.f32
      func.return
  }
}
```

Writing decides nothing about names or order: it spells out what the term says.
-/

namespace Offload.Source

open Text

/-- Floating-point attributes are written without an exponent. -/
def floatLayout : FloatLayout where
  isPositional _ := true

/-- Texts with commas between them. -/
def commas (texts : List String) : String := ", ".intercalate texts

/-- A symbol, quoted unless all of its characters are letters, digits or
    underscores. -/
def symbolText (name : String) : String :=
  if !name.isEmpty && name.toList.all (fun c => isAlphanumeric c || c = '_') then "@" ++ name
  else "@" ++ quoted name

mutual

/-- The text of a type. Attributes follow parentheses, empty ones if need be. -/
def typeText : TypeTerm → String
  | .mk dialect name params entries =>
    dialect ++ "." ++ name
      ++ (if !params.isEmpty then "(" ++ commas (typeTexts params) ++ ")"
        else if !entries.isEmpty then "()" else "")
      ++ (if entries.isEmpty then "" else " \x7b" ++ commas (entryTexts entries) ++ "\x7d")

def typeTexts : List TypeTerm → List String
  | [] => []
  | t :: ts => typeText t :: typeTexts ts

/-- The text of an attribute. -/
def valueText : AttributeTerm → String
  | .unit => "unit"
  | .bool true => "true"
  | .bool false => "false"
  | .int bits => toString bits.toNat
  | .float x => floatLayout.text x
  | .string s => quoted s
  | .bytes data => "bytes(" ++ commas (data.map fun b => toString b.toNat) ++ ")"
  | .type t => typeText t
  | .symbol name => symbolText name
  | .location path span => "loc(" ++ quoted path ++ s!" {span.start}:{span.stop})"
  | .list items => "[" ++ commas (valueTexts items) ++ "]"

def valueTexts : List AttributeTerm → List String
  | [] => []
  | a :: as => valueText a :: valueTexts as

/-- The texts of attributes with their keys. -/
def entryTexts : List Entry → List String
  | [] => []
  | .mk key a :: rest => (key ++ " = " ++ valueText a) :: entryTexts rest

end

/-- The text of some attributes after what they belong to. -/
def entriesText (entries : List Entry) : String :=
  if entries.isEmpty then "" else " \x7b" ++ commas (entryTexts entries) ++ "\x7d"

/-- The text of values. -/
def valuesText (names : List String) : String := commas (names.map ("%" ++ ·))

/-- The line of an operation, up to its regions. -/
def headText (head : Head) : String :=
  (if head.results.isEmpty then "" else valuesText head.results ++ " = ")
    ++ toString head.kind
    ++ (match head.symbol with
      | some name => " " ++ symbolText name
      | none => "")
    ++ (if head.operands.isEmpty then "" else " " ++ valuesText head.operands)
    ++ entriesText head.entries
    ++ (if head.types.isEmpty then "" else " : " ++ commas (typeTexts head.types))

/-- The line of a label. -/
def labelText (label : Label) : String :=
  "^" ++ label.name
    ++ (if label.args.isEmpty then ""
      else "(" ++ commas (label.args.map fun (arg, t) => s!"%{arg}: " ++ typeText t) ++ ")")
    ++ ":"

/-- So many columns of blanks. -/
def indentation (columns : Nat) : String := String.ofList (List.replicate columns ' ')

mutual

/-- The lines of an operation that starts in a column. -/
def opText (column : Nat) : OpTerm → String
  | .mk head regions =>
    indentation column ++ headText head ++ regionTexts column regions ++ "\n"

def opTexts (column : Nat) : List OpTerm → String
  | [] => ""
  | op :: ops => opText column op ++ opTexts column ops

/-- The regions of an operation that starts in a column. -/
def regionTexts (column : Nat) : List RegionTerm → String
  | [] => ""
  | .mk blocks :: regions =>
    " \x7b\n" ++ blockTexts column blocks ++ indentation column ++ "\x7d"
      ++ regionTexts column regions

/-- The blocks in a region of an operation that starts in a column. -/
def blockTexts (column : Nat) : List BlockTerm → String
  | [] => ""
  | .mk none ops :: blocks => opTexts (column + 2) ops ++ blockTexts column blocks
  | .mk (some label) ops :: blocks =>
    indentation (column + 2) ++ labelText label ++ "\n"
      ++ opTexts (column + 4) ops ++ blockTexts column blocks

end

end Offload.Source

namespace Offload

/-- The text of an operation with everything nested in it. -/
def OpTerm.text (term : OpTerm) : String := Source.opText 0 term

end Offload
