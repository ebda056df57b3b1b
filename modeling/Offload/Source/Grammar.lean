import Offload.Number.Decimal
import Offload.Source.Term
import Offload.Text.Quoted

/-!
# The grammar of programs

An operation is written on one line, with its regions in braces after it:

```text
[results =] dialect.name [@symbol] [operands] [{attributes}] [: types] [regions]
```

Blanks separate the parts of the line, and any white space the lines.
A region lists blocks, each after its label, or the operations of one block
without a label. Since attributes and regions both stand in braces, a type
takes attributes only after parentheses.

The readers are recursive in the number of nested brackets. Every bracket takes
a character, so the length of the text bounds this number, and `Term.read` never
runs out of it.
-/

namespace Offload.Source

open Text Text.Reader

/-! ## Words -/

/-- White space, line breaks included. -/
def isSpace (c : Char) : Bool :=
  c = ' ' || c = '\t' || c = '\n' || c = '\r' || c = '\x0c'

/-- White space within a line. -/
def isBlank (c : Char) : Bool := c = ' ' || c = '\t'

def isWordStart (c : Char) : Bool := c.isAlpha || c = '_'
def isWordChar (c : Char) : Bool := c.isAlphanum || c = '_'
def isKeyChar (c : Char) : Bool := c.isAlphanum || c = '_' || c = '.'

/-- Skip white space. -/
def spaces : Reader Unit := do
  let _ ← takeWhile isSpace

/-- Skip white space within a line. -/
def blanks : Reader Unit := do
  let _ ← takeWhile isBlank

/-- Something with white space around it. -/
def spaced {α : Type} (p : Reader α) : Reader α := do
  spaces
  let a ← p
  spaces
  return a

/-- Something with blanks around it. -/
def blanked {α : Type} (p : Reader α) : Reader α := do
  blanks
  let a ← p
  blanks
  return a

/-- A character of one class, then as many of another as there are. -/
def word (first next : Char → Bool) : Reader String := do
  let c ← satisfy first
  let cs ← takeWhile next
  return String.ofList (c :: cs)

/-- The name of a dialect, an operation or a type. -/
def name : Reader String := word isWordStart isWordChar

/-- The key of an attribute, which may have dots. -/
def key : Reader String := word isWordStart isKeyChar

/-- A name or a number after a mark. -/
def marked (mark : Char) : Reader String := do
  char mark
  return String.ofList (← takeWhile1 isWordChar)

/-- The name of a value. -/
def valueName : Reader String := marked '%'

/-- The name of a block. -/
def labelName : Reader String := marked '^'

/-- A symbol, quoted if need be. -/
def symbol : Reader String := do
  char '@'
  if ← startsWith '"' then quotedString
  else return String.ofList (← takeWhile1 isWordChar)

/-- A name within a dialect. -/
def qualifiedName : Reader (String × String) := do
  let dialect ← name
  char '.'
  return (dialect, ← name)

/-- Something between an opening and a closing bracket. -/
def bracketed {α : Type} (opening closing : Char) (p : Reader α) : Reader α := do
  char opening
  spaces
  let a ← p
  spaces
  char closing
  return a

/-- Items between brackets, with commas between them. -/
def listed {α : Type} (opening closing : Char) (item : Reader α) : Reader (List α) :=
  bracketed opening closing (separated (spaced item) (char ','))

/-! ## Attributes and types -/

/-- An integer of 64 bits. A minus sign gives the two's complement. -/
def integer : Reader UInt64 := do
  let negative := (← optional (char '-')).isSome
  let n ← natural UInt64.size
  if negative then
    if 0x8000000000000000 < n then fail else return -n.toUInt64
  else return n.toUInt64

/-- The digits of a decimal fraction, with an exponent if one follows. -/
def decimal : Reader Double := do
  let negative := (← optional (char '-')).isSome
  let whole ← takeWhile1 Char.isDigit
  char '.'
  let fraction ← takeWhile1 Char.isDigit
  let exponent ← optional do
    let _ ← satisfy fun c => c = 'e' || c = 'E'
    let sign ← optional (satisfy fun c => c = '+' || c = '-')
    return (sign == some '-', ← takeWhile1 Char.isDigit)
  let (down, exponent) := exponent.getD (false, [])
  return (Decimal.ofText whole fraction down exponent).toDouble negative

/-- A number with a point, or the name of one that has no digits. -/
def float : Reader Double :=
  decimal
    <|> (do literal "-inf"; return .infinity true)
    <|> (do literal "inf"; return .infinity false)
    <|> (do literal "NaN"; return .nan)

/-- A range of the text of a file. -/
def location : Reader AttributeTerm := do
  literal "loc("
  spaces
  let path ← quotedString
  spaces
  let start ← natural UInt64.size
  char ':'
  let stop ← natural UInt64.size
  spaces
  char ')'
  return .location path ⟨start, stop⟩

/-- A list of bytes. -/
def bytes : Reader AttributeTerm := do
  literal "bytes"
  return .bytes ((← listed '(' ')' (natural 256)).map Nat.toUInt8)

/-- Attributes in braces, one at least; `value` reads what stands after the
    equals sign. -/
def entries (value : Reader AttributeTerm) : Reader (List Entry) :=
  bracketed '{' '}' (separated1 (spaced do
    let k ← key
    spaces
    char '='
    spaces
    return .mk k (← value)) (char ','))

mutual

/-- A type, in which at most `n` brackets are nested. -/
def type : (n : Nat) → Reader TypeTerm
  | 0 => fail
  | n + 1 => do
    let (dialect, name) ← qualifiedName
    let params ← optional (listed '(' ')' (type n))
    let attributes ← if params.isSome then
        optional do
          blanks
          entries (value n)
      else pure none
    return .mk dialect name (params.getD []) (attributes.getD [])

/-- The value of an attribute, in which at most `n` brackets are nested. -/
def value : (n : Nat) → Reader AttributeTerm
  | 0 => fail
  | n + 1 =>
    (do literal "true"; return .bool true)
      <|> (do literal "false"; return .bool false)
      <|> (do literal "unit"; return .unit)
      <|> location
      <|> bytes
      <|> (do return .string (← quotedString))
      <|> (do return .symbol (← symbol))
      <|> (do return .list (← listed '[' ']' (value n)))
      <|> (do return .float (← float))
      <|> (do return .int (← integer))
      <|> (do return .type (← type n))

end

/-! ## Operations -/

/-- Values between commas. -/
def valueNames : Reader (List String) := separated1 (blanked valueName) (char ',')

/-- The values before the equals sign of an operation. -/
def resultNames : Reader (List String) := do
  let names ← valueNames
  char '='
  return names

/-- The types after the colon of an operation. -/
def resultTypes (type : Reader TypeTerm) : Reader (List TypeTerm) := do
  blanked (char ':')
  separated1 (blanked type) (char ',')

/-- Something after blanks, or nothing. -/
def optionally {α : Type} (p : Reader α) : Reader (Option α) :=
  optional do
    blanks
    p

/-- Items up to a closing mark; at most `n` of them. -/
def itemsUntil {α : Type} (closed : Reader Bool) (item : Reader α) : (n : Nat) → Reader (List α)
  | 0 => fail
  | n + 1 => do
    if ← closed then return []
    else
      let a ← item
      return a :: (← itemsUntil closed item n)

/-- The operations up to the end of their block. -/
def ops (operation : Reader OpTerm) : Reader (List OpTerm) := do
  let n := (← rest).length
  let closed : Reader Bool := do
    spaces
    return match ← rest with
      | [] | '^' :: _ | '}' :: _ => true
      | _ => false
  itemsUntil closed operation (n + 1)

/-- A block with its label. -/
def block (operation : Reader OpTerm) (type : Reader TypeTerm) : Reader BlockTerm := do
  spaces
  let name ← labelName
  let args ← optional <| listed '(' ')' do
    let arg ← valueName
    spaces
    char ':'
    spaces
    return (arg, ← type)
  blanks
  char ':'
  return .mk (some ⟨name, args.getD []⟩) (← ops operation)

/-- The blocks of a region: some with labels, or one without. -/
def blocks (operation : Reader OpTerm) (type : Reader TypeTerm) : Reader (List BlockTerm) := do
  match ← rest with
  | '}' :: _ => return []
  | '^' :: s =>
    itemsUntil (do spaces; startsWith '}') (block operation type) (s.length + 2)
  | _ => return [.mk none (← ops operation)]

/-- A region in its braces. -/
def region (operation : Reader OpTerm) (type : Reader TypeTerm) : Reader RegionTerm :=
  return .mk (← bracketed '{' '}' (blocks operation type))

/-- The regions of an operation. -/
def regions (operation : Reader OpTerm) (type : Reader TypeTerm) :
    Reader (List RegionTerm) := do
  let n := (← rest).length
  let closed : Reader Bool := do
    blanks
    return !(← startsWith '{')
  itemsUntil closed (region operation type) (n + 1)

/-- An operation of a text of `length` bytes, in which at most `n` brackets are
    nested. -/
def operation (length : Nat) : (n : Nat) → Reader OpTerm
  | 0 => fail
  | n + 1 => do
    spaces
    let start ← rest
    let type := type (n + 1)
    let value := value (n + 1)
    let results := (← optional resultNames).getD []
    blanks
    let (dialect, name) ← qualifiedName
    let symbol ← optionally symbol
    let operands := (← optionally valueNames).getD []
    let attributes := (← optionally (entries value)).getD []
    let types := (← optional (resultTypes type)).getD []
    let regions ← regions (operation length n) type
    let stop ← rest
    let span := ⟨length - byteLength start, length - byteLength stop⟩
    return .mk ⟨results, ⟨dialect, name⟩, symbol, operands, attributes, types, span⟩ regions

end Offload.Source
