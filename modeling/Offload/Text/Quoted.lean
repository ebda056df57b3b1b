import Offload.Text.Reader

/-!
# Quoted strings

A quoted string stands between double quotes. Quotes, backslashes and the
control characters are written as escapes: `\"`, `\\`, `\n`, `\t`, `\r`, `\0`,
and `\xHH` for the others, all of which lie below U+00A0.

Reading is more generous than writing. An escape that is not one of these keeps
its backslash and stands for itself, and so does `\x` before two characters
that are no hexadecimal number.
-/

namespace Offload.Text

/-- The control characters, U+0000 to U+001F and U+007F to U+009F. -/
def isControl (c : Char) : Bool := c.toNat < 0x20 || (0x7F ≤ c.toNat && c.toNat < 0xA0)

/-- Two lower-case hexadecimal digits. -/
def hexByte (n : Nat) : List Char := [Nat.digitChar (n / 16), Nat.digitChar (n % 16)]

/-- The text of one character between quotes. -/
def escapeChar (c : Char) : List Char :=
  match c with
  | '\\' => ['\\', '\\']
  | '"' => ['\\', '"']
  | '\n' => ['\\', 'n']
  | '\t' => ['\\', 't']
  | '\r' => ['\\', 'r']
  | '\x00' => ['\\', '0']
  | c => if isControl c then ['\\', 'x'] ++ hexByte c.toNat else [c]

/-- The text of a string between quotes. -/
def escape (s : String) : String := String.ofList (s.toList.flatMap escapeChar)

/-- A string in quotes. -/
def quoted (s : String) : String := "\"" ++ escape s ++ "\""

/-- The code that two hexadecimal digits spell. A plus sign may take the place
    of the first. -/
def hexCode (high low : Char) : Option Nat :=
  if high = '+' then hexValue low
  else do return 16 * (← hexValue high) + (← hexValue low)

/-- The characters that stand for an escape, after its backslash. -/
def escapeSequence : Reader (List Char) := do
  match ← Reader.anyChar with
  | '"' => return ['"']
  | '\\' => return ['\\']
  | 'n' => return ['\n']
  | 't' => return ['\t']
  | 'r' => return ['\r']
  | '0' => return ['\x00']
  | 'x' =>
    let high ← Reader.anyChar
    let low ← Reader.anyChar
    match hexCode high low with
    | some code => return [Char.ofNat code]
    | none => return ['\\', 'x', high, low]
  | c => return ['\\', c]

/-- The characters of a string up to its closing quote. Every step takes a
    character, so as many steps as the text is long suffice. -/
def quotedRest : (n : Nat) → Reader (List Char)
  | 0 => Reader.fail
  | n + 1 => do
    match ← Reader.anyChar with
    | '"' => return []
    | '\\' => return (← escapeSequence) ++ (← quotedRest n)
    | c => return c :: (← quotedRest n)

/-- A string in quotes. -/
def quotedString : Reader String := do
  Reader.char '"'
  let n := (← Reader.rest).length
  return String.ofList (← quotedRest (n + 1))

end Offload.Text
