import Offload.Number.Digits

/-!
# Readers

A *reader* takes a value off the front of a text. It either gets `done`, and
returns the value with the text that is left, or gets `stuck`, and returns the
text from the place where it got stuck: error messages point there.

The place where a composed reader gets stuck follows from its parts:

* a class of characters or a literal (`satisfy`, `literal`) gets stuck where it
  starts;
* a sequence (`>>=`) gets stuck where its part does;
* a choice (`<|>`) tries both sides from the same place, and gets stuck where
  the second one does;
* `optional` and `separated` go back to where they can stop, and succeed;
  `separated1` gets stuck where its first item does.

A reader never looks at what lies before its text, so the remaining text is all
of its state: the offset of a place is a difference of lengths.
-/

namespace Offload.Text

/-- What comes of reading a text. -/
inductive Reading (α : Type)
  | done (a : α) (rest : List Char)
  | stuck (place : List Char)
  deriving Repr

/-- A way to take a value off the front of a text. -/
def Reader (α : Type) := List Char → Reading α

namespace Reader

variable {α β : Type}

/-- Read nothing. -/
protected def pure (a : α) : Reader α := fun s => .done a s

/-- Read one thing, then another that may depend on it. -/
protected def bind (p : Reader α) (f : α → Reader β) : Reader β := fun s =>
  match p s with
  | .done a rest => f a rest
  | .stuck place => .stuck place

instance : Monad Reader where
  pure := Reader.pure
  bind := Reader.bind

/-- Get stuck. -/
def fail : Reader α := fun s => .stuck s

/-- The first of two readers that does not get stuck. -/
def orElse (p : Reader α) (q : Unit → Reader α) : Reader α := fun s =>
  match p s with
  | .done a rest => .done a rest
  | .stuck _ => q () s

instance : OrElse (Reader α) := ⟨orElse⟩

/-- The text that is left. -/
def rest : Reader (List Char) := fun s => .done s s

/-- Whether the next character is `c`. -/
def startsWith (c : Char) : Reader Bool := fun s => .done (s.head? == some c) s

/-- Any character. -/
def anyChar : Reader Char
  | [] => .stuck []
  | c :: s => .done c s

/-- A character of a class. -/
def satisfy (p : Char → Bool) : Reader Char
  | [] => .stuck []
  | c :: s => if p c then .done c s else .stuck (c :: s)

/-- The character `c`. -/
def char (c : Char) : Reader Unit := do
  let _ ← satisfy (· == c)

/-- The text `t`, all or nothing. -/
def literal (t : String) : Reader Unit := fun s =>
  if t.toList.isPrefixOf s then .done () (s.drop t.toList.length) else .stuck s

/-- As many characters of a class as there are. -/
def takeWhile (p : Char → Bool) : Reader (List Char) := fun s =>
  .done (s.takeWhile p) (s.dropWhile p)

/-- As many characters of a class as there are, one at least. -/
def takeWhile1 (p : Char → Bool) : Reader (List Char) := do
  let c ← satisfy p
  let cs ← takeWhile p
  return c :: cs

/-- A reading, or nothing. -/
def optional (p : Reader α) : Reader (Option α) := fun s =>
  match p s with
  | .done a rest => .done (some a) rest
  | .stuck _ => .done none s

/-- Further items, each after a separator; at most `n` of them. -/
def separatedRest (item : Reader α) (separator : Reader Unit) : (n : Nat) → Reader (List α)
  | 0 => pure []
  | n + 1 => fun s =>
    match separator s with
    | .stuck _ => .done [] s
    | .done _ s' =>
      match item s' with
      | .stuck _ => .done [] s
      | .done a s'' => (do return a :: (← separatedRest item separator n)) s''

/-- One item or more, with separators between them. Every separator takes a
    character, so the length of the text bounds their number. -/
def separated1 (item : Reader α) (separator : Reader Unit) : Reader (List α) := do
  let a ← item
  let n := (← rest).length
  let as ← separatedRest item separator n
  return a :: as

/-- Items with separators between them. -/
def separated (item : Reader α) (separator : Reader Unit) : Reader (List α) := do
  return (← optional (separated1 item separator)).getD []

/-! ## Numbers -/

/-- A decimal number below `limit`, without leading zeros: after a `0` the
    number ends. -/
def natural (limit : Nat) : Reader Nat := fun s =>
  match s with
  | '0' :: rest => .done 0 rest
  | _ =>
    match takeWhile1 Char.isDigit s with
    | .stuck place => .stuck place
    | .done digits rest =>
      let n := digitsValue digits
      if n < limit then .done n rest else .stuck s

/-! ## Places -/

/-- The number of bytes of a text. -/
def byteLength : List Char → Nat
  | [] => 0
  | c :: s => c.utf8Size + byteLength s

end Reader

end Offload.Text
