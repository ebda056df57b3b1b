import Offload.Source.Grammar

/-!
# Reading terms

A text is one operation, with white space around it. `readTerm` takes it apart;
the names in it may still be undefined.

A `ReadError` is a cause and the place in the text, as a byte offset, that it
is about.
-/

namespace Offload

/-- Why a text is not a program. -/
inductive ReadFailure
  /-- The text departs from the grammar. -/
  | malformed
  /-- Something follows the operation. -/
  | trailing
  /-- An operation names a number of results, and gives types for another. -/
  | resultCount (kind : OpKind) (names types : Nat)
  /-- A value is used before its definition. -/
  | undefined (name : String)
  deriving DecidableEq, Repr

/-- The words for a failure. -/
def ReadFailure.message : ReadFailure → String
  | malformed =>
    "expected operation: Parsing Error: ContextError \x7b context: [], cause: None \x7d"
  | trailing => "unexpected trailing input"
  | resultCount kind names types =>
    s!"{kind} names {names} result(s) but declares {types} type(s)"
  | undefined name => s!"use of undefined value %{name}"

/-- Why a text is not a program, and where. -/
structure ReadError where
  failure : ReadFailure
  offset : Nat
  deriving DecidableEq, Repr

namespace ReadError

def message (e : ReadError) : String := e.failure.message

/-- The report to a user. -/
def text (e : ReadError) : String := s!"parse error at offset {e.offset}: {e.message}"

end ReadError

/-- The operation that a text spells. -/
def readTerm (text : String) : Except ReadError OpTerm :=
  let s := text.toList
  let length := Text.Reader.byteLength s
  match Source.operation length (s.length + 2) s with
  | .stuck place => .error ⟨.malformed, length - Text.Reader.byteLength place⟩
  | .done term rest =>
    let rest := rest.dropWhile Source.isSpace
    if rest.isEmpty then .ok term
    else .error ⟨.trailing, length - Text.Reader.byteLength rest⟩

end Offload
