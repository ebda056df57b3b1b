import Offload.Number.Digits
import Offload.Text.Blank

/-!
# Targets

A target names a kind of machine by its triple, a chip, and features of the
instruction set. It decides the size of an address, and the version of the
assembly language.

What a triple says about addresses is up to a library that knows triples
(`TripleLibrary`). Nothing is assumed of it here.
-/

namespace Offload.Ptx

/-- A kind of machine. -/
structure Target where
  triple : String
  chip : String
  features : String
  deriving DecidableEq, Repr, Inhabited

/-- The number of bits of an address. -/
inductive PointerWidth
  | bits16
  | bits32
  | bits64
  deriving DecidableEq, Repr

/-- A library that knows triples. -/
class TripleLibrary where
  Triple : Type
  /-- The triple that a text spells. -/
  parse? : String → Option Triple
  /-- The width of the addresses of a triple, if it is known. -/
  pointerWidth? : Triple → Option PointerWidth

/-- A library that knows no triples but some with addresses of 64 bits. -/
@[reducible] def TripleLibrary.wide (triples : List String) : TripleLibrary where
  Triple := String
  parse? text := if text ∈ triples then some text else none
  pointerWidth? _ := some .bits64

/-- Whether the addresses of a triple take 64 bits. Those of all triples that
    nothing is known about take 32. -/
def isWide [TripleLibrary] (triple : String) : Bool :=
  match TripleLibrary.parse? triple with
  | some parsed => TripleLibrary.pointerWidth? parsed = some .bits64
  | none => false

/-- The number of a feature `+ptx60`. -/
def versionNumber? (feature : List Char) : Option Nat :=
  if "+ptx".toList.isPrefixOf feature then readNatural? UInt32.size (feature.drop 4) else none

/-- The version that a list of features with commas between them asks for: the
    last one counts. -/
def version? (features : String) : Option (Nat × Nat) :=
  (((Text.splitAtChar ',' features.toList).filterMap fun f => versionNumber? (Text.trim f)).getLast?).map
    fun n => (n / 10, n % 10)

namespace Target

variable (t : Target)

def isWide [TripleLibrary] : Bool := Ptx.isWide t.triple

/-- The number of bytes of an address. -/
def pointerBytes [TripleLibrary] : Nat := if t.isWide then 8 else 4

/-- The version of the assembly language, 6.0 unless the features ask for
    another. -/
def version : Nat × Nat := (version? t.features).getD (6, 0)

end Target

/-- A name as a symbol, which cannot have dots. -/
def symbolName (name : String) : String :=
  String.ofList (name.toList.flatMap fun c => if c = '.' then "_$_".toList else [c])

end Offload.Ptx
