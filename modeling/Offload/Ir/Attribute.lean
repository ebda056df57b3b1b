import Offload.Ir.Handle
import Offload.Number.Double
import Offload.SortedMap

/-!
# Attributes

An *attribute* is a constant attached to an operation or a type under a key: an
atom, or a list of attributes. Types and paths in attributes are handles.

`Attributes` are attributes by key. They are kept as a sorted map, so that the
attributes of two operations are the same iff their lists are equal.
-/

namespace Offload

/-- A range of a text, as byte offsets. -/
structure Span where
  start : Nat
  stop : Nat
  deriving DecidableEq, Hashable, Repr, Inhabited

/-- A range of the text of a file. -/
structure Location where
  path : PathRef
  span : Span
  deriving DecidableEq, Hashable, Repr, Inhabited

/-- An attribute without parts. Integers have no sign: they are 64 bits, which
    the operation interprets. -/
inductive Atom
  | unit
  | bool (b : Bool)
  | int (bits : UInt64)
  | float (x : Double)
  | string (s : String)
  | bytes (data : List UInt8)
  | type (t : TypeRef)
  | symbol (name : String)
  | location (l : Location)
  deriving DecidableEq, Hashable, Repr, Inhabited

/-- A constant attached to an operation or a type. -/
inductive Attribute
  | atom (a : Atom)
  | list (items : List Attribute)
  deriving Repr, Inhabited

namespace Attribute

mutual

/-- Equality of attributes is decidable. -/
def decEq : (a b : Attribute) → Decidable (a = b)
  | atom a, atom b => decidable_of_iff (a = b) (by simp)
  | list xs, list ys => @decidable_of_iff _ (xs = ys) (by simp) (decEqList xs ys)
  | atom _, list _ => isFalse (by simp)
  | list _, atom _ => isFalse (by simp)

/-- Equality of lists of attributes is decidable. -/
def decEqList : (xs ys : List Attribute) → Decidable (xs = ys)
  | [], [] => isTrue rfl
  | [], _ :: _ => isFalse (by simp)
  | _ :: _, [] => isFalse (by simp)
  | x :: xs, y :: ys =>
    match decEq x y with
    | isTrue h =>
      match decEqList xs ys with
      | isTrue h' => isTrue (by rw [h, h'])
      | isFalse h' => isFalse (by simp [h'])
    | isFalse h => isFalse (by simp [h])

end

instance : DecidableEq Attribute := decEq

/-! ## Views -/

def asSymbol? : Attribute → Option String
  | atom (.symbol name) => some name
  | _ => none

def asType? : Attribute → Option TypeRef
  | atom (.type t) => some t
  | _ => none

def asInt? : Attribute → Option UInt64
  | atom (.int bits) => some bits
  | _ => none

def asString? : Attribute → Option String
  | atom (.string s) => some s
  | _ => none

def asBytes? : Attribute → Option (List UInt8)
  | atom (.bytes data) => some data
  | _ => none

end Attribute

/-- Attributes by key. -/
abbrev Attributes := SortedMap String Attribute

namespace Attributes

/-- No attributes. -/
def empty : Attributes := ∅

end Attributes

end Offload
