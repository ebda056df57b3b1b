import Offload.Ir.Context

/-!
# Terms

A *term* is what a text says before its names are resolved: values are names
here, and types and paths are spelled out at every place. `Offload.Source`
relates terms to both sides:

* `Grammar` reads a term off a text, `Printer` writes it as one;
* `Build` makes the operation that a term describes, `Quote` gives the term
  that describes an operation.

So reading a program is `build` after `read`, and printing it is `print` after
`quote`; a text and the context agree on a program iff they agree on its term.
-/

namespace Offload

mutual

/-- A type, spelled out. -/
inductive TypeTerm
  | mk (dialect name : String) (params : List TypeTerm) (entries : List Entry)

/-- An attribute, spelled out. -/
inductive AttributeTerm
  | unit
  | bool (b : Bool)
  | int (bits : UInt64)
  | float (x : Double)
  | string (s : String)
  | bytes (data : List UInt8)
  | type (t : TypeTerm)
  | symbol (name : String)
  | location (path : String) (span : Span)
  | list (items : List AttributeTerm)

/-- An attribute under a key. -/
inductive Entry
  | mk (key : String) (value : AttributeTerm)

end

deriving instance Repr for TypeTerm, AttributeTerm, Entry
deriving instance Inhabited for AttributeTerm, Entry, TypeTerm

/-- The first line of an operation: all but its regions. -/
structure Head where
  results : List String
  kind : OpKind
  /-- The symbol after the operation's name, which is its `sym_name`. -/
  symbol : Option String
  operands : List String
  entries : List Entry
  types : List TypeTerm
  /-- Where the operation stands in its text. -/
  span : Span
  deriving Repr, Inhabited

/-- The label of a block, with its arguments. -/
structure Label where
  name : String
  args : List (String × TypeTerm)
  deriving Repr, Inhabited

mutual

/-- An operation with everything nested in it. -/
inductive OpTerm
  | mk (head : Head) (regions : List RegionTerm)

/-- The blocks of a region. -/
inductive RegionTerm
  | mk (blocks : List BlockTerm)

/-- A block. Its label is left out where it says nothing. -/
inductive BlockTerm
  | mk (label : Option Label) (ops : List OpTerm)

end

deriving instance Repr for OpTerm, RegionTerm, BlockTerm

namespace OpTerm

def head : OpTerm → Head
  | mk head _ => head

def regions : OpTerm → List RegionTerm
  | mk _ regions => regions

end OpTerm

end Offload
