/-!
# Handles

The entities of a program under compilation — operations, values, blocks,
regions, types and paths — live in numbered tables, and refer to each other by
*handles*: the number of a table row, wrapped in a type of its own, so that a
block can never be taken for an operation. A handle is given out when its row
is allocated and keeps its meaning from then on, also after the entity has
been erased.

Every handle has a short text (`op3`, `v0`, `block1`), in which error messages
name the entities they are about.
-/

namespace Offload

/-- An operation. -/
structure OpRef where
  index : Nat
  deriving DecidableEq, Hashable, Repr, Inhabited

/-- A value: the result of an operation or the argument of a block. -/
structure ValueRef where
  index : Nat
  deriving DecidableEq, Hashable, Repr, Inhabited

/-- A block: a list of operations, with arguments. -/
structure BlockRef where
  index : Nat
  deriving DecidableEq, Hashable, Repr, Inhabited

/-- A region: a list of blocks, owned by an operation. -/
structure RegionRef where
  index : Nat
  deriving DecidableEq, Hashable, Repr, Inhabited

/-- A type. Types are shared: equal handles mean equal types. -/
structure TypeRef where
  index : Nat
  deriving DecidableEq, Hashable, Repr, Inhabited

/-- The path of a file that operations come from, shared like a type. -/
structure PathRef where
  index : Nat
  deriving DecidableEq, Hashable, Repr, Inhabited

/-- Where a value comes from: the `n`-th result of an operation, or the `n`-th
    argument of a block. -/
inductive ValueDef
  | result (op : OpRef) (n : Nat)
  | argument (block : BlockRef) (n : Nat)
  deriving DecidableEq, Repr, Inhabited

instance : ToString OpRef := ⟨fun op => s!"op{op.index}"⟩
instance : ToString ValueRef := ⟨fun v => s!"v{v.index}"⟩
instance : ToString BlockRef := ⟨fun b => s!"block{b.index}"⟩
instance : ToString RegionRef := ⟨fun r => s!"region{r.index}"⟩
instance : ToString TypeRef := ⟨fun t => s!"ty{t.index}"⟩
instance : ToString PathRef := ⟨fun p => s!"path{p.index}"⟩

/-- The text of a handle that may be absent: `Some(block0)` or `None`. -/
def optionalText {α : Type} [ToString α] : Option α → String
  | some a => s!"Some({a})"
  | none => "None"

namespace ValueDef

/-- The words in which a message says where a value comes from. -/
def text : ValueDef → String
  | result op n => s!"result {n} of {op}"
  | argument block n => s!"argument {n} of {block}"

instance : ToString ValueDef := ⟨text⟩

end ValueDef

end Offload
