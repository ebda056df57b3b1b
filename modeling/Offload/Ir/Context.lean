import Offload.Fault
import Offload.Ir.Attribute

/-!
# Contexts

A `Context` holds all operations, values, blocks and regions of the programs
under compilation, each kind in a table of its own. Rows are allocated at the
end of their table and never given up: an erased operation keeps its row and is
only marked.

Links are kept in both directions. An operation lists its regions, a region its
blocks, a block its operations, and each of them knows its owner; a value knows
what defines it, and an operation its results. For every value the context
keeps a *use chain*, the list of operand slots that hold it, in the order in
which they came to hold it.

Types, paths and symbols are shared: an `InternTable` has each once, with a map
from the data to their numbers beside the rows, and the two are always in step.

This module has the tables, their look-ups, and the allocation of rows
(`addOp`, `addBlock`, `addRegion`, `append`). Allocation links what is new
without looking at what was there; the checks are in `Offload.Ir.Edit`.
-/

namespace Offload

/-- What an operation does: a name within a dialect. -/
structure OpKind where
  dialect : String
  name : String
  deriving DecidableEq, Hashable, Repr, Inhabited

instance : ToString OpKind := ⟨fun k => k.dialect ++ "." ++ k.name⟩

/-- A type: a name within a dialect, applied to types and attributes. -/
structure TypeNode where
  dialect : String
  name : String
  params : List TypeRef
  attributes : Attributes
  deriving DecidableEq, Repr, Inhabited

/-- What an operation is made from. -/
structure Blueprint where
  location : Location
  kind : OpKind
  operands : List ValueRef
  resultTypes : List TypeRef
  attributes : Attributes
  regions : List RegionRef
  deriving Repr, Inhabited

/-- An operation. -/
structure Operation extends Blueprint where
  /-- The values that the operation defines. -/
  results : List ValueRef
  /-- The block that lists the operation. -/
  parent : Option BlockRef
  erased : Bool
  deriving Repr, Inhabited

/-- A value. -/
structure Value where
  source : ValueDef
  type : TypeRef
  deriving Repr, Inhabited

/-- A block. -/
structure Block where
  location : Location
  argTypes : List TypeRef
  args : List ValueRef
  ops : List OpRef
  /-- The region that lists the block. -/
  parent : Option RegionRef
  deriving Repr, Inhabited

/-- A region. -/
structure Region where
  location : Location
  blocks : List BlockRef
  /-- The operation that lists the region. -/
  parent : Option OpRef
  deriving Repr, Inhabited

/-- An operand slot: an operation and the position of one of its operands. -/
structure Use where
  user : OpRef
  slot : Nat
  deriving DecidableEq, Repr, Inhabited

/-- The use chain of every value. Values without uses need no row. -/
structure UseTable where
  chains : Array (List Use)
  deriving Repr, Inhabited

namespace UseTable

def empty : UseTable := ⟨#[]⟩

/-- The use chain of a value. -/
def get (t : UseTable) (v : ValueRef) : List Use := t.chains[v.index]?.getD []

/-- Replace the use chain of a value. -/
def set (t : UseTable) (v : ValueRef) (chain : List Use) : UseTable :=
  let missing := v.index + 1 - t.chains.size
  ⟨(t.chains ++ Array.replicate missing []).setIfInBounds v.index chain⟩

/-- Put a use at the end of the use chain of a value. -/
def push (t : UseTable) (v : ValueRef) (u : Use) : UseTable := t.set v (t.get v ++ [u])

theorem get_set (t : UseTable) (v w : ValueRef) (chain : List Use) :
    (t.set v chain).get w = if v = w then chain else t.get w := by
  by_cases h : v = w
  · subst h
    simp only [get, set, Array.getElem?_setIfInBounds, if_pos]
    rw [if_pos (by simp; omega)]
    simp
  · have : v.index ≠ w.index := fun e => h (by cases v; cases w; simp_all)
    simp only [get, set, if_neg h, Array.getElem?_setIfInBounds, if_neg this]
    rw [Array.getElem?_append]
    split
    · rfl
    · rename_i hw
      rw [Array.getElem?_replicate, Array.getElem?_eq_none (by omega)]
      split <;> rfl

end UseTable

/-- Data of one kind, each once: the rows, and the numbers of the rows by their
    data. -/
structure InternTable (α : Type) [DecidableEq α] where
  rows : Array α
  numbers : List (α × Nat)
  inStep : ∀ a (i : Nat), numbers.lookup a = some i ↔ rows[i]? = some a
  deriving Repr

namespace InternTable

variable {α : Type} [DecidableEq α] {t : InternTable α} {a b : α} {i j : Nat}

def empty : InternTable α := ⟨#[], [], fun _ _ => by simp⟩

instance : Inhabited (InternTable α) := ⟨empty⟩

/-- The number of rows. -/
abbrev size (t : InternTable α) : Nat := t.rows.size

/-- The number of a row. -/
def number? (t : InternTable α) (a : α) : Option Nat := t.numbers.lookup a

/-- A row is put at the end, and its number under its data. -/
def add (t : InternTable α) (a : α) (h : t.number? a = none) : InternTable α where
  rows := t.rows.push a
  numbers := (a, t.size) :: t.numbers
  inStep b i := by
    rw [List.lookup_cons, Array.getElem?_push]
    by_cases hb : b = a
    · subst hb
      rw [beq_self_eq_true, Option.some.injEq, eq_comm]
      refine ⟨fun hi => if_pos hi, fun hi => ?_⟩
      split at hi
      · assumption
      · -- the data were in no row before
        rw [← t.inStep, ← number?, h] at hi
        cases hi
    · rw [beq_false_of_ne hb]
      dsimp only
      rw [t.inStep]
      split
      · rename_i hi
        rw [hi, Array.getElem?_eq_none (Nat.le_refl _), Option.some.injEq]
        exact iff_of_false nofun (Ne.symm hb)
      · rfl

/-- The number of a row with some data, which is the old one if there is one. -/
def intern (t : InternTable α) (a : α) : InternTable α × Nat :=
  match h : t.number? a with
  | some i => (t, i)
  | none => (t.add a h, t.size)

/-- The table of some data. -/
def ofList (data : List α) : InternTable α := data.foldl (fun t a => (t.intern a).1) empty

/-- Rows with the same data are the same. -/
theorem eq_of_row (hi : t.rows[i]? = some a) (hj : t.rows[j]? = some a) : i = j :=
  Option.some.inj (((t.inStep a i).2 hi).symm.trans ((t.inStep a j).2 hj))

/-- Data that are in a row keep their number, and others get a row at the end. -/
theorem intern_cases (t : InternTable α) (a : α) :
    (∃ i, t.intern a = (t, i) ∧ t.rows[i]? = some a) ∨
      (∃ u, t.intern a = (u, t.size) ∧ u.rows = t.rows.push a) ∧
        ∀ i : Nat, t.rows[i]? ≠ some a := by
  rw [intern]
  split
  · rename_i i hi
    exact .inl ⟨i, rfl, (t.inStep a i).1 hi⟩
  · rename_i hnone
    refine .inr ⟨⟨_, rfl, rfl⟩, fun i hi => ?_⟩
    rw [number?, (t.inStep a i).2 hi] at hnone
    cases hnone

end InternTable

/-- All entities of the programs under compilation. -/
structure Context where
  ops : Array Operation
  values : Array Value
  blocks : Array Block
  regions : Array Region
  uses : UseTable
  types : InternTable TypeNode
  paths : InternTable String
  /-- The symbols that were read, in the order in which they came up first. -/
  symbols : InternTable String
  deriving Repr, Inhabited

namespace Context

/-- The context without any entities. -/
def empty : Context := ⟨#[], #[], #[], #[], .empty, .empty, .empty, .empty⟩

/-! ## Look-ups -/

def op (ctx : Context) (o : OpRef) : Except Fault Operation := found ctx.ops[o.index]?
def value (ctx : Context) (v : ValueRef) : Except Fault Value := found ctx.values[v.index]?
def block (ctx : Context) (b : BlockRef) : Except Fault Block := found ctx.blocks[b.index]?
def region (ctx : Context) (r : RegionRef) : Except Fault Region := found ctx.regions[r.index]?
def type (ctx : Context) (t : TypeRef) : Except Fault TypeNode := found ctx.types.rows[t.index]?
def path (ctx : Context) (p : PathRef) : Except Fault String := found ctx.paths.rows[p.index]?

/-- The values that an operation defines. -/
def results (ctx : Context) (o : OpRef) : List ValueRef :=
  match ctx.ops[o.index]? with
  | some operation => operation.results
  | none => []

/-- The arguments of a block. -/
def args (ctx : Context) (b : BlockRef) : List ValueRef :=
  match ctx.blocks[b.index]? with
  | some block => block.args
  | none => []

/-- Whether an operation has been erased. -/
def isErased (ctx : Context) (o : OpRef) : Bool := ctx.ops[o.index]?.any (·.erased)

/-- The `n`-th result of an operation. -/
def result (ctx : Context) (o : OpRef) (n : Nat) : Except Fault ValueRef :=
  found (ctx.results o)[n]?

/-- The `n`-th argument of a block. -/
def arg (ctx : Context) (b : BlockRef) (n : Nat) : Except Fault ValueRef :=
  found (ctx.args b)[n]?

/-- The last operation of a block, if any. -/
def terminator? (ctx : Context) (b : BlockRef) : Except Fault (Option OpRef) := do
  return (← ctx.block b).ops.getLast?

/-- The first block of a region, if any. -/
def entry? (ctx : Context) (r : RegionRef) : Except Fault (Option BlockRef) := do
  return (← ctx.region r).blocks.head?

/-- Whether a type is `dialect.name`, whatever it is applied to. -/
def isType (ctx : Context) (t : TypeRef) (dialect name : String) : Except Fault Bool := do
  let node ← ctx.type t
  return node.dialect = dialect ∧ node.name = name

/-- The attributes in the order in which a map lists them: its keys are symbols,
    and those with lower numbers come first. -/
def listed (ctx : Context) (as : Attributes) : List (String × Attribute) :=
  let number (key : String) : Nat := (ctx.symbols.number? key).getD ctx.symbols.size
  sortBy (fun e f => number e.1 ≤ number f.1) as.entries

/-! ## Changing a row -/

def modifyOp (ctx : Context) (o : OpRef) (f : Operation → Operation) : Context :=
  { ctx with ops := ctx.ops.modify o.index f }

def modifyBlock (ctx : Context) (b : BlockRef) (f : Block → Block) : Context :=
  { ctx with blocks := ctx.blocks.modify b.index f }

def modifyRegion (ctx : Context) (r : RegionRef) (f : Region → Region) : Context :=
  { ctx with regions := ctx.regions.modify r.index f }

/-- Put an attribute on an operation. -/
def setAttribute (ctx : Context) (o : OpRef) (key : String) (a : Attribute) : Context :=
  ctx.modifyOp o fun operation => { operation with attributes := operation.attributes.set key a }

/-! ## Allocation -/

/-- The handle of a type, shared with equal types. -/
def internType (ctx : Context) (node : TypeNode) : Context × TypeRef :=
  let (types, i) := ctx.types.intern node
  ({ ctx with types }, ⟨i⟩)

/-- The handle of a path, shared with equal paths. -/
def internPath (ctx : Context) (path : String) : Context × PathRef :=
  let (paths, i) := ctx.paths.intern path
  ({ ctx with paths }, ⟨i⟩)

/-- Give symbols numbers, those that have none yet. -/
def internSymbols (ctx : Context) (names : List String) : Context :=
  { ctx with symbols := names.foldl (fun symbols name => (symbols.intern name).1) ctx.symbols }

/-- The handles of the next `n` values. -/
def nextValues (ctx : Context) (n : Nat) : List ValueRef :=
  (List.range n).map fun i => ⟨ctx.values.size + i⟩

/-- Allocate the values that `source` defines, one for each type. -/
def addValues (ctx : Context) (source : Nat → ValueDef) (types : List TypeRef) : Context :=
  { ctx with
    values := ctx.values ++ (types.zipIdx.map fun (type, n) => ⟨source n, type⟩).toArray }

/-- Add the operands of an operation to the use chains, from position `slot`. -/
def addUses (uses : UseTable) (user : OpRef) : (slot : Nat) → List ValueRef → UseTable
  | _, [] => uses
  | slot, v :: vs => addUses (uses.push v ⟨user, slot⟩) user (slot + 1) vs

/-- Allocate an operation, its results, and the uses of its operands, and make
    it the owner of its regions. -/
def addOp (ctx : Context) (blueprint : Blueprint) : Context × OpRef :=
  let o : OpRef := ⟨ctx.ops.size⟩
  let operation : Operation :=
    { blueprint with
      results := ctx.nextValues blueprint.resultTypes.length
      parent := none
      erased := false }
  let ctx := { ctx with ops := ctx.ops.push operation }
  let ctx := blueprint.regions.foldl
    (fun ctx r => ctx.modifyRegion r fun region => { region with parent := some o }) ctx
  let ctx := { ctx with uses := addUses ctx.uses o 0 blueprint.operands }
  (ctx.addValues (.result o) blueprint.resultTypes, o)

/-- Allocate a block and its arguments, and make it the owner of its
    operations. -/
def addBlock (ctx : Context) (location : Location) (argTypes : List TypeRef)
    (ops : List OpRef) : Context × BlockRef :=
  let b : BlockRef := ⟨ctx.blocks.size⟩
  let block : Block :=
    { location, argTypes, ops, args := ctx.nextValues argTypes.length, parent := none }
  let ctx := { ctx with blocks := ctx.blocks.push block }
  let ctx := ops.foldl
    (fun ctx o => ctx.modifyOp o fun operation => { operation with parent := some b }) ctx
  (ctx.addValues (.argument b) argTypes, b)

/-- Allocate a region, and make it the owner of its blocks. -/
def addRegion (ctx : Context) (location : Location) (blocks : List BlockRef) :
    Context × RegionRef :=
  let r : RegionRef := ⟨ctx.regions.size⟩
  let ctx := { ctx with regions := ctx.regions.push { location, blocks, parent := none } }
  let ctx := blocks.foldl
    (fun ctx b => ctx.modifyBlock b fun block => { block with parent := some r }) ctx
  (ctx, r)

/-- List an operation at the end of a block. -/
def append (ctx : Context) (b : BlockRef) (o : OpRef) : Context :=
  (ctx.modifyOp o fun operation => { operation with parent := some b }).modifyBlock b
    fun block => { block with ops := block.ops ++ [o] }

end Context

end Offload
