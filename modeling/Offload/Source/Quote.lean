import Offload.Source.Printer

/-!
# Quoting operations

Quoting an operation gives the term that describes it. It chooses the names:
values are numbered in the order in which the text defines them, and so are the
blocks that need a label. A block needs none if it is alone in its region and
has no arguments. A value that is used before its definition, or defined
elsewhere, is named `?`.

Types are shared in the context and spelled out in the term. Attributes come
from a map that lists them by the numbers of its keys, and are sorted by key
again. So the term depends on the shape of the operation alone, not on the
numbers of its handles and symbols.
-/

namespace Offload

/-- The names given out so far. -/
structure Naming where
  names : List (ValueRef × Nat) := []
  nextValue : Nat := 0
  nextBlock : Nat := 0
  deriving Inhabited

abbrev QuoteM := StateT Naming (Except Fault)

namespace Quote

mutual

/-- The term of an attribute, given those of types. -/
def value (ctx : Context) (type : TypeRef → Except Fault TypeTerm) :
    Attribute → Except Fault AttributeTerm
  | .atom .unit => return .unit
  | .atom (.bool b) => return .bool b
  | .atom (.int bits) => return .int bits
  | .atom (.float x) => return .float x
  | .atom (.string s) => return .string s
  | .atom (.bytes data) => return .bytes data
  | .atom (.type t) => return .type (← type t)
  | .atom (.symbol name) => return .symbol name
  | .atom (.location l) => return .location (← ctx.path l.path) l.span
  | .list items => return .list (← values ctx type items)

def values (ctx : Context) (type : TypeRef → Except Fault TypeTerm) :
    List Attribute → Except Fault (List AttributeTerm)
  | [] => return []
  | a :: as => return (← value ctx type a) :: (← values ctx type as)

end

/-- The terms of some attributes. -/
def entries (ctx : Context) (type : TypeRef → Except Fault TypeTerm)
    (as : List (String × Attribute)) : Except Fault (List Entry) :=
  as.mapM fun (key, a) => return .mk key (← value ctx type a)

/-- The terms of some attributes in the order of their keys, in whatever order the
    attributes come. -/
def dictionary (ctx : Context) (type : TypeRef → Except Fault TypeTerm)
    (as : List (String × Attribute)) : Except Fault (List Entry) :=
  entries ctx type (sortBy (fun e f => e.1 ≤ f.1) as)

/-- The term of a type in which at most `n` types are nested. -/
def typeWithin (ctx : Context) : (n : Nat) → TypeRef → Except Fault TypeTerm
  | 0, _ => throw .bottomless
  | n + 1, t => do
    let node ← ctx.type t
    let params ← node.params.mapM (typeWithin ctx n)
    let entries ← dictionary ctx (typeWithin ctx n) (ctx.listed node.attributes)
    return .mk node.dialect node.name params entries

/-- The term of a type. Types are made of earlier ones, so their number bounds
    the nesting. -/
def type (ctx : Context) (t : TypeRef) : Except Fault TypeTerm :=
  typeWithin ctx (ctx.types.size + 1) t

/-- Give a value the next name. -/
def define (v : ValueRef) : QuoteM String := do
  let naming ← get
  set { naming with
    names := (v, naming.nextValue) :: naming.names
    nextValue := naming.nextValue + 1 }
  return toString naming.nextValue

/-- The name of a value. -/
def nameOf (v : ValueRef) : QuoteM String := do
  return match (← get).names.lookup v with
    | some n => toString n
    | none => "?"

/-- The next name for a block. -/
def nextLabel : QuoteM String := do
  let naming ← get
  set { naming with nextBlock := naming.nextBlock + 1 }
  return s!"bb{naming.nextBlock}"

/-- Whether the only block of a region goes without a label. -/
def isBare (ctx : Context) : List BlockRef → Bool
  | [b] => (ctx.args b).isEmpty
  | _ => false

/-- A label for a block, with names for its arguments. -/
def label (ctx : Context) (b : BlockRef) : QuoteM Label := do
  let name ← nextLabel
  let args ← (ctx.args b).mapM fun v => do
    let name ← define v
    return (name, ← type ctx (← ctx.value v).type)
  return ⟨name, args⟩

/-- The term of a region, given those of operations. -/
def region (ctx : Context) (op : OpRef → QuoteM OpTerm) (r : RegionRef) : QuoteM RegionTerm := do
  let blocks := (← ctx.region r).blocks
  let bare := isBare ctx blocks
  return .mk (← blocks.mapM fun b => do
    let label ← if bare then pure none else some <$> label ctx b
    return .mk label (← (← ctx.block b).ops.mapM op))

/-- The term of an operation, without its regions. -/
def head (ctx : Context) (o : OpRef) : QuoteM Head := do
  let results ← (ctx.results o).mapM define
  let operation ← ctx.op o
  let symbol := (operation.attributes.get? "sym_name").bind Attribute.asSymbol?
  let operands ← operation.operands.mapM nameOf
  let shown := (ctx.listed operation.attributes).filter fun (key, _) =>
    symbol.isNone || key ≠ "sym_name"
  let entries ← dictionary ctx (type ctx) shown
  let types ← operation.resultTypes.mapM fun t => (type ctx t : Except Fault TypeTerm)
  return ⟨results, operation.kind, symbol, operands, entries, types, operation.location.span⟩

/-- The term of an operation in which operations are nested at most `n` deep. -/
def opWithin (ctx : Context) : (n : Nat) → OpRef → QuoteM OpTerm
  | 0, _ => throw .bottomless
  | n + 1, o => do
    let head ← head ctx o
    return .mk head (← (← ctx.op o).regions.mapM (region ctx (opWithin ctx n)))

/-! ## The order of attributes

Sorting undoes the order in which a map lists its entries. -/

section Order

variable {ctx : Context} {type : TypeRef → Except Fault TypeTerm} {as : Attributes}

theorem sortBy_listed (p : String × Attribute → Bool) :
    sortBy (fun e f => e.1 ≤ f.1) ((ctx.listed as).filter p) = as.entries.filter p := by
  refine sortBy_of_perm (fun e f => ?_) (fun e f g hef hfg => ?_) (fun e f he hf hef hfe => ?_)
    ((as.ordered.sublist List.filter_sublist).imp fun h => ?_) ((perm_sortBy _).filter p)
  · simpa using String.le_total e.1 f.1
  · exact decide_eq_true (String.le_trans (of_decide_eq_true hef) (of_decide_eq_true hfg))
  · -- an attribute is told by its key
    exact SortedMap.eq_of_key (List.mem_filter.1 he).1 (List.mem_filter.1 hf).1
      (String.le_antisymm (of_decide_eq_true hef) (of_decide_eq_true hfe))
  · exact decide_eq_true (Std.le_of_lt h)

theorem dictionary_filter (p : String × Attribute → Bool) :
    dictionary ctx type ((ctx.listed as).filter p) = entries ctx type (as.entries.filter p) := by
  rw [dictionary, sortBy_listed]

theorem dictionary_listed : dictionary ctx type (ctx.listed as) = entries ctx type as.entries := by
  have h : dictionary ctx type ((ctx.listed as).filter fun _ => true) =
      entries ctx type (as.entries.filter fun _ => true) := dictionary_filter fun _ => true
  rwa [List.filter_eq_self.2 fun _ _ => rfl, List.filter_eq_self.2 fun _ _ => rfl] at h

theorem typeWithin_succ (ctx : Context) (n : Nat) (t : TypeRef) : typeWithin ctx (n + 1) t = (do
    let node ← ctx.type t
    let params ← node.params.mapM (typeWithin ctx n)
    let entries ← entries ctx (typeWithin ctx n) node.attributes.entries
    return .mk node.dialect node.name params entries) := by
  simp only [typeWithin, dictionary_listed]

theorem head_eq (ctx : Context) (o : OpRef) : head ctx o = (do
    let results ← (ctx.results o).mapM define
    let operation ← ctx.op o
    let symbol := (operation.attributes.get? "sym_name").bind Attribute.asSymbol?
    let operands ← operation.operands.mapM nameOf
    let entries ← entries ctx (Quote.type ctx) (operation.attributes.entries.filter fun (key, _) =>
      symbol.isNone || key ≠ "sym_name")
    let types ← operation.resultTypes.mapM fun t => (Quote.type ctx t : Except Fault TypeTerm)
    return ⟨results, operation.kind, symbol, operands, entries, types, operation.location.span⟩) := by
  simp only [head, dictionary_filter]

end Order

end Quote

namespace Context

/-- The term that describes an operation. -/
def quote (ctx : Context) (o : OpRef) : Except Fault OpTerm :=
  (Quote.opWithin ctx (ctx.ops.size + 1) o).run' {}

/-- The text of an operation with everything nested in it. -/
def print (ctx : Context) (o : OpRef) : Except Fault String := return (← ctx.quote o).text

end Context

end Offload
