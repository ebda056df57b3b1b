import Offload.Source.Read

/-!
# Building operations from terms

Building an operation allocates what its term describes: its symbols, types and
attributes in the order of the text, then its regions from the inside out, then
the operation itself with its results. Names have no scope: a name stands for
the value that was bound to it last, anywhere earlier in the text.

Two things can go wrong, and either stops the work where it is: a name without
a value, and a number of result names other than that of result types. What had
been allocated until then stays in the context, without an owner.
-/

namespace Offload

/-- The state of building: the context, and the values of the names so far,
    the latest first. -/
structure Builder where
  context : Context
  names : List (String × ValueRef)
  path : PathRef

abbrev BuildM := ExceptT ReadError (StateM Builder)

namespace Build

/-- Some symbols come up. -/
def symbols (names : List String) : StateM Context Unit := modify (·.internSymbols names)

mutual

/-- The type that a term describes. -/
def type : TypeTerm → StateM Context TypeRef
  | .mk dialect name params entries => do
    let params ← types params
    symbols [dialect, name]
    let attributes ← attributes entries .empty
    modifyGet fun ctx =>
      let (ctx, t) := ctx.internType ⟨dialect, name, params, attributes⟩
      (t, ctx)

/-- The types that terms describe, in their order. -/
def types : List TypeTerm → StateM Context (List TypeRef)
  | [] => return []
  | t :: ts => do
    let t ← type t
    return t :: (← types ts)

/-- The attribute that a term describes. -/
def value : AttributeTerm → StateM Context Attribute
  | .unit => return .atom .unit
  | .bool b => return .atom (.bool b)
  | .int bits => return .atom (.int bits)
  | .float x => return .atom (.float x)
  | .string s => return .atom (.string s)
  | .bytes data => return .atom (.bytes data)
  | .type t => return .atom (.type (← type t))
  | .symbol name => do
    symbols [name]
    return .atom (.symbol name)
  | .location path span =>
    modifyGet fun ctx =>
      let (ctx, path) := ctx.internPath path
      (.atom (.location ⟨path, span⟩), ctx)
  | .list items => return .list (← values items)

/-- The attributes that terms describe, in their order. -/
def values : List AttributeTerm → StateM Context (List Attribute)
  | [] => return []
  | a :: as => do
    let a ← value a
    return a :: (← values as)

/-- Some attributes, with those of further entries set. -/
def attributes : List Entry → Attributes → StateM Context Attributes
  | [], as => return as
  | .mk key a :: rest, as => do
    let a ← value a
    symbols [key]
    attributes rest (as.set key a)

end

/-- A step that changes the context alone. -/
def onContext {α : Type} (step : StateM Context α) : BuildM α :=
  modifyGet fun builder =>
    let (a, context) := step.run builder.context
    (a, { builder with context })

/-- Let names stand for values. -/
def bind (names : List String) (values : List ValueRef) : BuildM Unit :=
  modify fun builder => { builder with names := (names.zip values).reverse ++ builder.names }

/-- The value that a name stands for. -/
def resolve (place : Nat) (name : String) : BuildM ValueRef := do
  match (← get).names.lookup name with
  | some v => return v
  | none => throw ⟨.undefined name, place⟩

/-- The symbols that come up at the head of an operation: its name, and what
    the symbol after the name stands for. -/
def headSymbols (head : Head) : List String :=
  [head.kind.dialect, head.kind.name] ++
    match head.symbol with
    | some name => [name, "sym_name"]
    | none => []

/-- The attributes of an operation. A `sym_name` among the entries takes the
    place of the symbol after the operation's name. -/
def headAttributes (head : Head) : StateM Context Attributes := do
  symbols (headSymbols head)
  attributes head.entries <|
    match head.symbol with
    | some name => Attributes.empty.set "sym_name" (.atom (.symbol name))
    | none => .empty

mutual

/-- Build an operation and everything nested in it. -/
def op : OpTerm → BuildM OpRef
  | .mk head regionTerms => do
    if head.results.length ≠ head.types.length then
      throw ⟨.resultCount head.kind head.results.length head.types.length, head.span.start⟩
    let location := ⟨(← get).path, head.span⟩
    let operands ← head.operands.mapM (resolve head.span.start)
    let attributes ← onContext (headAttributes head)
    let resultTypes ← onContext (types head.types)
    let regions ← regions location regionTerms
    let o ← onContext <| modifyGet fun ctx =>
      (ctx.addOp ⟨location, head.kind, operands, resultTypes, attributes, regions⟩).swap
    bind head.results ((← get).context.results o)
    return o

/-- Build the regions of an operation. -/
def regions (location : Location) : List RegionTerm → BuildM (List RegionRef)
  | [] => return []
  | .mk blockTerms :: rest => do
    let blocks ← blocks location blockTerms
    let r ← onContext <| modifyGet fun ctx => (ctx.addRegion location blocks).swap
    return r :: (← regions location rest)

/-- Build the blocks of a region. -/
def blocks (location : Location) : List BlockTerm → BuildM (List BlockRef)
  | [] => return []
  | .mk label opTerms :: rest => do
    let args := (label.map Label.args).getD []
    let argTypes ← onContext (types (args.map Prod.snd))
    let b ← onContext <| modifyGet fun ctx => (ctx.addBlock location argTypes []).swap
    bind (args.map Prod.fst) ((← get).context.args b)
    ops b opTerms
    return b :: (← blocks location rest)

/-- Build operations into a block. -/
def ops (b : BlockRef) : List OpTerm → BuildM Unit
  | [] => return
  | term :: rest => do
    let o ← op term
    onContext <| modify fun ctx => ctx.append b o
    ops b rest

end

end Build

/-- Read a program from the text of a file into a context. -/
def Context.read (ctx : Context) (path text : String) : Except ReadError OpRef × Context :=
  match readTerm text with
  | .error e => (.error e, ctx)
  | .ok term =>
    let (context, path) := ctx.internPath path
    let (outcome, builder) := (Build.op term).run.run { context, path, names := [] }
    (outcome, builder.context)

end Offload
