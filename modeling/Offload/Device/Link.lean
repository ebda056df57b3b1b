import Offload.Device.Module

/-!
# Linking

`Module.link dest src` puts the contents of `src` into `dest`. Functions merge by
name: a definition takes the place of a declaration, and a declaration of what
is there already is dropped. Two definitions of a name, or two signatures, are
an error, which is found before anything changes (`Module.linkInto`).

The internal functions of `src` mean something in `src` alone. Those whose names
are taken in `dest` get new ones, and the calls of `src` follow them. The nodes
of `src` get numbers after those of `dest`.
-/

namespace Offload.Device

/-- Why two modules cannot be linked. -/
inductive LinkError
  | repeatedDefinition (name : String)
  | signatures (name : String)
  deriving DecidableEq, Repr

/-- The words for an error. -/
def LinkError.message : LinkError → String
  | repeatedDefinition name => s!"symbol @{name} is defined in both modules"
  | signatures name => s!"symbol @{name} has conflicting signatures"

/-! ## Conflicts -/

/-- The conflict of a function of another module with those of this one. -/
def Module.conflict? (dest : Module) (f : Function) : Option LinkError :=
  match dest.function? f.name with
  | none => none
  | some g =>
    if f.linkage = .internal && !f.isDeclaration then none
    else if !f.sameSignature g then some (.signatures f.name)
    else if !f.isDeclaration && !g.isDeclaration then some (.repeatedDefinition f.name)
    else none

/-! ## Internal functions -/

/-- New names for old ones. -/
abbrev Renaming := List (String × String)

/-- The new name of an old one, which is itself if it has none. -/
def Renaming.apply (names : Renaming) (name : String) : String := (names.lookup name).getD name

/-- The first of the names `base.n`, `base.(n + 1)`, … that is not taken. Some
    name is among the first `fuel` ones if there are fewer taken names. -/
def freshName (taken : List String) (base : String) : (fuel n : Nat) → String
  | 0, n => s!"{base}.{n}"
  | fuel + 1, n =>
    if taken.contains s!"{base}.{n}" then freshName taken base fuel (n + 1) else s!"{base}.{n}"

/-- New names for the internal functions of a list whose names are taken in
    another module; of two functions with one name, the later one counts. -/
def freshNames (dest : Module) (taken : List String) (names : Renaming) :
    List Function → Renaming
  | [] => names
  | f :: fs =>
    if f.linkage = .internal && !f.isDeclaration && (dest.function? f.name).isSome then
      let name := freshName taken f.name (taken.length + 1) 1
      freshNames dest (name :: taken) ((f.name, name) :: names) fs
    else freshNames dest taken names fs

/-- A function that calls others by their new names. A function that is internal
    has a new name itself. -/
def Function.rename (names : Renaming) (f : Function) : Function :=
  let f := f.mapActions fun a => (a.mapCallee names.apply).mapOperands fun
    | .symbol name => .symbol (names.apply name)
    | o => o
  if f.linkage = .internal then { f with name := names.apply f.name } else f

/-- A module with new names for some of its internal functions. -/
def Module.rename (names : Renaming) (m : Module) : Module :=
  { m with
    functions := m.functions.map (·.rename names)
    nodes := m.nodes.mapNodes (·.mapFunctions names.apply) }

/-! ## Metadata -/

/-- A module with all numbers of nodes raised. -/
def Module.renumber (m : Module) (amount : UInt32) : Except Fault Module := do
  let shift := NodeRef.shift amount
  let entries ← m.nodes.entries.mapM fun (r, d) => do
    return (← shift r, { d with node := ← d.node.mapReferences shift })
  let lists ← m.lists.mapM fun l => return { l with nodes := ← l.nodes.mapM shift }
  let functions ← m.functions.mapM fun f => do
    let f ← f.mapInstructionsM fun i => return { i with debug := ← i.debug.mapM shift }
    return { f with debug := ← f.debug.mapM shift }
  return { m with nodes := .ofList entries, lists, functions }

/-! ## Modules -/

/-- Put a function among others: a definition takes the place of the
    declaration with its name. -/
def mergeFunction (f : Function) : List Function → List Function
  | [] => [f]
  | g :: gs =>
    if g.name = f.name then (if g.isDeclaration && !f.isDeclaration then f :: gs else g :: gs)
    else g :: mergeFunction f gs

/-- Put the contents of a module into another one that it is in no conflict with. -/
def Module.merge (dest src : Module) : Except Fault Module := do
  let taken := (dest.functions ++ src.functions).map (·.name)
  let src := src.rename (freshNames dest taken [] src.functions)
  let first ← dest.nodes.next
  let src ← if first.number = 0 then pure src else src.renumber first.number
  let m := src.lists.foldl (fun m l => m.appendToList l.name l.nodes) dest
  return { m with
    functions := src.functions.foldl (fun fs f => mergeFunction f fs) dest.functions
    nodes := dest.nodes.append src.nodes
    triple := dest.triple <|> src.triple
    dataLayout := dest.dataLayout <|> src.dataLayout }

/-- Link a module into another one. The outcome comes with that module as it is
    then. -/
def Module.linkInto (dest src : Module) : Except Fault (Except LinkError Unit × Module) := do
  match src.functions.findSome? dest.conflict? with
  | some e => return (.error e, dest)
  | none => return (.ok (), ← dest.merge src)

/-- The module that a link leads to. -/
def Module.link (dest src : Module) : Except Fault (Except LinkError Module) := do
  let (outcome, m) ← dest.linkInto src
  return outcome.map fun _ => m

end Offload.Device
