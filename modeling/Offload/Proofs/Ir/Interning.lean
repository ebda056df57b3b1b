import Mathlib.Logic.Relation
import Offload.Proofs.Ir.Rows

/-!
# Shared types

A type is stored once: if it is interned again, the handle of the first time is returned. Types are
compared one level deep for this, by the handles of what they are made of. This module says that it
comes to the same as comparing them as a whole.

What a handle stands for is a tree without handles of types (`TypeTree`, `Context.Denotes`). The
types of a context come from calls, each for a type that is made of types whose handles earlier
calls returned (`Interner.Step`). After any of them every handle denotes a tree, handles are equal
iff their trees are, and all later calls leave that as it is (`Interner.handles_exact`).
-/

namespace Offload

open Context

/-! ## Types as trees -/

mutual

/-- A type with everything that it is made of. Its attributes are in the order of their keys, like
    those of types in a context, so types have the same attribute under each key iff their lists are
    equal. -/
inductive TypeTree
  | mk (dialect name : String) (params : List TypeTree)
    (attributes : List (String × AttributeTree))

/-- An attribute with trees in the place of types. -/
inductive AttributeTree
  | atom (a : Atom)
  | type (t : TypeTree)
  | list (items : List AttributeTree)

end

namespace Attribute

mutual

/-- The types in an attribute. -/
def types : Attribute → List TypeRef
  | .atom (.type t) => [t]
  | .atom _ => []
  | .list items => typesOfAll items

def typesOfAll : List Attribute → List TypeRef
  | [] => []
  | a :: as => types a ++ typesOfAll as

end

mutual

/-- The tree of an attribute, given those of types. -/
def tree (type : TypeRef → Except Fault TypeTree) : Attribute → Except Fault AttributeTree
  | .atom (.type t) => return .type (← type t)
  | .atom a => return .atom a
  | .list items => return .list (← trees type items)

def trees (type : TypeRef → Except Fault TypeTree) :
    List Attribute → Except Fault (List AttributeTree)
  | [] => return []
  | a :: as => return (← tree type a) :: (← trees type as)

end

/-- The tree of an attribute, under its key. -/
def entryTree (type : TypeRef → Except Fault TypeTree) (e : String × Attribute) :
    Except Fault (String × AttributeTree) := do
  return (e.1, ← e.2.tree type)

end Attribute

/-- The types in attributes. -/
def Attributes.types (as : Attributes) : List TypeRef := as.entries.flatMap fun e => e.2.types

namespace TypeNode

/-- The types that a type is made of. -/
def parts (node : TypeNode) : List TypeRef := node.params ++ node.attributes.types

/-- The tree of a type, given those of the types that it is made of. -/
def tree (type : TypeRef → Except Fault TypeTree) (node : TypeNode) : Except Fault TypeTree := do
  let params ← node.params.mapM type
  let attributes ← node.attributes.entries.mapM (Attribute.entryTree type)
  return .mk node.dialect node.name params attributes

end TypeNode

namespace Context

/-- The tree of a type in which at most `n` types are nested. -/
def treeWithin (ctx : Context) : (n : Nat) → TypeRef → Except Fault TypeTree
  | 0, _ => throw .bottomless
  | n + 1, t => do (← ctx.type t).tree (treeWithin ctx n)

/-- What a handle stands for, with types nested as deep as they may be. -/
def Denotes (ctx : Context) (t : TypeRef) (tree : TypeTree) : Prop :=
  ∃ n, ctx.treeWithin n t = .ok tree

end Context

/-! ### Attributes -/

namespace Attribute

variable {f g : TypeRef → Except Fault TypeTree} {a b : Attribute} {items : List Attribute}

theorem typesOfAll_eq : typesOfAll items = items.flatMap types := by
  induction items with
  | nil => rfl
  | cons a as ih => rw [typesOfAll, ih, List.flatMap_cons]

theorem trees_eq : trees f items = items.mapM (tree f) := by
  induction items with
  | nil => rfl
  | cons a as ih => rw [trees, ih, List.mapM_cons]

theorem tree_eq_type {t : TypeTree} :
    a.tree f = .ok (.type t) ↔ ∃ r, a = .atom (.type r) ∧ f r = .ok t := by
  match a with
  | .atom x => cases x <;> simp [tree]
  | .list items => simp [tree]

theorem tree_eq_atom {x : Atom} :
    a.tree f = .ok (.atom x) ↔ a = .atom x ∧ ∀ r, x ≠ .type r := by
  match a with
  | .atom y => cases y <;> simp [tree] <;> rintro rfl <;> simp
  | .list items => simp [tree]

theorem tree_eq_list {trees : List AttributeTree} :
    a.tree f = .ok (.list trees) ↔ ∃ items, a = .list items ∧ items.mapM (tree f) = .ok trees := by
  match a with
  | .atom x => cases x <;> simp [tree]
  | .list items => simp [tree, trees_eq]

theorem entryTree_eq_ok {e : String × Attribute} {y : String × AttributeTree} :
    entryTree f e = .ok y ↔ ∃ a, e.2.tree f = .ok a ∧ y = (e.1, a) := by
  simp [entryTree, eq_comm (a := y)]

/-- With more known of types, an attribute still has the tree that it has. -/
theorem tree_mono (h : ∀ r t, f r = .ok t → g r = .ok t) (a : Attribute) {tree : AttributeTree}
    (ha : a.tree f = .ok tree) : a.tree g = .ok tree := by
  cases tree with
  | type t =>
    obtain ⟨r, rfl, hr⟩ := tree_eq_type.1 ha
    exact tree_eq_type.2 ⟨r, rfl, h r t hr⟩
  | atom x => exact tree_eq_atom.2 (tree_eq_atom.1 ha)
  | list trees =>
    obtain ⟨items, rfl, hitems⟩ := tree_eq_list.1 ha
    exact tree_eq_list.2 ⟨items, rfl, Outcome.mapM_imp (fun a _ _ => tree_mono h a) hitems⟩
termination_by sizeOf a

/-- Attributes are equal if their trees are, where this is so of types. -/
theorem eq_of_tree (h : ∀ r s t, f r = .ok t → f s = .ok t → r = s) (a b : Attribute)
    {tree : AttributeTree} (ha : a.tree f = .ok tree) (hb : b.tree f = .ok tree) : a = b := by
  cases tree with
  | type t =>
    obtain ⟨r, rfl, hr⟩ := tree_eq_type.1 ha
    obtain ⟨s, rfl, hs⟩ := tree_eq_type.1 hb
    rw [h r s t hr hs]
  | atom x => exact (tree_eq_atom.1 ha).1.trans (tree_eq_atom.1 hb).1.symm
  | list trees =>
    obtain ⟨items, rfl, hitems⟩ := tree_eq_list.1 ha
    obtain ⟨items', rfl, hitems'⟩ := tree_eq_list.1 hb
    rw [Outcome.eq_of_mapM (fun a _ b _ _ => eq_of_tree h a b) hitems hitems']
termination_by sizeOf a

/-- An attribute has a tree if all types in it do. -/
theorem exists_tree (a : Attribute) (h : ∀ r ∈ a.types, ∃ t, f r = .ok t) :
    ∃ tree, a.tree f = .ok tree := by
  match a with
  | .list items =>
    have hitems : ∀ b ∈ items, ∃ t, b.tree f = .ok t := fun b hb =>
      exists_tree b fun r hr => h r (by
        rw [types, typesOfAll_eq]
        exact List.mem_flatMap_of_mem hb hr)
    obtain ⟨trees, htrees⟩ := Outcome.mapM_ok hitems
    exact ⟨.list trees, tree_eq_list.2 ⟨items, rfl, htrees⟩⟩
  | .atom x =>
    by_cases hx : ∃ r, x = .type r
    · obtain ⟨r, rfl⟩ := hx
      obtain ⟨t, ht⟩ := h r (by simp [types])
      exact ⟨.type t, tree_eq_type.2 ⟨r, rfl, ht⟩⟩
    · exact ⟨.atom x, tree_eq_atom.2 ⟨rfl, not_exists.1 hx⟩⟩
termination_by sizeOf a

end Attribute

/-! ### Types -/

namespace TypeNode

variable {f g : TypeRef → Except Fault TypeTree} {node node' : TypeNode} {t : TypeTree}

theorem tree_eq_ok : node.tree f = .ok t ↔ ∃ params attributes, node.params.mapM f = .ok params ∧
    node.attributes.entries.mapM (Attribute.entryTree f) = .ok attributes ∧
    t = .mk node.dialect node.name params attributes := by
  simp only [tree, Outcome.bind_eq_ok, Outcome.pure_eq_ok, eq_comm (a := t), exists_and_left]

theorem tree_mono (h : ∀ r t, f r = .ok t → g r = .ok t) (ht : node.tree f = .ok t) :
    node.tree g = .ok t := by
  obtain ⟨params, attributes, hparams, hattributes, rfl⟩ := tree_eq_ok.1 ht
  refine tree_eq_ok.2 ⟨params, attributes, Outcome.mapM_imp (fun r _ => h r) hparams,
    Outcome.mapM_imp (fun e _ y hy => ?_) hattributes, rfl⟩
  obtain ⟨a, ha, rfl⟩ := Attribute.entryTree_eq_ok.1 hy
  exact Attribute.entryTree_eq_ok.2 ⟨a, Attribute.tree_mono h e.2 ha, rfl⟩

/-- Types are equal if their trees are, where this is so of the types that they are made of. -/
theorem eq_of_tree (h : ∀ r s t, f r = .ok t → f s = .ok t → r = s) (ht : node.tree f = .ok t)
    (ht' : node'.tree f = .ok t) : node = node' := by
  obtain ⟨params, attributes, hparams, hattributes, rfl⟩ := tree_eq_ok.1 ht
  obtain ⟨_, _, hparams', hattributes', heq⟩ := tree_eq_ok.1 ht'
  obtain ⟨hdialect, hname, rfl, rfl⟩ := TypeTree.mk.inj heq
  have heq₁ := Outcome.eq_of_mapM (fun r _ s _ t => h r s t) hparams hparams'
  have heq₂ := Outcome.eq_of_mapM (fun e _ e' _ y hy hy' => by
    obtain ⟨a, ha, rfl⟩ := Attribute.entryTree_eq_ok.1 hy
    obtain ⟨a', ha', heq⟩ := Attribute.entryTree_eq_ok.1 hy'
    obtain ⟨hkey, rfl⟩ := Prod.mk.inj heq
    exact Prod.ext hkey (Attribute.eq_of_tree h e.2 e'.2 ha ha')) hattributes hattributes'
  obtain ⟨dialect, name, _, ⟨_⟩⟩ := node
  obtain ⟨dialect', name', _, ⟨_⟩⟩ := node'
  simp_all

/-- A type has a tree if all types that it is made of do. -/
theorem exists_tree (node : TypeNode) (h : ∀ r ∈ node.parts, ∃ t, f r = .ok t) :
    ∃ t, node.tree f = .ok t := by
  obtain ⟨params, hparams⟩ := Outcome.mapM_ok fun r hr => h r (List.mem_append_left _ hr)
  have hentries : ∀ e ∈ node.attributes.entries, ∃ y, Attribute.entryTree f e = .ok y := by
    intro e he
    obtain ⟨a, ha⟩ := Attribute.exists_tree e.2 fun r hr =>
      h r (List.mem_append_right _ (List.mem_flatMap_of_mem he hr))
    exact ⟨_, Attribute.entryTree_eq_ok.2 ⟨a, ha, rfl⟩⟩
  obtain ⟨attributes, hattributes⟩ := Outcome.mapM_ok hentries
  exact ⟨_, tree_eq_ok.2 ⟨params, attributes, hparams, hattributes, rfl⟩⟩

end TypeNode

/-! ### Handles -/

namespace Context

variable {ctx ctx' : Context} {s t : TypeRef} {S T : TypeTree} {n n' : Nat}

/-- Equal types share a handle. -/
def Shares (ctx : Context) : Prop :=
  ∀ t t' node, ctx.type t = .ok node → ctx.type t' = .ok node → t = t'

/-- Every type comes after those that it is made of. -/
def Layered (ctx : Context) : Prop :=
  ∀ t node, ctx.type t = .ok node → ∀ p ∈ node.parts, p.index < t.index

/-- All types keep their handles. -/
def KeepsTypes (ctx ctx' : Context) : Prop :=
  ∀ t node, ctx.type t = .ok node → ctx'.type t = .ok node

theorem treeWithin_succ :
    ctx.treeWithin (n + 1) t = .ok T ↔
      ∃ node, ctx.type t = .ok node ∧ node.tree (ctx.treeWithin n) = .ok T := by
  rw [treeWithin, Outcome.bind_eq_ok]

theorem treeWithin_mono (h : ctx.KeepsTypes ctx') (hn : n ≤ n') (ht : ctx.treeWithin n t = .ok T) :
    ctx'.treeWithin n' t = .ok T := by
  induction n generalizing n' t T with
  | zero => cases ht
  | succ n ih =>
    obtain ⟨n', rfl⟩ := Nat.exists_eq_add_one.2 (Nat.zero_lt_of_lt hn)
    obtain ⟨node, hnode, htree⟩ := treeWithin_succ.1 ht
    exact treeWithin_succ.2 ⟨node, h t node hnode,
      TypeNode.tree_mono (fun r T => ih (Nat.le_of_succ_le_succ hn)) htree⟩

/-- Where equal types share a handle, so do types whose trees are equal. -/
theorem Shares.eq_of_treeWithin (h : ctx.Shares) (hs : ctx.treeWithin n s = .ok T)
    (ht : ctx.treeWithin n t = .ok T) : s = t := by
  induction n generalizing s t T with
  | zero => cases hs
  | succ n ih =>
    obtain ⟨node, hnode, htree⟩ := treeWithin_succ.1 hs
    obtain ⟨node', hnode', htree'⟩ := treeWithin_succ.1 ht
    obtain rfl := TypeNode.eq_of_tree (fun r s T => ih) htree htree'
    exact h s t node hnode hnode'

theorem Denotes.mono (h : ctx.KeepsTypes ctx') (ht : ctx.Denotes t T) : ctx'.Denotes t T :=
  ht.imp fun _ hn => treeWithin_mono h (Nat.le_refl _) hn

/-- A handle stands for one tree. -/
theorem Denotes.unique (hS : ctx.Denotes t S) (hT : ctx.Denotes t T) : S = T := by
  obtain ⟨n, hn⟩ := hS
  obtain ⟨m, hm⟩ := hT
  exact Except.ok.inj ((treeWithin_mono (fun _ _ => id) (Nat.le_max_left n m) hn).symm.trans
    (treeWithin_mono (fun _ _ => id) (Nat.le_max_right n m) hm))

theorem Shares.eq_of_denotes (h : ctx.Shares) (hs : ctx.Denotes s T) (ht : ctx.Denotes t T) :
    s = t := by
  obtain ⟨n, hn⟩ := hs
  obtain ⟨m, hm⟩ := ht
  exact h.eq_of_treeWithin (treeWithin_mono (fun _ _ => id) (Nat.le_max_left n m) hn)
    (treeWithin_mono (fun _ _ => id) (Nat.le_max_right n m) hm)

/-- No more types are nested in one than come before it. -/
theorem Layered.exists_treeWithin (h : ctx.Layered) (t : TypeRef) {node : TypeNode}
    (ht : ctx.type t = .ok node) : ∃ T, ctx.treeWithin (t.index + 1) t = .ok T := by
  have hsize := (Array.getElem?_eq_some_iff.1 (type_eq_ok.1 ht)).1
  obtain ⟨T, hT⟩ := node.exists_tree (f := ctx.treeWithin t.index) fun p hp => by
    have hlt := h t node ht p hp
    obtain ⟨T, hT⟩ := exists_treeWithin h p
      (type_eq_ok.2 (Array.getElem?_eq_getElem (Nat.lt_trans hlt hsize)))
    exact ⟨T, treeWithin_mono (fun _ _ => id) hlt hT⟩
  exact ⟨T, treeWithin_succ.2 ⟨node, ht, hT⟩⟩
termination_by t.index

theorem Layered.exists_denotes (h : ctx.Layered) {node : TypeNode} (ht : ctx.type t = .ok node) :
    ∃ T, ctx.Denotes t T := by
  obtain ⟨T, hT⟩ := h.exists_treeWithin t ht
  exact ⟨T, _, hT⟩

end Context

/-! ## Calls -/

/-- A call that interned a type, and the handle that it returned. -/
structure Interner.Call where
  node : TypeNode
  handle : TypeRef
  deriving DecidableEq

/-- A context, and the calls that interned types in it, the latest first. -/
structure Interner where
  context : Context
  calls : List Interner.Call := []

namespace Interner

/-- The handles that calls have returned. -/
def handles (s : Interner) : List TypeRef := s.calls.map Call.handle

/-- Nothing has been interned yet. -/
def empty : Interner := ⟨.empty, []⟩

/-- Intern a type. -/
def intern (s : Interner) (node : TypeNode) : Interner :=
  ⟨(s.context.internType node).1, ⟨node, (s.context.internType node).2⟩ :: s.calls⟩

/-- Something is done to a context. -/
inductive Step : Interner → Interner → Prop
  /-- A type is interned that is made of types whose handles were returned before. -/
  | intern {s : Interner} (node : TypeNode) (made : ∀ t ∈ node.parts, t ∈ s.handles) :
    Step s (s.intern node)
  /-- Something is done that leaves the types alone. -/
  | other {s : Interner} {ctx : Context} (types : ctx.types = s.context.types) :
    Step s { s with context := ctx }

/-- Things that are done to a context, one after the other. -/
def Steps : Interner → Interner → Prop := Relation.ReflTransGen Step

end Interner

/-! ### What a call does -/

namespace Context

variable {ctx : Context} {node : TypeNode} {t : TypeRef}

theorem type_congr {ctx' : Context} (h : ctx'.types = ctx.types) : ctx'.type = ctx.type := by
  funext t
  rw [type, type, h]

/-- A type that is in the table keeps its handle, and any other one comes last. -/
theorem internType_cases (ctx : Context) (node : TypeNode) :
    (∃ t, ctx.internType node = (ctx, t) ∧ ctx.type t = .ok node) ∨
      ((ctx.internType node).2 = ⟨ctx.types.size⟩ ∧
        ∀ t, (ctx.internType node).1.type t =
          if t.index = ctx.types.size then .ok node else ctx.type t) ∧
        ∀ t, ctx.type t ≠ .ok node := by
  rw [internType]
  rcases ctx.types.intern_cases node with ⟨i, heq, hi⟩ | ⟨⟨u, heq, hu⟩, hnew⟩
  · rw [heq]
    exact .inl ⟨⟨i⟩, rfl, type_eq_ok.2 hi⟩
  · rw [heq]
    refine .inr ⟨⟨rfl, fun t => ?_⟩, fun t ht => hnew t.index (type_eq_ok.1 ht)⟩
    rw [type, hu, Array.getElem?_push]
    split <;> rfl

/-- Equal types share a handle: the table is in step with the map from its rows. -/
theorem shares (ctx : Context) : ctx.Shares := by
  intro t t' node ht ht'
  exact TypeRef.index_inj.1 (InternTable.eq_of_row (type_eq_ok.1 ht) (type_eq_ok.1 ht'))

/-- A type that is made of those in the table is interned. -/
theorem Layered.internType (h : ctx.Layered)
    (hparts : ∀ p ∈ node.parts, p.index < ctx.types.size) : (ctx.internType node).1.Layered := by
  rcases internType_cases ctx node with ⟨t, heq, -⟩ | ⟨⟨-, htype⟩, -⟩
  · rw [heq]
    exact h
  · intro t row ht p hp
    rw [htype] at ht
    split at ht
    · rename_i hlast
      obtain rfl := Except.ok.inj ht
      exact hlast ▸ hparts p hp
    · exact h t row ht p hp

theorem keepsTypes_internType (ctx : Context) (node : TypeNode) :
    ctx.KeepsTypes (ctx.internType node).1 := by
  rcases internType_cases ctx node with ⟨t, heq, -⟩ | ⟨⟨-, htype⟩, -⟩
  · rw [heq]
    exact fun _ _ => id
  · intro t row ht
    rw [htype, if_neg (Nat.ne_of_lt (Array.getElem?_eq_some_iff.1 (type_eq_ok.1 ht)).1)]
    exact ht

theorem type_internType (ctx : Context) (node : TypeNode) :
    (ctx.internType node).1.type (ctx.internType node).2 = .ok node := by
  rcases internType_cases ctx node with ⟨t, heq, ht⟩ | ⟨⟨hlast, htype⟩, -⟩
  · rw [heq]
    exact ht
  · rw [htype, hlast, if_pos rfl]

end Context

/-! ### What all calls keep -/

namespace Interner

variable {s s' : Interner} {t : TypeRef}

/-- Every type comes after those that it is made of, and the handles that were returned are those of
    the types that were interned. -/
structure Exact (s : Interner) : Prop where
  layered : s.context.Layered
  returned : ∀ c ∈ s.calls, s.context.type c.handle = .ok c.node

theorem exact_empty : empty.Exact := by
  have hnone (t : TypeRef) (node : TypeNode) : empty.context.type t ≠ .ok node := fun h => by
    cases h
  exact ⟨fun t node h => absurd h (hnone t node), fun _ hc => by cases hc⟩

theorem Exact.lt_size (h : s.Exact) (ht : t ∈ s.handles) : t.index < s.context.types.size := by
  obtain ⟨c, hc, rfl⟩ := List.mem_map.1 ht
  exact (Array.getElem?_eq_some_iff.1 (type_eq_ok.1 (h.returned c hc))).1

theorem Exact.step (h : s.Exact) (hstep : Step s s') : s'.Exact := by
  cases hstep with
  | other types =>
    have heq := type_congr types
    refine ⟨?_, ?_⟩ <;> simp only [Layered, heq]
    exacts [h.layered, h.returned]
  | intern node made =>
    -- the handles of its parts were returned before, so they are in the table
    refine ⟨h.layered.internType fun p hp => h.lt_size (made p hp), ?_⟩
    exact List.forall_mem_cons.2 ⟨type_internType _ _, fun c hc =>
      keepsTypes_internType _ _ _ _ (h.returned c hc)⟩

theorem Exact.steps (h : s.Exact) (hsteps : Steps s s') : s'.Exact := by
  induction hsteps with
  | refl => exact h
  | tail _ hstep ih => exact ih.step hstep

theorem Step.keepsTypes (hstep : Step s s') : s.context.KeepsTypes s'.context := by
  cases hstep with
  | intern node => exact keepsTypes_internType _ node
  | other types =>
    intro t row ht
    rwa [type_congr types]

theorem Steps.keepsTypes (hsteps : Steps s s') : s.context.KeepsTypes s'.context := by
  induction hsteps with
  | refl => exact fun _ _ => id
  | tail _ hstep ih => exact fun t row ht => hstep.keepsTypes t row (ih t row ht)

theorem Step.calls (hstep : Step s s') : s.calls ⊆ s'.calls := by
  cases hstep with
  | intern => exact List.subset_cons_self _ _
  | other => exact List.Subset.refl _

theorem Steps.calls (hsteps : Steps s s') : s.calls ⊆ s'.calls := by
  induction hsteps with
  | refl => exact List.Subset.refl _
  | tail _ hstep ih => exact List.Subset.trans ih hstep.calls

/-- Whatever has been done, a handle that was returned stands for the type that was interned, and
    handles are equal iff what they stand for is the same as a whole. It stays so. -/
theorem handles_exact (h : Steps empty s) (h' : Steps s s') :
    (∀ c ∈ s.calls, s.context.type c.handle = .ok c.node ∧ ∃ T, s.context.Denotes c.handle T) ∧
    (∀ c ∈ s.calls, ∀ d ∈ s.calls, ∀ S T, s.context.Denotes c.handle S →
      s.context.Denotes d.handle T → (c.handle = d.handle ↔ S = T)) ∧
    ∀ c ∈ s.calls, c ∈ s'.calls ∧ s'.context.type c.handle = .ok c.node ∧
      ∀ T, s'.context.Denotes c.handle T ↔ s.context.Denotes c.handle T := by
  have hexact := exact_empty.steps h
  refine ⟨fun c hc => ?_, fun c hc d hd S T hS hT => ?_, fun c hc => ?_⟩
  · have hnode := hexact.returned c hc
    exact ⟨hnode, hexact.layered.exists_denotes hnode⟩
  · constructor
    · intro heq
      exact hS.unique (heq ▸ hT)
    · rintro rfl
      exact s.context.shares.eq_of_denotes hS hT
  · have hnode := hexact.returned c hc
    refine ⟨h'.calls hc, h'.keepsTypes _ _ hnode, fun T =>
      ⟨fun hT => ?_, Denotes.mono h'.keepsTypes⟩⟩
    obtain ⟨S, hS⟩ := hexact.layered.exists_denotes hnode
    exact hT.unique (hS.mono h'.keepsTypes) ▸ hS

/-- A type in an attribute of another one is there twice, and once there is another type in its
    place. -/
theorem handles_exact_tagged : ∃ s s' : Interner, Steps empty s ∧ Steps s s' ∧
    s.handles = [⟨4⟩, ⟨3⟩, ⟨0⟩, ⟨3⟩, ⟨2⟩, ⟨1⟩, ⟨0⟩] ∧ ∃ S T, s.context.Denotes ⟨3⟩ S ∧
      s.context.Denotes ⟨4⟩ T ∧ S ≠ T ∧ s'.context.Denotes ⟨3⟩ S ∧ s'.context.Denotes ⟨4⟩ T := by
  let int : TypeNode := ⟨"core", "i32", [], .empty⟩
  let pointer : TypeNode := ⟨"core", "ptr", [], .empty⟩
  let function : TypeNode := ⟨"func", "fn", [⟨0⟩, ⟨1⟩], .empty⟩
  let tagged (t : TypeRef) : TypeNode :=
    ⟨"test", "tagged", [], .ofList [("of", .list [.atom (.type t), .atom (.int 1)])]⟩
  let s := ((((((empty.intern int).intern pointer).intern function).intern (tagged ⟨2⟩)).intern
    int).intern (tagged ⟨2⟩)).intern (tagged ⟨0⟩)
  have hs : Steps empty s :=
    ((((((Relation.ReflTransGen.single (.intern int (by decide))).tail
      (.intern pointer (by decide))).tail (.intern function (by decide +kernel))).tail
      (.intern (tagged ⟨2⟩) (by decide +kernel))).tail (.intern int (by decide +kernel))).tail
      (.intern (tagged ⟨2⟩) (by decide +kernel))).tail (.intern (tagged ⟨0⟩) (by decide +kernel))
  have hs' : Steps s (s.intern (tagged ⟨1⟩)) := .single (.intern _ (by decide +kernel))
  obtain ⟨hstands, hequal, hlater⟩ := handles_exact hs hs'
  have h₃ : ⟨tagged ⟨2⟩, ⟨3⟩⟩ ∈ s.calls := by decide +kernel
  have h₄ : ⟨tagged ⟨0⟩, ⟨4⟩⟩ ∈ s.calls := by decide +kernel
  obtain ⟨-, S, hS⟩ := hstands _ h₃
  obtain ⟨-, T, hT⟩ := hstands _ h₄
  exact ⟨s, _, hs, hs', by decide +kernel, S, T, hS, hT,
    fun heq => absurd ((hequal _ h₃ _ h₄ S T hS hT).2 heq) (by decide),
    ((hlater _ h₃).2.2 S).2 hS, ((hlater _ h₄).2.2 T).2 hT⟩

end Interner

end Offload
