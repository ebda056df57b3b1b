import Mathlib.Data.String.Basic
import Offload.Proofs.Source.InStep

/-!
# What has the same shape is printed alike

Two operations are *congruent*, each in its context, if their trees have the same shape
(`Context.Congruent`): the same kinds, attributes and result types, the same regions, blocks and
arguments, where the values that are defined inside correspond one to one, and an operand is what
the other one corresponds to, or both come from outside. Types and paths count as the same if they
say the same, and attributes if they are the same under each key. Nothing is said of handles, of
the order in which symbols were numbered, of how the contexts came about, or of what else is in
them.

Congruent operations are printed, and as the same text (`print_of_congruent`).
-/

namespace Offload

open Context

/-! ## The same shape -/

section

variable (ctx ctx' : Context)

/-- Attributes that are the same, each in its context, up to types that are related. -/
inductive Attribute.Same (r : TypeRef → TypeRef → Prop) : Attribute → Attribute → Prop
  | plain {x : Atom} (type : ∀ t, x ≠ .type t) (location : ∀ l, x ≠ .location l) :
    Same r (.atom x) (.atom x)
  | type {t t' : TypeRef} (h : r t t') : Same r (.atom (.type t)) (.atom (.type t'))
  | location {p p' : PathRef} {path : String} {span : Span} (hp : ctx.path p = .ok path)
    (hp' : ctx'.path p' = .ok path) :
    Same r (.atom (.location ⟨p, span⟩)) (.atom (.location ⟨p', span⟩))
  | list {as as' : List Attribute} (h : List.Forall₂ (Same r) as as') : Same r (.list as) (.list as')

namespace Context

/-- Types with the same structure, each in its context. -/
inductive EqualType : TypeRef → TypeRef → Prop
  | mk {t t' : TypeRef} {node node' : TypeNode} (ht : ctx.type t = .ok node)
    (ht' : ctx'.type t' = .ok node') (dialect : node.dialect = node'.dialect)
    (name : node.name = node'.name) (params : List.Forall₂ EqualType node.params node'.params)
    (attributes : ∀ key, Option.Rel (Attribute.Same ctx ctx' EqualType) (node.attributes.get? key)
      (node'.attributes.get? key)) : EqualType t t'

/-- Attributes that are the same under each key. -/
def EqualAttributes (as as' : Attributes) : Prop :=
  ∀ key, Option.Rel (Attribute.Same ctx ctx' (ctx.EqualType ctx')) (as.get? key) (as'.get? key)

/-- Arguments that correspond, and have the same type. -/
def CongruentArg (inner : ValueRef → ValueRef → Prop) (v v' : ValueRef) : Prop :=
  inner v v' ∧ ∃ row row', ctx.value v = .ok row ∧ ctx'.value v' = .ok row' ∧
    ctx.EqualType ctx' row.type row'.type

mutual

/-- Operations of the same shape, where `inner` tells which definitions correspond, and `operand`
    which operands do. -/
inductive CongruentOp (inner operand : ValueRef → ValueRef → Prop) : OpRef → OpRef → Prop
  | mk {o o' : OpRef} {row row' : Operation} (ho : ctx.op o = .ok row) (ho' : ctx'.op o' = .ok row')
    (kind : row.kind = row'.kind)
    (attributes : ctx.EqualAttributes ctx' row.attributes row'.attributes)
    (operands : List.Forall₂ operand row.operands row'.operands)
    (resultTypes : List.Forall₂ (ctx.EqualType ctx') row.resultTypes row'.resultTypes)
    (results : List.Forall₂ inner row.results row'.results)
    (regions : List.Forall₂ (CongruentRegion inner operand) row.regions row'.regions) :
    CongruentOp inner operand o o'

inductive CongruentRegion (inner operand : ValueRef → ValueRef → Prop) : RegionRef → RegionRef → Prop
  | mk {r r' : RegionRef} {row row' : Region} (hr : ctx.region r = .ok row)
    (hr' : ctx'.region r' = .ok row')
    (blocks : List.Forall₂ (CongruentBlock inner operand) row.blocks row'.blocks) :
    CongruentRegion inner operand r r'

inductive CongruentBlock (inner operand : ValueRef → ValueRef → Prop) : BlockRef → BlockRef → Prop
  | mk {b b' : BlockRef} {row row' : Block} (hb : ctx.block b = .ok row)
    (hb' : ctx'.block b' = .ok row')
    (args : List.Forall₂ (ctx.CongruentArg ctx' inner) row.args row'.args)
    (ops : List.Forall₂ (CongruentOp inner operand) row.ops row'.ops) :
    CongruentBlock inner operand b b'

end

/-- A value is a result or an argument somewhere in the tree of an operation. -/
def DefinedIn (top : OpRef) (v : ValueRef) : Prop :=
  ∃ o, Relation.ReflTransGen (fun p c => c ∈ ctx.childrenOf p) top o ∧
    (v ∈ ctx.results o ∨ ∃ r ∈ ctx.regionsOf o, ∃ b ∈ ctx.blocksOf r, v ∈ ctx.args b)

/-- Operations whose trees have the same shape: the values that are defined inside correspond one
    to one, and operands correspond or are both defined outside. -/
def Congruent (o o' : OpRef) : Prop :=
  ∃ inner : Matching ValueRef,
    (∀ v v', inner v v' → ctx.DefinedIn o v ∧ ctx'.DefinedIn o' v') ∧
    ctx.CongruentOp ctx' inner
      (fun v v' => inner v v' ∨ ¬ctx.DefinedIn o v ∧ ¬ctx'.DefinedIn o' v') o o'

end Context

end

/-! ## Types and attributes -/

variable {ctx ctx' : Context}

namespace Attributes

variable {as as' : Attributes} {r : Attribute → Attribute → Prop}

/-- Attributes that are related under each key are related one by one. -/
theorem forall₂ (hr : ∀ key, Option.Rel r (as.get? key) (as'.get? key)) :
    List.Forall₂ (fun e e' => e.1 = e'.1 ∧ r e.2 e'.2) as.entries as'.entries := by
  have hpairs : List.Forall₂ (fun e e' => e ∈ as.entries ∧ e' ∈ as'.entries ∧ e.1 = e'.1 ∧
      r e.2 e'.2) as.entries as'.entries := by
    refine forall₂_of_pairwise as.ordered as'.ordered (fun e => lt_irrefl e.1)
      (fun e => lt_irrefl e.1) (fun {e f e' f'} he hf => ⟨?_, ?_⟩)
      (fun {e f e' f'} he hf hlt => ?_) (fun e he => ?_) fun e' he' => ?_
    · rintro rfl
      exact SortedMap.eq_of_key he.2.1 hf.2.1 (he.2.2.1.symm.trans hf.2.2.1)
    · rintro rfl
      exact SortedMap.eq_of_key he.1 hf.1 (he.2.2.1.trans hf.2.2.1.symm)
    · rw [he.2.2.1, hf.2.2.1] at hlt
      exact lt_asymm hlt
    · have hkey := hr e.1
      rw [SortedMap.get?_eq_some_iff.2 he] at hkey
      obtain ⟨a', ha', haa⟩ := rel_some_left hkey
      have he' := SortedMap.get?_eq_some_iff.1 ha'
      exact ⟨(e.1, a'), he', he, he', rfl, haa⟩
    · have hkey := hr e'.1
      rw [SortedMap.get?_eq_some_iff.2 he'] at hkey
      obtain ⟨a, ha, haa⟩ := rel_some_right hkey
      have he := SortedMap.get?_eq_some_iff.1 ha
      exact ⟨(e'.1, a), he, he, he', rfl, haa⟩
  exact hpairs.imp fun _ _ he => he.2.2

/-- Attributes that are related one by one are related under each key. -/
theorem rel_of_forall₂ (h : List.Forall₂ (fun e e' => e.1 = e'.1 ∧ r e.2 e'.2) as.entries as'.entries)
    (key : String) : Option.Rel r (as.get? key) (as'.get? key) := by
  rw [SortedMap.get?, SortedMap.get?]
  generalize as.entries = l at h
  generalize as'.entries = l' at h
  induction h with
  | nil => exact .none
  | cons he _ ih =>
    rw [List.lookup_cons, List.lookup_cons, ← he.1]
    split
    · exact .some he.2
    · exact ih

end Attributes

/-- What is to be shown of types with the same structure may be taken for granted for their
    parts. -/
theorem Context.EqualType.induct {r : TypeRef → TypeRef → Prop}
    (step : ∀ {t t' node node'}, ctx.type t = .ok node → ctx'.type t' = .ok node' →
      node.dialect = node'.dialect → node.name = node'.name →
      List.Forall₂ r node.params node'.params →
      (∀ key, Option.Rel (Attribute.Same ctx ctx' r) (node.attributes.get? key)
        (node'.attributes.get? key)) → r t t')
    {t t' : TypeRef} (h : ctx.EqualType ctx' t t') : r t t' :=
  @EqualType.rec ctx ctx' (fun t t' _ => r t t') (fun ts ts' _ => List.Forall₂ r ts ts')
    (fun a a' _ => Option.Rel (Attribute.Same ctx ctx' r) a a')
    (fun a a' _ => Attribute.Same ctx ctx' r a a')
    (fun as as' _ => List.Forall₂ (Attribute.Same ctx ctx' r) as as')
    (fun ht ht' dialect name _ _ hparams hattributes =>
      step ht ht' dialect name hparams hattributes)
    .nil (fun _ _ => .cons) (fun _ => .some) .none .plain (fun _ => .type) .location
    (fun _ => .list) .nil (fun _ _ => .cons) t t' h

/-- Steps that give the same for related elements do so for related lists. -/
theorem Outcome.mapM_common {ε α β γ : Type} {f : α → Except ε γ} {f' : β → Except ε γ}
    {l : List α} {l' : List β}
    (h : List.Forall₂ (fun a b => ∃ c, f a = .ok c ∧ f' b = .ok c) l l') :
    ∃ cs, l.mapM f = .ok cs ∧ l'.mapM f' = .ok cs := by
  simp only [mapM_eq_ok]
  induction h with
  | nil => exact ⟨[], .nil, .nil⟩
  | cons hab _ ih =>
    obtain ⟨c, hc, hc'⟩ := hab
    obtain ⟨cs, hcs, hcs'⟩ := ih
    exact ⟨c :: cs, .cons hc hcs, .cons hc' hcs'⟩

namespace Quote

variable {r : TypeRef → TypeRef → Prop} {f f' : TypeRef → Except Fault TypeTerm}

mutual

/-- Attributes that are the same have the same term, if types do. -/
theorem value_of_same (hf : ∀ t t', r t t' → ∃ term, f t = .ok term ∧ f' t' = .ok term) :
    ∀ a a' : Attribute, Attribute.Same ctx ctx' r a a' →
      ∃ term, value ctx f a = .ok term ∧ value ctx' f' a' = .ok term
  | .atom x, _, h => by
    cases h with
    | plain htype hlocation =>
      cases x with
      | type t => exact absurd rfl (htype t)
      | location l => exact absurd rfl (hlocation l)
      | _ => exact ⟨_, rfl, rfl⟩
    | type ht =>
      obtain ⟨term, hterm, hterm'⟩ := hf _ _ ht
      exact ⟨.type term, by rw [value, hterm]; rfl, by rw [value, hterm']; rfl⟩
    | location hp hp' => exact ⟨_, by rw [value, hp]; rfl, by rw [value, hp']; rfl⟩
  | .list as, _, h => by
    cases h with
    | list has =>
      obtain ⟨terms, hterms, hterms'⟩ := values_of_same hf as _ has
      exact ⟨.list terms, by rw [value, hterms]; rfl, by rw [value, hterms']; rfl⟩

theorem values_of_same (hf : ∀ t t', r t t' → ∃ term, f t = .ok term ∧ f' t' = .ok term) :
    ∀ as as' : List Attribute, List.Forall₂ (Attribute.Same ctx ctx' r) as as' →
      ∃ terms, values ctx f as = .ok terms ∧ values ctx' f' as' = .ok terms
  | [], _, h => by
    cases h
    exact ⟨[], rfl, rfl⟩
  | a :: as, _, h => by
    cases h with
    | cons ha has =>
      obtain ⟨term, hterm, hterm'⟩ := value_of_same hf a _ ha
      obtain ⟨terms, hterms, hterms'⟩ := values_of_same hf as _ has
      exact ⟨term :: terms, by rw [values, hterm, Outcome.ok_bind, hterms]; rfl,
        by rw [values, hterm', Outcome.ok_bind, hterms']; rfl⟩

end

theorem entries_of_same (hf : ∀ t t', r t t' → ∃ term, f t = .ok term ∧ f' t' = .ok term)
    {as as' : Attributes}
    (h : ∀ key, Option.Rel (Attribute.Same ctx ctx' r) (as.get? key) (as'.get? key)) :
    ∃ es, entries ctx f as.entries = .ok es ∧ entries ctx' f' as'.entries = .ok es := by
  refine Outcome.mapM_common ((Attributes.forall₂ h).imp fun e e' he => ?_)
  obtain ⟨key, a⟩ := e
  obtain ⟨key', a'⟩ := e'
  obtain ⟨rfl, ha⟩ := he
  obtain ⟨term, hterm, hterm'⟩ := value_of_same hf a a' ha
  refine ⟨.mk key term, ?_, ?_⟩ <;> dsimp only
  · rw [hterm]
    rfl
  · rw [hterm']
    rfl

/-- Types with the same structure have the same term. -/
theorem sameType_of_equal {t t' : TypeRef} (h : ctx.EqualType ctx' t t') :
    SameType ctx ctx' t t' := by
  refine EqualType.induct (fun ht ht' hdialect hname hparams hattributes => ?_) h
  obtain ⟨terms, hterms, hterms'⟩ := Outcome.mapM_common hparams
  obtain ⟨es, hes, hes'⟩ := entries_of_same (fun _ _ => id) hattributes
  refine ⟨_, type_of_parts ht hterms hes, ?_⟩
  rw [hdialect, hname]
  exact type_of_parts ht' hterms' hes'

theorem sameAttributes_of_equal {as as' : Attributes} (h : ctx.EqualAttributes ctx' as as') :
    SameAttributes ctx ctx' as as' :=
  entries_of_same (r := ctx.EqualType ctx') (fun _ _ => sameType_of_equal) h

end Quote

/-! ## Trees that end -/

/-- Lists that a step gives at every element, with what is known of all that is in them. -/
theorem Outcome.flatMapM_forall {ε α β : Type} {f : α → Except ε (List β)} {P : β → Prop}
    {xs : List α} (h : ∀ x ∈ xs, ∃ ys, f x = .ok ys ∧ ∀ y ∈ ys, P y) :
    ∃ ys, xs.flatMapM f = .ok ys ∧ ∀ y ∈ ys, P y := by
  obtain ⟨yss, hyss⟩ := Position.exists_forall₂ h
  refine ⟨yss.flatten, flatMapM_eq_ok.2 ⟨yss, hyss.imp fun _ _ h => h.1, rfl⟩, fun y hy => ?_⟩
  obtain ⟨ys, hys, hy⟩ := List.mem_flatten.1 hy
  obtain ⟨x, -, hx⟩ := exists_of_mem_right hyss hys
  exact hx.2 y hy

namespace Context

/-- The tree of an operation ends. -/
def TreeEnds (ctx : Context) (o : OpRef) : Prop := ∃ l, ctx.subtree o = .ok l

/-- The trees of the operations in a region end. -/
def RegionEnds (ctx : Context) (r : RegionRef) : Prop :=
  ∃ os, ctx.regionOps r = .ok os ∧ ∀ o ∈ os, ctx.TreeEnds o

/-- The trees of the operations in a block end. -/
def BlockEnds (ctx : Context) (b : BlockRef) : Prop :=
  ∃ os, (do return (← ctx.block b).ops : Except Fault (List OpRef)) = .ok os ∧
    ∀ o ∈ os, ctx.TreeEnds o

theorem regionEnds {r : RegionRef} {row : Region} (hr : ctx.region r = .ok row)
    (h : ∀ b ∈ row.blocks, ctx.BlockEnds b) : ctx.RegionEnds r := by
  obtain ⟨os, hos, hends⟩ := Outcome.flatMapM_forall h
  exact ⟨os, by rw [regionOps, hr]; exact hos, hends⟩

theorem treeEnds {o : OpRef} {row : Operation} (ho : ctx.op o = .ok row)
    (h : ∀ r ∈ row.regions, ctx.RegionEnds r) : ctx.TreeEnds o := by
  obtain ⟨os, hos, hends⟩ := Outcome.flatMapM_forall h
  have hchildren : ctx.children o = .ok os := by
    rw [children, ho]
    exact hos
  obtain ⟨l, hl⟩ := Outcome.flatMapM_ok hends
  -- one level more than there are for the children
  refine subtree_of_within (n := ctx.ops.size + 1 + 1) (l := o :: l) ?_
  rw [subtreeWithin, hchildren, Outcome.ok_bind]
  change (os.flatMapM ctx.subtree >>= fun l => pure (o :: l)) = _
  rw [hl]
  rfl

/-- Trees of the same shape end, both of them. -/
theorem CongruentOp.treeEnds {inner operand : ValueRef → ValueRef → Prop} {o o' : OpRef}
    (h : ctx.CongruentOp ctx' inner operand o o') :
    ctx.TreeEnds o ∧ ctx'.TreeEnds o' :=
  have hnil {α : Type} (P P' : α → Prop) : (∀ a ∈ [], P a) ∧ ∀ a ∈ [], P' a :=
    ⟨List.forall_mem_nil _, List.forall_mem_nil _⟩
  have hcons {α : Type} {P P' : α → Prop} {a a' : α} {l l' : List α} (ha : P a ∧ P' a')
      (hl : (∀ a ∈ l, P a) ∧ ∀ a ∈ l', P' a) : (∀ b ∈ a :: l, P b) ∧ ∀ b ∈ a' :: l', P' b :=
    ⟨List.forall_mem_cons.2 ⟨ha.1, hl.1⟩, List.forall_mem_cons.2 ⟨ha.2, hl.2⟩⟩
  @CongruentOp.rec ctx ctx' inner operand
    (fun o o' _ => ctx.TreeEnds o ∧ ctx'.TreeEnds o')
    (fun r r' _ => ctx.RegionEnds r ∧ ctx'.RegionEnds r')
    (fun b b' _ => ctx.BlockEnds b ∧ ctx'.BlockEnds b')
    (fun rs rs' _ => (∀ r ∈ rs, ctx.RegionEnds r) ∧ ∀ r ∈ rs', ctx'.RegionEnds r)
    (fun bs bs' _ => (∀ b ∈ bs, ctx.BlockEnds b) ∧ ∀ b ∈ bs', ctx'.BlockEnds b)
    (fun os os' _ => (∀ o ∈ os, ctx.TreeEnds o) ∧ ∀ o ∈ os', ctx'.TreeEnds o)
    (fun ho ho' _ _ _ _ _ _ hregions =>
      ⟨Context.treeEnds ho hregions.1, Context.treeEnds ho' hregions.2⟩)
    (fun hr hr' _ hblocks => ⟨regionEnds hr hblocks.1, regionEnds hr' hblocks.2⟩)
    (fun hb hb' _ _ hops => ⟨⟨_, by rw [hb]; rfl, hops.1⟩, ⟨_, by rw [hb']; rfl, hops.2⟩⟩)
    (hnil _ _) (fun _ _ => hcons) (hnil _ _) (fun _ _ => hcons) (hnil _ _) (fun _ _ => hcons) o o' h

/-! ## Printed alike -/

/-- Trees of the same shape are in step, where operands have the same name or both none. -/
def CongruentOp.inStep {inner : Matching ValueRef}
    {operand : ValueRef → ValueRef → Prop}
    (hoperand : ∀ v v', operand v v' → inner v v' ∨ ¬inner.Left v ∧ ¬inner.Right v') :
    InStep inner ctx ctx' where
  op := ctx.CongruentOp ctx' inner operand
  region := ctx.CongruentRegion ctx' inner operand
  block := ctx.CongruentBlock ctx' inner operand
  op_row := by
    rintro o o' ⟨ho, ho', hkind, hattributes, hoperands, htypes, hresults, hregions⟩
    exact ⟨_, _, ho, ho', ⟨hkind,
      Quote.sameAttributes_of_equal hattributes, hoperands.imp hoperand,
      htypes.imp fun _ _ => Quote.sameType_of_equal, hresults⟩,
      hregions⟩
  region_row := by
    rintro r r' ⟨hr, hr', hblocks⟩
    exact ⟨_, _, hr, hr', hblocks⟩
  block_row := by
    rintro b b' ⟨hb, hb', hargs, hops⟩
    refine ⟨_, _, hb, hb', hargs.imp fun v v' hv => ⟨hv.1, ?_⟩, hops⟩
    obtain ⟨-, row, row', hrow, hrow', htype⟩ := hv
    exact ⟨row, row', hrow, hrow', Quote.sameType_of_equal htype⟩

/-- Operations whose trees have the same shape are printed, and as the same text, whatever the
    numbers of their symbols are. -/
theorem print_of_congruent {o o' : OpRef} (h : ctx.Congruent ctx' o o') :
    ∃ text, ctx.print o = .ok text ∧ ctx'.print o' = .ok text := by
  obtain ⟨inner, hinner, hop⟩ := h
  obtain ⟨⟨l, hl⟩, l', hl'⟩ := hop.treeEnds
  refine (CongruentOp.inStep fun v v' hv => ?_).print_eq hop hl hl'
  -- what is defined outside corresponds to nothing, as only what is defined inside does
  refine hv.imp_right fun hout => ⟨?_, ?_⟩
  · rintro ⟨w, hw⟩
    exact hout.1 (hinner v w hw).1
  · rintro ⟨w, hw⟩
    exact hout.2 (hinner w v' hw).2

/-! ## An example -/

/-- A value is not defined in a tree if none of the operations in it defines it. -/
theorem not_definedIn {top : OpRef} {v : ValueRef} (tree : List OpRef) (htop : top ∈ tree)
    (hclosed : ∀ p ∈ tree, ∀ c ∈ ctx.childrenOf p, c ∈ tree)
    (hv : ∀ o ∈ tree, v ∉ ctx.results o ∧
      ∀ r ∈ ctx.regionsOf o, ∀ b ∈ ctx.blocksOf r, v ∉ ctx.args b) : ¬ctx.DefinedIn top v := by
  rintro ⟨o, ho, hdefines⟩
  have hmem : o ∈ tree := by
    clear hdefines
    induction ho with
    | refl => exact htop
    | tail _ hc ih => exact hclosed _ ih _ hc
  obtain ⟨hresults, hargs⟩ := hv o hmem
  rcases hdefines with hr | ⟨r, hr, b, hb, hv⟩
  · exact hresults hr
  · exact hargs r hr b hb hv

/-- A function that adds a value from outside to its argument. -/
def adding : Context where
  symbols := .ofList ["func", "type", "f", "sym_name", "at"]
  paths := .ofList ["a"]
  types := .ofList [⟨"core", "i32", [], .empty⟩, ⟨"func", "fn", [⟨0⟩], .empty⟩]
  values := #[⟨.argument ⟨0⟩ 0, ⟨0⟩⟩, ⟨.result ⟨1⟩ 0, ⟨0⟩⟩, ⟨.result ⟨2⟩ 0, ⟨0⟩⟩]
  uses := ⟨#[[⟨⟨1⟩, 0⟩], [], [⟨⟨1⟩, 1⟩]]⟩
  regions := #[⟨⟨⟨0⟩, ⟨0, 9⟩⟩, [⟨0⟩], some ⟨0⟩⟩]
  blocks := #[⟨⟨⟨0⟩, ⟨0, 9⟩⟩, [⟨0⟩], [⟨0⟩], [⟨1⟩], some ⟨0⟩⟩]
  ops := #[
    { location := ⟨⟨0⟩, ⟨0, 9⟩⟩, kind := ⟨"func", "func"⟩, operands := [], resultTypes := []
      attributes := .ofList [("sym_name", .atom (.symbol "f")), ("type", .atom (.type ⟨1⟩)),
        ("at", .atom (.location ⟨⟨0⟩, ⟨1, 2⟩⟩))]
      regions := [⟨0⟩], results := [], parent := none, erased := false },
    { location := ⟨⟨0⟩, ⟨3, 5⟩⟩, kind := ⟨"arith", "add"⟩, operands := [⟨0⟩, ⟨2⟩]
      resultTypes := [⟨0⟩], attributes := .empty, regions := [], results := [⟨1⟩]
      parent := some ⟨0⟩, erased := false },
    { location := ⟨⟨0⟩, ⟨0, 0⟩⟩, kind := ⟨"test", "one"⟩, operands := [], resultTypes := [⟨0⟩]
      attributes := .empty, regions := [], results := [⟨2⟩], parent := none, erased := false }]

/-- The same function, allocated in another order, among other types, paths and operations, after
    its symbols came up in another order. -/
def readding : Context where
  symbols := .ofList ["at", "type", "sym_name", "f", "func"]
  paths := .ofList ["b", "a"]
  types := .ofList [⟨"core", "nil", [], .empty⟩, ⟨"core", "i32", [], .empty⟩,
    ⟨"func", "fn", [⟨1⟩], .empty⟩]
  values := #[⟨.result ⟨0⟩ 0, ⟨1⟩⟩, ⟨.result ⟨1⟩ 0, ⟨1⟩⟩, ⟨.argument ⟨0⟩ 0, ⟨1⟩⟩]
  uses := ⟨#[[⟨⟨1⟩, 1⟩], [], [⟨⟨1⟩, 0⟩]]⟩
  regions := #[⟨⟨⟨0⟩, ⟨0, 0⟩⟩, [⟨0⟩], some ⟨2⟩⟩]
  blocks := #[⟨⟨⟨0⟩, ⟨0, 0⟩⟩, [⟨1⟩], [⟨2⟩], [⟨1⟩], some ⟨0⟩⟩]
  ops := #[
    { location := ⟨⟨0⟩, ⟨0, 0⟩⟩, kind := ⟨"test", "two"⟩, operands := [], resultTypes := [⟨1⟩]
      attributes := .empty, regions := [], results := [⟨0⟩], parent := none, erased := false },
    { location := ⟨⟨0⟩, ⟨0, 0⟩⟩, kind := ⟨"arith", "add"⟩, operands := [⟨2⟩, ⟨0⟩]
      resultTypes := [⟨1⟩], attributes := .empty, regions := [], results := [⟨1⟩]
      parent := some ⟨0⟩, erased := false },
    { location := ⟨⟨0⟩, ⟨0, 0⟩⟩, kind := ⟨"func", "func"⟩, operands := [], resultTypes := []
      attributes := .ofList [("at", .atom (.location ⟨⟨1⟩, ⟨1, 2⟩⟩)), ("type", .atom (.type ⟨2⟩)),
        ("sym_name", .atom (.symbol "f"))]
      regions := [⟨0⟩], results := [], parent := none, erased := false }]

/-- The argument and the sum, in both contexts. -/
def addingValues : Matching ValueRef where
  rel v v' := (v, v') ∈ ([(⟨0⟩, ⟨2⟩), (⟨1⟩, ⟨1⟩)] : List (ValueRef × ValueRef))
  iff {a a' b b'} ha hb := by
    simp only [List.mem_cons, List.not_mem_nil, or_false, Prod.mk.injEq] at ha hb
    rcases ha with ⟨rfl, rfl⟩ | ⟨rfl, rfl⟩ <;> rcases hb with ⟨rfl, rfl⟩ | ⟨rfl, rfl⟩ <;> decide

theorem equal_i32 : adding.EqualType readding ⟨0⟩ ⟨1⟩ :=
  @Context.EqualType.mk adding readding _ _ ⟨"core", "i32", [], .empty⟩ ⟨"core", "i32", [], .empty⟩
    rfl rfl rfl rfl .nil fun _ => .none

theorem equal_fn : adding.EqualType readding ⟨1⟩ ⟨2⟩ :=
  @Context.EqualType.mk adding readding _ _ ⟨"func", "fn", [⟨0⟩], .empty⟩ ⟨"func", "fn", [⟨1⟩], .empty⟩
    rfl rfl rfl rfl (.cons equal_i32 .nil) fun _ => .none

theorem equal_attributes : adding.EqualAttributes readding (adding.attributesOf ⟨0⟩)
    (readding.attributesOf ⟨2⟩) := by
  have h : adding.attributesOf ⟨0⟩ = .ofList [("at", .atom (.location ⟨⟨0⟩, ⟨1, 2⟩⟩)),
      ("sym_name", .atom (.symbol "f")), ("type", .atom (.type ⟨1⟩))] := by decide
  have h' : readding.attributesOf ⟨2⟩ = .ofList [("at", .atom (.location ⟨⟨1⟩, ⟨1, 2⟩⟩)),
      ("sym_name", .atom (.symbol "f")), ("type", .atom (.type ⟨2⟩))] := by decide
  rw [h, h']
  exact Attributes.rel_of_forall₂ (.cons ⟨rfl, .location rfl rfl⟩
    (.cons ⟨rfl, .plain nofun nofun⟩ (.cons ⟨rfl, .type equal_fn⟩ .nil)))

theorem congruent_adding : adding.Congruent readding ⟨0⟩ ⟨2⟩ := by
  refine ⟨addingValues, fun v v' hv => ?_, ?_⟩
  · have hv : v = ⟨0⟩ ∧ v' = ⟨2⟩ ∨ v = ⟨1⟩ ∧ v' = ⟨1⟩ := by simpa [addingValues] using hv
    rcases hv with ⟨rfl, rfl⟩ | ⟨rfl, rfl⟩
    · exact ⟨⟨⟨0⟩, .refl, .inr ⟨⟨0⟩, by decide, ⟨0⟩, by decide, by decide⟩⟩,
        ⟨⟨2⟩, .refl, .inr ⟨⟨0⟩, by decide, ⟨0⟩, by decide, by decide⟩⟩⟩
    · exact ⟨⟨⟨1⟩, .single (by decide), .inl (by decide)⟩,
        ⟨⟨1⟩, .single (by decide), .inl (by decide)⟩⟩
  · have harg : adding.CongruentArg readding addingValues ⟨0⟩ ⟨2⟩ :=
      ⟨.head _, _, _, rfl, rfl, equal_i32⟩
    have houtside : ¬adding.DefinedIn ⟨0⟩ ⟨2⟩ ∧ ¬readding.DefinedIn ⟨2⟩ ⟨0⟩ :=
      ⟨not_definedIn [⟨0⟩, ⟨1⟩] (by decide) (by decide) (by decide),
        not_definedIn [⟨2⟩, ⟨1⟩] (by decide) (by decide) (by decide)⟩
    refine .mk rfl rfl rfl equal_attributes .nil .nil .nil (.cons (.mk rfl rfl
      (.cons (.mk rfl rfl (.cons harg .nil) (.cons ?_ .nil)) .nil)) .nil)
    exact .mk rfl rfl rfl (fun _ => .none) (.cons (.inl harg.1) (.cons (.inr houtside) .nil))
      (.cons equal_i32 .nil) (.cons (.tail _ (.head _)) .nil) .nil

/-- The attributes are listed in other orders, and are printed in the same one. -/
theorem print_adding : adding.Congruent readding ⟨0⟩ ⟨2⟩ ∧
    ((adding.listed (adding.attributesOf ⟨0⟩)).map Prod.fst = ["type", "sym_name", "at"] ∧
      (readding.listed (readding.attributesOf ⟨2⟩)).map Prod.fst = ["at", "type", "sym_name"]) ∧
    ∃ text, adding.print ⟨0⟩ = .ok text ∧ readding.print ⟨2⟩ = .ok text :=
  ⟨congruent_adding, ⟨by decide +kernel, by decide +kernel⟩, print_of_congruent congruent_adding⟩

end Context

end Offload
