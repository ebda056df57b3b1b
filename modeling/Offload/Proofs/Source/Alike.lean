import Offload.Proofs.Source.Depiction

/-!
# Isomorphic operations

Operations of two contexts are *isomorphic* if they are the same up to handles and
places: kinds, attributes, types, regions, blocks and their arguments agree, and the
values correspond one to one, so that an operand of one is what the operand of the other
corresponds to (`Isomorphic`). Types and paths are compared by what they are, not by
their handles.

Operations that one term depicts are isomorphic (`Depicts.isomorphic`): values
correspond if they have the same number.
-/

namespace Offload

open Context

namespace Context

section

variable (ctx ctx' : Context)

mutual

/-- Types that are the same, each in its context. -/
inductive AlikeType : TypeRef → TypeRef → Prop
  | mk {t t' : TypeRef} {node node' : TypeNode} (ht : ctx.type t = .ok node)
    (ht' : ctx'.type t' = .ok node') (dialect : node.dialect = node'.dialect)
    (name : node.name = node'.name) (params : List.Forall₂ AlikeType node.params node'.params)
    (attributes : List.Forall₂ AlikeEntry node.attributes.entries node'.attributes.entries) :
    AlikeType t t'

/-- Attributes that are the same, each in its context. -/
inductive AlikeAttribute : Attribute → Attribute → Prop
  | plain {x : Atom} (type : ∀ t, x ≠ .type t) (location : ∀ l, x ≠ .location l) :
    AlikeAttribute (.atom x) (.atom x)
  | type {t t' : TypeRef} (h : AlikeType t t') :
    AlikeAttribute (.atom (.type t)) (.atom (.type t'))
  | location {p p' : PathRef} {path : String} {span : Span} (hp : ctx.path p = .ok path)
    (hp' : ctx'.path p' = .ok path) :
    AlikeAttribute (.atom (.location ⟨p, span⟩)) (.atom (.location ⟨p', span⟩))
  | list {as as' : List Attribute} (h : List.Forall₂ AlikeAttribute as as') :
    AlikeAttribute (.list as) (.list as')

/-- Attributes that are the same, under the same key. -/
inductive AlikeEntry : String × Attribute → String × Attribute → Prop
  | mk {key : String} {a a' : Attribute} (h : AlikeAttribute a a') : AlikeEntry (key, a) (key, a')

end

/-- Values that correspond, and have the same type. -/
def AlikeValue (R : ValueRef → ValueRef → Prop) (v v' : ValueRef) : Prop :=
  R v v' ∧ ∃ row row', ctx.value v = .ok row ∧ ctx'.value v' = .ok row' ∧
    AlikeType ctx ctx' row.type row'.type

mutual

/-- Operations that are the same, each in its context, where `R` tells which values
    correspond. -/
inductive AlikeOp (R : ValueRef → ValueRef → Prop) : OpRef → OpRef → Prop
  | mk {o o' : OpRef} {row row' : Operation} (ho : ctx.op o = .ok row) (ho' : ctx'.op o' = .ok row')
    (kind : row.kind = row'.kind)
    (attributes : List.Forall₂ (AlikeEntry ctx ctx') row.attributes.entries row'.attributes.entries)
    (operands : List.Forall₂ R row.operands row'.operands)
    (resultTypes : List.Forall₂ (AlikeType ctx ctx') row.resultTypes row'.resultTypes)
    (results : List.Forall₂ R row.results row'.results)
    (regions : List.Forall₂ (AlikeRegion R) row.regions row'.regions) : AlikeOp R o o'

inductive AlikeRegion (R : ValueRef → ValueRef → Prop) : RegionRef → RegionRef → Prop
  | mk {r r' : RegionRef} {row row' : Region} (hr : ctx.region r = .ok row)
    (hr' : ctx'.region r' = .ok row')
    (blocks : List.Forall₂ (AlikeBlock R) row.blocks row'.blocks) : AlikeRegion R r r'

inductive AlikeBlock (R : ValueRef → ValueRef → Prop) : BlockRef → BlockRef → Prop
  | mk {b b' : BlockRef} {row row' : Block} (hb : ctx.block b = .ok row)
    (hb' : ctx'.block b' = .ok row')
    (args : List.Forall₂ (AlikeValue ctx ctx' R) row.args row'.args)
    (ops : List.Forall₂ (AlikeOp R) row.ops row'.ops) : AlikeBlock R b b'

end

/-- Operations are the same, each in its context, with their values in one-to-one
    correspondence. -/
def Isomorphic (o o' : OpRef) : Prop :=
  ∃ R : ValueRef → ValueRef → Prop,
    (∀ v v' w w', R v v' → R w w' → (v = w ↔ v' = w')) ∧ AlikeOp ctx ctx' R o o'

end

end Context

/-! ## What is spelled the same is the same -/

/-- The attribute without parts that a term describes. -/
def AttributeTerm.atom? : AttributeTerm → Option Atom
  | .unit => some .unit
  | .bool b => some (.bool b)
  | .int bits => some (.int bits)
  | .float x => some (.float x)
  | .string s => some (.string s)
  | .bytes data => some (.bytes data)
  | .symbol name => some (.symbol name)
  | .type _ | .location _ _ | .list _ => none

namespace Quote

variable {ctx ctx' : Context}

section

variable {f f' : TypeRef → Except Fault TypeTerm} {a : Attribute}

/-- What the term of an attribute says about it. -/
inductive Describes (ctx : Context) (f : TypeRef → Except Fault TypeTerm) :
    AttributeTerm → Attribute → Prop
  | plain {term : AttributeTerm} {x : Atom} (hx : term.atom? = some x) :
    Describes ctx f term (.atom x)
  | type {t : TypeRef} {term : TypeTerm} (ht : f t = .ok term) :
    Describes ctx f (.type term) (.atom (.type t))
  | location {p : PathRef} {path : String} {span : Span} (hp : ctx.path p = .ok path) :
    Describes ctx f (.location path span) (.atom (.location ⟨p, span⟩))
  | list {items : List Attribute} {terms : List AttributeTerm}
    (hitems : values ctx f items = .ok terms) : Describes ctx f (.list terms) (.list items)

theorem describes_of_value {term : AttributeTerm} (ha : value ctx f a = .ok term) :
    Describes ctx f term a := by
  rcases a with x | items
  · cases x with
    | type t =>
      obtain ⟨t', ht, hterm⟩ := Outcome.bind_eq_ok.1 ha
      obtain rfl := Outcome.pure_eq_ok.1 hterm
      exact .type ht
    | location l =>
      obtain ⟨path, hpath, hterm⟩ := Outcome.bind_eq_ok.1 ha
      obtain rfl := Outcome.pure_eq_ok.1 hterm
      exact .location hpath
    | _ =>
      cases ha
      exact .plain rfl
  · obtain ⟨terms, hterms, hterm⟩ := Outcome.bind_eq_ok.1 ha
    obtain rfl := Outcome.pure_eq_ok.1 hterm
    exact .list hterms

theorem eq_nil_of_values {as : List Attribute} (has : values ctx f as = .ok []) : as = [] := by
  cases as with
  | nil => rfl
  | cons a as =>
    obtain ⟨term, -, hrest⟩ := Outcome.bind_eq_ok.1 has
    obtain ⟨terms, -, hterms⟩ := Outcome.bind_eq_ok.1 hrest
    cases Outcome.pure_eq_ok.1 hterms

theorem eq_cons_of_values {as : List Attribute} {term : AttributeTerm}
    {terms : List AttributeTerm} (has : values ctx f as = .ok (term :: terms)) :
    ∃ b bs, as = b :: bs ∧ value ctx f b = .ok term ∧ values ctx f bs = .ok terms := by
  cases as with
  | nil => cases has
  | cons b bs =>
    obtain ⟨term', hb, hrest⟩ := Outcome.bind_eq_ok.1 has
    obtain ⟨terms', hbs, hterms⟩ := Outcome.bind_eq_ok.1 hrest
    cases Outcome.pure_eq_ok.1 hterms
    exact ⟨b, bs, rfl, hb, hbs⟩

/-- Types with the same term are the same. -/
def Tells (ctx ctx' : Context) (f f' : TypeRef → Except Fault TypeTerm) : Prop :=
  ∀ t t' term, f t = .ok term → f' t' = .ok term → ctx.AlikeType ctx' t t'

theorem alike_of_atom? {a' : Attribute} {term : AttributeTerm} {x : Atom}
    (ha : value ctx f a = .ok term) (ha' : value ctx' f' a' = .ok term)
    (hx : term.atom? = some x) : ctx.AlikeAttribute ctx' a a' := by
  have hplain : (∀ t, x ≠ .type t) ∧ ∀ l, x ≠ .location l := by
    constructor <;> (rintro _ rfl; cases term <;> cases hx)
  cases describes_of_value ha with
  | plain h =>
    obtain rfl := Option.some.inj (h.symm.trans hx)
    cases describes_of_value ha' with
    | plain h' =>
      obtain rfl := Option.some.inj (h'.symm.trans hx)
      exact .plain hplain.1 hplain.2
    | _ => cases hx
  | _ => cases hx

mutual

theorem alike_of_value (hf : Tells ctx ctx' f f') : ∀ (term : AttributeTerm) (a a' : Attribute),
    value ctx f a = .ok term → value ctx' f' a' = .ok term → ctx.AlikeAttribute ctx' a a'
  | .type t, a, a', ha, ha' => by
    rcases describes_of_value ha with hx | hr | _ | _
    · cases hx
    rcases describes_of_value ha' with hx | hr' | _ | _
    · cases hx
    exact .type (hf _ _ t hr hr')
  | .location path span, a, a', ha, ha' => by
    rcases describes_of_value ha with hx | _ | hp | _
    · cases hx
    rcases describes_of_value ha' with hx | _ | hp' | _
    · cases hx
    exact .location hp hp'
  | .list terms, a, a', ha, ha' => by
    rcases describes_of_value ha with hx | _ | _ | hitems
    · cases hx
    rcases describes_of_value ha' with hx | _ | _ | hitems'
    · cases hx
    exact .list (alike_of_values hf terms _ _ hitems hitems')
  | .unit, a, a', ha, ha' => alike_of_atom? ha ha' rfl
  | .bool b, a, a', ha, ha' => alike_of_atom? ha ha' rfl
  | .int bits, a, a', ha, ha' => alike_of_atom? ha ha' rfl
  | .float x, a, a', ha, ha' => alike_of_atom? ha ha' rfl
  | .string s, a, a', ha, ha' => alike_of_atom? ha ha' rfl
  | .bytes data, a, a', ha, ha' => alike_of_atom? ha ha' rfl
  | .symbol name, a, a', ha, ha' => alike_of_atom? ha ha' rfl

theorem alike_of_values (hf : Tells ctx ctx' f f') : ∀ (terms : List AttributeTerm)
    (as as' : List Attribute), values ctx f as = .ok terms → values ctx' f' as' = .ok terms →
    List.Forall₂ (ctx.AlikeAttribute ctx') as as'
  | [], as, as', has, has' => by
    obtain rfl := eq_nil_of_values has
    obtain rfl := eq_nil_of_values has'
    exact .nil
  | term :: terms, as, as', has, has' => by
    obtain ⟨a, bs, rfl, ha, hbs⟩ := eq_cons_of_values has
    obtain ⟨a', bs', rfl, ha', hbs'⟩ := eq_cons_of_values has'
    exact .cons (alike_of_value hf term a a' ha ha') (alike_of_values hf terms bs bs' hbs hbs')

end

theorem alike_of_entries (hf : Tells ctx ctx' f f') {l l' : List (String × Attribute)}
    {es : List Entry} (hl : entries ctx f l = .ok es) (hl' : entries ctx' f' l' = .ok es) :
    List.Forall₂ (ctx.AlikeEntry ctx') l l' := by
  rw [entries, Outcome.mapM_eq_ok] at hl hl'
  induction hl generalizing l' with
  | nil =>
    cases hl'
    exact .nil
  | @cons p e l es hp _ ih =>
    cases hl' with
    | @cons p' _ l' _ hp' hl' =>
      obtain ⟨key, a⟩ := p
      obtain ⟨key', a'⟩ := p'
      obtain ⟨term, ha, he⟩ := Outcome.bind_eq_ok.1 hp
      obtain rfl := Outcome.pure_eq_ok.1 he
      obtain ⟨term', ha', he'⟩ := Outcome.bind_eq_ok.1 hp'
      cases Outcome.pure_eq_ok.1 he'
      exact .cons (.mk (alike_of_value hf term a a' ha ha')) (ih hl')

end

/-- What is related to the same things, in order, is related in order. -/
theorem forall₂_of_left {α β τ : Type} {P : τ → α → Prop} {Q : τ → β → Prop} {R : α → β → Prop}
    (hR : ∀ x a b, P x a → Q x b → R a b) {xs : List τ} {as : List α} {bs : List β}
    (has : List.Forall₂ P xs as) (hbs : List.Forall₂ Q xs bs) : List.Forall₂ R as bs := by
  induction has generalizing bs with
  | nil =>
    cases hbs
    exact .nil
  | cons ha _ ih =>
    cases hbs with
    | cons hb hbs => exact .cons (hR _ _ _ ha hb) (ih hbs)

theorem forall₂_alikeType {f f' : TypeRef → Except Fault TypeTerm} (hf : Tells ctx ctx' f f')
    {ts ts' : List TypeRef} {terms : List TypeTerm}
    (h : List.Forall₂ (fun t term => f t = .ok term) ts terms)
    (h' : List.Forall₂ (fun t term => f' t = .ok term) ts' terms) :
    List.Forall₂ (ctx.AlikeType ctx') ts ts' :=
  forall₂_of_left (fun term t t' ht ht' => hf t t' term ht ht') h.flip h'.flip

theorem tells_typeWithin (n n' : Nat) : Tells ctx ctx' (typeWithin ctx n) (typeWithin ctx' n') := by
  induction n generalizing n' with
  | zero =>
    intro t t' term ht
    cases ht
  | succ n ih =>
    intro t t' term ht ht'
    cases n' with
    | zero => cases ht'
    | succ n' =>
      rw [typeWithin_succ] at ht ht'
      obtain ⟨node, hnode, ht⟩ := Outcome.bind_eq_ok.1 ht
      obtain ⟨params, hparams, ht⟩ := Outcome.bind_eq_ok.1 ht
      obtain ⟨es, hes, ht⟩ := Outcome.bind_eq_ok.1 ht
      obtain rfl := Outcome.pure_eq_ok.1 ht
      obtain ⟨node', hnode', ht'⟩ := Outcome.bind_eq_ok.1 ht'
      obtain ⟨params', hparams', ht'⟩ := Outcome.bind_eq_ok.1 ht'
      obtain ⟨es', hes', ht'⟩ := Outcome.bind_eq_ok.1 ht'
      obtain ⟨hdialect, hname, rfl, rfl⟩ := TypeTerm.mk.inj (Outcome.pure_eq_ok.1 ht')
      exact .mk hnode hnode' hdialect.symm hname.symm
        (forall₂_alikeType (ih n') (Outcome.mapM_eq_ok.1 hparams) (Outcome.mapM_eq_ok.1 hparams'))
        (alike_of_entries (ih n') hes hes')

theorem tells_type : Tells ctx ctx' (type ctx) (type ctx') := tells_typeWithin _ _

end Quote

/-! ## What is depicted the same is isomorphic -/

namespace Depicts

variable {ctx ctx' : Context} {number number' : ValueRef → Option Nat}

/-- Values with the same number. -/
def Paired (number number' : ValueRef → Option Nat) (v v' : ValueRef) : Prop :=
  ∃ n, number v = some n ∧ number' v' = some n

theorem paired_of_names {name : String} {v v' : ValueRef} (h : Names number name v)
    (h' : Names number' name v') : Paired number number' v v' := by
  obtain ⟨n, hn, rfl⟩ := h
  obtain ⟨n', hn', heq⟩ := h'
  obtain rfl := Text.toString_injective heq
  exact ⟨n, hn, hn'⟩

theorem forall₂_paired {names : List String} {vs vs' : List ValueRef}
    (h : List.Forall₂ (Names number) names vs) (h' : List.Forall₂ (Names number') names vs') :
    List.Forall₂ (Paired number number') vs vs' :=
  Quote.forall₂_of_left (P := Names number) (Q := Names number') (fun _ _ _ => paired_of_names) h h'

theorem alikeValue {arg : String × TypeTerm} {v v' : ValueRef} (h : Argument ctx number arg v)
    (h' : Argument ctx' number' arg v') :
    ctx.AlikeValue ctx' (Paired number number') v v' := by
  obtain ⟨hn, row, hrow, ht⟩ := h
  obtain ⟨hn', row', hrow', ht'⟩ := h'
  exact ⟨paired_of_names hn hn', row, row', hrow, hrow', Quote.tells_type _ _ _ ht ht'⟩

mutual

/-- Operations that a term depicts are the same, where values have the same number. -/
theorem alikeOp : ∀ (term : OpTerm) (o o' : OpRef), op ctx number term o → op ctx' number' term o' →
    ctx.AlikeOp ctx' (Paired number number') o o'
  | .mk head terms, o, o', h, h' => by
    obtain ⟨row, hrow, hline, hregions⟩ := h
    obtain ⟨row', hrow', hline', hregions'⟩ := h'
    exact .mk hrow hrow' (hline.kind.trans hline'.kind.symm)
      (Quote.alike_of_entries Quote.tells_type hline.attributes hline'.attributes)
      (forall₂_paired hline.operands hline'.operands)
      (Quote.forall₂_alikeType Quote.tells_type hline.types hline'.types)
      (forall₂_paired hline.results hline'.results)
      (alikeRegions terms row.regions row'.regions hregions hregions')

theorem alikeRegions : ∀ (terms : List RegionTerm) (rs rs' : List RegionRef),
    regions ctx number terms rs → regions ctx' number' terms rs' →
    List.Forall₂ (ctx.AlikeRegion ctx' (Paired number number')) rs rs'
  | [], rs, rs', h, h' => by
    obtain rfl : rs = [] := h
    obtain rfl : rs' = [] := h'
    exact .nil
  | .mk terms :: rest, rs, rs', h, h' => by
    obtain ⟨r, rs, row, rfl, hrow, hblocks, hrest⟩ := h
    obtain ⟨r', rs', row', rfl, hrow', hblocks', hrest'⟩ := h'
    exact .cons (.mk hrow hrow' (alikeBlocks terms row.blocks row'.blocks hblocks hblocks'))
      (alikeRegions rest rs rs' hrest hrest')

theorem alikeBlocks : ∀ (terms : List BlockTerm) (bs bs' : List BlockRef),
    blocks ctx number terms bs → blocks ctx' number' terms bs' →
    List.Forall₂ (ctx.AlikeBlock ctx' (Paired number number')) bs bs'
  | [], bs, bs', h, h' => by
    obtain rfl : bs = [] := h
    obtain rfl : bs' = [] := h'
    exact .nil
  | .mk l terms :: rest, bs, bs', h, h' => by
    obtain ⟨b, bs, row, rfl, hrow, hargs, hops, hrest⟩ := h
    obtain ⟨b', bs', row', rfl, hrow', hargs', hops', hrest'⟩ := h'
    have hvalues := Quote.forall₂_of_left (P := Argument ctx number)
      (Q := Argument ctx' number') (fun _ _ _ => alikeValue) hargs hargs'
    exact .cons (.mk hrow hrow' hvalues
      (alikeOps terms row.ops row'.ops hops hops')) (alikeBlocks rest bs bs' hrest hrest')

theorem alikeOps : ∀ (terms : List OpTerm) (os os' : List OpRef), ops ctx number terms os →
    ops ctx' number' terms os' → List.Forall₂ (ctx.AlikeOp ctx' (Paired number number')) os os'
  | [], os, os', h, h' => by
    obtain rfl : os = [] := h
    obtain rfl : os' = [] := h'
    exact .nil
  | term :: rest, os, os', h, h' => by
    obtain ⟨o, os, rfl, ho, hrest⟩ := h
    obtain ⟨o', os', rfl, ho', hrest'⟩ := h'
    exact .cons (alikeOp term o o' ho ho') (alikeOps rest os os' hrest hrest')

end

/-- Operations that a term depicts are isomorphic, if no two values share a number. -/
theorem isomorphic {term : OpTerm} {o o' : OpRef}
    (hnumber : ∀ v w n, number v = some n → number w = some n → v = w)
    (hnumber' : ∀ v w n, number' v = some n → number' w = some n → v = w)
    (h : op ctx number term o) (h' : op ctx' number' term o') : ctx.Isomorphic ctx' o o' := by
  refine ⟨Paired number number', fun v v' w w' hv hw => ?_, alikeOp term o o' h h'⟩
  obtain ⟨n, hn, hn'⟩ := hv
  obtain ⟨m, hm, hm'⟩ := hw
  constructor
  · rintro rfl
    obtain rfl := Option.some.inj (hn.symm.trans hm)
    exact hnumber' v' w' n hn' hm'
  · rintro rfl
    obtain rfl := Option.some.inj (hn'.symm.trans hm')
    exact hnumber v w n hn hm

end Depicts

end Offload
