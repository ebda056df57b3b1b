import Offload.Proofs.Source.Depiction
import Offload.Proofs.Source.Layout

/-!
# Which operations can be written

The text of an operation that was read can be read again, unless one of three things is
in it (`Context.Legible`): a symbol that is written without quotes but not with letters
of ASCII, a number that does not read back, or a region whose only block is bare and
empty. These are conditions on the operation. They come down to the term that depicts it
(`Normal.op_legible`), where all else is as the grammar wants it: kinds, keys and types
are still those that were read, and the names of values and blocks are numbers.
-/

namespace Offload

open Text Source Context

/-! ## Normal forms are spelled in the same words -/

namespace Normal

variable {P : AttributeTerm → Prop}

theorem spelled_put {key : String} {a : AttributeTerm} {es : List Entry} (hkey : IsKey key)
    (ha : Spelled.value P a) (hes : Spelled.entries P es) :
    Spelled.entries P (Entry.put key a es) := by
  rw [Spelled.entries_iff] at hes ⊢
  intro e he
  rcases Entry.mem_of_mem_put he with rfl | he
  · exact ⟨hkey, ha⟩
  · exact hes e he

theorem isPlain_type {t : TypeTerm} (h : t.IsPlain) : (type t).IsPlain := by
  obtain ⟨dialect, name, params, es⟩ := t
  rw [type]
  exact h

mutual

theorem spelled_type : ∀ t, Spelled.type P t → Spelled.type P (type t)
  | .mk dialect name params es, ⟨hd, hn, hparams, hes⟩ => by
    rw [type]
    exact ⟨hd, hn, spelled_types params hparams, spelled_entries es [] hes trivial⟩

theorem spelled_types : ∀ ts, Spelled.types P ts → Spelled.types P (types ts)
  | [], _ => trivial
  | t :: ts, h => ⟨spelled_type t h.1, spelled_types ts h.2⟩

theorem spelled_value : ∀ a, Spelled.value P a → Spelled.value P (value a)
  | .type t, h => by
    rw [value]
    exact ⟨spelled_type t h.1, isPlain_type h.2⟩
  | .list items, h => by
    rw [value]
    exact spelled_values items h
  | .unit, h => by rwa [value]
  | .bool _, h => by rwa [value]
  | .int _, h => by rwa [value]
  | .float _, h => by rwa [value]
  | .string _, h => by rwa [value]
  | .bytes _, h => by rwa [value]
  | .symbol _, h => by rwa [value]
  | .location _ _, h => by rwa [value]

theorem spelled_values : ∀ as, Spelled.values P as → Spelled.values P (values as)
  | [], _ => trivial
  | a :: as, h => ⟨spelled_value a h.1, spelled_values as h.2⟩

theorem spelled_entries : ∀ es acc, Spelled.entries P es → Spelled.entries P acc →
    Spelled.entries P (entries es acc)
  | [], acc, _, hacc => by rwa [entries]
  | .mk key a :: rest, acc, h, hacc => by
    rw [entries]
    exact spelled_entries rest _ h.2.2 (spelled_put h.1 (spelled_value a h.2.1) hacc)

end

theorem isKey_sym_name : IsKey "sym_name" := ⟨'s', "ym_name".toList, rfl, rfl, by decide⟩

theorem spelled_headEntries {head : Head} (h : Spelled.Line P head) :
    Spelled.entries P (headEntries head) := by
  refine spelled_entries _ _ h.entries ?_
  cases hsymbol : head.symbol with
  | none => trivial
  | some name => exact ⟨isKey_sym_name, h.symbol name hsymbol, trivial⟩

end Normal

/-! ## What occurs in an operation -/

namespace Context

variable (ctx : Context)

mutual

/-- Somewhere in an attribute, which may be a list or a type, there is an atom. -/
inductive Occurs (x : Atom) : Attribute → Prop
  | atom : Occurs x (.atom x)
  | item {items : List Attribute} {a : Attribute} (ha : a ∈ items) (hx : Occurs x a) :
    Occurs x (.list items)
  | type {t : TypeRef} (hx : OccursInType x t) : Occurs x (.atom (.type t))

/-- Somewhere in a type there is an atom. -/
inductive OccursInType (x : Atom) : TypeRef → Prop
  | param {t p : TypeRef} {node : TypeNode} (ht : ctx.type t = .ok node) (hp : p ∈ node.params)
    (hx : OccursInType x p) : OccursInType x t
  | attribute {t : TypeRef} {node : TypeNode} {key : String} {a : Attribute}
    (ht : ctx.type t = .ok node) (ha : (key, a) ∈ node.attributes.entries) (hx : Occurs x a) :
    OccursInType x t

end

/-- Somewhere in an operation, not counting those nested in it, there is an atom. -/
inductive OccursInOp (x : Atom) (o : OpRef) : Prop
  | attribute {row : Operation} {key : String} {a : Attribute} (ho : ctx.op o = .ok row)
    (ha : (key, a) ∈ row.attributes.entries) (hx : ctx.Occurs x a)
  | result {row : Operation} {t : TypeRef} (ho : ctx.op o = .ok row) (ht : t ∈ row.resultTypes)
    (hx : ctx.OccursInType x t)
  | argument {r : RegionRef} {b : BlockRef} {v : ValueRef} {row : Value}
    (hr : r ∈ ctx.regionsOf o) (hb : b ∈ ctx.blocksOf r) (hv : v ∈ ctx.args b)
    (hrow : ctx.value v = .ok row) (hx : ctx.OccursInType x row.type)

/-- The text of an operation can be read. -/
structure Legible (root : OpRef) : Prop where
  /-- Symbols of letters, digits and underscores are in ASCII. -/
  symbol : ∀ o name, ctx.Within o root → ctx.OccursInOp (.symbol name) o → IsLegible name
  /-- Numbers are written with all of their digits. -/
  float : ∀ o x, ctx.Within o root → ctx.OccursInOp (.float x) o → x.ReadsBack
  /-- No region consists of one block with neither arguments nor operations. -/
  region : ∀ o r b, ctx.Within o root → r ∈ ctx.regionsOf o → ctx.blocksOf r = [b] →
    ctx.args b ≠ [] ∨ ctx.opsOf b ≠ []

end Context

/-- An attribute without parts that is written so that it reads back. -/
def Atom.IsReadable : Atom → Prop
  | .symbol name => IsLegible name
  | .float x => x.ReadsBack
  | _ => True

/-! ## Contexts that can be written -/

instance decidableIsLegible (name : String) : Decidable (IsLegible name) :=
  inferInstanceAs (Decidable ((∀ c ∈ name.toList, isAlphanumeric c = true ∨ c = '_') →
    ∀ c ∈ name.toList, c.toNat < 0x80))

instance decidableReadsBack (x : Double) : Decidable x.ReadsBack :=
  match h : float (floatLayout.text x).toList with
  | .done y rest => decidable_of_iff (y = x ∧ rest = []) (by
      rw [Double.ReadsBack, h, Reading.done.injEq])
  | .stuck _ => isFalse (by rw [Double.ReadsBack, h]; nofun)

instance decidableIsReadable (x : Atom) : Decidable x.IsReadable :=
  match x with
  | .symbol name => inferInstanceAs (Decidable (IsLegible name))
  | .float x => inferInstanceAs (Decidable x.ReadsBack)
  | .unit | .bool _ | .int _ | .string _ | .bytes _ | .type _ | .location _ => isTrue trivial

mutual

/-- The attributes without parts in an attribute. -/
def Attribute.atoms : Attribute → List Atom
  | .atom x => [x]
  | .list items => atomsOf items

def Attribute.atomsOf : List Attribute → List Atom
  | [] => []
  | a :: as => a.atoms ++ atomsOf as

end

/-- The attributes without parts among attributes. -/
def Attributes.atoms (as : Attributes) : List Atom := Attribute.atomsOf (as.entries.map Prod.snd)

theorem Attribute.mem_atomsOf {as : List Attribute} {x : Atom} :
    x ∈ atomsOf as ↔ ∃ a ∈ as, x ∈ a.atoms := by
  induction as with
  | nil => simp [atomsOf]
  | cons a as ih => simp [atomsOf, ih]

theorem Attributes.mem_atoms {as : Attributes} {x : Atom} {key : String} {a : Attribute}
    (ha : (key, a) ∈ as.entries) (hx : x ∈ a.atoms) : x ∈ as.atoms :=
  Attribute.mem_atomsOf.2 ⟨a, List.mem_map.2 ⟨(key, a), ha, rfl⟩, hx⟩

namespace Context

/-- Everything in the tables of a context can be written. -/
structure LegibleThroughout (ctx : Context) : Prop where
  types : ∀ node ∈ ctx.types.rows.toList, ∀ x ∈ node.attributes.atoms, x.IsReadable
  ops : ∀ row ∈ ctx.ops.toList, ∀ x ∈ row.attributes.atoms, x.IsReadable
  regions : ∀ row ∈ ctx.regions.toList, ∀ b ∈ row.blocks, row.blocks = [b] →
    ctx.args b ≠ [] ∨ ctx.opsOf b ≠ []

instance decidableLegibleThroughout (ctx : Context) : Decidable ctx.LegibleThroughout :=
  decidable_of_iff (_ ∧ _ ∧ _) ⟨fun h => ⟨h.1, h.2.1, h.2.2⟩, fun h => ⟨h.types, h.ops, h.regions⟩⟩

variable {ctx : Context}

mutual

theorem readable_of_occurs (h : ctx.LegibleThroughout) {x : Atom} : ∀ {a : Attribute},
    (∀ y ∈ a.atoms, y.IsReadable) → ctx.Occurs x a → x.IsReadable
  | _, ha, .atom => ha x (List.mem_singleton.2 rfl)
  | _, ha, .item hmem hx =>
    readable_of_occurs h (fun y hy => ha y (Attribute.mem_atomsOf.2 ⟨_, hmem, hy⟩)) hx
  | _, _, .type hx => readable_of_occursInType h hx

theorem readable_of_occursInType (h : ctx.LegibleThroughout) {x : Atom} : ∀ {t : TypeRef},
    ctx.OccursInType x t → x.IsReadable
  | _, .param _ _ hx => readable_of_occursInType h hx
  | _, .attribute ht ha hx =>
    readable_of_occurs h (fun y hy => h.types _ (Array.mem_toList_iff.2
      (Array.mem_of_getElem? (type_eq_ok.1 ht))) y (Attributes.mem_atoms ha hy)) hx

end

/-- Where everything in the tables can be written, every operation can. -/
theorem LegibleThroughout.legible (h : ctx.LegibleThroughout) (root : OpRef) :
    ctx.Legible root := by
  have hreadable {x : Atom} {o : OpRef} (hx : ctx.OccursInOp x o) : x.IsReadable := by
    rcases hx with ⟨ho, ha, hx⟩ | ⟨-, -, hx⟩ | ⟨-, -, -, -, hx⟩
    · exact readable_of_occurs h (fun y hy => h.ops _ (Array.mem_toList_iff.2
        (Array.mem_of_getElem? (op_eq_ok.1 ho))) y (Attributes.mem_atoms ha hy)) hx
    · exact readable_of_occursInType h hx
    · exact readable_of_occursInType h hx
  refine ⟨fun _ _ _ hx => hreadable hx, fun _ _ _ hx => hreadable hx, fun o r b _ _ hr => ?_⟩
  rw [blocksOf, readRegion] at hr
  cases hrow : ctx.regions[r.index]? with
  | none =>
    rw [hrow] at hr
    cases hr
  | some row =>
    rw [hrow] at hr
    have hblocks : row.blocks = [b] := hr
    exact h.regions row (Array.mem_toList_iff.2 (Array.mem_of_getElem? hrow)) b
      (hblocks ▸ List.mem_singleton.2 rfl) hblocks

end Context

/-! ## Terms of what can be written -/

namespace Quote

variable {ctx : Context}

/-- Types that are spelled in the words of the grammar read back if all that occurs in them
    does. -/
def TypesReadable (ctx : Context) (f : TypeRef → Except Fault TypeTerm) : Prop :=
  ∀ t term, f t = .ok term → Spelled.type anyLeaf term →
    (∀ x, ctx.OccursInType x t → x.IsReadable) → Spelled.type IsReadable term

section

variable {f : TypeRef → Except Fault TypeTerm}

mutual

theorem spelled_value (hf : TypesReadable ctx f) : ∀ a term, value ctx f a = .ok term →
    Spelled.value anyLeaf term → (∀ x, ctx.Occurs x a → x.IsReadable) →
    Spelled.value IsReadable term
  | .atom x, term, ha, h, hx => by
    cases x with
    | type t =>
      obtain ⟨t', ht, hterm⟩ := Outcome.bind_eq_ok.1 ha
      obtain rfl := Outcome.pure_eq_ok.1 hterm
      exact ⟨hf t t' ht h.1 fun x hxt => hx x (.type hxt), h.2⟩
    | location l =>
      obtain ⟨path, hpath, hterm⟩ := Outcome.bind_eq_ok.1 ha
      obtain rfl := Outcome.pure_eq_ok.1 hterm
      exact h
    | _ =>
      cases ha
      exact hx _ .atom
  | .list items, term, ha, h, hx => by
    obtain ⟨terms, hterms, hterm⟩ := Outcome.bind_eq_ok.1 ha
    obtain rfl := Outcome.pure_eq_ok.1 hterm
    exact spelled_values hf items terms hterms h fun a ha x hxa => hx x (.item ha hxa)

theorem spelled_values (hf : TypesReadable ctx f) : ∀ as terms, values ctx f as = .ok terms →
    Spelled.values anyLeaf terms → (∀ a ∈ as, ∀ x, ctx.Occurs x a → x.IsReadable) →
    Spelled.values IsReadable terms
  | [], terms, has, h, hx => by
    obtain rfl := Outcome.pure_eq_ok.1 has
    exact trivial
  | a :: as, terms, has, h, hx => by
    obtain ⟨term, ha, hrest⟩ := Outcome.bind_eq_ok.1 has
    obtain ⟨terms', has', hterms⟩ := Outcome.bind_eq_ok.1 hrest
    obtain rfl := Outcome.pure_eq_ok.1 hterms
    obtain ⟨hxa, hxas⟩ := List.forall_mem_cons.1 hx
    exact ⟨spelled_value hf a term ha h.1 hxa, spelled_values hf as terms' has' h.2 hxas⟩

end

theorem spelled_entries (hf : TypesReadable ctx f) {l : List (String × Attribute)}
    {es : List Entry} (hes : entries ctx f l = .ok es) (h : Spelled.entries anyLeaf es)
    (hx : ∀ key a, (key, a) ∈ l → ∀ x, ctx.Occurs x a → x.IsReadable) :
    Spelled.entries IsReadable es := by
  rw [entries, Outcome.mapM_eq_ok] at hes
  induction hes with
  | nil => trivial
  | @cons p e l es hp _ ih =>
    obtain ⟨key, a⟩ := p
    obtain ⟨term, ha, he⟩ := Outcome.bind_eq_ok.1 hp
    obtain rfl := Outcome.pure_eq_ok.1 he
    exact ⟨h.1, spelled_value hf a term ha h.2.1 (hx key a List.mem_cons_self),
      ih h.2.2 fun k b hb => hx k b (List.mem_cons_of_mem _ hb)⟩

end

theorem spelled_types_of {f : TypeRef → Except Fault TypeTerm} {ts : List TypeRef}
    {terms : List TypeTerm} (hterms : List.Forall₂ (fun t term => f t = .ok term) ts terms)
    (hf : ∀ t ∈ ts, ∀ term, f t = .ok term → Spelled.type anyLeaf term →
      Spelled.type IsReadable term)
    (h : Spelled.types anyLeaf terms) : Spelled.types IsReadable terms := by
  induction hterms with
  | nil => trivial
  | cons ht _ ih =>
    obtain ⟨hft, hfts⟩ := List.forall_mem_cons.1 hf
    exact ⟨hft _ ht h.1, ih hfts h.2⟩

theorem typesReadable_typeWithin (n : Nat) : TypesReadable ctx (typeWithin ctx n) := by
  induction n with
  | zero =>
    intro t term ht
    cases ht
  | succ n ih =>
    intro t term ht h hx
    rw [typeWithin_succ] at ht
    obtain ⟨node, hnode, ht⟩ := Outcome.bind_eq_ok.1 ht
    obtain ⟨params, hparams, ht⟩ := Outcome.bind_eq_ok.1 ht
    obtain ⟨es, hes, ht⟩ := Outcome.bind_eq_ok.1 ht
    obtain rfl := Outcome.pure_eq_ok.1 ht
    obtain ⟨hd, hn, hps, hess⟩ := h
    refine ⟨hd, hn, ?_, ?_⟩
    · exact spelled_types_of (Outcome.mapM_eq_ok.1 hparams)
        (fun p hp q hq hs => ih p q hq hs fun x hxp => hx x (.param hnode hp hxp)) hps
    · exact spelled_entries ih hes hess fun key a ha x hxa => hx x (.attribute hnode ha hxa)

/-- The term of a type reads back if all that occurs in the type does. -/
theorem spelled_type {t : TypeRef} {term : TypeTerm} (ht : type ctx t = .ok term)
    (h : Spelled.type anyLeaf term) (hx : ∀ x, ctx.OccursInType x t → x.IsReadable) :
    Spelled.type IsReadable term := typesReadable_typeWithin _ t term ht h hx

end Quote

theorem Context.Legible.readable {ctx : Context} {root o : OpRef} (h : ctx.Legible root)
    (ho : ctx.Within o root) {x : Atom} (hx : ctx.OccursInOp x o) : x.IsReadable := by
  cases x with
  | symbol name => exact h.symbol o name ho hx
  | float x => exact h.float o x ho hx
  | _ => trivial

namespace Normal

variable {ctx : Context} {number : ValueRef → Option Nat} {root : OpRef}

theorem isMarkable_of_mem_names {ns : List Nat} {name : String} (h : name ∈ ns.map toString) :
    IsMarkable name := by
  obtain ⟨n, -, rfl⟩ := List.mem_map.1 h
  exact isMarkable_toString n

theorem isMarkable_bb (n : Nat) : IsMarkable s!"bb{n}" := by
  have htext : s!"bb{n}" = "bb" ++ toString n := rfl
  rw [htext]
  obtain ⟨-, hdigits⟩ := isMarkable_toString n
  refine ⟨fun h => ?_, fun c hc => ?_⟩
  · have hlength := congrArg (·.toList.length) h
    simp at hlength
  · rw [String.toList_append] at hc
    rcases List.mem_append.1 hc with hc | hc
    · have hall : ∀ c ∈ "bb".toList, isWordChar c := by decide
      exact hall c hc
    · exact hdigits c hc

/-- The line of an operation in normal form is legible. -/
theorem line_legible {h : Head} {results operands : List Nat} {o : OpRef} {row : Operation}
    (hroot : ctx.Legible root) (ho : ctx.Within o root) (hrow : ctx.op o = .ok row)
    (hspelled : Spelled.Line anyLeaf h)
    (hline : Depicts.Line ctx number (head results operands h) row) :
    Legible.Line (head results operands h) := by
  have hentries := hline.attributes
  rw [headEntries_head] at hentries
  have hreadable : Spelled.entries IsReadable (headEntries h) :=
    Quote.spelled_entries (fun t term => Quote.spelled_type) hentries (spelled_headEntries hspelled)
      fun key a ha x hx => hroot.readable ho (.attribute hrow ha hx)
  refine ⟨⟨hspelled.dialect, hspelled.name, fun name hname => ?_, ?_, ?_⟩,
    fun name => isMarkable_of_mem_names, fun name => isMarkable_of_mem_names⟩
  · exact (Spelled.entries_iff.1 hreadable _ (mem_of_symbolIn hname)).2
  · exact Spelled.entries_iff.2 fun e he =>
      Spelled.entries_iff.1 hreadable e (List.mem_of_mem_filter he)
  · exact Quote.spelled_types_of hline.types (fun t ht term hterm hs =>
      Quote.spelled_type hterm hs fun x hx => hroot.readable ho (.result hrow ht hx))
        (spelled_types _ hspelled.types)

/-- The label of a block in normal form is legible. -/
theorem label_legible {bare : Bool} {args : List (String × TypeTerm)} {st : Numbering}
    {Os : List OpTerm} {o : OpRef} {r : RegionRef} {b : BlockRef} {row : Block}
    (hroot : ctx.Legible root) (ho : ctx.Within o root) (hr : r ∈ ctx.regionsOf o)
    (hb : b ∈ ctx.blocksOf r) (hrow : ctx.block b = .ok row)
    (hspelled : Spelled.types anyLeaf (args.map Prod.snd))
    (hargs : List.Forall₂ (Depicts.Argument ctx number)
      (BlockTerm.mk (label bare args st) Os).args row.args) :
    ∀ l ∈ label bare args st, Legible.Label l := by
  intro l hl
  cases bare with
  | true => cases hl
  | false =>
    cases hl
    have hvs : ctx.args b = row.args := by rw [args_eq_readBlock, readBlock_of_block hrow]
    refine ⟨isMarkable_bb _, fun arg harg => ?_⟩
    have hnames : arg.1 ∈ (st.fresh args.length).map toString := (List.of_mem_zip harg).1
    have htypes : arg.2 ∈ types (args.map Prod.snd) := (List.of_mem_zip harg).2
    obtain ⟨v, hv, hargument⟩ : ∃ v ∈ row.args, Depicts.Argument ctx number arg v := by
      obtain ⟨i, hi, rfl⟩ := List.getElem_of_mem harg
      have hlength := hargs.length_eq
      exact ⟨_, List.getElem_mem (hlength ▸ hi), (List.forall₂_iff_get.1 hargs).2 i hi _⟩
    obtain ⟨-, value, hvalue, ht⟩ := hargument
    refine ⟨isMarkable_of_mem_names hnames, Quote.spelled_type ht
      (Spelled.types_iff.1 (spelled_types _ hspelled) _ htypes) fun x hx => ?_⟩
    exact hroot.readable ho (.argument hr hb (hvs ▸ hv) hvalue hx)

/-- The blocks of a region in normal form have labels, or need none. -/
theorem shape_blocks {bare : Bool} {terms Ms : List BlockTerm} {st st' : Numbering}
    (hbare : bare = isBare terms) (hnormal : blocks bare terms st = some (Ms, st'))
    {bs : List BlockRef} (hbs : Depicts.blocks ctx number Ms bs)
    (hfull : ∀ b, bs = [b] → ctx.args b ≠ [] ∨ ctx.opsOf b ≠ []) : Legible.Shape Ms := by
  cases bare with
  | false =>
    refine .inr ?_
    clear hbs hfull hbare
    induction terms generalizing st Ms with
    | nil =>
      obtain ⟨rfl, -⟩ := blocks_nil_eq_some.1 hnormal
      simp
    | cons term terms ih =>
      obtain ⟨l, opTerms⟩ := term
      obtain ⟨Os, st₁, Bs, -, hrest, rfl⟩ := blocks_cons_eq_some.1 hnormal
      exact List.forall_mem_cons.2 ⟨⟨_, _, rfl⟩, ih hrest⟩
  | true =>
    rw [isBare, eq_comm, decide_eq_true_eq] at hbare
    obtain ⟨term, rfl⟩ : ∃ term, terms = [term] := by
      rw [← List.length_eq_one_iff, ← List.length_map (·.args.length), hbare]
      rfl
    obtain ⟨l, opTerms⟩ := term
    obtain ⟨Os, st₁, Bs, -, hrest, rfl⟩ := blocks_cons_eq_some.1 hnormal
    obtain ⟨rfl, -⟩ := blocks_nil_eq_some.1 hrest
    refine .inl ⟨Os, ?_, rfl⟩
    rintro rfl
    obtain ⟨b, bs', row, rfl, hrow, hargs, hops, hbs'⟩ := hbs
    obtain rfl : bs' = [] := hbs'
    have hopsOf : ctx.opsOf b = [] := (readBlock_of_block hrow (·.ops) []).trans hops
    have hargsOf : ctx.args b = [] := by
      rw [args_eq_readBlock, readBlock_of_block hrow]
      exact List.forall₂_nil_left_iff.1 hargs
    rcases hfull b rfl with h | h
    · exact h hargsOf
    · exact h hopsOf

mutual

/-- The normal form that depicts a legible operation is legible. -/
theorem op_legible (hctx : ctx.Coherent) (hroot : ctx.Legible root) :
    ∀ (term M : OpTerm) (st st' : Numbering) (o : OpRef),
    Spelled.op anyLeaf term → op term st = some (M, st') → Depicts.op ctx number M o →
    ctx.Within o root → Legible.op M
  | .mk h terms, M, st, st', o, hspelled, hnormal, hdepicts, ho => by
    obtain ⟨-, operands, Ms, st₁, -, hregions, rfl, -⟩ := op_eq_some.1 hnormal
    obtain ⟨row, hrow, hline, hrs⟩ := hdepicts
    have hregionsOf : ctx.regionsOf o = row.regions := readOp_of_op hrow _ _
    exact ⟨line_legible hroot ho hrow hspelled.1 hline,
      regions_legible hctx hroot terms Ms _ st₁ o row.regions hspelled.2 hregions hrs
        (fun r hr => hregionsOf ▸ hr) ho⟩

theorem regions_legible (hctx : ctx.Coherent) (hroot : ctx.Legible root) :
    ∀ (terms Ms : List RegionTerm) (st st' : Numbering) (o : OpRef) (rs : List RegionRef),
    Spelled.regions anyLeaf terms → regions terms st = some (Ms, st') →
    Depicts.regions ctx number Ms rs → (∀ r ∈ rs, r ∈ ctx.regionsOf o) → ctx.Within o root →
    Legible.regions Ms
  | [], Ms, st, st', o, rs, _, hnormal, _, _, _ => by
    obtain ⟨rfl, -⟩ := regions_nil_eq_some.1 hnormal
    trivial
  | .mk terms :: rest, Ms, st, st', o, rs, hspelled, hnormal, hdepicts, hrs, ho => by
    obtain ⟨Bs, st₁, Rs, hblocks, hrest, rfl⟩ := regions_cons_eq_some.1 hnormal
    obtain ⟨r, rs', row, rfl, hrow, hbs, hrs'⟩ := hdepicts
    obtain ⟨hr, hrs⟩ := List.forall_mem_cons.1 hrs
    have hblocksOf : ctx.blocksOf r = row.blocks := readRegion_of_region hrow _ _
    have hshape := shape_blocks rfl hblocks hbs fun b hb =>
      hroot.region o r b ho hr (hblocksOf.trans hb)
    exact ⟨⟨hshape, blocks_legible hctx hroot terms Bs _ st st₁ o r row.blocks hspelled.1 hblocks hbs
        (fun b hb => hblocksOf ▸ hb) hr ho⟩,
      regions_legible hctx hroot rest Rs st₁ st' o rs' hspelled.2 hrest hrs' hrs ho⟩

theorem blocks_legible (hctx : ctx.Coherent) (hroot : ctx.Legible root) :
    ∀ (terms Ms : List BlockTerm) (bare : Bool) (st st' : Numbering) (o : OpRef) (r : RegionRef)
    (bs : List BlockRef), Spelled.blocks anyLeaf terms →
    blocks bare terms st = some (Ms, st') → Depicts.blocks ctx number Ms bs →
    (∀ b ∈ bs, b ∈ ctx.blocksOf r) → r ∈ ctx.regionsOf o → ctx.Within o root → Legible.blocks Ms
  | [], Ms, bare, st, st', o, r, bs, _, hnormal, _, _, _, _ => by
    obtain ⟨rfl, -⟩ := blocks_nil_eq_some.1 hnormal
    trivial
  | .mk l terms :: rest, Ms, bare, st, st', o, r, bs, hspelled, hnormal, hdepicts, hbs, hr, ho => by
    obtain ⟨Os, st₁, Bs, hops, hrest, rfl⟩ := blocks_cons_eq_some.1 hnormal
    obtain ⟨b, bs', row, rfl, hrow, hargs, hos, hbs'⟩ := hdepicts
    obtain ⟨hb, hbs⟩ := List.forall_mem_cons.1 hbs
    obtain ⟨hl, hterms, hblocks⟩ := hspelled
    have hopsOf : ctx.opsOf b = row.ops := readBlock_of_block hrow _ _
    have htypes : Spelled.types anyLeaf ((BlockTerm.mk l terms).args.map Prod.snd) := by
      cases l with
      | none => trivial
      | some label => exact hl label rfl
    exact ⟨⟨label_legible hroot ho hr hb hrow htypes hargs,
      ops_legible hctx hroot terms Os _ st₁ o r b row.ops hterms hops hos
        (fun p hp => hopsOf ▸ hp) hb hr ho⟩,
      blocks_legible hctx hroot rest Bs bare st₁ st' o r bs' hblocks hrest hbs' hbs hr ho⟩

theorem ops_legible (hctx : ctx.Coherent) (hroot : ctx.Legible root) :
    ∀ (terms Ms : List OpTerm) (st st' : Numbering) (o : OpRef) (r : RegionRef) (b : BlockRef)
    (os : List OpRef), Spelled.ops anyLeaf terms →
    ops terms st = some (Ms, st') → Depicts.ops ctx number Ms os →
    (∀ p ∈ os, p ∈ ctx.opsOf b) → b ∈ ctx.blocksOf r → r ∈ ctx.regionsOf o →
    ctx.Within o root → Legible.ops Ms
  | [], Ms, st, st', o, r, b, os, _, hnormal, _, _, _, _, _ => by
    obtain ⟨rfl, -⟩ := ops_nil_eq_some.1 hnormal
    trivial
  | term :: rest, Ms, st, st', o, r, b, os, hspelled, hnormal, hdepicts, hos, hb, hr, ho => by
    obtain ⟨M, st₁, Os, hop, hrest, rfl⟩ := ops_cons_eq_some.1 hnormal
    obtain ⟨p, os', rfl, hp, hos'⟩ := hdepicts
    obtain ⟨hpb, hos⟩ := List.forall_mem_cons.1 hos
    have habove : ctx.above p = some o := above_eq_some_iff.2 ⟨b, r,
      (hctx.ops.owner_iff p b).2 hpb, (hctx.blocks.owner_iff b r).2 hb,
      (hctx.regions.owner_iff r o).2 hr⟩
    exact ⟨op_legible hctx hroot term M st st₁ p hspelled.1 hop hp
        ((within_of_above habove).trans ho),
      ops_legible hctx hroot rest Os st₁ st' o r b os' hspelled.2 hrest hos' hos hb hr ho⟩

end

end Normal

end Offload
