import Offload.Proofs.Text.Numeral
import Offload.Source.Read

/-!
# How terms are spelled

What the grammar reads is spelled in its words: the parts of a name start with a
letter or an underscore, an attribute that is a type does not start like an
attribute of another kind, and places in a text are numbers of 64 bits
(`spelled_of_readTerm`). Terms that are not read but made from these keep to this,
and can be written.

The symbols and numbers among the attributes are left to a parameter.
-/

namespace Offload

open Text Text.Reader Source

namespace Source

/-! ## Words -/

/-- A character of one class, then characters of another. -/
def IsWord (first next : Char → Bool) (s : String) : Prop :=
  ∃ c cs, s.toList = c :: cs ∧ first c ∧ ∀ d ∈ cs, next d

/-- A word that can name a dialect, an operation or a type. -/
def IsName : String → Prop := IsWord isWordStart isWordChar

/-- A word that can be the key of an attribute. -/
def IsKey : String → Prop := IsWord isWordStart isKeyChar

theorem isDigit_of_isWordStart {c : Char} (h : isWordStart c) : c.isDigit = false := by
  rw [isWordStart, Bool.or_eq_true, decide_eq_true_eq] at h
  rcases h with h | rfl
  · delta Char.isAlpha Char.isUpper Char.isLower at h
    simp only [Bool.or_eq_true, Bool.and_eq_true, decide_eq_true_eq] at h
    rw [Char.isDigit, Bool.and_eq_false_iff, decide_eq_false_iff_not, decide_eq_false_iff_not]
    grind
  · decide

theorem not_mem_of_isWordStart {c : Char} (hc : isWordStart c) {l : List Char}
    (hl : ∀ d ∈ l, isWordStart d = false) : c ∉ l := by
  intro hmem
  rw [hl c hmem] at hc
  cases hc

/-- A name within a dialect could be part of a key. -/
theorem isKeyChar_of_dotted {d e : Char} {cs ds : List Char} (hcs : ∀ e ∈ cs, isWordChar e)
    (hd : isWordStart d) (hds : ∀ e ∈ ds, isWordChar e) (he : e ∈ cs ++ '.' :: d :: ds) :
    isKeyChar e := by
  have hword {e : Char} (he : isWordChar e) : isKeyChar e := by
    rw [isKeyChar, Bool.or_eq_true]
    exact .inl he
  have hstart {e : Char} (he : isWordStart e) : isWordChar e := by
    rw [isWordStart, Bool.or_eq_true] at he
    rw [isWordChar, Bool.or_eq_true, Char.isAlphanum, Bool.or_eq_true]
    exact he.imp .inl id
  rcases List.mem_append.1 he with he | he
  · exact hword (hcs e he)
  rcases List.mem_cons.1 he with rfl | he
  · decide
  rcases List.mem_cons.1 he with rfl | he
  · exact hword (hstart hd)
  · exact hword (hds e he)

theorem word_append {first next : Char → Bool} {w : String} (hw : IsWord first next w)
    {rest : List Char} (hrest : Leaves next rest) :
    word first next (w.toList ++ rest) = .done w rest := by
  obtain ⟨c, cs, heq, hc, hcs⟩ := hw
  rw [heq, List.cons_append, word, bind_done (satisfy_cons hc),
    bind_done (takeWhile_append hcs hrest), pure_apply, ← heq, String.ofList_toList]

theorem of_word {first next : Char → Bool} {s rest : List Char} {w : String}
    (h : word first next s = .done w rest) : IsWord first next w ∧ s = w.toList ++ rest := by
  simp only [word, bind_eq_done, satisfy_eq_done, takeWhile_eq_done, pure_eq_done] at h
  obtain ⟨c, s₁, ⟨rfl, hc⟩, cs, s₂, ⟨rfl, rfl⟩, rfl, rfl⟩ := h
  refine ⟨⟨c, _, String.toList_ofList, hc, fun d hd => List.mem_takeWhile_imp hd⟩, ?_⟩
  rw [String.toList_ofList, List.cons_append, List.takeWhile_append_dropWhile]

theorem IsWord.exists_head {first next : Char → Bool} {w : String} (h : IsWord first next w)
    (s : List Char) : ∃ c, (w.toList ++ s).head? = some c ∧ first c := by
  obtain ⟨c, cs, heq, hc, -⟩ := h
  exact ⟨c, by rw [heq]; rfl, hc⟩

theorem stuck_word {first next : Char → Bool} {s : List Char} (h : Leaves first s) :
    Stuck (word first next) s := h.stuck.bind _

end Source

/-! ## Attributes and types -/

/-- The words that start an attribute that is no type. -/
def valueWords : List String := ["true", "false", "unit", "inf", "NaN"]

/-- A type can be told from an attribute of another kind. -/
def TypeTerm.IsPlain : TypeTerm → Prop
  | .mk dialect .. => ∀ w ∈ valueWords, ¬w.toList <+: dialect.toList

namespace Spelled

variable (P : AttributeTerm → Prop)

mutual

/-- A type is spelled in the words of the grammar, with the property `P` at the
    attributes without parts. -/
def type : TypeTerm → Prop
  | .mk dialect name params attributes =>
    IsName dialect ∧ IsName name ∧ types params ∧ entries attributes

def types : List TypeTerm → Prop
  | [] => True
  | t :: ts => type t ∧ types ts

/-- An attribute is spelled in the words of the grammar. -/
def value : AttributeTerm → Prop
  | .type t => type t ∧ t.IsPlain
  | .location _ span => span.start < UInt64.size ∧ span.stop < UInt64.size
  | .list items => values items
  | a => P a

def values : List AttributeTerm → Prop
  | [] => True
  | a :: as => value a ∧ values as

def entries : List Entry → Prop
  | [] => True
  | .mk key a :: rest => IsKey key ∧ value a ∧ entries rest

end

variable {P}

theorem types_iff {ts : List TypeTerm} : types P ts ↔ ∀ t ∈ ts, type P t := by
  induction ts with
  | nil => simp [types]
  | cons t ts ih => rw [types, ih, List.forall_mem_cons]

theorem values_iff {as : List AttributeTerm} : values P as ↔ ∀ a ∈ as, value P a := by
  induction as with
  | nil => simp [values]
  | cons a as ih => rw [values, ih, List.forall_mem_cons]

variable (P) in
/-- An attribute under a key is spelled in the words of the grammar. -/
def entry : Entry → Prop
  | .mk key a => IsKey key ∧ value P a

theorem entries_iff {es : List Entry} : entries P es ↔ ∀ e ∈ es, entry P e := by
  induction es with
  | nil => simp [entries]
  | cons e es ih =>
    obtain ⟨key, a⟩ := e
    rw [entries, ih, List.forall_mem_cons, entry, and_assoc]

/-- The line of an operation is spelled in the words of the grammar. -/
structure Line (P : AttributeTerm → Prop) (head : Head) : Prop where
  dialect : IsName head.kind.dialect
  name : IsName head.kind.name
  symbol : ∀ name ∈ head.symbol, P (.symbol name)
  entries : Spelled.entries P head.entries
  types : Spelled.types P head.types

variable (P)

mutual

/-- An operation is spelled in the words of the grammar, up to the names of values
    and blocks. -/
def op : OpTerm → Prop
  | .mk head regionTerms => Line P head ∧ regions regionTerms

def regions : List RegionTerm → Prop
  | [] => True
  | .mk blockTerms :: rest => blocks blockTerms ∧ regions rest

def blocks : List BlockTerm → Prop
  | [] => True
  | .mk label opTerms :: rest =>
    (∀ l ∈ label, types P (l.args.map Prod.snd)) ∧ ops opTerms ∧ blocks rest

def ops : List OpTerm → Prop
  | [] => True
  | term :: rest => op term ∧ ops rest

end

variable {P}

theorem ops_iff {terms : List OpTerm} : ops P terms ↔ ∀ term ∈ terms, op P term := by
  induction terms with
  | nil => simp [ops]
  | cons term terms ih => rw [ops, ih, List.forall_mem_cons]

variable (P) in
/-- A block is spelled in the words of the grammar. -/
def block : BlockTerm → Prop
  | .mk label opTerms => (∀ l ∈ label, types P (l.args.map Prod.snd)) ∧ ops P opTerms

theorem blocks_iff {terms : List BlockTerm} : blocks P terms ↔ ∀ term ∈ terms, block P term := by
  induction terms with
  | nil => simp [blocks]
  | cons term terms ih =>
    obtain ⟨label, opTerms⟩ := term
    rw [blocks, ih, List.forall_mem_cons, block, and_assoc]

variable (P) in
/-- A region is spelled in the words of the grammar. -/
def region : RegionTerm → Prop
  | .mk blockTerms => blocks P blockTerms

theorem regions_iff {terms : List RegionTerm} :
    regions P terms ↔ ∀ term ∈ terms, region P term := by
  induction terms with
  | nil => simp [regions]
  | cons term terms ih =>
    obtain ⟨blockTerms⟩ := term
    rw [regions, ih, List.forall_mem_cons, region]

end Spelled

namespace Source

/-! ## What the grammar reads -/

section Listed

variable {α : Type} {item : Reader α} {Q : α → Prop} {s rest : List Char} {as : List α}

theorem of_spaced {a : α} (hQ : ∀ s a rest, item s = .done a rest → Q a)
    (h : spaced item s = .done a rest) : Q a := by
  simp only [spaced, bind_eq_done, pure_eq_done] at h
  obtain ⟨_, _, -, a, _, ha, _, _, -, rfl, -⟩ := h
  exact hQ _ _ _ ha

theorem of_blanked {a : α} (hQ : ∀ s a rest, item s = .done a rest → Q a)
    (h : blanked item s = .done a rest) : Q a := by
  simp only [blanked, bind_eq_done, pure_eq_done] at h
  obtain ⟨_, _, -, a, _, ha, _, _, -, rfl, -⟩ := h
  exact hQ _ _ _ ha

theorem of_bracketed {a : α} {opening closing : Char}
    (hQ : ∀ s a rest, item s = .done a rest → Q a)
    (h : bracketed opening closing item s = .done a rest) : Q a := by
  simp only [bracketed, bind_eq_done, pure_eq_done] at h
  obtain ⟨_, _, -, _, _, -, a, _, ha, _, _, -, _, _, -, rfl, -⟩ := h
  exact hQ _ _ _ ha

theorem of_listed {opening closing : Char} (hQ : ∀ s a rest, item s = .done a rest → Q a)
    (h : listed opening closing item s = .done as rest) : ∀ a ∈ as, Q a :=
  of_bracketed (Q := fun as => ∀ a ∈ as, Q a)
    (fun _ _ _ has => of_separated (fun _ _ _ => of_spaced hQ) has) h

theorem of_optionally {a : α} (hQ : ∀ s a rest, item s = .done a rest → Q a)
    (h : optionally item s = .done (some a) rest) : Q a := by
  rcases optional_eq_done.1 h with ⟨a', heq, h⟩ | ⟨heq, -⟩
  · cases heq
    obtain ⟨_, _, -, ha⟩ := bind_eq_done.1 h
    exact hQ _ _ _ ha
  · cases heq

theorem of_itemsUntil {closed : Reader Bool} {n : Nat}
    (hQ : ∀ s a rest, item s = .done a rest → Q a)
    (h : itemsUntil closed item n s = .done as rest) : ∀ a ∈ as, Q a := by
  induction n generalizing s as with
  | zero => exact absurd h fail_ne_done
  | succ n ih =>
    obtain ⟨c, s₁, -, h⟩ := bind_eq_done.1 h
    split at h
    · obtain ⟨rfl, -⟩ := pure_eq_done.1 h
      simp
    · obtain ⟨a, s₂, ha, h⟩ := bind_eq_done.1 h
      obtain ⟨as', s₃, has, h⟩ := bind_eq_done.1 h
      obtain ⟨rfl, rfl⟩ := pure_eq_done.1 h
      exact List.forall_mem_cons.2 ⟨hQ _ _ _ ha, ih has⟩

end Listed

/-- What is read makes no demands on attributes without parts. -/
abbrev anyLeaf : AttributeTerm → Prop := fun _ => True

section Inverse

variable {s rest : List Char}

theorem of_qualifiedName {d n : String} (h : qualifiedName s = .done (d, n) rest) :
    IsName d ∧ IsName n ∧ s = d.toList ++ '.' :: (n.toList ++ rest) := by
  simp only [qualifiedName, name, bind_eq_done, pure_eq_done, char_eq_done] at h
  obtain ⟨_, s₁, hd, _, s₂, rfl, _, s₃, hn, heq, rfl⟩ := h
  cases heq
  obtain ⟨hdialect, heq⟩ := of_word hd
  obtain ⟨hname, rfl⟩ := of_word hn
  exact ⟨hdialect, hname, heq⟩

theorem of_entries {value : Reader AttributeTerm} {es : List Entry}
    (hvalue : ∀ s a rest, value s = .done a rest → Spelled.value anyLeaf a)
    (h : entries value s = .done es rest) : Spelled.entries anyLeaf es := by
  refine Spelled.entries_iff.2 (of_bracketed (Q := fun es => ∀ e ∈ es, Spelled.entry anyLeaf e)
    (fun s es rest hes => of_separated1 (fun s e rest => of_spaced fun s e rest he => ?_) hes) h)
  simp only [bind_eq_done, pure_eq_done] at he
  obtain ⟨k, _, hk, _, _, -, _, _, -, _, _, -, v, _, hv, rfl, -⟩ := he
  exact ⟨(of_word hk).1, hvalue _ _ _ hv⟩

theorem of_location {a : AttributeTerm} (h : location s = .done a rest) :
    Spelled.value anyLeaf a := by
  simp only [location, bind_eq_done, pure_eq_done] at h
  obtain ⟨_, _, -, _, _, -, path, _, -, _, _, -, start, _, hstart, _, _, -, stop, _, hstop, _, _, -,
    _, _, -, rfl, -⟩ := h
  exact ⟨lt_of_natural (by decide) hstart, lt_of_natural (by decide) hstop⟩

/-- The parts of a type that was read. -/
theorem type_succ_eq_done {n : Nat} {t : TypeTerm} (h : type (n + 1) s = .done t rest) :
    ∃ d nm params attributes s₁ s₂, qualifiedName s = .done (d, nm) s₁ ∧
      optional (listed '(' ')' (type n)) s₁ = .done params s₂ ∧
      (∀ es, attributes = some es → optionally (entries (value n)) s₂ = .done (some es) rest) ∧
      t = .mk d nm (params.getD []) (attributes.getD []) := by
  rw [type] at h
  obtain ⟨⟨d, nm⟩, s₁, hname, h⟩ := bind_eq_done.1 h
  obtain ⟨params, s₂, hparams, h⟩ := bind_eq_done.1 h
  dsimp only at h
  split at h
  · obtain ⟨attributes, s₃, has, h⟩ := bind_eq_done.1 h
    obtain ⟨rfl, rfl⟩ := pure_eq_done.1 h
    exact ⟨d, nm, params, attributes, s₁, s₂, hname, hparams, fun es hes => hes ▸ has, rfl⟩
  · obtain ⟨attributes, s₃, has, h⟩ := bind_eq_done.1 h
    obtain ⟨rfl, rfl⟩ := pure_eq_done.1 h
    obtain ⟨rfl, -⟩ := pure_eq_done.1 has
    exact ⟨d, nm, params, none, s₁, s₂, hname, hparams, nofun, rfl⟩

/-- Where no literal or number stands, a type is told from them by its first word. -/
theorem isPlain_of_stuck {t : TypeTerm}
    (hstarts : ∀ dialect name params entries, t = .mk dialect name params entries →
      dialect.toList <+: s)
    (htrue : Stuck (literal "true") s) (hfalse : Stuck (literal "false") s)
    (hunit : Stuck (literal "unit") s) (hfloat : Stuck float s) : t.IsPlain := by
  obtain ⟨dialect, name, params, entries⟩ := t
  have hdialect := hstarts _ _ _ _ rfl
  rw [float, stuck_orElse, stuck_orElse, stuck_orElse, stuck_bind_pure, stuck_bind_pure,
    stuck_bind_pure] at hfloat
  obtain ⟨-, -, hinf, hnan⟩ := hfloat
  intro w hw hwd
  have hs := hwd.trans hdialect
  simp only [valueWords, List.mem_cons, List.not_mem_nil, or_false] at hw
  rcases hw with rfl | rfl | rfl | rfl | rfl
  · exact not_prefix_of_stuck_literal htrue hs
  · exact not_prefix_of_stuck_literal hfalse hs
  · exact not_prefix_of_stuck_literal hunit hs
  · exact not_prefix_of_stuck_literal hinf hs
  · exact not_prefix_of_stuck_literal hnan hs

/-- A type and an attribute in which at most `n` brackets are nested. -/
theorem spelled_of_type_of_value (n : Nat) :
    (∀ s t rest, type n s = .done t rest → Spelled.type anyLeaf t ∧
      ∀ dialect name params entries, t = .mk dialect name params entries →
        dialect.toList <+: s) ∧
    ∀ s a rest, value n s = .done a rest → Spelled.value anyLeaf a := by
  induction n with
  | zero => exact ⟨fun _ _ _ h => absurd h fail_ne_done, fun _ _ _ h => absurd h fail_ne_done⟩
  | succ n ih =>
    obtain ⟨htype, hvalue⟩ := ih
    constructor
    · intro s t rest h
      obtain ⟨d, nm, params, attributes, s₁, s₂, hname, hparams, has, rfl⟩ := type_succ_eq_done h
      obtain ⟨hd, hn, rfl⟩ := of_qualifiedName hname
      refine ⟨⟨hd, hn, Spelled.types_iff.2 ?_, ?_⟩, ?_⟩
      · rcases optional_eq_done.1 hparams with ⟨ts, rfl, hts⟩ | ⟨rfl, -, -⟩
        · exact of_listed (fun _ _ _ ht => (htype _ _ _ ht).1) hts
        · simp
      · cases attributes with
        | none => trivial
        | some es => exact of_optionally (fun _ _ _ => of_entries hvalue) (has es rfl)
      · rintro _ _ _ _ ⟨⟩
        exact List.prefix_append _ _
    · intro s a rest h
      rw [value] at h
      rcases orElse_eq_done.1 h with h | ⟨htrue, h⟩
      · obtain ⟨_, _, -, h⟩ := bind_eq_done.1 h
        obtain ⟨rfl, -⟩ := pure_eq_done.1 h
        trivial
      rcases orElse_eq_done.1 h with h | ⟨hfalse, h⟩
      · obtain ⟨_, _, -, h⟩ := bind_eq_done.1 h
        obtain ⟨rfl, -⟩ := pure_eq_done.1 h
        trivial
      rcases orElse_eq_done.1 h with h | ⟨hunit, h⟩
      · obtain ⟨_, _, -, h⟩ := bind_eq_done.1 h
        obtain ⟨rfl, -⟩ := pure_eq_done.1 h
        trivial
      rcases orElse_eq_done.1 h with h | ⟨-, h⟩
      · exact of_location h
      rcases orElse_eq_done.1 h with h | ⟨-, h⟩
      · simp only [bytes, bind_eq_done, pure_eq_done] at h
        obtain ⟨_, _, -, _, _, -, rfl, -⟩ := h
        trivial
      rcases orElse_eq_done.1 h with h | ⟨-, h⟩
      · obtain ⟨_, _, -, h⟩ := bind_eq_done.1 h
        obtain ⟨rfl, -⟩ := pure_eq_done.1 h
        trivial
      rcases orElse_eq_done.1 h with h | ⟨-, h⟩
      · obtain ⟨_, _, -, h⟩ := bind_eq_done.1 h
        obtain ⟨rfl, -⟩ := pure_eq_done.1 h
        trivial
      rcases orElse_eq_done.1 h with h | ⟨-, h⟩
      · obtain ⟨_, _, has, h⟩ := bind_eq_done.1 h
        obtain ⟨rfl, -⟩ := pure_eq_done.1 h
        exact Spelled.values_iff.2 (of_listed hvalue has)
      rcases orElse_eq_done.1 h with h | ⟨hfloat, h⟩
      · obtain ⟨_, _, -, h⟩ := bind_eq_done.1 h
        obtain ⟨rfl, -⟩ := pure_eq_done.1 h
        trivial
      rcases orElse_eq_done.1 h with h | ⟨-, h⟩
      · obtain ⟨_, _, -, h⟩ := bind_eq_done.1 h
        obtain ⟨rfl, -⟩ := pure_eq_done.1 h
        trivial
      obtain ⟨t, _, ht, h⟩ := bind_eq_done.1 h
      obtain ⟨rfl, -⟩ := pure_eq_done.1 h
      obtain ⟨ht, hstarts⟩ := htype _ _ _ ht
      exact ⟨ht, isPlain_of_stuck hstarts (stuck_bind_pure.1 htrue) (stuck_bind_pure.1 hfalse)
        (stuck_bind_pure.1 hunit) (stuck_bind_pure.1 hfloat)⟩

theorem of_ops {operation : Reader OpTerm} {terms : List OpTerm}
    (hop : ∀ s term rest, operation s = .done term rest → Spelled.op anyLeaf term)
    (h : ops operation s = .done terms rest) : Spelled.ops anyLeaf terms := by
  obtain ⟨_, _, -, h⟩ := bind_eq_done.1 h
  exact Spelled.ops_iff.2 (of_itemsUntil hop h)

section Nested

variable {operation : Reader OpTerm} {type : Reader TypeTerm}
  (hop : ∀ s term rest, operation s = .done term rest → Spelled.op anyLeaf term)
  (htype : ∀ s t rest, type s = .done t rest → Spelled.type anyLeaf t)

include hop htype

theorem of_block {term : BlockTerm} (h : block operation type s = .done term rest) :
    Spelled.block anyLeaf term := by
  simp only [block, bind_eq_done, pure_eq_done] at h
  obtain ⟨_, _, -, name, _, -, args, _, hargs, _, _, -, _, _, -, terms, _, hterms, rfl, -⟩ := h
  refine ⟨?_, of_ops hop hterms⟩
  rintro l ⟨⟩
  rw [Spelled.types_iff, List.forall_mem_map]
  rcases optional_eq_done.1 hargs with ⟨as, rfl, has⟩ | ⟨rfl, -, -⟩
  · refine of_listed (Q := fun arg => Spelled.type anyLeaf arg.2) (fun s arg rest harg => ?_) has
    simp only [bind_eq_done, pure_eq_done] at harg
    obtain ⟨_, _, -, _, _, -, _, _, -, _, _, -, t, _, ht, rfl, -⟩ := harg
    exact htype _ _ _ ht
  · simp

theorem of_region {term : RegionTerm} (h : region operation type s = .done term rest) :
    Spelled.region anyLeaf term := by
  obtain ⟨terms, _, hterms, h⟩ := bind_eq_done.1 h
  obtain ⟨rfl, -⟩ := pure_eq_done.1 h
  refine of_bracketed (Q := Spelled.blocks anyLeaf) (fun s terms rest h => ?_) hterms
  obtain ⟨s', _, hs, h⟩ := bind_eq_done.1 h
  split at h
  · obtain ⟨rfl, -⟩ := pure_eq_done.1 h
    trivial
  · exact Spelled.blocks_iff.2 (of_itemsUntil (fun _ _ _ => of_block hop htype) h)
  · obtain ⟨terms, _, hterms, h⟩ := bind_eq_done.1 h
    obtain ⟨rfl, -⟩ := pure_eq_done.1 h
    exact ⟨nofun, of_ops hop hterms, trivial⟩

end Nested

theorem of_operation {length : Nat} (n : Nat) : ∀ s term rest,
    operation length n s = .done term rest → Spelled.op anyLeaf term := by
  induction n with
  | zero => exact fun _ _ _ h => absurd h fail_ne_done
  | succ n ih =>
    intro s term rest h
    obtain ⟨htype, hvalue⟩ := spelled_of_type_of_value (n + 1)
    simp only [operation, bind_eq_done, pure_eq_done] at h
    obtain ⟨_, _, -, start, _, -, results, _, -, _, _, -, ⟨d, nm⟩, _, hname, symbol, _, -,
      operands, _, -, as, _, has, types, _, htypes, regions, _, hregions, stop, _, -, rfl, -⟩ := h
    obtain ⟨hd, hn, -⟩ := of_qualifiedName hname
    refine ⟨⟨hd, hn, fun _ _ => trivial, ?_, ?_⟩, ?_⟩
    · cases as with
      | none => trivial
      | some es => exact of_optionally (fun _ _ _ => of_entries hvalue) has
    · rcases optional_eq_done.1 htypes with ⟨ts, rfl, hts⟩ | ⟨rfl, -, -⟩
      · obtain ⟨_, _, -, hts⟩ := bind_eq_done.1 hts
        exact Spelled.types_iff.2 (of_separated1
          (fun _ _ _ => of_blanked fun _ _ _ ht => (htype _ _ _ ht).1) hts)
      · trivial
    · obtain ⟨_, _, -, hregions⟩ := bind_eq_done.1 hregions
      exact Spelled.regions_iff.2 (of_itemsUntil
        (fun _ _ _ => of_region ih fun _ _ _ ht => (htype _ _ _ ht).1) hregions)

end Inverse

end Source

/-- What a text spells is spelled in the words of the grammar. -/
theorem spelled_of_readTerm {text : String} {term : OpTerm} (h : readTerm text = .ok term) :
    Spelled.op anyLeaf term := by
  unfold readTerm at h
  dsimp only at h
  split at h
  · cases h
  · rename_i term' rest hterm
    split at h
    · cases h
      exact of_operation _ _ _ _ hterm
    · cases h

end Offload
