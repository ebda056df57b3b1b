import Offload.Proofs.Source.Line
import Offload.Proofs.Text.Cut

/-!
# Reading a part: types and attributes

Types and attributes that were read before a rest are read the same off the part before it
(`cut_type`, `cut_value`). What follows matters after a type, which may go on with arguments, and
then with attributes: a rest that starts like either is one that they do not come from
(`TypeStops`). In brackets, this is so by itself, for a comma or a bracket comes next.

The kinds of attributes are tried one after another, so it has to be shown of those that come
before the right one that they get stuck on the part as well. Most are told by their first
characters, after which the kinds that come later get stuck too.
-/

namespace Offload.Source

open Text Text.Reader

variable {α : Type} {r s t : List Char} {m n l : Nat} {Q : List Char → Prop}

/-! ## Words -/

theorem forward_spaces : Forward spaces := forward_takeWhile.bind fun _ => .pure ()

theorem forward_blanks : Forward blanks := forward_takeWhile.bind fun _ => .pure ()

theorem cut_spaces : Cut r m l Q Eq spaces spaces := Cut.takeWhile.andThen fun _ => .pure rfl

theorem cut_blanks : Cut r m l Q Eq blanks blanks := Cut.takeWhile.andThen fun _ => .pure rfl

theorem cut_word (first next : Char → Bool) :
    Cut r m l Q Eq (word first next) (word first next) :=
  Cut.satisfy.andThen fun _ => Cut.takeWhile.andThen fun _ => .pure rfl

theorem cut_marked (mark : Char) : Cut r m l Q Eq (marked mark) (marked mark) :=
  (Cut.char mark).andThen fun _ => Cut.takeWhile1.andThen fun _ => .pure rfl

theorem cut_qualifiedName : Cut r m l Q Eq qualifiedName qualifiedName :=
  (cut_word _ _).andThen fun _ => (Cut.char '.').andThen fun _ => (cut_word _ _).andThen fun _ =>
    .pure rfl

theorem cut_symbol : Cut r m l Q Eq symbol symbol := by
  refine (Cut.char '@').andThen fun _ => .startsWith_bind (fun b => ?_) fun s a t h => ?_
  · split
    · exact .quotedString
    · exact Cut.takeWhile1.andThen fun _ => .pure rfl
  · refine length_lt_of_char_bind (fun s a t h => ?_) h
    exact ((Cut.forward_quotedRest (s.length + 1)).bind fun _ => .pure _) s a t h

/-! ## Items in brackets -/

/-- After white space, a comma or a closing bracket follows. -/
def Closes (s : List Char) : Prop := Delimited (s.dropWhile isSpace)

section Brackets

variable {item item' : Reader α}

theorem closes_comma (s : List Char) : Closes (',' :: s) := ⟨',', s, rfl, by decide⟩

theorem closes_dropWhile : Closes (s.dropWhile isSpace) ↔ Closes s := by
  rw [Closes, dropWhile_of_leaves (leaves_dropWhile _ _), Closes]

theorem cut_spaced (h : Cut r m l Closes Eq item item') :
    Cut r m l Closes Eq (spaced item) (spaced item') := by
  refine cut_spaces.andThen fun _ => h.bind (fun a => cut_spaces.andThen fun _ => .pure rfl) ?_
  intro a u b t _ h ht
  obtain ⟨_, _, hspaces, hpure⟩ := bind_eq_done.1 h
  cases hspaces
  obtain ⟨-, rfl⟩ := pure_eq_done.1 hpure
  exact closes_dropWhile.1 ht

/-- After white space, a closing bracket follows, and it is not part of the rest. -/
def ClosedBy (closing : Char) (r s : List Char) : Prop :=
  ∃ t, s.dropWhile isSpace = closing :: t ∧ r <:+ t

theorem ClosedBy.head? {closing : Char} (h : ClosedBy closing r s) :
    (s.dropWhile isSpace).head? = some closing := by
  obtain ⟨t, ht, -⟩ := h
  rw [ht]
  rfl

/-- The closing bracket itself, if no white space is left before it. -/
theorem ClosedBy.exists_cons {closing : Char} (h : ClosedBy closing r (t ++ r))
    (hleaves : Leaves isSpace (t ++ r)) : ∃ u, t = closing :: u := by
  obtain ⟨u, hu, hr⟩ := h
  rw [dropWhile_of_leaves hleaves] at hu
  obtain ⟨v, rfl, -⟩ := exists_cons_front hu hr
  exact ⟨v, rfl⟩

/-- What stands in brackets is shorter by the opening one, and the closing one follows. -/
theorem cut_bracketed {β : Type} {R : α → β → Prop} {p : Reader α} {p' : Reader β}
    {opening closing : Char} (h : Cut r m l (ClosedBy closing r) R p p') :
    Cut r (m + 1) l Q R (bracketed opening closing p) (bracketed opening closing p') := by
  refine .char_bind (cut_spaces.andThen fun _ => h.bindRel (fun a b hR =>
    cut_spaces.andThen fun _ => (Cut.char closing).andThen fun _ => .pure hR) (fun a => ?_) ?_)
  · exact forward_spaces.bind fun _ => (forward_char closing).bind fun _ => .pure a
  intro a u b t ht h _
  obtain ⟨_, _, hspaces, h⟩ := bind_eq_done.1 h
  cases hspaces
  obtain ⟨_, _, hclosing, hpure⟩ := bind_eq_done.1 h
  obtain ⟨-, rfl⟩ := pure_eq_done.1 hpure
  exact ⟨_, char_eq_done.1 hclosing, ht⟩

theorem length_lt_of_bracketed {opening closing : Char} {p : Reader α} {a : α} (hp : Forward p)
    (h : bracketed opening closing p s = .done a t) : t.length < s.length :=
  length_lt_of_char_bind (forward_spaces.bind fun _ => hp.bind fun _ => forward_spaces.bind fun _ =>
    (forward_char closing).bind fun _ => .pure _) h

section

variable {closing : Char} (hclosing : closing ∈ [')', ']', '}'])

include hclosing

theorem closes_closing (h : (s.dropWhile isSpace).head? = some closing) : Closes s := by
  rw [Closes, List.eq_cons_of_mem_head? h]
  exact delimited_closing hclosing _

theorem not_comma (h : ((',' :: s).dropWhile isSpace).head? = some closing) : False := by
  cases (h : some ',' = some closing)
  exact absurd hclosing (by decide)

theorem cut_separated (h : Cut r m l Closes Eq item item')
    (hstuck : ∀ s, (∀ c ∈ s.head?, c = closing) → Stuck item' s) :
    Cut r m l (fun u => (u.dropWhile isSpace).head? = some closing) Eq
      (separated (spaced item) (char ',')) (separated (spaced item') (char ',')) := by
  refine .separated (cut_spaced h) closes_comma (fun u => closes_closing hclosing)
    (fun u => not_comma hclosing) fun s hs => ?_
  refine stuck_bind (spaces_apply s) (Stuck.bind (hstuck _ fun c hc => ?_) _)
  exact Option.some.inj ((head?_dropWhile_append hc).symm.trans hs)

theorem cut_listed {opening : Char} (h : Cut r m l Closes Eq item item')
    (hstuck : ∀ s, (∀ c ∈ s.head?, c = closing) → Stuck item' s) :
    Cut r (m + 1) l Q Eq (listed opening closing item) (listed opening closing item') :=
  cut_bracketed ((cut_separated hclosing h hstuck).mono fun _ => ClosedBy.head?)

end

end Brackets

/-! ## Attributes in braces -/

/-- What an attribute starts with: a key and an equals sign. -/
def equation : Reader Unit := do
  let _ ← key
  spaces
  char '='

/-- What attributes in braces start with. -/
def entriesHead : Reader Unit := do
  blanks
  char '{'
  spaces
  equation

theorem firm_blanks : Firm blanks := firm_takeWhile.bind (fun _ => .pure _) fun _ => firm_pure _

theorem firm_spaces : Firm spaces := firm_takeWhile.bind (fun _ => .pure _) fun _ => firm_pure _

theorem firm_word (first next : Char → Bool) : Firm (word first next) :=
  firm_satisfy.bind (fun _ => forward_takeWhile.bind fun _ => .pure _) fun _ =>
    firm_takeWhile.bind (fun _ => .pure _) fun _ => firm_pure _

theorem sticky_equation : Sticky equation := by
  refine (firm_word _ _).sticky_bind (fun _ => ?_) fun _ => ⟨[], rfl⟩
  exact firm_spaces.sticky_bind (fun _ => sticky_char '=') fun _ => ⟨[], rfl⟩

theorem sticky_entriesHead : Sticky entriesHead := by
  refine firm_blanks.sticky_bind (fun _ => ?_) fun _ => ⟨[], rfl⟩
  refine (firm_char '{').sticky_bind (fun _ => ?_) fun _ => ⟨[], rfl⟩
  exact firm_spaces.sticky_bind (fun _ => sticky_equation) fun _ => ⟨[], rfl⟩

theorem stuck_entries_of_head (h : Stuck entriesHead s) (v : Reader AttributeTerm) :
    Stuck (do blanks; entries v) s := by
  refine (done_or_stuck _ s).resolve_left ?_
  rintro ⟨es, t, hread⟩
  simp only [entries, bracketed, separated1, spaced, bind_eq_done] at hread
  obtain ⟨_, s₁, hblanks, _, s₂, hbrace, _, s₃, hspaces, _, _, ⟨_, _, ⟨_, s₄, hspaces', _, _,
    ⟨k, s₅, hkey, _, s₆, hspaces'', _, s₇, heq, -⟩, -⟩, -⟩, -⟩ := hread
  -- white space that was skipped once is not there to be skipped again
  obtain rfl : s₃ = s₄ := by
    cases hspaces
    cases hspaces'
    exact (dropWhile_of_leaves (leaves_dropWhile _ _)).symm
  have hhead : entriesHead s = .done () s₇ := by
    rw [entriesHead, bind_done hblanks, bind_done hbrace, bind_done hspaces, equation,
      bind_done hkey, bind_done hspaces'', heq]
  exact h.not_done hhead

/-- Attributes under keys. -/
theorem cut_entries {v v' : Reader AttributeTerm} (h : Cut r m l Closes Eq v v') :
    Cut r (m + 1) l Q Eq (entries v) (entries v') := by
  refine cut_bracketed (.mono (.separated1 (cut_spaced ?_) closes_comma
    (fun u => closes_closing (by decide)) fun u => not_comma (by decide)) fun _ => ClosedBy.head?)
  exact (cut_word _ _).andThen fun k => cut_spaces.andThen fun _ => (Cut.char '=').andThen fun _ =>
    cut_spaces.andThen fun _ => h.map fun _ _ h => h ▸ rfl

/-! ## Types -/

/-- A type ends here, as far as arguments and attributes go. -/
structure TypeStops (s : List Char) : Prop where
  params : s.head? ≠ some '('
  entries : Stuck entriesHead s

theorem isSpace_of_isBlank {c : Char} (h : isBlank c) : isSpace c := by
  simp only [isBlank, Bool.or_eq_true, decide_eq_true_eq] at h
  rcases h with rfl | rfl <;> rfl

theorem skip_of_leaves_isSpace (h : Leaves isSpace s) : skip s = s :=
  skip_of_leaves fun c hc => Bool.eq_false_iff.2 fun hblank =>
    Bool.eq_false_iff.1 (h c hc) (isSpace_of_isBlank hblank)

theorem dropWhile_skip (s : List Char) : (skip s).dropWhile isSpace = s.dropWhile isSpace := by
  induction s with
  | nil => rfl
  | cons c s ih =>
    by_cases hc : isBlank c
    · rw [skip, List.dropWhile_cons_of_pos hc, List.dropWhile_cons_of_pos (isSpace_of_isBlank hc)]
      exact ih
    · rw [skip, List.dropWhile_cons_of_neg hc]

/-- The first character after blanks, if it is no white space, is the first after white space. -/
theorem head?_dropWhile_of_skip {c : Char} (h : (skip s).head? = some c) (hc : isSpace c = false) :
    (s.dropWhile isSpace).head? = some c := by
  rw [← dropWhile_skip, dropWhile_of_leaves (leaves_of_head h hc), h]

theorem stuck_entriesHead (h : (skip s).head? ≠ some '{') : Stuck entriesHead s :=
  stuck_bind (blanks_apply s) ((stuck_char h).bind _)

theorem Closes.typeStops (h : Closes s) : TypeStops s := by
  obtain ⟨c, t, hs, hc⟩ := h
  have hne {d : Char} (hd : isSpace d = false) (hd' : d ∉ [',', ')', ']', '}'])
      (h : (skip s).head? = some d) : False := by
    have hs' := hs.symm.trans (List.eq_cons_of_mem_head? (head?_dropWhile_of_skip h hd))
    exact hd' ((List.cons.inj hs').1 ▸ hc)
  refine ⟨fun h => hne (d := '(') (by decide) (by decide) ?_,
    stuck_entriesHead (hne (by decide) (by decide))⟩
  rw [skip_of_leaves (leaves_of_head h (by decide)), h]

theorem of_word_eq_done {first next : Char → Bool} {w : String}
    (h : word first next s = .done w t) : ∃ c cs, s = c :: (cs ++ t) ∧ first c ∧
      (∀ d ∈ cs, next d) ∧ Leaves next t := by
  obtain ⟨c, u, hc, hrest⟩ := bind_eq_done.1 h
  obtain ⟨rfl, hfirst⟩ := satisfy_eq_done.1 hc
  obtain ⟨cs, v, hcs, hpure⟩ := bind_eq_done.1 hrest
  obtain ⟨rfl, rfl⟩ := takeWhile_eq_done.1 hcs
  obtain ⟨-, rfl⟩ := pure_eq_done.1 hpure
  exact ⟨c, _, by rw [List.takeWhile_append_dropWhile], hfirst, fun d => List.mem_takeWhile_imp,
    leaves_dropWhile next u⟩

/-- A name within a dialect, which could be the start of a key. -/
theorem of_qualifiedName_eq_done {p : String × String} (h : qualifiedName s = .done p t) :
    ∃ c cs, s = c :: (cs ++ t) ∧ isWordStart c ∧ (∀ d ∈ cs, isKeyChar d) ∧ Leaves isWordChar t := by
  obtain ⟨_, u, hword, hafter⟩ := bind_eq_done.1 h
  obtain ⟨_, v, hdot, hnext⟩ := bind_eq_done.1 hafter
  obtain ⟨_, w, hname, hpure⟩ := bind_eq_done.1 hnext
  obtain ⟨-, rfl⟩ := pure_eq_done.1 hpure
  obtain rfl := char_eq_done.1 hdot
  obtain ⟨c, cs, rfl, hc, hcs, -⟩ := of_word_eq_done hword
  obtain ⟨d, ds, rfl, hd, hds, hleaves⟩ := of_word_eq_done hname
  exact ⟨c, cs ++ '.' :: d :: ds, by simp, hc, fun _ => isKeyChar_of_dotted hcs hd hds, hleaves⟩

theorem starts_of_qualifiedName {p : String × String} (h : qualifiedName s = .done p t) :
    ∃ c u, s = c :: u ∧ isWordStart c ∧ t <:+ u := by
  obtain ⟨c, cs, hs, hc, -⟩ := of_qualifiedName_eq_done h
  exact ⟨c, cs ++ t, hs, hc, List.suffix_append cs t⟩

/-! ## Numbers -/

/-- The exponent of a decimal fraction: whether it is negative, and its digits. -/
def exponent : Reader (Bool × List Char) := do
  let _ ← satisfy fun c => c = 'e' || c = 'E'
  let sign ← optional (satisfy fun c => c = '+' || c = '-')
  return (sign == some '-', ← takeWhile1 Char.isDigit)

theorem sticky_exponent : Sticky exponent := by
  refine firm_satisfy.sticky_bind (fun _ => ?_) fun _ => ⟨[], rfl⟩
  exact firm_optional_satisfy.sticky_bind (fun _ => sticky_takeWhile1.map) fun _ => ⟨[], rfl⟩

theorem sticky_decimal : Sticky decimal := by
  refine (firm_optional_char '-').sticky_bind (fun _ => ?_) fun _ => ⟨[], rfl⟩
  refine firm_takeWhile1.sticky_bind (fun _ => ?_) fun _ => ⟨[], rfl⟩
  refine (firm_char '.').sticky_bind (fun _ => ?_) fun _ => ⟨[], rfl⟩
  refine sticky_takeWhile1.bind_done fun fraction s => ?_
  obtain ⟨o, t, h⟩ := exists_optional exponent s
  exact ⟨_, t, bind_done h⟩

theorem cut_decimal : Cut r m l Q Eq decimal decimal := by
  refine Cut.andThen ?_ fun _ => Cut.takeWhile1.andThen fun _ => (Cut.char '.').andThen fun _ =>
    Cut.takeWhile1.andThen fun _ => Cut.andThen (p := optional exponent) ?_ fun _ => .pure rfl
  · exact (Cut.char '-').optional fun s _ _ => sticky_char '-' s r
  · refine Cut.optional (Cut.satisfy.andThen fun _ => Cut.andThen ?_ fun _ =>
      Cut.takeWhile1.andThen fun _ => .pure rfl) fun s _ _ => sticky_exponent s r
    exact Cut.satisfy.optional fun s _ _ => sticky_satisfy s r

theorem sticky_float : Sticky float :=
  sticky_decimal.orElse <| .orElse (sticky_literal _).map <| .orElse (sticky_literal _).map
    (sticky_literal _).map

theorem cut_float : Cut r m l Q Eq float float := by
  have hname (w : String) (x : Double) : Cut r m l Q Eq (do literal w; return x)
      (do literal w; return x) := (Cut.literal w).andThen fun _ => .pure rfl
  have hsticky (w : String) (x : Double) : Sticky (do literal w; return x) := (sticky_literal w).map
  refine cut_decimal.orElse (.orElse (hname _ _) (.orElse (hname _ _) (hname _ _) ?_) ?_) ?_
  · exact fun s _ _ _ h _ => hsticky _ _ s r h
  · exact fun s _ _ _ h _ => hsticky _ _ s r h
  · exact fun s _ _ _ h _ => sticky_decimal s r h

theorem cut_integer : Cut r m l Q Eq integer integer := by
  refine Cut.andThen ?_ fun sign => (Cut.natural _).andThen fun k => ?_
  · exact (Cut.char '-').optional fun s _ _ => sticky_char '-' s r
  · split
    · split
      · exact .fail _
      · exact .pure rfl
    · exact .pure rfl

/-! ## Types and attributes -/

theorem cut_location : Cut r m l Q Eq location location :=
  (Cut.literal _).andThen fun _ => cut_spaces.andThen fun _ => Cut.quotedString.andThen fun _ =>
    cut_spaces.andThen fun _ => (Cut.natural _).andThen fun _ => (Cut.char ':').andThen fun _ =>
      (Cut.natural _).andThen fun _ => cut_spaces.andThen fun _ => (Cut.char ')').andThen fun _ =>
        .pure rfl

theorem cut_bytes : Cut r (m + 1) l Q Eq bytes bytes := by
  refine (Cut.literal _).andThen fun _ =>
    (cut_listed (by decide) (.natural _) fun s hs => ?_).andThen fun _ => .pure rfl
  refine Leaves.stuck_natural fun c hc => ?_
  rw [hs c hc]
  rfl

theorem stuck_type_of_leaves (h : Leaves isWordStart s) : Stuck (type n) s := by
  cases n with
  | zero => exact ⟨s, rfl⟩
  | succ n =>
    rw [type]
    exact ((stuck_word h).bind _).bind _

/-- What comes after the name of a type. -/
def typeParts (n : Nat) (name : String × String) : Reader TypeTerm := do
  let params ← optional (listed '(' ')' (type n))
  let attributes ← if params.isSome then
      optional do
        blanks
        entries (value n)
    else pure none
  return .mk name.1 name.2 (params.getD []) (attributes.getD [])

theorem type_succ (n : Nat) : type (n + 1) = qualifiedName >>= typeParts n := by
  rw [type]
  rfl

/-- The arguments and attributes of a type, in brackets of their own. -/
theorem cut_typeParts (htype : Cut r m l TypeStops Eq (type n) (type m))
    (hvalue : Cut r m l TypeStops Eq (value n) (value m)) (name : String × String) :
    Cut r (m + 1) l TypeStops Eq (typeParts n name) (typeParts m name) := by
  have hparams : Cut r (m + 1) l (fun u => u.head? ≠ some '(') Eq
      (optional (listed '(' ')' (type n))) (optional (listed '(' ')' (type m))) := by
    refine .optional (cut_listed (by decide) (htype.mono fun _ => Closes.typeStops) fun s hs => ?_)
      fun s _ hs _ => (stuck_char fun hhead => hs (head?_append_of_head? hhead)).bind _
    exact stuck_type_of_leaves fun c hc => hs c hc ▸ rfl
  have hentries : Cut r (m + 1) l TypeStops Eq (optional (do blanks; entries (value n)))
      (optional (do blanks; entries (value m))) :=
    (cut_blanks.andThen fun _ => cut_entries (hvalue.mono fun _ => Closes.typeStops)).optional
      fun s _ hs _ => stuck_entries_of_head (sticky_entriesHead s r hs.entries) _
  refine hparams.bind (fun params => ?_) ?_
  · split
    · exact hentries.map fun _ _ h => h ▸ rfl
    · exact .pure rfl
  · intro params u a t _ h ht hhead
    have hopen : Stuck (do blanks; entries (value n)) u := by
      refine stuck_entries_of_head (stuck_entriesHead ?_) _
      rw [skip_of_leaves (leaves_of_head hhead (by decide)), hhead]
      decide
    -- neither attributes nor what follows a type start with a parenthesis
    split at h
    · rw [bind_done hopen.optional] at h
      exact ht.params ((pure_eq_done.1 h).2 ▸ hhead)
    · exact ht.params ((pure_eq_done.1 h).2 ▸ hhead)

/-! ### The kinds of attributes -/

theorem stuck_numberOrType {c : Char} (hs : s.head? = some c) (hc : c ∉ ['-', 'i', 'N'])
    (hdigit : c.isDigit = false) (htype : Stuck (type n) s) : Stuck (numberOrType n) s := by
  simp only [List.mem_cons, List.not_mem_nil, or_false, not_or] at hc
  obtain ⟨hminus, hi, hn⟩ := hc
  have hfloat : Stuck float s := stuck_orElse.2 ⟨stuck_decimal hs hminus hdigit,
    stuck_orElse.2 ⟨(stuck_literal_of_head hs rfl hminus).bind _, stuck_orElse.2
      ⟨(stuck_literal_of_head hs rfl hi).bind _, (stuck_literal_of_head hs rfl hn).bind _⟩⟩⟩
  exact stuck_orElse.2 ⟨hfloat.bind _,
    stuck_orElse.2 ⟨(stuck_integer hs hminus hdigit).bind _, htype.bind _⟩⟩

/-- A word before a parenthesis starts neither of the later kinds of attributes. -/
theorem stuck_afterWords {w : String} {c : Char} (hw : IsName w) (hc : w.toList.head? = some c)
    (hletter : c ∉ ['i', 'N']) (s : List Char) : Stuck (afterWords n) (w.toList ++ '(' :: s) := by
  have hs : (w.toList ++ '(' :: s).head? = some c := head?_append_of_head? hc
  have hstart : isWordStart c := by
    obtain ⟨d, hd, hstart⟩ := hw.exists_head ('(' :: s)
    rwa [Option.some.inj (hs.symm.trans hd)]
  have htype : Stuck (type n) (w.toList ++ '(' :: s) := by
    cases n with
    | zero => exact ⟨_, rfl⟩
    | succ n =>
      rw [type]
      refine (stuck_bind (word_append hw (leaves_cons.2 (by decide))) ?_).bind _
      exact (stuck_char_of_head rfl (by decide)).bind _
  rw [Stuck, afterWords_of_head hs (not_mem_of_isWordStart hstart (by decide))]
  refine stuck_numberOrType hs (fun hmem => ?_) (isDigit_of_isWordStart hstart) htype
  rcases List.mem_cons.1 hmem with rfl | hmem
  · exact absurd hstart (by decide)
  · exact hletter hmem

/-- A text that cannot be read starts a text that is read as something that starts with a word. -/
theorem exists_head_of_cut {a : α} {p : Reader α} (hp : ∀ s a t, p s = .done a t →
    ∃ c u, s = c :: u ∧ isWordStart c ∧ t <:+ u) (hread : p (s ++ r) = .done a (t ++ r)) :
    ∃ c, s.head? = some c ∧ isWordStart c := by
  obtain ⟨c, u, hs, hc, ht⟩ := hp _ a _ hread
  obtain ⟨v, rfl, -⟩ := exists_cons_front hs ((List.suffix_append t r).trans ht)
  exact ⟨c, rfl, hc⟩

/-- Types start with a word. -/
def TypeStarts (n : Nat) : Prop := ∀ s a t, type n s = .done a t →
  ∃ c u, s = c :: u ∧ isWordStart c ∧ t <:+ u

theorem cut_numberOrType {k : Nat} (hstarts : TypeStarts n)
    (htype : Cut r k l TypeStops Eq (type n) (type m)) :
    Cut r k l TypeStops Eq (numberOrType n) (numberOrType m) := by
  have hfloat : Cut r k l TypeStops Eq (do return AttributeTerm.float (← float))
      (do return .float (← float)) := cut_float.map fun _ _ h => h ▸ rfl
  have hinteger : Cut r k l TypeStops Eq (do return AttributeTerm.int (← integer))
      (do return .int (← integer)) := cut_integer.map fun _ _ h => h ▸ rfl
  refine hfloat.orElse (hinteger.orElse (htype.map fun _ _ h => h ▸ rfl) fun s a t _ _ hread => ?_)
    fun s _ _ _ h _ => sticky_float.map s r h
  obtain ⟨term, u, hread, hpure⟩ := bind_eq_done.1 hread
  obtain ⟨-, rfl⟩ := pure_eq_done.1 hpure
  obtain ⟨c, hs, hc⟩ := exists_head_of_cut hstarts hread
  refine (stuck_integer hs (fun heq => ?_) (isDigit_of_isWordStart hc)).bind _
  exact absurd (heq ▸ hc) (by decide)

theorem stuck_value_nil (n : Nat) : Stuck (value n) [] := by
  cases n with
  | zero => exact ⟨[], rfl⟩
  | succ n =>
    rw [Stuck, value]
    exact (stuck_type_of_leaves (leaves_nil _)).bind _

theorem cut_afterWords (hstarts : TypeStarts n)
    (htype : Cut r (m + 1) l TypeStops Eq (type n) (type m))
    (hvalue : Cut r m l TypeStops Eq (value n) (value m)) :
    Cut r (m + 1) l TypeStops Eq (afterWords n) (afterWords m) := by
  have hlist : Cut r (m + 1) l TypeStops Eq (listed '[' ']' (value n)) (listed '[' ']' (value m)) :=
    cut_listed (by decide) (hvalue.mono fun _ => Closes.typeStops) fun s hs => by
      cases s with
      | nil => exact stuck_value_nil m
      | cons c s =>
        rw [hs c rfl]
        exact stuck_value (by decide)
  have hmark {c : Char} {s : List Char} (hs : s.head? = some c) (hc : c ∈ ['"', '@', '[']) :
      Stuck (numberOrType n) s := by
    have hall : ∀ c ∈ ['"', '@', '['], c ∉ ['-', 'i', 'N'] ∧ c.isDigit = false ∧
        isWordStart c = false := by decide
    obtain ⟨hletter, hdigit, hstart⟩ := hall c hc
    exact stuck_numberOrType hs hletter hdigit (stuck_type hs hstart)
  have hbracket {s : List Char} (hs : s.head? ≠ some '[') (k : Nat) :
      Stuck (do return AttributeTerm.list (← listed '[' ']' (value k))) s :=
    ((stuck_char hs).bind _).bind _
  have hat {s : List Char} (hs : s.head? ≠ some '@') :
      Stuck (do return AttributeTerm.symbol (← symbol)) s := ((stuck_char hs).bind _).bind _
  have hquote {s : List Char} (hs : s.head? ≠ some '"') :
      Stuck (do return AttributeTerm.string (← quotedString)) s := ((stuck_char hs).bind _).bind _
  have hne {c d : Char} {s : List Char} (hs : s.head? = some c) (hcd : c ≠ d) : s.head? ≠ some d :=
    fun h => hcd (Option.some.inj (hs.symm.trans h))
  refine (Cut.quotedString.map fun _ _ h => h ▸ rfl).orElse_head (c := '"')
    ((cut_symbol.map fun _ _ h => h ▸ rfl).orElse_head (c := '@')
      ((hlist.map fun _ _ h => h ▸ rfl).orElse_head (c := '[') (cut_numberOrType hstarts htype)
        (fun s hs => hbracket hs m) fun s hs => hmark hs (by decide))
      (fun s hs => hat hs) fun s hs => ?_) (fun s hs => hquote hs) fun s hs => ?_
  · exact stuck_orElse.2 ⟨hbracket (hne hs (by decide)) n, hmark hs (by decide)⟩
  · exact stuck_orElse.2 ⟨hat (hne hs (by decide)),
      stuck_orElse.2 ⟨hbracket (hne hs (by decide)) n, hmark hs (by decide)⟩⟩

/-- One level of brackets more, in attributes. -/
theorem cut_value_succ (hstarts : TypeStarts n)
    (htype : Cut r (m + 1) l TypeStops Eq (type n) (type m))
    (hvalue : Cut r m l TypeStops Eq (value n) (value m)) :
    Cut r (m + 1) l TypeStops Eq (value (n + 1)) (value (m + 1)) := by
  have hword (w : String) (a : AttributeTerm) : Cut r (m + 1) l TypeStops Eq
      (do literal w; return a) (do literal w; return a) :=
    (Cut.literal w).andThen fun _ => .pure rfl
  have hafter := cut_afterWords hstarts htype hvalue
  rw [value, value]
  refine (hword _ _).orElse ((hword _ _).orElse ((hword _ _).orElse (cut_location.orElse
    (cut_bytes.orElse hafter ?_) ?_) ?_) ?_) ?_
  · -- a list of bytes is told from the later kinds by its parenthesis
    intro s a t _ _ hread
    by_cases hpre : "bytes".toList <+: s
    · obtain ⟨u, rfl⟩ := hpre
      refine stuck_bind (literal_append _ u) (((stuck_char fun hopen => ?_).bind _).bind _)
      rw [List.eq_cons_of_mem_head? hopen, List.append_assoc] at hread
      exact (stuck_afterWords ⟨'b', ['y', 't', 'e', 's'], rfl, rfl, by decide⟩ rfl (by decide)
        _).not_done hread
    · exact (stuck_literal hpre).bind _
  · -- and so is a location
    intro s a t _ _ hread
    refine (stuck_literal fun hpre => ?_).bind _
    obtain ⟨u, rfl⟩ := hpre
    have hs : ("loc(".toList ++ u ++ r).head? = some 'l' := rfl
    have hlater := stuck_afterWords (n := n) (w := "loc") ⟨'l', ['o', 'c'], rfl, rfl, by decide⟩ rfl
      (by decide) (u ++ r)
    have hbytes := stuck_literal_of_head (w := "bytes") hs rfl (by decide)
    exact (stuck_orElse.2 ⟨hbytes.bind _, hlater⟩).not_done hread
  · exact fun s _ _ _ h _ => (sticky_literal _).map s r h
  · exact fun s _ _ _ h _ => (sticky_literal _).map s r h
  · exact fun s _ _ _ h _ => (sticky_literal _).map s r h

/-! ### All levels of brackets -/

/-- What holds of types and attributes with at most `n` nested brackets. -/
structure CutsLevel (r : List Char) (l n : Nat) : Prop where
  type : ∀ m, Cut r (m + 1) l TypeStops Eq (type n) (type m)
  value : ∀ m, Cut r m l TypeStops Eq (value n) (value m)
  starts : TypeStarts n

theorem cutsLevel (r : List Char) (l n : Nat) : CutsLevel r l n := by
  induction n with
  | zero => exact ⟨fun _ => .fail _, fun _ => .fail _, fun _ _ _ h => absurd h fail_ne_done⟩
  | succ n ih =>
    have hparts (m : Nat) := cut_typeParts ((ih.type m).le (Nat.le_succ m)) (ih.value m)
    have hstarts : TypeStarts (n + 1) := fun s a t h => by
      rw [type_succ] at h
      obtain ⟨p, u, hname, hread⟩ := bind_eq_done.1 h
      obtain ⟨c, v, rfl, hc, hu⟩ := starts_of_qualifiedName hname
      exact ⟨c, v, rfl, hc, ((hparts 0 p).forward u a t hread).trans hu⟩
    refine ⟨fun m => ?_, .of_succ fun m => cut_value_succ ih.starts (ih.type m) (ih.value m),
      hstarts⟩
    cases m with
    | zero =>
      refine .of_eq (fun s a t h => ?_) fun s a t hs hread _ => ?_
      · obtain ⟨c, u, rfl, -, hu⟩ := hstarts s a t h
        exact hu.trans (List.suffix_cons c u)
      · -- without brackets to count there is no text, and no word it starts with
        obtain ⟨c, hc, -⟩ := exists_head_of_cut hstarts hread
        obtain rfl := List.length_eq_zero_iff.1 (Nat.lt_one_iff.1 hs.length)
        cases hc
    | succ m =>
      rw [type_succ, type_succ]
      refine cut_qualifiedName.strict_bind (fun s p t h => ?_) (hparts m)
      obtain ⟨c, u, rfl, -, hu⟩ := starts_of_qualifiedName h
      exact Nat.lt_succ_of_le hu.length_le

/-- A type reads the same off the part of a text that it was read from. -/
theorem cut_type (n m : Nat) : Cut r (m + 1) l TypeStops Eq (type n) (type m) :=
  (cutsLevel r l n).type m

/-- An attribute reads the same off the part of a text that it was read from. -/
theorem cut_value (n m : Nat) : Cut r m l TypeStops Eq (value n) (value m) :=
  (cutsLevel r l n).value m

end Offload.Source
