import Offload.Proofs.Source.Attributes

/-!
# The line of an operation reads back

The parts of a line stand between blanks, and each but the name may be missing. A
reader of a part may also take the blanks after it, so what is left is known up to
leading blanks alone (`SkipsTo`). A missing part is told from what follows by the
first character after the blanks (`Next`): every part has a character of its own,
with the exception of attributes and regions, which both stand in braces.
-/

namespace Offload.Source

open Text Text.Reader

variable {s t rest : List Char}

/-! ## Up to blanks -/

/-- A blank or a line break follows. -/
def Gap (s : List Char) : Prop := ∃ c s', s = c :: s' ∧ c ∈ [' ', '\n']

theorem Gap.leaves (h : Gap s) {p : Char → Bool} (hp : ∀ c ∈ [' ', '\n'], p c = false) :
    Leaves p s := by
  obtain ⟨c, s, rfl, hc⟩ := h
  exact leaves_cons.2 (hp c hc)

theorem Gap.append {t : List Char} (h : Gap s) (ht : t = [] ∨ Gap t) : Gap (t ++ s) := by
  rcases ht with rfl | ⟨c, t, rfl, hc⟩
  · exact h
  · exact ⟨c, _, rfl, hc⟩

/-- After blanks, a text goes on with one of some characters. -/
def Next (l : List Char) (s : List Char) : Prop := ∃ c ∈ l, (skip s).head? = some c

theorem Next.mono {l l' : List Char} (h : Next l s) (hl : ∀ c ∈ l, c ∈ l') : Next l' s := by
  obtain ⟨c, hc, hs⟩ := h
  exact ⟨c, hl c hc, hs⟩

theorem Next.ne {l : List Char} {d : Char} (h : Next l s) (hd : d ∉ l) :
    (skip s).head? ≠ some d := by
  obtain ⟨c, hc, hs⟩ := h
  rw [hs]
  rintro ⟨⟩
  exact hd hc

/-- What `optionally` reads does not depend on the blanks before it. -/
theorem optionally_apply {α : Type} (p : Reader α) (s : List Char) :
    optionally p s = match p (skip s) with
      | .done a rest => .done (some a) rest
      | .stuck _ => .done none s := by
  cases h : p (skip s) with
  | done a rest => rw [optionally, Reader.optional, bind_done (blanks_apply s), h]
  | stuck place => rw [optionally, Reader.optional, bind_done (blanks_apply s), h]

theorem optionally_done {α : Type} {p : Reader α} {a : α} (h : p (skip s) = .done a rest) :
    optionally p s = .done (some a) rest := by
  rw [optionally_apply, h]

theorem optionally_stuck {α : Type} {p : Reader α} (h : Stuck p (skip s)) :
    optionally p s = .done none s := by
  obtain ⟨place, h⟩ := h
  rw [optionally_apply, h]

/-! ## Lists between blanks -/

section Blanked

variable {α : Type} {item : Reader α} {a : α} {as : List α} {texts : List String}
  {E : List Char → Prop}

/-- A text reads as an item, where the text after it is as `E` says. -/
structure IsWordItem (E : List Char → Prop) (item : Reader α) (text : String) (a : α) : Prop where
  nonempty : text.toList ≠ []
  leaves : Leaves isBlank text.toList
  reads : ∀ rest, E rest → item (text.toList ++ rest) = .done a rest

theorem blanked_append {text : String} (h : IsWordItem E item text a)
    (hs : skip s = skip (text.toList ++ rest)) (hrest : E rest) :
    blanked item s = .done a (skip rest) := by
  have hleaves : Leaves isBlank (text.toList ++ rest) := fun c hc => by
    rw [List.head?_append_of_ne_nil _ h.nonempty] at hc
    exact h.leaves c hc
  rw [blanked, bind_done (blanks_apply s), hs, skip_of_leaves hleaves,
    bind_done (h.reads rest hrest), bind_done (blanks_apply rest), pure_apply]

theorem separatedRest_blanked (h : List.Forall₂ (IsWordItem E item) texts as)
    (hcomma : ∀ s, E (',' :: s)) (hrest : E rest) (hstop : (skip rest).head? ≠ some ',') {n : Nat}
    (hn : texts.length ≤ n) :
    separatedRest (blanked item) (char ',') n
      (skip ((texts.flatMap fun t => ',' :: ' ' :: t.toList) ++ rest)) = .done as (skip rest) := by
  induction h generalizing n with
  | nil => exact separatedRest_stop (stuck_char hstop)
  | @cons t a texts as hitem htail ih =>
    obtain ⟨n, rfl⟩ := Nat.exists_eq_add_one.2 (Nat.zero_lt_of_lt hn)
    rw [List.flatMap_cons, List.append_assoc]
    have hE : E ((texts.flatMap fun t => ',' :: ' ' :: t.toList) ++ rest) := by
      cases texts with
      | nil => exact hrest
      | cons u texts => exact hcomma _
    exact separatedRest_step (char_cons _ _) (blanked_append hitem (skip_blank _) hE)
      (ih (Nat.le_of_succ_le_succ hn))

/-- Items with commas between them read as the items, up to the blanks around them. -/
theorem separated1_blanked (h : List.Forall₂ (IsWordItem E item) texts as) (hne : texts ≠ [])
    (hcomma : ∀ s, E (',' :: s)) (hrest : E rest) (hstop : (skip rest).head? ≠ some ',')
    (hs : skip s = skip ((commas texts).toList ++ rest)) :
    separated1 (blanked item) (char ',') s = .done as (skip rest) := by
  cases h with
  | nil => exact absurd rfl hne
  | @cons t a texts as hitem htail =>
    rw [toList_commas_cons, List.append_assoc] at hs
    have hE : E ((texts.flatMap fun t => ',' :: ' ' :: t.toList) ++ rest) := by
      cases texts with
      | nil => exact hrest
      | cons u texts => exact hcomma _
    refine separated1_done (blanked_append hitem hs hE)
      (separatedRest_blanked htail hcomma hrest hstop ?_)
    cases texts with
    | nil => exact Nat.zero_le _
    | cons u texts =>
      -- a comma comes first, so no blank is skipped
      have hskip : skip (((u :: texts).flatMap fun t => ',' :: ' ' :: t.toList) ++ rest) =
          ((u :: texts).flatMap fun t => ',' :: ' ' :: t.toList) ++ rest := rfl
      rw [hskip, List.length_append]
      exact (length_le_length_flatMap (u :: texts)).trans (Nat.le_add_right _ _)

end Blanked

/-! ## The parts of a line -/

section Parts

variable {names : List String} {es : List Entry} {types : List TypeTerm} {n : Nat}

theorem isWordItem_valueName {name : String} (h : IsMarkable name) :
    IsWordItem (Leaves isWordChar) valueName ("%" ++ name) name where
  nonempty := by simp
  leaves := by
    rw [String.toList_append]
    exact leaves_cons.2 (by decide)
  reads rest hrest := by
    rw [String.toList_append, List.append_assoc]
    exact marked_append h hrest

theorem valueNames_append (hne : names ≠ []) (hnames : ∀ name ∈ names, IsMarkable name)
    (hrest : Leaves isWordChar rest) (hstop : (skip rest).head? ≠ some ',')
    (hs : skip s = skip ((valuesText names).toList ++ rest)) :
    valueNames s = .done names (skip rest) := by
  refine separated1_blanked ?_ (by simpa using hne) (fun s => leaves_cons.2 (by decide)) hrest
    hstop hs
  rw [List.forall₂_map_left_iff]
  exact List.forall₂_same.2 fun name hname => isWordItem_valueName (hnames name hname)

/-- The results before the equals sign. -/
def resultsPart (names : List String) : List Char :=
  if names = [] then [] else (valuesText names).toList ++ [' ', '=', ' ']

/-- The symbol after the name. -/
def symbolPart : Option String → List Char
  | some name => ' ' :: (symbolText name).toList
  | none => []

/-- The operands. -/
def operandsPart (names : List String) : List Char :=
  if names = [] then [] else ' ' :: (valuesText names).toList

/-- The types after the colon. -/
def typesPart (types : List TypeTerm) : List Char :=
  if types = [] then [] else ' ' :: ':' :: ' ' :: (commas (typeTexts types)).toList

theorem toList_headText (head : Head) : (headText head).toList = resultsPart head.results ++
    (head.kind.dialect.toList ++ '.' :: (head.kind.name.toList ++ (symbolPart head.symbol ++
      (operandsPart head.operands ++ ((entriesText head.entries).toList ++
        typesPart head.types))))) := by
  obtain ⟨results, kind, symbol, operands, entries, types, span⟩ := head
  have hkind : toString kind = kind.dialect ++ "." ++ kind.name := rfl
  have hresults : (if results.isEmpty then "" else valuesText results ++ " = ").toList =
      resultsPart results := by
    cases results with
    | nil => rfl
    | cons name names => exact String.toList_append
  have hoperands : (if operands.isEmpty then "" else " " ++ valuesText operands).toList =
      operandsPart operands := by
    cases operands with
    | nil => rfl
    | cons name names => exact String.toList_append
  have htypes : (if types.isEmpty then "" else " : " ++ commas (typeTexts types)).toList =
      typesPart types := by
    cases types with
    | nil => rfl
    | cons t ts => exact String.toList_append
  simp only [headText, hkind, String.toList_append, hresults, hoperands, htypes,
    List.append_assoc]
  cases symbol with
  | none => rfl
  | some name =>
    simp only [String.toList_append]
    rfl

theorem resultNames_append (hne : names ≠ []) (hnames : ∀ name ∈ names, IsMarkable name)
    (s : List Char) : resultNames (resultsPart names ++ s) = .done names (' ' :: s) := by
  rw [resultsPart, if_neg hne, List.append_assoc]
  have hstop : (skip (' ' :: '=' :: ' ' :: s)).head? ≠ some ',' :=
    show some '=' ≠ some ',' by decide
  have hread : valueNames ((valuesText names).toList ++ ' ' :: '=' :: ' ' :: s) =
      .done names ('=' :: ' ' :: s) :=
    valueNames_append hne hnames (leaves_cons.2 (by decide)) hstop rfl
  exact (bind_done hread).trans (bind_done (char_cons _ _))

/-- The results, up to the blank after the equals sign. -/
theorem results_part (hnames : ∀ name ∈ names, IsMarkable name) {c : Char}
    (hs : s.head? = some c) (hblank : isBlank c = false) (hc : c ≠ '%') :
    ∃ o s', optional resultNames (resultsPart names ++ s) = .done o s' ∧ o.getD [] = names ∧
      skip s' = s := by
  have hskip : skip s = s := skip_of_leaves (leaves_of_head hs hblank)
  by_cases hne : names = []
  · subst hne
    refine ⟨none, s, Stuck.optional ?_, rfl, hskip⟩
    have hstuck : Stuck (blanked valueName) s :=
      stuck_bind (blanks_apply s) (by rw [hskip]; exact ((stuck_char_of_head hs hc).bind _).bind _)
    exact (hstuck.bind _).bind _
  · exact ⟨some names, ' ' :: s, optional_done (resultNames_append hne hnames s), rfl, hskip⟩

theorem symbol_part (name : Option String) (h : ∀ t ∈ name, IsLegible t) (hgap : Gap rest)
    (hnext : (skip rest).head? ≠ some '@') :
    optionally symbol (symbolPart name ++ rest) = .done name rest := by
  cases name with
  | none => exact optionally_stuck ((stuck_char hnext).bind _)
  | some name =>
    refine optionally_done ?_
    have hskip : skip (symbolPart (some name) ++ rest) = (symbolText name).toList ++ rest := by
      have hhead : ((symbolText name).toList ++ rest).head? = some '@' := by
        rw [List.head?_append, head?_symbolText, Option.some_or]
      exact skip_of_leaves (leaves_of_head hhead (by decide))
    rw [hskip]
    exact symbol_append (h name rfl) (hgap.leaves (by decide))

theorem operands_part (hnames : ∀ name ∈ names, IsMarkable name) (hgap : Gap rest)
    {l : List Char} (hnext : Next l rest) (hl : '%' ∉ l ∧ ',' ∉ l) :
    ∃ o s', optionally valueNames (operandsPart names ++ rest) = .done o s' ∧ o.getD [] = names ∧
      skip s' = skip rest := by
  rw [operandsPart]
  split
  · rename_i hne
    refine ⟨none, rest, optionally_stuck ?_, hne.symm, rfl⟩
    exact (stuck_bind (blanks_apply _)
      (by rw [skip_skip]; exact ((stuck_char (hnext.ne hl.1)).bind _).bind _)).bind _
  · rename_i hne
    refine ⟨some names, skip rest, optionally_done ?_, rfl, skip_skip rest⟩
    exact valueNames_append hne hnames (hgap.leaves (by decide)) (hnext.ne hl.2)
      (skip_skip _)

theorem entries_part {v : Reader AttributeTerm}
    (h : ∀ key a, Entry.mk key a ∈ es → IsKey key ∧ IsItem v (valueText a) a)
    (hrest : Stuck (do blanks; entries v) rest)
    (hs : skip s = skip ((entriesText es).toList ++ rest)) :
    ∃ o s', optionally (entries v) s = .done o s' ∧ o.getD [] = es ∧ skip s' = skip rest := by
  rw [toList_entriesText] at hs
  split at hs
  · rename_i hes
    refine ⟨none, s, optionally_stuck ?_, hes.symm, hs⟩
    rw [hs]
    exact hrest
  · rename_i hes
    refine ⟨some es, rest, optionally_done ?_, rfl, rfl⟩
    rw [hs]
    simp only [List.cons_append, List.append_assoc, List.nil_append]
    exact entries_append hes h

theorem types_part {type : Reader TypeTerm}
    (h : ∀ t ∈ types, IsWordItem TypeEnds type (typeText t) t) (hrest : TypeEnds rest)
    {l : List Char} (hnext : Next l rest) (hl : ':' ∉ l ∧ ',' ∉ l)
    (hs : skip s = skip (typesPart types ++ rest)) :
    ∃ o s', optional (resultTypes type) s = .done o s' ∧ o.getD [] = types ∧
      skip s' = skip rest := by
  rw [typesPart] at hs
  split at hs
  · rename_i hne
    refine ⟨none, s, Stuck.optional ?_, hne.symm, hs⟩
    refine Stuck.bind (stuck_bind (blanks_apply s) ?_) _
    rw [hs]
    exact (stuck_char (hnext.ne hl.1)).bind _
  · rename_i hne
    refine ⟨some types, skip rest, optional_done ?_, rfl, skip_skip rest⟩
    have hmark : blanked (char ':') s = .done () (skip ((commas (typeTexts types)).toList ++ rest)) := by
      rw [blanked, bind_done (blanks_apply s), hs]
      rfl
    refine (bind_done hmark).trans (separated1_blanked ?_ ?_ ?_ hrest (hnext.ne hl.2) (skip_skip _))
    · rw [typeTexts_eq_map, List.forall₂_map_left_iff]
      exact List.forall₂_same.2 h
    · rwa [typeTexts_eq_map, Ne, List.map_eq_nil_iff]
    · exact fun s => (delimited_comma s).typeEnds

end Parts

end Offload.Source
