import Offload.Proofs.Source.Spelling
import Offload.Proofs.Text.Quoted
import Offload.Source.Printer

/-!
# Words, symbols and lists read back

Names, symbols, and items with commas between them read as what they were written
for. A word goes on as long as it can, so it has to be known what follows it; what
follows an item in brackets is a comma or a closing bracket (`Delimited`).
-/

namespace Offload.Source

open Text Text.Reader

variable {s rest : List Char}

/-! ## White space -/

theorem spaces_of_leaves (h : Leaves isSpace s) : spaces s = .done () s :=
  (bind_done (takeWhile_append (s := []) nofun h)).trans (pure_apply _ _)

theorem spaces_blank (h : Leaves isSpace s) : spaces (' ' :: s) = .done () s :=
  (bind_done (takeWhile_append (s := [' ']) (by decide) h)).trans (pure_apply _ _)

/-- A class without white space leaves white space alone. -/
theorem isSpace_eq_false {p : Char → Bool} {c : Char} (h : p c)
    (hp : ∀ d ∈ [' ', '\t', '\n', '\r', '\x0c'], p d = false) : isSpace c = false := by
  rw [Bool.eq_false_iff]
  intro hspace
  have hmem : c ∈ [' ', '\t', '\n', '\r', '\x0c'] := by
    simpa [isSpace, or_assoc] using hspace
  rw [hp c hmem] at h
  cases h

theorem isSpace_of_isDigit (c : Char) (h : c.isDigit) : isSpace c = false :=
  isSpace_eq_false h (by decide)

theorem IsWord.leaves_isSpace {first next : Char → Bool} {w : String} (h : IsWord first next w)
    (hfirst : ∀ d ∈ [' ', '\t', '\n', '\r', '\x0c'], first d = false) (s : List Char) :
    Leaves isSpace (w.toList ++ s) := by
  obtain ⟨c, hs, hc⟩ := h.exists_head s
  intro d hd
  rw [hs] at hd
  cases hd
  exact isSpace_eq_false hc hfirst

theorem spaces_apply (s : List Char) : spaces s = .done () (s.dropWhile isSpace) := rfl

/-- A text without the blanks it starts with. -/
def skip (s : List Char) : List Char := s.dropWhile isBlank

theorem blanks_apply (s : List Char) : blanks s = .done () (skip s) := rfl

theorem skip_of_leaves (h : Leaves isBlank s) : skip s = s := dropWhile_of_leaves h

@[simp]
theorem skip_skip (s : List Char) : skip (skip s) = skip s :=
  skip_of_leaves (leaves_dropWhile isBlank s)

theorem skip_blank (s : List Char) : skip (' ' :: s) = skip s := rfl

/-- A text does not start with white space. -/
theorem leaves_isSpace_append {t : List Char} (ht : Leaves isSpace t) (hrest : Leaves isSpace rest) :
    Leaves isSpace (t ++ rest) := by
  cases t with
  | nil => exact hrest
  | cons c t => exact ht

/-! ## Words -/

/-- A comma or a closing bracket follows. -/
def Delimited (s : List Char) : Prop := ∃ c s', s = c :: s' ∧ c ∈ [',', ')', ']', '}']

theorem delimited_comma (s : List Char) : Delimited (',' :: s) := ⟨_, s, rfl, by decide⟩

theorem delimited_closing {closing : Char} (h : closing ∈ [')', ']', '}']) (s : List Char) :
    Delimited (closing :: s) := ⟨_, s, rfl, List.mem_cons_of_mem _ h⟩

/-- A class without commas and brackets ends there. -/
theorem Delimited.leaves {p : Char → Bool} (h : Delimited s)
    (hp : ∀ c ∈ [',', ')', ']', '}'], p c = false) : Leaves p s := by
  obtain ⟨c, s, rfl, hc⟩ := h
  exact leaves_cons.2 (hp c hc)

theorem qualifiedName_append {d n : String} (hd : IsName d) (hn : IsName n)
    (hrest : Leaves isWordChar rest) :
    qualifiedName (d.toList ++ '.' :: (n.toList ++ rest)) = .done (d, n) rest := by
  rw [qualifiedName, name, bind_done (word_append hd (leaves_cons.2 (by decide))),
    bind_done (char_cons _ _), bind_done (word_append hn hrest), pure_apply]

/-- Characters that can stand after a mark. -/
def IsMarkable (s : String) : Prop := s ≠ "" ∧ ∀ c ∈ s.toList, isWordChar c

theorem takeWhile1_markable {w : String} (h : IsMarkable w) (hrest : Leaves isWordChar rest) :
    takeWhile1 isWordChar (w.toList ++ rest) = .done w.toList rest :=
  takeWhile1_append h.2 (mt String.toList_eq_nil_iff.1 h.1) hrest

theorem marked_append {mark : Char} {w : String} (h : IsMarkable w)
    (hrest : Leaves isWordChar rest) :
    marked mark (mark :: (w.toList ++ rest)) = .done w rest := by
  rw [marked, bind_done (char_cons _ _), bind_done (takeWhile1_markable h hrest), pure_apply,
    String.ofList_toList]

theorem isMarkable_toString (n : Nat) : IsMarkable (toString n) := by
  refine ⟨fun h => toString_ne_empty n (by rw [h]; rfl), fun c hc => ?_⟩
  have := isDigit_of_mem_toString hc
  simp [isWordChar, Char.isAlphanum, this]

/-! ## Symbols -/

/-- A symbol of letters, digits and underscores has no letters or digits other than
    those of ASCII. -/
def IsLegible (name : String) : Prop :=
  (∀ c ∈ name.toList, isAlphanumeric c ∨ c = '_') → ∀ c ∈ name.toList, c.toNat < 0x80

theorem isWordChar_of_isLegible {name : String} (h : IsLegible name)
    (hall : ∀ c ∈ name.toList, isAlphanumeric c ∨ c = '_') : ∀ c ∈ name.toList, isWordChar c := by
  intro c hc
  have hsmall := h hall c hc
  rcases hall c hc with halnum | rfl
  · rw [isAlphanumeric, if_pos hsmall] at halnum
    simp [isWordChar, halnum]
  · rfl

theorem symbol_mark_quote (s : List Char) : symbol ('@' :: '"' :: s) = quotedString ('"' :: s) := rfl

theorem symbol_mark_word (h : s.head? ≠ some '"') :
    symbol ('@' :: s) = (do return String.ofList (← takeWhile1 isWordChar) : Reader String) s := by
  rw [symbol, bind_done (char_cons _ _), bind_done (startsWith_apply _ _),
    if_neg (by simpa using h)]

/-- A symbol in quotes reads as the symbol, whatever comes after it. -/
theorem symbol_quoted (name : String) (rest : List Char) :
    symbol ('@' :: ((quoted name).toList ++ rest)) = .done name rest := by
  have hread := quotedString_append name rest
  rw [toList_quoted, List.cons_append] at hread ⊢
  rw [symbol_mark_quote, hread]

theorem toList_marked (t : String) (rest : List Char) :
    ("@" ++ t).toList ++ rest = '@' :: (t.toList ++ rest) := by
  rw [String.toList_append]
  rfl

/-- A symbol reads as the symbol. -/
theorem symbol_append {name : String} (h : IsLegible name) (hrest : Leaves isWordChar rest) :
    symbol ((symbolText name).toList ++ rest) = .done name rest := by
  rw [symbolText]
  split
  · rename_i hplain
    simp only [Bool.and_eq_true, Bool.not_eq_true', List.all_eq_true,
      Bool.or_eq_true, decide_eq_true_eq, String.isEmpty_eq_false_iff] at hplain
    have hmark : IsMarkable name := ⟨hplain.1, isWordChar_of_isLegible h hplain.2⟩
    have hquote : (name.toList ++ rest).head? ≠ some '"' := by
      rw [List.head?_append_of_ne_nil _ (mt String.toList_eq_nil_iff.1 hmark.1)]
      intro heq
      exact absurd (hmark.2 '"' (List.mem_of_mem_head? heq)) (by decide)
    rw [toList_marked, symbol_mark_word hquote, bind_done (takeWhile1_markable hmark hrest), pure_apply,
      String.ofList_toList]
  · rw [toList_marked, symbol_quoted]

theorem head?_symbolText (name : String) : (symbolText name).toList.head? = some '@' := by
  rw [symbolText]
  split <;> rw [String.toList_append] <;> rfl

/-! ## Lists -/

section Listed

variable {α : Type} {item : Reader α} {a : α} {as : List α} {opening closing : Char}
  {texts : List String}

theorem toList_commas_cons (t : String) (texts : List String) :
    (commas (t :: texts)).toList =
      t.toList ++ texts.flatMap fun t => ',' :: ' ' :: t.toList := by
  induction texts generalizing t with
  | nil => rw [commas, String.intercalate_singleton, List.flatMap_nil, List.append_nil]
  | cons u texts ih =>
    have hcomma : commas (t :: u :: texts) = t ++ ", " ++ commas (u :: texts) :=
      String.intercalate_cons_cons
    rw [hcomma, String.toList_append, String.toList_append, ih, List.flatMap_cons]
    simp

theorem length_lt_length_flatMap {t : String} (h : t ∈ texts) :
    t.toList.length < (texts.flatMap fun t => ',' :: ' ' :: t.toList).length := by
  obtain ⟨before, after, rfl⟩ := List.append_of_mem h
  simp only [List.flatMap_append, List.flatMap_cons, List.length_append, List.length_cons]
  omega

theorem length_le_length_commas {t : String} (h : t ∈ texts) :
    t.toList.length ≤ (commas texts).toList.length := by
  cases texts with
  | nil => cases h
  | cons u texts =>
    rw [toList_commas_cons, List.length_append]
    rcases List.mem_cons.1 h with rfl | h
    · exact Nat.le_add_right _ _
    · exact (length_lt_length_flatMap h).le.trans (Nat.le_add_left _ _)

theorem length_le_length_flatMap (texts : List String) :
    texts.length ≤ (texts.flatMap fun t => ',' :: ' ' :: t.toList).length := by
  induction texts with
  | nil => exact Nat.le_refl 0
  | cons t texts ih =>
    simp only [List.flatMap_cons, List.length_append, List.length_cons]
    omega

theorem spaced_append {t : List Char} (ht : Leaves isSpace (t ++ rest))
    (hitem : item (t ++ rest) = .done a rest) (hrest : Leaves isSpace rest) :
    spaced item (t ++ rest) = .done a rest := by
  rw [spaced, bind_done (spaces_of_leaves ht), bind_done hitem, bind_done (spaces_of_leaves hrest),
    pure_apply]

/-- A text reads as an item, where a comma or a closing bracket follows. -/
structure IsItem (item : Reader α) (text : String) (a : α) : Prop where
  leaves : Leaves isSpace text.toList
  reads : ∀ rest, Delimited rest → item (text.toList ++ rest) = .done a rest

theorem IsItem.spaced {text : String} (h : IsItem item text a) (hrest : Delimited rest) :
    spaced item (text.toList ++ rest) = .done a rest :=
  have hspace : Leaves isSpace rest := hrest.leaves (by decide)
  spaced_append (leaves_isSpace_append h.leaves hspace) (h.reads rest hrest) hspace

theorem delimited_flatMap (hclosing : closing ∈ [')', ']', '}']) (texts : List String)
    (rest : List Char) :
    Delimited ((texts.flatMap fun t => ',' :: ' ' :: t.toList) ++ closing :: rest) := by
  cases texts with
  | nil => exact delimited_closing hclosing rest
  | cons t texts => exact delimited_comma _

theorem separatedRest_append (hclosing : closing ∈ [')', ']', '}'])
    (h : List.Forall₂ (IsItem item) texts as) {n : Nat} (hn : texts.length ≤ n)
    (rest : List Char) :
    separatedRest (spaced item) (char ',') n
      ((texts.flatMap fun t => ',' :: ' ' :: t.toList) ++ closing :: rest) =
        .done as (closing :: rest) := by
  induction h generalizing n with
  | nil =>
    refine separatedRest_stop (stuck_char ?_)
    rintro ⟨⟩
    exact absurd hclosing (by decide)
  | @cons t a texts as hitem htail ih =>
    obtain ⟨n, rfl⟩ := Nat.exists_eq_add_one.2 (Nat.zero_lt_of_lt hn)
    rw [List.flatMap_cons, List.append_assoc]
    have hread := hitem.spaced (delimited_flatMap hclosing texts rest)
    refine separatedRest_step (char_cons _ _) ?_ (ih (Nat.le_of_succ_le_succ hn))
    -- white space is skipped before an item, so the blank after the comma is
    exact hread

/-- Items with commas between them read as the items, where a closing bracket follows. -/
theorem separated1_append (hclosing : closing ∈ [')', ']', '}'])
    (h : List.Forall₂ (IsItem item) texts as) (hne : texts ≠ []) (rest : List Char) :
    separated1 (spaced item) (char ',') ((commas texts).toList ++ closing :: rest) =
      .done as (closing :: rest) := by
  cases h with
  | nil => exact absurd rfl hne
  | @cons t a texts as hitem htail =>
    rw [toList_commas_cons, List.append_assoc]
    refine separated1_done (hitem.spaced (delimited_flatMap hclosing texts rest))
      (separatedRest_append hclosing htail ?_ rest)
    rw [List.length_append]
    exact (length_le_length_flatMap texts).trans (Nat.le_add_right _ _)

theorem leaves_isSpace_closing (hclosing : closing ∈ [')', ']', '}']) (rest : List Char) :
    Leaves isSpace (closing :: rest) := by
  have hall : ∀ c ∈ [')', ']', '}'], isSpace c = false := by decide
  exact leaves_cons.2 (hall closing hclosing)

theorem bracketed_append {p : Reader α} {t : List Char} (hclosing : closing ∈ [')', ']', '}'])
    (ht : Leaves isSpace t) (hp : p (t ++ closing :: rest) = .done a (closing :: rest)) :
    bracketed opening closing p (opening :: (t ++ closing :: rest)) = .done a rest := by
  have hspace := leaves_isSpace_closing hclosing rest
  rw [bracketed, bind_done (char_cons _ _),
    bind_done (spaces_of_leaves (leaves_isSpace_append ht hspace)), bind_done hp,
    bind_done (spaces_of_leaves hspace), bind_done (char_cons _ _), pure_apply]

theorem leaves_isSpace_commas (h : List.Forall₂ (IsItem item) texts as) :
    Leaves isSpace (commas texts).toList := by
  cases h with
  | nil => exact leaves_nil _
  | cons hitem htail =>
    rw [toList_commas_cons]
    refine leaves_isSpace_append hitem.leaves ?_
    cases htail with
    | nil => exact leaves_nil _
    | cons => exact leaves_cons.2 (by decide)

/-- A list reads as its items, if no item can be read where it ends. -/
theorem listed_append (hclosing : closing ∈ [')', ']', '}'])
    (h : List.Forall₂ (IsItem item) texts as) (hstuck : Stuck item (closing :: rest)) :
    listed opening closing item (opening :: ((commas texts).toList ++ closing :: rest)) =
      .done as rest := by
  refine bracketed_append hclosing (leaves_isSpace_commas h) ?_
  by_cases hne : texts = []
  · subst hne
    cases h
    refine Stuck.separated ?_
    rw [spaced]
    exact stuck_bind (spaces_of_leaves (leaves_isSpace_closing hclosing rest)) (hstuck.bind _)
  · exact separated_done (separated1_append hclosing h hne rest)

end Listed

end Offload.Source
