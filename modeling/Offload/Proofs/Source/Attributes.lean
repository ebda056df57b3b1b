import Mathlib.Data.List.Forall2
import Offload.Proofs.Source.Lexical

/-!
# Types and attributes read back

The text of a type or an attribute reads as the type or the attribute
(`type_append`, `value_append`), for symbols that are legible and for numbers whose
text reads back.

The readers for attributes try one kind after another. Each case of the proof is
about why the kinds before its own get stuck, which the first characters of the
text decide. Types are the last kind, and can be told from the others by their
dialect alone.
-/

namespace Offload

open Text Text.Reader Source

/-! ## Numbers with a point -/

/-- The text of a number reads as the number. -/
def Double.ReadsBack (x : Double) : Prop := float (floatLayout.text x).toList = .done x []

namespace Text

/-- A text without some character that starts another starts what stands before the
    character there. -/
theorem prefix_of_prefix_append {t s rest : List Char} {c : Char} (hc : c ∉ t)
    (h : t <+: s ++ c :: rest) : t <+: s := by
  by_cases hlength : t.length ≤ s.length
  · exact List.prefix_of_prefix_length_le h (List.prefix_append _ _) hlength
  · have hsc : s ++ [c] <+: s ++ c :: rest := ⟨rest, by simp⟩
    have hs : s ++ [c] <+: t := by
      refine List.prefix_of_prefix_length_le hsc h ?_
      rw [List.length_append, List.length_singleton]
      omega
    exact absurd (hs.subset (List.mem_append_right _ (List.mem_singleton_self c))) hc

/-- A reading with more text after what is left. -/
def Reading.append {α : Type} (rest : List Char) : Reading α → Reading α
  | .done a s => .done a (s ++ rest)
  | .stuck place => .stuck (place ++ rest)

/-- What a reader makes of a text does not depend on what comes after a comma or a closing
    bracket. -/
def Reader.Local {α : Type} (p : Reader α) : Prop :=
  ∀ s rest, Delimited rest → p (s ++ rest) = (p s).append rest

namespace Reader.Local

variable {α β : Type} {p q : Reader α} {f : α → Reader β}

theorem pure (a : α) : Local (pure a : Reader α) := fun _ _ _ => rfl

theorem bind (hp : Local p) (hf : ∀ a, Local (f a)) : Local (p >>= f) := by
  intro s rest hrest
  rw [bind_apply, bind_apply, hp s rest hrest]
  cases p s with
  | done a s' => exact hf a s' rest hrest
  | stuck place => rfl

theorem orElse (hp : Local p) (hq : Local q) : Local (p <|> q) := by
  intro s rest hrest
  rw [orElse_apply, orElse_apply, hp s rest hrest]
  cases p s with
  | done a s' => rfl
  | stuck place => exact hq s rest hrest

theorem optional (hp : Local p) : Local (optional p) := by
  intro s rest hrest
  rw [Reader.optional, Reader.optional, hp s rest hrest]
  cases p s <;> rfl

section Classes

variable {p : Char → Bool} (hclass : ∀ c ∈ [',', ')', ']', '}'], p c = false)

include hclass

theorem satisfy : Local (satisfy p) := by
  intro s rest hrest
  cases s with
  | nil =>
    obtain ⟨c, rest, rfl, hc⟩ := hrest
    exact (if_neg (by simp [hclass c hc]) : (if p c then Reading.done c rest else _) = _)
  | cons c s =>
    rw [List.cons_append, Reader.satisfy, Reader.satisfy]
    split <;> rfl

theorem takeWhile : Local (takeWhile p) := by
  intro s rest hrest
  induction s with
  | nil => exact takeWhile_append (s := []) nofun (hrest.leaves hclass)
  | cons c s ih =>
    rw [Reader.takeWhile, Reader.takeWhile] at ih ⊢
    rw [List.cons_append, List.takeWhile_cons, List.dropWhile_cons, List.takeWhile_cons,
      List.dropWhile_cons]
    split
    · injection ih with htake hdrop
      rw [htake, hdrop]
      rfl
    · rfl

theorem takeWhile1 : Local (takeWhile1 p) :=
  (satisfy hclass).bind fun _ => (takeWhile hclass).bind fun _ => .pure _

end Classes

theorem char {c : Char} (hc : c ∉ [',', ')', ']', '}']) : Local (char c) :=
  (satisfy fun d hd => beq_eq_false_iff_ne.2 (by rintro rfl; exact hc hd)).bind fun _ => .pure _

theorem literal {t : String} (ht : ∀ c ∈ t.toList, c ∉ [',', ')', ']', '}']) :
    Local (literal t) := by
  intro s rest hrest
  by_cases h : t.toList <+: s
  · obtain ⟨s', rfl⟩ := h
    rw [List.append_assoc, literal_append, literal_append]
    rfl
  · have h' : ¬t.toList <+: s ++ rest := by
      intro hpre
      obtain ⟨c, rest, rfl, hc⟩ := hrest
      exact h (prefix_of_prefix_append (fun hm => ht c hm hc) hpre)
    rw [Reader.literal, Reader.literal, if_neg (mt List.isPrefixOf_iff_prefix.1 h),
      if_neg (mt List.isPrefixOf_iff_prefix.1 h')]
    rfl

end Reader.Local

end Text

namespace Source

theorem local_decimal : Local decimal := by
  refine .bind (.optional (.char (by decide))) fun _ => .bind (.takeWhile1 (by decide)) fun _ =>
    .bind (.char (by decide)) fun _ => .bind (.takeWhile1 (by decide)) fun _ =>
    .bind (.optional ?_) fun _ => .pure _
  exact .bind (.satisfy (by decide)) fun _ => .bind (.optional (.satisfy (by decide))) fun _ =>
    .bind (.takeWhile1 (by decide)) fun _ => .pure _

theorem local_float : Local float :=
  local_decimal.orElse <| .orElse ((Local.literal (by decide)).bind fun _ => .pure _) <|
    .orElse ((Local.literal (by decide)).bind fun _ => .pure _)
      ((Local.literal (by decide)).bind fun _ => .pure _)

theorem float_append {x : Double} (h : x.ReadsBack) {rest : List Char} (hrest : Delimited rest) :
    float ((floatLayout.text x).toList ++ rest) = .done x rest := by
  rw [local_float _ rest hrest, h]
  rfl

/-! ## What a text does not start with -/

section Stuck

variable {s rest : List Char} {c : Char} {n : Nat}

theorem stuck_char_of_head {d : Char} (hs : s.head? = some c) (h : c ≠ d) : Stuck (char d) s :=
  stuck_char (by rw [hs]; exact fun heq => h (Option.some.inj heq))

theorem stuck_literal_of_head {w : String} {d : Char} (hs : s.head? = some c)
    (hw : w.toList.head? = some d) (h : c ≠ d) : Stuck (literal w) s := by
  refine stuck_literal ?_
  rintro ⟨rest, rfl⟩
  rw [List.head?_append_of_ne_nil _ (by rintro hnil; rw [hnil] at hw; cases hw), hw] at hs
  exact h (Option.some.inj hs).symm

theorem leaves_of_head {p : Char → Bool} (hs : s.head? = some c) (h : p c = false) :
    Leaves p s := by
  intro d hd
  rw [hs] at hd
  cases hd
  exact h

theorem optional_minus (hs : s.head? = some c) (h : c ≠ '-') :
    optional (char '-') s = .done none s := (stuck_char_of_head hs h).optional

theorem stuck_decimal (hs : s.head? = some c) (hminus : c ≠ '-') (hdigit : c.isDigit = false) :
    Stuck decimal s :=
  stuck_bind (optional_minus hs hminus) ((leaves_of_head hs hdigit).stuck_takeWhile1.bind _)

theorem stuck_integer (hs : s.head? = some c) (hminus : c ≠ '-') (hdigit : c.isDigit = false) :
    Stuck integer s :=
  stuck_bind (optional_minus hs hminus) ((leaves_of_head hs hdigit).stuck_natural.bind _)

theorem stuck_qualifiedName (hs : s.head? = some c) (h : isWordStart c = false) :
    Stuck qualifiedName s :=
  (stuck_word (leaves_of_head hs h)).bind _

theorem stuck_type (hs : s.head? = some c) (h : isWordStart c = false) : Stuck (type n) s := by
  cases n with
  | zero => exact ⟨s, rfl⟩
  | succ n =>
    rw [type]
    exact (stuck_qualifiedName hs h).bind _

/-- The readers for a number or a type. -/
def numberOrType (n : Nat) : Reader AttributeTerm :=
  (do return .float (← float)) <|> (do return .int (← integer)) <|> (do return .type (← type n))

/-- The readers for attributes that do not start with a word of their own. -/
def afterWords (n : Nat) : Reader AttributeTerm :=
  (do return .string (← quotedString)) <|> (do return .symbol (← symbol))
    <|> (do return .list (← listed '[' ']' (value n))) <|> numberOrType n

theorem value_of_head (hs : s.head? = some c) (h : c ∉ ['t', 'f', 'u', 'l', 'b']) :
    value (n + 1) s = afterWords n s := by
  simp only [List.mem_cons, List.not_mem_nil, or_false, not_or] at h
  obtain ⟨ht, hf, hu, hl, hb⟩ := h
  rw [value, ((stuck_literal_of_head hs rfl ht).bind _).orElse,
    ((stuck_literal_of_head hs rfl hf).bind _).orElse,
    ((stuck_literal_of_head hs rfl hu).bind _).orElse,
    Stuck.orElse (p := location) ((stuck_literal_of_head hs rfl hl).bind _),
    Stuck.orElse (p := bytes) ((stuck_literal_of_head hs rfl hb).bind _)]
  rfl

theorem afterWords_of_head (hs : s.head? = some c) (h : c ∉ ['"', '@', '[']) :
    afterWords n s = numberOrType n s := by
  simp only [List.mem_cons, List.not_mem_nil, or_false, not_or] at h
  obtain ⟨hquote, hat, hbracket⟩ := h
  have hstring : Stuck quotedString s := (stuck_char_of_head hs hquote).bind _
  have hsymbol : Stuck symbol s := (stuck_char_of_head hs hat).bind _
  have hlist : Stuck (listed '[' ']' (value n)) s := (stuck_char_of_head hs hbracket).bind _
  rw [afterWords, (hstring.bind _).orElse, (hsymbol.bind _).orElse, (hlist.bind _).orElse]

/-- No attribute starts with a closing bracket. -/
theorem stuck_value {closing : Char} (hclosing : closing ∈ [')', ']', '}']) :
    Stuck (value n) (closing :: s) := by
  cases n with
  | zero => exact ⟨_, rfl⟩
  | succ n =>
    have hnone : ∀ c ∈ [')', ']', '}'], c ∉ ['t', 'f', 'u', 'l', 'b'] ∧ c ∉ ['"', '@', '['] ∧
        c ≠ '-' ∧ c.isDigit = false ∧ isWordStart c = false ∧ c ≠ 'i' ∧ c ≠ 'N' := by decide
    obtain ⟨hword, hmark, hminus, hdigit, hstart, hi, hn⟩ := hnone closing hclosing
    have hs : (closing :: s).head? = some closing := rfl
    rw [Stuck, value_of_head hs hword, afterWords_of_head hs hmark]
    refine stuck_orElse.2 ⟨(stuck_orElse.2 ⟨stuck_decimal hs hminus hdigit, stuck_orElse.2
      ⟨?_, stuck_orElse.2 ⟨?_, ?_⟩⟩⟩).bind _, stuck_orElse.2
      ⟨(stuck_integer hs hminus hdigit).bind _, (stuck_type hs hstart).bind _⟩⟩
    · exact (stuck_literal_of_head hs rfl hminus).bind _
    · exact (stuck_literal_of_head hs rfl hi).bind _
    · exact (stuck_literal_of_head hs rfl hn).bind _

end Stuck

/-! ## The kinds of attributes -/

section Kinds

variable {rest : List Char} {n : Nat}

theorem value_true : value (n + 1) ("true".toList ++ rest) = .done (.bool true) rest := by
  rw [value]
  exact orElse_done (bind_done (literal_append "true" rest))

theorem value_false : value (n + 1) ("false".toList ++ rest) = .done (.bool false) rest := by
  rw [value, ((stuck_literal_of_head rfl rfl (by decide)).bind _).orElse]
  exact orElse_done (bind_done (literal_append "false" rest))

theorem value_unit : value (n + 1) ("unit".toList ++ rest) = .done .unit rest := by
  rw [value, ((stuck_literal_of_head rfl rfl (by decide)).bind _).orElse,
    ((stuck_literal_of_head rfl rfl (by decide)).bind _).orElse]
  exact orElse_done (bind_done (literal_append "unit" rest))

theorem toList_locationText (path : String) (span : Span) :
    (valueText (.location path span)).toList = "loc(".toList ++ ((quoted path).toList ++
      ' ' :: ((toString span.start).toList ++ ':' :: ((toString span.stop).toList ++ [')']))) := by
  simp only [valueText, String.toList_append, List.append_assoc]
  rfl

theorem value_location {path : String} {span : Span} (hstart : span.start < UInt64.size)
    (hstop : span.stop < UInt64.size) :
    value (n + 1) ((valueText (.location path span)).toList ++ rest) =
      .done (.location path span) rest := by
  have hquote (s : List Char) : Leaves isSpace ((quoted path).toList ++ s) := by
    rw [toList_quoted]
    exact leaves_cons.2 (by decide)
  have hlocation : location ((valueText (.location path span)).toList ++ rest) =
      .done (.location path span) rest := by
    simp only [toList_locationText, List.append_assoc, List.cons_append]
    rw [location, bind_done (literal_append _ _), bind_done (spaces_of_leaves (hquote _)),
      bind_done (quotedString_append _ _),
      bind_done (spaces_blank (leaves_toString isSpace_of_isDigit _ _)),
      bind_done (natural_append hstart (leaves_cons.2 (by decide))), bind_done (char_cons _ _),
      bind_done (natural_append hstop (leaves_cons.2 (by decide))),
      bind_done (spaces_of_leaves (leaves_cons.2 (by decide))), bind_done (char_cons _ _)]
    rfl
  have hs : ((valueText (.location path span)).toList ++ rest).head? = some 'l' := by
    rw [toList_locationText]
    rfl
  rw [value, ((stuck_literal_of_head hs rfl (by decide)).bind _).orElse,
    ((stuck_literal_of_head hs rfl (by decide)).bind _).orElse,
    ((stuck_literal_of_head hs rfl (by decide)).bind _).orElse]
  exact orElse_done hlocation

theorem isItem_natural {limit n : Nat} (h : n < limit) :
    IsItem (natural limit) (toString n) n where
  leaves := by
    have := leaves_toString isSpace_of_isDigit n []
    rwa [List.append_nil] at this
  reads rest hrest := natural_append h (hrest.leaves (by decide))

theorem forall₂_isItem_natural (data : List UInt8) :
    List.Forall₂ (IsItem (natural 256)) (data.map fun b => toString b.toNat)
      (data.map UInt8.toNat) := by
  induction data with
  | nil => exact .nil
  | cons b data ih => exact .cons (isItem_natural b.toNat_lt) ih

theorem value_bytes (data : List UInt8) :
    value (n + 1) ((valueText (.bytes data)).toList ++ rest) = .done (.bytes data) rest := by
  have hs : (valueText (.bytes data)).toList ++ rest = "bytes".toList ++
      '(' :: ((commas (data.map fun b => toString b.toNat)).toList ++ ')' :: rest) := by
    simp only [valueText, String.toList_append, List.append_assoc]
    rfl
  have hhead : ((valueText (.bytes data)).toList ++ rest).head? = some 'b' := by
    rw [hs]
    rfl
  have hback : (data.map UInt8.toNat).map Nat.toUInt8 = data := by
    rw [List.map_map]
    exact List.map_id'' (fun b => UInt8.ofNat_toNat) data
  have hbytes : bytes ((valueText (.bytes data)).toList ++ rest) = .done (.bytes data) rest := by
    rw [hs, bytes, bind_done (literal_append _ _),
      bind_done (listed_append (by decide) (forall₂_isItem_natural data)
        (Leaves.stuck_natural (leaves_cons.2 (by decide)))), hback]
    rfl
  rw [value, ((stuck_literal_of_head hhead rfl (by decide)).bind _).orElse,
    ((stuck_literal_of_head hhead rfl (by decide)).bind _).orElse,
    ((stuck_literal_of_head hhead rfl (by decide)).bind _).orElse,
    Stuck.orElse (p := location) ((stuck_literal_of_head hhead rfl (by decide)).bind _)]
  exact orElse_done hbytes

theorem value_string (t : String) :
    value (n + 1) ((quoted t).toList ++ rest) = .done (.string t) rest := by
  have hs : ((quoted t).toList ++ rest).head? = some '"' := by
    rw [toList_quoted]
    rfl
  rw [value_of_head hs (by decide)]
  exact orElse_done (bind_done (quotedString_append t rest))

theorem value_of_symbol {name : String} {s : List Char} (hs : s.head? = some '@')
    (hread : symbol s = .done name rest) : value (n + 1) s = .done (.symbol name) rest := by
  have hstring : Stuck quotedString s := (stuck_char_of_head hs (by decide)).bind _
  rw [value_of_head hs (by decide), afterWords, (hstring.bind _).orElse]
  exact orElse_done (bind_done hread)

theorem value_symbol {name : String} (h : IsLegible name) (hrest : Leaves isWordChar rest) :
    value (n + 1) ((symbolText name).toList ++ rest) = .done (.symbol name) rest := by
  refine value_of_symbol ?_ (symbol_append h hrest)
  rw [List.head?_append, head?_symbolText, Option.some_or]

/-- A symbol that has no characters, or others than letters, digits and underscores, is
    quoted. -/
theorem symbolText_of_odd {name : String}
    (h : name = "" ∨ ∃ c ∈ name.toList, ¬(isAlphanumeric c ∨ c = '_')) :
    symbolText name = "@" ++ quoted name := by
  rw [symbolText, if_neg]
  simp only [Bool.and_eq_true, Bool.not_eq_true', String.isEmpty_eq_false_iff, List.all_eq_true,
    Bool.or_eq_true, decide_eq_true_eq]
  rintro ⟨hne, hplain⟩
  rcases h with rfl | ⟨c, hc, hodd⟩
  · exact hne rfl
  · exact hodd (hplain c hc)

theorem value_symbol_of_odd {name : String}
    (h : name = "" ∨ ∃ c ∈ name.toList, ¬(isAlphanumeric c ∨ c = '_')) :
    value (n + 1) ((symbolText name).toList ++ rest) = .done (.symbol name) rest := by
  rw [symbolText_of_odd h, toList_marked]
  exact value_of_symbol rfl (symbol_quoted name rest)

/-- Any string in quotes reads back, and nothing of what comes after the closing quote is
    taken: as a string, as a symbol that needs quotes and as the path of a location. -/
theorem quoted_exact (s : String) (rest : List Char) :
    quotedString ('"' :: ((escape s).toList ++ '"' :: rest)) = .done s rest ∧
    symbol ('@' :: '"' :: ((escape s).toList ++ '"' :: rest)) = .done s rest ∧
    ∀ n, value (n + 1) ((valueText (.string s)).toList ++ rest) = .done (.string s) rest ∧
      (s = "" ∨ (∃ c ∈ s.toList, ¬(isAlphanumeric c ∨ c = '_')) →
        value (n + 1) ((valueText (.symbol s)).toList ++ rest) = .done (.symbol s) rest) ∧
      ∀ span : Span, span.start < UInt64.size → span.stop < UInt64.size →
        value (n + 1) ((valueText (.location s span)).toList ++ rest) =
          .done (.location s span) rest := by
  have hquoted : (quoted s).toList ++ rest = '"' :: ((escape s).toList ++ '"' :: rest) := by
    simp [quoted]
  rw [← hquoted]
  exact ⟨quotedString_append s rest, symbol_quoted s rest, fun n =>
    ⟨value_string s, value_symbol_of_odd, fun span => value_location⟩⟩

/-- A quote, what looks like an escape, and control characters. -/
def oddName : String := "\"\\x41\x7f\u0085\n"

/-- A digit and more quotes after it are left alone. -/
theorem quoted_exact_oddName : (∃ c ∈ oddName.toList, ¬(isAlphanumeric c ∨ c = '_')) ∧
    value 1 ((valueText (.symbol oddName)).toList ++ "0\"\"".toList) =
      .done (.symbol oddName) "0\"\"".toList ∧
    (3 < UInt64.size ∧ 8 < UInt64.size) ∧
    value 1 ((valueText (.location oddName ⟨3, 8⟩)).toList ++ "0\"\"".toList) =
      .done (.location oddName ⟨3, 8⟩) "0\"\"".toList := by
  have hodd : ∃ c ∈ oddName.toList, ¬(isAlphanumeric c ∨ c = '_') := ⟨'"', by decide, by decide⟩
  obtain ⟨-, -, hvalues⟩ := quoted_exact oddName "0\"\"".toList
  obtain ⟨-, hsymbol, hlocation⟩ := hvalues 0
  exact ⟨hodd, hsymbol (.inr hodd), by decide, hlocation ⟨3, 8⟩ (by decide) (by decide)⟩

theorem value_list {texts : List String} {as : List AttributeTerm}
    (h : List.Forall₂ (IsItem (value n)) texts as) :
    value (n + 1) ('[' :: ((commas texts).toList ++ ']' :: rest)) = .done (.list as) rest := by
  have hs (s : List Char) : ('[' :: s).head? = some '[' := rfl
  have hstring (s : List Char) : Stuck quotedString ('[' :: s) :=
    (stuck_char_of_head (hs s) (by decide)).bind _
  have hsymbol (s : List Char) : Stuck symbol ('[' :: s) :=
    (stuck_char_of_head (hs s) (by decide)).bind _
  rw [value_of_head (hs _) (by decide), afterWords, ((hstring _).bind _).orElse,
    ((hsymbol _).bind _).orElse]
  exact orElse_done (bind_done (listed_append (by decide) h (stuck_value (by decide))))

/-- A number with a point starts like one, or with a letter of its own. -/
theorem exists_head_of_float {s : List Char} {x : Double} (h : float s = .done x rest) :
    ∃ c, s.head? = some c ∧ (c = '-' ∨ c.isDigit ∨ c = 'i' ∨ c = 'N') := by
  cases s with
  | nil => cases h
  | cons c s =>
    refine ⟨c, rfl, ?_⟩
    by_contra hc
    simp only [not_or, Bool.not_eq_true] at hc
    obtain ⟨hminus, hdigit, hi, hn⟩ := hc
    have hs : (c :: s).head? = some c := rfl
    have hstuck : Stuck float (c :: s) := stuck_orElse.2 ⟨stuck_decimal hs hminus hdigit,
      stuck_orElse.2 ⟨(stuck_literal_of_head hs rfl hminus).bind _, stuck_orElse.2
        ⟨(stuck_literal_of_head hs rfl hi).bind _, (stuck_literal_of_head hs rfl hn).bind _⟩⟩⟩
    obtain ⟨place, hplace⟩ := hstuck
    rw [hplace] at h
    cases h

theorem not_mem_of_isDigit {c : Char} {l : List Char} (hc : c.isDigit)
    (hl : ∀ d ∈ l, d.isDigit = false) : c ∉ l := fun hm => by
  rw [hl c hm] at hc
  cases hc

theorem value_float {x : Double} (h : x.ReadsBack) (hrest : Delimited rest) :
    value (n + 1) ((floatLayout.text x).toList ++ rest) = .done (.float x) rest := by
  have hfloat := float_append h hrest
  obtain ⟨c, hs, hc⟩ := exists_head_of_float hfloat
  have hnone : c ∉ ['t', 'f', 'u', 'l', 'b'] ∧ c ∉ ['"', '@', '['] := by
    rcases hc with rfl | hc | rfl | rfl
    · decide
    · exact ⟨not_mem_of_isDigit hc (by decide), not_mem_of_isDigit hc (by decide)⟩
    · decide
    · decide
  rw [value_of_head hs hnone.1, afterWords_of_head hs hnone.2]
  exact orElse_done (bind_done hfloat)

theorem value_int {bits : UInt64} (hrest : Delimited rest) :
    value (n + 1) ((toString bits.toNat).toList ++ rest) = .done (.int bits) rest := by
  obtain ⟨c, hs, hdigit⟩ := exists_head?_toString bits.toNat rest
  have hne {d : Char} (hd : d.isDigit = false) : c ≠ d := by
    rintro rfl
    rw [hd] at hdigit
    cases hdigit
  have hminus := optional_minus hs (hne (by decide))
  have hdigits : Leaves Char.isDigit rest := hrest.leaves (by decide)
  have hdecimal : Stuck decimal ((toString bits.toNat).toList ++ rest) := by
    refine stuck_bind hminus (stuck_bind (takeWhile1_append (fun c => isDigit_of_mem_toString)
      (toString_ne_empty _) hdigits) ((stuck_char fun heq => ?_).bind _))
    exact absurd ((hrest.leaves (p := (· == '.')) (by decide)) '.' heq) (by decide)
  have hfloat : Stuck float ((toString bits.toNat).toList ++ rest) := stuck_orElse.2 ⟨hdecimal,
    stuck_orElse.2 ⟨(stuck_literal_of_head hs rfl (hne (by decide))).bind _, stuck_orElse.2
      ⟨(stuck_literal_of_head hs rfl (hne (by decide))).bind _,
        (stuck_literal_of_head hs rfl (hne (by decide))).bind _⟩⟩⟩
  have hinteger : integer ((toString bits.toNat).toList ++ rest) = .done bits rest := by
    rw [integer, bind_done hminus, bind_done (natural_append bits.toNat_lt hdigits)]
    exact congrArg (Reading.done · rest) UInt64.ofNat_toNat
  rw [value_of_head hs (not_mem_of_isDigit hdigit (by decide)),
    afterWords_of_head hs (not_mem_of_isDigit hdigit (by decide)), numberOrType,
    (hfloat.bind _).orElse]
  exact orElse_done (bind_done hinteger)

theorem IsName.isWordChar {w : String} (h : IsName w) : ∀ c ∈ w.toList, isWordChar c := by
  obtain ⟨c, cs, heq, hc, hcs⟩ := h
  rw [heq]
  refine List.forall_mem_cons.2 ⟨?_, hcs⟩
  simp only [isWordStart, Bool.or_eq_true, decide_eq_true_eq] at hc
  rcases hc with hc | rfl
  · simp [Source.isWordChar, Char.isAlphanum, hc]
  · rfl

theorem value_type {dialect name : String} {params : List TypeTerm} {attributes : List Entry}
    {s : List Char} (hdialect : IsName dialect)
    (hplain : (TypeTerm.mk dialect name params attributes).IsPlain)
    (ht : type n (dialect.toList ++ '.' :: s) = .done (.mk dialect name params attributes) rest) :
    value (n + 1) (dialect.toList ++ '.' :: s) =
      .done (.type (.mk dialect name params attributes)) rest := by
  obtain ⟨c, hs, hc⟩ := IsWord.exists_head hdialect ('.' :: s)
  have hne {d : Char} (hd : isWordStart d = false) : c ≠ d := by
    rintro rfl
    rw [hd] at hc
    cases hc
  have hword {w : String} (hw : w ∈ valueWords) : Stuck (literal w) (dialect.toList ++ '.' :: s) := by
    have hdot : ∀ w ∈ valueWords, '.' ∉ w.toList := by decide
    exact stuck_literal fun h => hplain w hw (prefix_of_prefix_append (hdot w hw) h)
  have hlocation : Stuck location (dialect.toList ++ '.' :: s) := by
    refine (stuck_literal fun h => ?_).bind _
    have h := prefix_of_prefix_append (by decide) h
    exact absurd (hdialect.isWordChar '(' (h.subset (by decide))) (by decide)
  have hbytes : Stuck bytes (dialect.toList ++ '.' :: s) := by
    by_cases h : "bytes".toList <+: dialect.toList
    · obtain ⟨d, hd⟩ := h
      rw [← hd, List.append_assoc]
      refine stuck_bind (literal_append _ _) (((stuck_char fun heq => ?_).bind _).bind _)
      cases d with
      | nil => cases heq
      | cons e d =>
        cases heq
        exact absurd (hdialect.isWordChar '(' (by rw [← hd]; simp)) (by decide)
    · exact (stuck_literal fun h' => h (prefix_of_prefix_append (by decide) h')).bind _
  have hdigit := isDigit_of_isWordStart hc
  have hfloat : Stuck float (dialect.toList ++ '.' :: s) := stuck_orElse.2
    ⟨stuck_decimal hs (hne (by decide)) hdigit,
      stuck_orElse.2 ⟨(stuck_literal_of_head hs rfl (hne (by decide))).bind _, stuck_orElse.2
        ⟨(hword (by decide)).bind _, (hword (by decide)).bind _⟩⟩⟩
  rw [value, ((hword (by decide)).bind _).orElse, ((hword (by decide)).bind _).orElse,
    ((hword (by decide)).bind _).orElse, hlocation.orElse, hbytes.orElse]
  change afterWords n _ = _
  have hmark : c ∉ ['"', '@', '['] := fun hm => by
    have hnone : ∀ d ∈ ['"', '@', '['], isWordStart d = false := by decide
    exact hne (hnone c hm) rfl
  rw [afterWords_of_head hs hmark, numberOrType, (hfloat.bind _).orElse,
    ((stuck_integer hs (hne (by decide)) hdigit).bind _).orElse]
  exact bind_done ht

end Kinds

/-! ## Attributes in braces -/

section Entries

variable {rest : List Char} {v : Reader AttributeTerm}

/-- An attribute under a key. -/
def entryText : Entry → String
  | .mk key a => key ++ " = " ++ valueText a

theorem entryTexts_eq_map (es : List Entry) : entryTexts es = es.map entryText := by
  induction es with
  | nil => rfl
  | cons e es ih =>
    obtain ⟨key, a⟩ := e
    rw [entryTexts, ih, List.map_cons, entryText]

theorem typeTexts_eq_map (ts : List TypeTerm) : typeTexts ts = ts.map typeText := by
  induction ts with
  | nil => rfl
  | cons t ts ih => rw [typeTexts, ih, List.map_cons]

theorem valueTexts_eq_map (as : List AttributeTerm) : valueTexts as = as.map valueText := by
  induction as with
  | nil => rfl
  | cons a as ih => rw [valueTexts, ih, List.map_cons]

theorem toList_entryText (key : String) (a : AttributeTerm) : (entryText (.mk key a)).toList =
    key.toList ++ ' ' :: '=' :: ' ' :: (valueText a).toList := by
  simp only [entryText, String.toList_append, List.append_assoc]
  rfl

/-- Attributes in braces read as the attributes. -/
theorem entries_append {es : List Entry} (hne : es ≠ [])
    (h : ∀ key a, Entry.mk key a ∈ es → IsKey key ∧ IsItem v (valueText a) a) :
    entries v ('{' :: ((commas (entryTexts es)).toList ++ '}' :: rest)) = .done es rest := by
  have hitems : List.Forall₂ (IsItem (do
      let k ← key
      spaces
      char '='
      spaces
      return .mk k (← v))) (entryTexts es) es := by
    rw [entryTexts_eq_map, List.forall₂_map_left_iff]
    refine List.forall₂_same.2 fun e he => ?_
    obtain ⟨key, a⟩ := e
    obtain ⟨hkey, ha⟩ := h key a he
    refine ⟨?_, fun rest hrest => ?_⟩
    · rw [toList_entryText]
      exact hkey.leaves_isSpace (by decide) _
    · rw [toList_entryText]
      simp only [List.append_assoc, List.cons_append]
      have hspace := leaves_isSpace_append ha.leaves (hrest.leaves (p := isSpace) (by decide))
      refine (bind_done (word_append hkey (leaves_cons.2 (by decide)))).trans ?_
      rw [bind_done (spaces_blank (leaves_cons.2 (by decide))), bind_done (char_cons _ _),
        bind_done (spaces_blank hspace), bind_done (ha.reads rest hrest), pure_apply]
  exact bracketed_append (by decide) (leaves_isSpace_commas hitems)
    (separated1_append (by decide) hitems (by rwa [entryTexts_eq_map, Ne, List.map_eq_nil_iff]) rest)

end Entries

/-! ## Types -/

/-- A type ends here: neither its name goes on, nor do its arguments or attributes. -/
structure TypeEnds (s : List Char) : Prop where
  word : Leaves isWordChar s
  params : s.head? ≠ some '('
  attributes : ∀ v, Stuck (do blanks; entries v) s

theorem Delimited.typeEnds {s : List Char} (h : Delimited s) : TypeEnds s := by
  refine ⟨h.leaves (by decide), fun heq => ?_, fun v => ?_⟩
  · exact absurd (h.leaves (p := (· == '(')) (by decide) '(' heq) (by decide)
  · obtain ⟨c, s, rfl, hc⟩ := h
    have hall : ∀ c ∈ [',', ')', ']', '}'], isBlank c = false ∧ c ≠ '{' := by decide
    obtain ⟨hblank, hbrace⟩ := hall c hc
    refine stuck_bind (blanks_apply _) ((stuck_char_of_head (c := c) ?_ hbrace).bind _)
    rw [skip_of_leaves (leaves_cons.2 hblank)]
    rfl

section Types

variable {rest : List Char} {n : Nat} {d nm : String}

theorem toList_entriesText (es : List Entry) : (entriesText es).toList =
    if es = [] then [] else ' ' :: '{' :: ((commas (entryTexts es)).toList ++ ['}']) := by
  rw [entriesText]
  cases es with
  | nil => rfl
  | cons e es =>
    rw [if_neg (by simp), if_neg (by simp)]
    simp only [String.toList_append, List.append_assoc]
    rfl

/-- Attributes after what they belong to, or none. -/
theorem optionally_entries {es : List Entry} {v : Reader AttributeTerm}
    (h : ∀ key a, Entry.mk key a ∈ es → IsKey key ∧ IsItem v (valueText a) a)
    (hrest : es = [] → Stuck (do blanks; entries v) rest) :
    ∃ o, optionally (entries v) ((entriesText es).toList ++ rest) = .done o rest ∧
      o.getD [] = es := by
  rw [toList_entriesText]
  by_cases hes : es = []
  · rw [if_pos hes, hes, List.nil_append]
    exact ⟨none, (hrest hes).optional, rfl⟩
  · rw [if_neg hes]
    refine ⟨some es, optional_done ?_, rfl⟩
    simp only [List.cons_append, List.append_assoc, List.nil_append]
    exact (bind_done (blanks_apply _)).trans (entries_append hes h)

theorem toList_typeText (d nm : String) (params : List TypeTerm) (es : List Entry)
    (rest : List Char) :
    (typeText (.mk d nm params es)).toList ++ rest = d.toList ++ '.' :: (nm.toList ++
      if params = [] ∧ es = [] then rest
      else '(' :: ((commas (typeTexts params)).toList ++ ')' :: ((entriesText es).toList ++ rest))) := by
  have hentries : (if es.isEmpty then "" else " \x7b" ++ commas (entryTexts es) ++ "\x7d") =
      entriesText es := rfl
  rw [typeText, hentries]
  simp only [String.toList_append, List.append_assoc]
  cases params with
  | nil =>
    cases es with
    | nil => rfl
    | cons e es =>
      simp only [List.isEmpty_nil, List.isEmpty_cons, Bool.not_true, Bool.not_false, if_true,
        Bool.false_eq_true, reduceCtorEq, and_false, if_false]
      rfl
  | cons t params =>
    simp only [List.isEmpty_cons, Bool.not_false, if_true, reduceCtorEq, false_and, if_false,
      String.toList_append, List.append_assoc]
    rfl

/-- The text of a type reads as the type, given as much of its arguments and attributes. -/
theorem type_append_of {params : List TypeTerm} {es : List Entry} (hd : IsName d)
    (hn : IsName nm) (hparams : ∀ t ∈ params, IsItem (type n) (typeText t) t)
    (hes : ∀ key a, Entry.mk key a ∈ es → IsKey key ∧ IsItem (value n) (valueText a) a)
    (hrest : TypeEnds rest) :
    type (n + 1) ((typeText (.mk d nm params es)).toList ++ rest) =
      .done (.mk d nm params es) rest := by
  rw [toList_typeText, type]
  split
  · rename_i hnone
    obtain ⟨rfl, rfl⟩ := hnone
    have hlisted : Stuck (listed '(' ')' (type n)) rest := (stuck_char hrest.params).bind _
    exact (bind_done (qualifiedName_append hd hn hrest.word)).trans (bind_done hlisted.optional)
  · have hitems : List.Forall₂ (IsItem (type n)) (typeTexts params) params := by
      rw [typeTexts_eq_map, List.forall₂_map_left_iff]
      exact List.forall₂_same.2 hparams
    obtain ⟨o, ho, hos⟩ := optionally_entries hes fun _ => hrest.attributes (value n)
    have hstuck : Stuck (type n) (')' :: ((entriesText es).toList ++ rest)) :=
      stuck_type rfl (by decide)
    have hlisted : listed '(' ')' (type n) ('(' :: ((commas (typeTexts params)).toList ++
        ')' :: ((entriesText es).toList ++ rest))) = _ := listed_append (by decide) hitems hstuck
    refine (bind_done (qualifiedName_append hd hn (leaves_cons.2 (by decide)))).trans ?_
    refine (bind_done (optional_done hlisted)).trans ((bind_done ho).trans ?_)
    subst hos
    rfl

end Types

/-! ## Everything together -/

/-- An attribute without parts that reads back. -/
def IsReadable : AttributeTerm → Prop
  | .symbol name => IsLegible name
  | .float x => x.ReadsBack
  | _ => True

theorem length_lt_of_mem_params (d nm : String) {params : List TypeTerm} (es : List Entry)
    {t : TypeTerm} (h : t ∈ params) :
    (typeText t).toList.length + 2 < (typeText (.mk d nm params es)).toList.length := by
  have hlength := length_le_length_commas (List.mem_map_of_mem (f := typeText) h)
  have htext := toList_typeText d nm params es []
  rw [List.append_nil, if_neg (by rintro ⟨rfl, -⟩; cases h)] at htext
  rw [htext, typeTexts_eq_map]
  simp only [List.length_append, List.length_cons]
  omega

theorem length_lt_of_mem_entries (d nm : String) {key : String} (params : List TypeTerm)
    {es : List Entry} {a : AttributeTerm} (h : Entry.mk key a ∈ es) :
    (valueText a).toList.length + 2 < (typeText (.mk d nm params es)).toList.length := by
  have hlength := length_le_length_commas (List.mem_map_of_mem (f := entryText) h)
  have htext := toList_typeText d nm params es []
  rw [List.append_nil, if_neg (by rintro ⟨-, rfl⟩; cases h)] at htext
  rw [toList_entryText] at hlength
  rw [htext, toList_entriesText, if_neg (List.ne_nil_of_mem h), entryTexts_eq_map]
  simp only [List.length_append, List.length_cons] at hlength ⊢
  omega

theorem length_lt_of_mem_items {items : List AttributeTerm} {a : AttributeTerm} (h : a ∈ items) :
    (valueText a).toList.length < (valueText (.list items)).toList.length := by
  have hlength := length_le_length_commas (List.mem_map_of_mem (f := valueText) h)
  rw [valueText, valueTexts_eq_map]
  simp only [String.toList_append, List.length_append]
  have : "[".toList.length = 1 := rfl
  omega

theorem exists_head_typeText {t : TypeTerm} (h : Spelled.type IsReadable t) :
    ∃ c, (typeText t).toList.head? = some c ∧ isSpace c = false := by
  obtain ⟨d, nm, params, es⟩ := t
  obtain ⟨c, hc, hstart⟩ := IsWord.exists_head h.1 ('.' :: (nm.toList ++
    if params = [] ∧ es = [] then []
    else '(' :: ((commas (typeTexts params)).toList ++ ')' :: ((entriesText es).toList ++ []))))
  rw [← toList_typeText, List.append_nil] at hc
  exact ⟨c, hc, isSpace_eq_false hstart (by decide)⟩

theorem exists_head_valueText {a : AttributeTerm} (h : Spelled.value IsReadable a) :
    ∃ c, (valueText a).toList.head? = some c ∧ isSpace c = false := by
  cases a with
  | unit => exact ⟨'u', rfl, by decide⟩
  | bool b =>
    cases b
    · exact ⟨'f', rfl, by decide⟩
    · exact ⟨'t', rfl, by decide⟩
  | int bits =>
    obtain ⟨c, hc, hdigit⟩ := exists_head?_toString bits.toNat []
    rw [List.append_nil] at hc
    exact ⟨c, hc, isSpace_of_isDigit c hdigit⟩
  | float x =>
    obtain ⟨c, hs, hc⟩ := exists_head_of_float (show x.ReadsBack from h)
    refine ⟨c, hs, ?_⟩
    rcases hc with rfl | hc | rfl | rfl
    · decide
    · exact isSpace_of_isDigit c hc
    · decide
    · decide
  | string t =>
    rw [valueText, toList_quoted]
    exact ⟨'"', rfl, by decide⟩
  | bytes data =>
    rw [valueText, String.toList_append, String.toList_append, List.append_assoc]
    exact ⟨'b', rfl, by decide⟩
  | type t => exact exists_head_typeText h.1
  | symbol name => exact ⟨'@', head?_symbolText name, by decide⟩
  | location path span =>
    rw [toList_locationText]
    exact ⟨'l', rfl, by decide⟩
  | list items =>
    rw [valueText, String.toList_append, String.toList_append, List.append_assoc]
    exact ⟨'[', rfl, by decide⟩

theorem leaves_isSpace_typeText {t : TypeTerm} (h : Spelled.type IsReadable t) :
    Leaves isSpace (typeText t).toList := by
  obtain ⟨c, hc, hspace⟩ := exists_head_typeText h
  exact leaves_of_head hc hspace

theorem leaves_isSpace_valueText {a : AttributeTerm} (h : Spelled.value IsReadable a) :
    Leaves isSpace (valueText a).toList := by
  obtain ⟨c, hc, hspace⟩ := exists_head_valueText h
  exact leaves_of_head hc hspace

theorem two_le_length_typeText {t : TypeTerm} (h : Spelled.type IsReadable t) :
    2 ≤ (typeText t).toList.length := by
  obtain ⟨d, nm, params, es⟩ := t
  obtain ⟨c, cs, hd, -⟩ := h.1
  have htext := toList_typeText d nm params es []
  rw [List.append_nil, hd] at htext
  rw [htext]
  simp only [List.length_append, List.length_cons]
  omega

/-- The texts of types and attributes read back, given as many nested brackets as the text
    is long. -/
theorem type_append_and_value_append (n : Nat) :
    (∀ t, Spelled.type IsReadable t → (typeText t).toList.length ≤ n + 1 →
      ∀ rest, TypeEnds rest → type n ((typeText t).toList ++ rest) = .done t rest) ∧
    ∀ a, Spelled.value IsReadable a → (valueText a).toList.length ≤ n →
      ∀ rest, Delimited rest → value n ((valueText a).toList ++ rest) = .done a rest := by
  induction n with
  | zero =>
    refine ⟨fun t ht hlength => ?_, fun a ha hlength => ?_⟩
    · have := two_le_length_typeText ht
      omega
    · obtain ⟨c, hc, -⟩ := exists_head_valueText ha
      rw [List.length_eq_zero_iff.1 (Nat.le_zero.1 hlength)] at hc
      cases hc
  | succ n ih =>
    obtain ⟨htype, hvalue⟩ := ih
    constructor
    · rintro ⟨d, nm, params, es⟩ ⟨hd, hn, hparams, hes⟩ hlength rest hrest
      refine type_append_of hd hn (fun t ht => ?_) (fun key a ha => ?_) hrest
      · have hspelled := Spelled.types_iff.1 hparams t ht
        have := length_lt_of_mem_params d nm es ht
        exact ⟨leaves_isSpace_typeText hspelled, fun rest hrest =>
          htype t hspelled (by omega) rest hrest.typeEnds⟩
      · obtain ⟨hkey, hspelled⟩ := Spelled.entries_iff.1 hes _ ha
        have := length_lt_of_mem_entries d nm params ha
        exact ⟨hkey, leaves_isSpace_valueText hspelled, hvalue a hspelled (by omega)⟩
    · intro a ha hlength rest hrest
      cases a with
      | unit => exact value_unit
      | bool b =>
        cases b
        · exact value_false
        · exact value_true
      | int bits => exact value_int hrest
      | float x => exact value_float ha hrest
      | string t => exact value_string t
      | bytes data => exact value_bytes data
      | symbol name => exact value_symbol ha (hrest.leaves (by decide))
      | location path span => exact value_location ha.1 ha.2
      | list items =>
        have hitems : List.Forall₂ (IsItem (value n)) (valueTexts items) items := by
          rw [valueTexts_eq_map, List.forall₂_map_left_iff]
          refine List.forall₂_same.2 fun a hm => ?_
          have hspelled := Spelled.values_iff.1 ha a hm
          have := length_lt_of_mem_items hm
          exact ⟨leaves_isSpace_valueText hspelled, hvalue a hspelled (by omega)⟩
        have htext : (valueText (.list items)).toList ++ rest =
            '[' :: ((commas (valueTexts items)).toList ++ ']' :: rest) := by
          rw [valueText, String.toList_append, String.toList_append, List.append_assoc,
            List.append_assoc]
          rfl
        rw [htext]
        exact value_list hitems
      | type t =>
        have hread := htype t ha.1 hlength rest hrest.typeEnds
        obtain ⟨d, nm, params, es⟩ := t
        rw [valueText, toList_typeText] at *
        exact value_type ha.1.1 ha.2 hread

end Source

end Offload
