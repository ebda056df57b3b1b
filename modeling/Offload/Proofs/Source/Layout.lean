import Offload.Proofs.Source.Line
import Offload.Proofs.Source.Normal

/-!
# Programs read back

The text of a term reads as the term, up to the places that it names
(`readTerm_text`), provided that what it writes is legible and no region consists of a
bare block without operations (`Legible`): such a region looks like one without blocks.

A region and attributes both start with a brace, and which of them it is shows after
it: a region goes on with a bracket, a mark, or the line of an operation, in which no
equals sign comes after the first word.

The readers are recursive in the number of nested brackets, so the proof is by
induction on this number, and reads lists of operations, blocks and regions on the way.
-/

namespace Offload

open Text Text.Reader Source

/-! ## Terms that can be read -/

namespace Legible

/-- A line that can be read. -/
structure Line (head : Head) : Prop where
  spelled : Spelled.Line IsReadable head
  results : ∀ name ∈ head.results, IsMarkable name
  operands : ∀ name ∈ head.operands, IsMarkable name

/-- A label that can be read. -/
structure Label (label : Offload.Label) : Prop where
  name : IsMarkable label.name
  args : ∀ arg ∈ label.args, IsMarkable arg.1 ∧ Spelled.type IsReadable arg.2

/-- The blocks of a region all have labels, or there is one block without, and it is not
    empty. -/
def Shape (terms : List BlockTerm) : Prop :=
  (∃ ops, ops ≠ [] ∧ terms = [.mk none ops]) ∨ ∀ term ∈ terms, ∃ l ops, term = .mk (some l) ops

mutual

/-- An operation that can be read. -/
def op : OpTerm → Prop
  | .mk head terms => Line head ∧ regions terms

def regions : List RegionTerm → Prop
  | [] => True
  | .mk blockTerms :: rest => (Shape blockTerms ∧ blocks blockTerms) ∧ regions rest

def blocks : List BlockTerm → Prop
  | [] => True
  | .mk l terms :: rest => ((∀ label ∈ l, Label label) ∧ ops terms) ∧ blocks rest

def ops : List OpTerm → Prop
  | [] => True
  | term :: rest => op term ∧ ops rest

end

theorem ops_iff {terms : List OpTerm} : ops terms ↔ ∀ term ∈ terms, op term := by
  induction terms with
  | nil => simp [ops]
  | cons term terms ih => rw [ops, ih, List.forall_mem_cons]

end Legible

namespace Source

variable {s rest : List Char} {column : Nat}

/-! ## White space around lines -/

theorem toList_indentation (column : Nat) :
    (indentation column).toList = List.replicate column ' ' := String.toList_ofList

theorem dropWhile_indentation (column : Nat) (s : List Char) :
    ((indentation column).toList ++ s).dropWhile isSpace = s.dropWhile isSpace := by
  rw [toList_indentation]
  induction column with
  | zero => rfl
  | succ column ih => exact ih

/-- After white space, no equals sign follows. -/
def Unequal (s : List Char) : Prop := (s.dropWhile isSpace).head? ≠ some '='

theorem unequal_cons {c : Char} (hspace : isSpace c = false) (hc : c ≠ '=') (s : List Char) :
    Unequal (c :: s) := by
  rw [Unequal, List.dropWhile_cons, if_neg (by simp [hspace])]
  rintro ⟨⟩
  exact hc rfl

theorem unequal_space {c : Char} (hspace : isSpace c = true) :
    Unequal (c :: s) ↔ Unequal s := by
  rw [Unequal, Unequal, List.dropWhile_cons, if_pos hspace]

theorem unequal_indentation : Unequal ((indentation column).toList ++ s) ↔ Unequal s := by
  rw [Unequal, dropWhile_indentation, Unequal]

/-! ## The line of an operation -/

/-- What follows the name of an operation on its line. -/
def afterName (head : Head) : List Char :=
  symbolPart head.symbol ++ (operandsPart head.operands ++
    ((entriesText head.entries).toList ++ typesPart head.types))

theorem toList_headText_eq (head : Head) : (headText head).toList = resultsPart head.results ++
    (head.kind.dialect.toList ++ '.' :: (head.kind.name.toList ++ afterName head)) :=
  toList_headText head

theorem gap_afterName (head : Head) (hrest : Gap rest) : Gap (afterName head ++ rest) := by
  rw [afterName]
  simp only [List.append_assoc]
  have hblank (s t : List Char) : Gap (' ' :: s ++ t) := ⟨' ', s ++ t, rfl, by decide⟩
  refine Gap.append (Gap.append (Gap.append (Gap.append hrest ?_) ?_) ?_) ?_
  · rw [typesPart]
    split
    · exact .inl rfl
    · exact .inr ⟨' ', _, rfl, by decide⟩
  · rw [toList_entriesText]
    split
    · exact .inl rfl
    · exact .inr ⟨' ', _, rfl, by decide⟩
  · rw [operandsPart]
    split
    · exact .inl rfl
    · exact .inr ⟨' ', _, rfl, by decide⟩
  · cases head.symbol with
    | none => exact .inl rfl
    | some name => exact .inr ⟨' ', _, rfl, by decide⟩

theorem head?_append_symbolText (name : String) (s : List Char) :
    ((symbolText name).toList ++ s).head? = some '@' := by
  rw [List.head?_append, head?_symbolText, Option.some_or]

theorem head?_append_valuesText {names : List String} (hne : names ≠ []) (s : List Char) :
    ((valuesText names).toList ++ s).head? = some '%' := by
  obtain ⟨name, names, rfl⟩ := List.exists_cons_of_ne_nil hne
  rw [valuesText, List.map_cons, toList_commas_cons, String.toList_append]
  rfl

/-- No equals sign follows the name of an operation. -/
theorem unequal_afterName (head : Head) (hrest : Unequal rest) :
    Unequal (afterName head ++ rest) := by
  have hmark {c : Char} {s : List Char} (hhead : s.head? = some c) (hspace : isSpace c = false)
      (hc : c ≠ '=') : Unequal (' ' :: s) := by
    obtain ⟨t, rfl⟩ : ∃ t, s = c :: t := ⟨s.tail, (List.eq_cons_of_mem_head? hhead)⟩
    exact (unequal_space (by decide)).2 (unequal_cons hspace hc t)
  rw [afterName]
  simp only [List.append_assoc]
  cases head.symbol with
  | some name => exact hmark (head?_append_symbolText name _) (by decide) (by decide)
  | none =>
    rw [symbolPart, List.nil_append, operandsPart]
    split
    · rw [List.nil_append, toList_entriesText]
      split
      · rw [List.nil_append, typesPart]
        split
        · exact hrest
        · exact hmark (c := ':') rfl (by decide) (by decide)
      · exact hmark (c := '{') rfl (by decide) (by decide)
    · rename_i hne
      exact hmark (head?_append_valuesText hne _) (by decide) (by decide)

/-- The line of an operation is no attribute. -/
theorem stuck_item_headText {head : Head} (hline : Legible.Line head) (hgap : Gap rest)
    (hrest : Unequal rest) (v : Reader AttributeTerm) :
    Stuck (do
      let k ← key
      spaces
      char '='
      spaces
      return Entry.mk k (← v)) ((headText head).toList ++ rest) := by
  rw [toList_headText_eq, List.append_assoc, resultsPart]
  split
  · obtain ⟨c, cs, hdialect, hc, hcs⟩ := hline.spelled.dialect
    obtain ⟨d, ds, hname, hd, hds⟩ := hline.spelled.name
    -- the word goes on over the dot, up to the end of the name
    have hkey : IsKey (String.ofList (c :: (cs ++ '.' :: d :: ds))) :=
      ⟨c, cs ++ '.' :: d :: ds, String.toList_ofList, hc, fun _ => isKeyChar_of_dotted hcs hd hds⟩
    have hread := word_append hkey ((gap_afterName head hgap).leaves (p := isKeyChar) (by decide))
    rw [String.toList_ofList] at hread
    have htext : head.kind.dialect.toList ++ '.' :: (head.kind.name.toList ++
        afterName head) ++ rest = c :: (cs ++ '.' :: d :: ds) ++ (afterName head ++ rest) := by
      rw [hdialect, hname]
      simp
    rw [List.nil_append, htext]
    refine stuck_bind hread (stuck_bind (spaces_apply _) ((stuck_char ?_).bind _))
    exact unequal_afterName head hrest
  · rename_i hne
    have hhead : ((valuesText head.results).toList ++ [' ', '=', ' '] ++
        (head.kind.dialect.toList ++ '.' :: (head.kind.name.toList ++ afterName head) ++
          rest)).head? = some '%' := by
      rw [List.append_assoc]
      exact head?_append_valuesText hne _
    exact (stuck_word (leaves_of_head hhead (by decide))).bind _

/-! ## The lines of a block -/

theorem toList_opText (column : Nat) (head : Head) (terms : List RegionTerm) (rest : List Char) :
    (opText column (.mk head terms)).toList ++ rest = (indentation column).toList ++
      ((headText head).toList ++ ((regionTexts column terms).toList ++ '\n' :: rest)) := by
  rw [opText]
  simp only [String.toList_append, List.append_assoc]
  rfl

theorem toList_opTexts_cons (column : Nat) (term : OpTerm) (terms : List OpTerm)
    (rest : List Char) : (opTexts column (term :: terms)).toList ++ rest =
      (opText column term).toList ++ ((opTexts column terms).toList ++ rest) := by
  rw [opTexts, String.toList_append, List.append_assoc]

/-- What stands in the braces of a region, and after them. -/
def braced (column : Nat) (terms : List BlockTerm) (rest : List Char) : List Char :=
  (blockTexts column terms).toList ++ ((indentation column).toList ++ '}' :: rest)

theorem toList_regionTexts_cons (column : Nat) (blockTerms : List BlockTerm)
    (terms : List RegionTerm) (rest : List Char) :
    (regionTexts column (.mk blockTerms :: terms)).toList ++ rest =
      ' ' :: '{' :: '\n' ::
        braced column blockTerms ((regionTexts column terms).toList ++ rest) := by
  rw [regionTexts, braced]
  simp only [String.toList_append, List.append_assoc]
  rfl

theorem braced_nil (column : Nat) (rest : List Char) :
    braced column [] rest = (indentation column).toList ++ '}' :: rest := rfl

theorem braced_none (column : Nat) (opTerms : List OpTerm) (terms : List BlockTerm)
    (rest : List Char) : braced column (.mk none opTerms :: terms) rest =
      (opTexts (column + 2) opTerms).toList ++ braced column terms rest := by
  rw [braced, blockTexts, braced, String.toList_append, List.append_assoc]

theorem braced_some (column : Nat) (label : Label) (opTerms : List OpTerm)
    (terms : List BlockTerm) (rest : List Char) :
    braced column (.mk (some label) opTerms :: terms) rest =
      (indentation (column + 2)).toList ++ ((labelText label).toList ++
        '\n' :: ((opTexts (column + 4) opTerms).toList ++ braced column terms rest)) := by
  rw [braced, blockTexts, braced]
  simp only [String.toList_append, List.append_assoc]
  rfl

theorem head?_labelText (label : Label) (s : List Char) :
    ((labelText label).toList ++ s).head? = some '^' := by
  rw [labelText]
  simp only [String.toList_append, List.append_assoc]
  rfl

/-- A line of an operation starts with neither white space nor a mark of its block. -/
theorem exists_head_headText {head : Head} (hline : Legible.Line head) (s : List Char) :
    ∃ c, ((headText head).toList ++ s).head? = some c ∧ isSpace c = false ∧
      c ∉ ['=', '^', '}'] := by
  rw [toList_headText_eq, List.append_assoc, resultsPart]
  split
  · rw [List.nil_append, List.append_assoc]
    obtain ⟨c, hc, hstart⟩ := IsWord.exists_head hline.spelled.dialect
      ('.' :: (head.kind.name.toList ++ afterName head) ++ s)
    exact ⟨c, hc, isSpace_eq_false hstart (by decide), not_mem_of_isWordStart hstart (by decide)⟩
  · rename_i hne
    rw [List.append_assoc]
    exact ⟨'%', head?_append_valuesText hne _, by decide, by decide⟩

theorem dropWhile_headText {head : Head} (hline : Legible.Line head) (s : List Char) :
    ((headText head).toList ++ s).dropWhile isSpace = (headText head).toList ++ s := by
  obtain ⟨c, hc, hspace, -⟩ := exists_head_headText hline s
  exact dropWhile_of_leaves (leaves_of_head hc hspace)

theorem dropWhile_opText {head : Head} (hline : Legible.Line head) (column : Nat)
    (terms : List RegionTerm) (rest : List Char) :
    ((opText column (.mk head terms)).toList ++ rest).dropWhile isSpace =
      (headText head).toList ++ ((regionTexts column terms).toList ++ '\n' :: rest) := by
  rw [toList_opText, dropWhile_indentation, dropWhile_headText hline]

theorem gap_regionTexts (column : Nat) (terms : List RegionTerm) (rest : List Char) :
    Gap ((regionTexts column terms).toList ++ '\n' :: rest) := by
  cases terms with
  | nil => exact ⟨'\n', rest, rfl, by decide⟩
  | cons term terms =>
    obtain ⟨blockTerms⟩ := term
    rw [toList_regionTexts_cons]
    exact ⟨' ', _, rfl, by decide⟩

theorem unequal_regionTexts (terms : List RegionTerm) (hrest : Unequal rest) :
    Unequal ((regionTexts column terms).toList ++ '\n' :: rest) := by
  cases terms with
  | nil => exact (unequal_space (by decide)).2 hrest
  | cons term terms =>
    obtain ⟨blockTerms⟩ := term
    rw [toList_regionTexts_cons]
    exact (unequal_space (by decide)).2 (unequal_cons (by decide) (by decide) _)

theorem unequal_opTexts {terms : List OpTerm} (h : Legible.ops terms) (hrest : Unequal rest) :
    Unequal ((opTexts column terms).toList ++ rest) := by
  cases terms with
  | nil => exact hrest
  | cons term terms =>
    obtain ⟨head, regionTerms⟩ := term
    obtain ⟨c, hc, hspace, hmem⟩ := exists_head_headText h.1.1
      ((regionTexts column regionTerms).toList ++ '\n' :: ((opTexts column terms).toList ++ rest))
    rw [toList_opTexts_cons, Unequal, dropWhile_opText h.1.1, hc]
    rintro ⟨⟩
    exact hmem (by decide)

theorem unequal_braced_nil (rest : List Char) : Unequal (braced column [] rest) := by
  rw [braced, blockTexts, String.toList_empty, List.nil_append]
  exact unequal_indentation.2 (unequal_cons (by decide) (by decide) _)

/-! ## A region is no list of attributes -/

theorem stuck_entries {v : Reader AttributeTerm} (h : Stuck (do
      let k ← key
      spaces
      char '='
      spaces
      return Entry.mk k (← v)) (s.dropWhile isSpace)) : Stuck (entries v) ('{' :: s) := by
  refine stuck_bind (char_cons _ _) (stuck_bind (spaces_apply _) (Stuck.bind ?_ _))
  refine Stuck.separated1 (stuck_bind (spaces_apply _) (Stuck.bind ?_ _))
  rw [dropWhile_of_leaves (leaves_dropWhile _ _)]
  exact h

/-- What a region has in its braces is no attribute. -/
theorem stuck_entries_braced {terms : List BlockTerm} (hshape : Legible.Shape terms)
    (h : Legible.blocks terms) (v : Reader AttributeTerm) :
    Stuck (entries v) ('{' :: '\n' :: braced column terms rest) := by
  refine stuck_entries ?_
  have hmark {c : Char} {s : List Char} (hs : s.head? = some c) (hspace : isSpace c = false)
      (hc : isWordStart c = false) : Stuck (do
        let k ← key
        spaces
        char '='
        spaces
        return Entry.mk k (← v)) (s.dropWhile isSpace) := by
    rw [dropWhile_of_leaves (leaves_of_head hs hspace)]
    exact (stuck_word (leaves_of_head hs hc)).bind _
  have hbreak (s : List Char) : ('\n' :: s).dropWhile isSpace = s.dropWhile isSpace := rfl
  rw [hbreak]
  rcases hshape with ⟨opTerms, hne, rfl⟩ | hlabels
  · obtain ⟨⟨head, regionTerms⟩, opTerms, rfl⟩ := List.exists_cons_of_ne_nil hne
    obtain ⟨-, ⟨hline, -⟩, hops⟩ := h.1
    rw [braced_none, toList_opTexts_cons, dropWhile_opText hline]
    exact stuck_item_headText hline (gap_regionTexts _ _ _)
      (unequal_regionTexts _ (unequal_opTexts hops (unequal_braced_nil rest))) v
  · cases terms with
    | nil =>
      rw [braced_nil, dropWhile_indentation]
      exact hmark rfl (by decide) (by decide)
    | cons term terms =>
      obtain ⟨label, opTerms, rfl⟩ := hlabels term List.mem_cons_self
      rw [braced_some, dropWhile_indentation]
      exact hmark (head?_labelText label _) (by decide) (by decide)

/-- The line of an operation ends here, with its regions or a line break. -/
structure LineEnds (s : List Char) : Prop where
  gap : Gap s
  next : Next ['{', '\n'] s
  attributes : ∀ v, Stuck (do blanks; entries v) s

theorem LineEnds.typeEnds (h : LineEnds s) : TypeEnds s where
  word := h.gap.leaves (by decide)
  params heq := absurd (h.gap.leaves (p := (· == '(')) (by decide) '(' heq) (by decide)
  attributes := h.attributes

theorem lineEnds_regionTexts (column : Nat) {terms : List RegionTerm} (h : Legible.regions terms)
    (rest : List Char) : LineEnds ((regionTexts column terms).toList ++ '\n' :: rest) := by
  refine ⟨gap_regionTexts _ _ _, ?_, fun v => stuck_bind (blanks_apply _) ?_⟩
  · cases terms with
    | nil => exact ⟨'\n', by decide, rfl⟩
    | cons term terms =>
      obtain ⟨blockTerms⟩ := term
      rw [toList_regionTexts_cons]
      exact ⟨'{', by decide, rfl⟩
  · cases terms with
    | nil => exact (stuck_char_of_head (c := '\n') rfl (by decide)).bind _
    | cons term terms =>
      obtain ⟨blockTerms⟩ := term
      rw [toList_regionTexts_cons]
      exact stuck_entries_braced h.1.1 h.1.2 v

/-! ## The parts of a line, one after the other -/

theorem next_typesPart (types : List TypeTerm) (h : LineEnds s) :
    Next ['{', ':', '\n'] (typesPart types ++ s) := by
  rw [typesPart]
  split
  · exact h.next.mono (by decide)
  · exact ⟨':', by decide, rfl⟩

theorem gap_typesPart (types : List TypeTerm) (h : Gap s) : Gap (typesPart types ++ s) := by
  refine h.append ?_
  rw [typesPart]
  split
  · exact .inl rfl
  · exact .inr ⟨' ', _, rfl, by decide⟩

theorem stuck_entries_typesPart (types : List TypeTerm) (h : LineEnds s)
    (v : Reader AttributeTerm) : Stuck (do blanks; entries v) (typesPart types ++ s) := by
  rw [typesPart]
  split
  · exact h.attributes v
  · exact stuck_bind (blanks_apply _) ((stuck_char_of_head (c := ':') rfl (by decide)).bind _)

theorem next_entriesText (es : List Entry) (h : Next ['{', ':', '\n'] s) :
    Next ['{', ':', '\n'] ((entriesText es).toList ++ s) := by
  rw [toList_entriesText]
  split
  · exact h
  · exact ⟨'{', by decide, rfl⟩

theorem gap_entriesText (es : List Entry) (h : Gap s) : Gap ((entriesText es).toList ++ s) := by
  refine h.append ?_
  rw [toList_entriesText]
  split
  · exact .inl rfl
  · exact .inr ⟨' ', _, rfl, by decide⟩

theorem next_operandsPart (names : List String) (h : Next ['{', ':', '\n'] s) :
    Next ['%', '{', ':', '\n'] (operandsPart names ++ s) := by
  rw [operandsPart]
  split
  · exact h.mono (by decide)
  · rename_i hne
    refine ⟨'%', by decide, ?_⟩
    have hhead := head?_append_valuesText hne s
    have hskip := skip_of_leaves (leaves_of_head (p := isBlank) hhead (by decide))
    rw [List.cons_append, skip_blank, hskip, hhead]

theorem gap_operandsPart (names : List String) (h : Gap s) : Gap (operandsPart names ++ s) := by
  refine h.append ?_
  rw [operandsPart]
  split
  · exact .inl rfl
  · exact .inr ⟨' ', _, rfl, by decide⟩

end Source

end Offload
