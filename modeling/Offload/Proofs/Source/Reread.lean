import Offload.Proofs.Source.Layout

/-!
# Programs read back

The text of a legible term reads as the term, up to the places that it names
(`readTerm_text`).

The readers are recursive in the number of nested brackets, so the proof is by
induction on this number. One step of it reads the line of an operation part by part,
and its regions, blocks and nested operations as lists of what the induction gives.
-/

namespace Offload

open Text Text.Reader Source

namespace Source

variable {s s' rest : List Char} {column : Nat}

/-! ## Items up to a mark -/

section ItemsUntil

variable {α : Type} {closed : Reader Bool} {item : Reader α} {a : α} {as : List α} {n : Nat}

theorem itemsUntil_stop (h : closed s = .done true rest) :
    itemsUntil closed item (n + 1) s = .done [] rest := by
  rw [itemsUntil, bind_done h]
  rfl

theorem itemsUntil_step {t t' : List Char} (h : closed s = .done false t)
    (hitem : item t = .done a t') (htail : itemsUntil closed item n t' = .done as rest) :
    itemsUntil closed item (n + 1) s = .done (a :: as) rest := by
  rw [itemsUntil, bind_done h]
  exact (bind_done hitem).trans (bind_done htail)

end ItemsUntil

/-! ## Operations of a block -/

/-- A reader of operations reads the text of one, white space aside, up to the end of its
    last line. The term is the same but for places. -/
def ReadsOp (p : Reader OpTerm) (column : Nat) (term : OpTerm) : Prop :=
  ∀ s rest, s.dropWhile isSpace = ((opText column term).toList ++ rest).dropWhile isSpace →
    ∃ N, p s = .done N ('\n' :: rest) ∧ Unplaced.op N = Unplaced.op term

/-- The operations of a block end here. -/
def OpsEnd (s : List Char) : Prop := ∃ c ∈ ['^', '}'], (s.dropWhile isSpace).head? = some c

/-- Whether the operations of a block end. -/
def opsClosed : Reader Bool := do
  spaces
  return match ← Reader.rest with
    | [] | '^' :: _ | '}' :: _ => true
    | _ => false

theorem ops_eq (p : Reader OpTerm) (s : List Char) :
    ops p s = itemsUntil opsClosed p (s.length + 1) s := rfl

theorem opsClosed_end (h : OpsEnd s) : opsClosed s = .done true (s.dropWhile isSpace) := by
  obtain ⟨c, hc, hs⟩ := h
  obtain ⟨t, ht⟩ : ∃ t, s.dropWhile isSpace = c :: t := ⟨_, List.eq_cons_of_mem_head? hs⟩
  rw [opsClosed, bind_done (spaces_apply s), ht]
  simp only [List.mem_cons, List.not_mem_nil, or_false] at hc
  rcases hc with rfl | rfl <;> rfl

theorem opsClosed_line {c : Char} (hs : (s.dropWhile isSpace).head? = some c)
    (hc : c ∉ ['=', '^', '}']) : opsClosed s = .done false (s.dropWhile isSpace) := by
  obtain ⟨t, ht⟩ : ∃ t, s.dropWhile isSpace = c :: t := ⟨_, List.eq_cons_of_mem_head? hs⟩
  rw [opsClosed, bind_done (spaces_apply s), ht]
  have hne : c ≠ '^' ∧ c ≠ '}' := by
    constructor <;> (rintro rfl; exact hc (by decide))
  rw [bind_done (rest_apply _), pure_apply]
  congr 1
  split
  · rename_i heq; cases heq
  · rename_i heq; cases heq; exact absurd rfl hne.1
  · rename_i heq; cases heq; exact absurd rfl hne.2
  · rfl

theorem length_lt_dropWhile_opTexts (column : Nat) {terms : List OpTerm} (h : Legible.ops terms)
    (hend : OpsEnd rest) :
    terms.length < (((opTexts column terms).toList ++ rest).dropWhile isSpace).length := by
  induction terms with
  | nil =>
    obtain ⟨c, -, hs⟩ := hend
    obtain ⟨t, ht⟩ : ∃ t, rest.dropWhile isSpace = c :: t := ⟨_, List.eq_cons_of_mem_head? hs⟩
    rw [opTexts, String.toList_empty, List.nil_append, ht]
    exact Nat.succ_pos _
  | cons term terms ih =>
    obtain ⟨head, regionTerms⟩ := term
    have hdrop := (List.dropWhile_suffix isSpace
      (l := (opTexts column terms).toList ++ rest)).length_le
    have := ih h.2
    rw [toList_opTexts_cons, dropWhile_opText h.1.1]
    simp only [List.length_append, List.length_cons]
    simp only [List.length_append] at hdrop
    omega

theorem itemsUntil_opTexts {p : Reader OpTerm} {terms : List OpTerm} (h : Legible.ops terms)
    (hp : ∀ term ∈ terms, ReadsOp p column term) (hend : OpsEnd rest)
    (hs : s.dropWhile isSpace = ((opTexts column terms).toList ++ rest).dropWhile isSpace)
    {n : Nat} (hn : terms.length < n) :
    ∃ Ns, itemsUntil opsClosed p n s = .done Ns (rest.dropWhile isSpace) ∧
      Unplaced.ops Ns = Unplaced.ops terms := by
  obtain ⟨n, rfl⟩ := Nat.exists_eq_add_one.2 (Nat.zero_lt_of_lt hn)
  induction terms generalizing s n with
  | nil =>
    have hs' : s.dropWhile isSpace = rest.dropWhile isSpace := hs
    have hend' : OpsEnd s := by
      obtain ⟨c, hc, hrest⟩ := hend
      exact ⟨c, hc, hs' ▸ hrest⟩
    exact ⟨[], itemsUntil_stop (hs' ▸ opsClosed_end hend'), rfl⟩
  | cons term terms ih =>
    obtain ⟨n, rfl⟩ := Nat.exists_eq_add_one.2 (Nat.zero_lt_of_lt (Nat.lt_of_succ_lt_succ hn))
    obtain ⟨hterm, hterms⟩ := h
    obtain ⟨hp, hps⟩ := List.forall_mem_cons.1 hp
    rw [toList_opTexts_cons] at hs
    obtain ⟨N, hread, hN⟩ := hp (s.dropWhile isSpace) _
      (by rw [dropWhile_of_leaves (leaves_dropWhile _ _), hs])
    obtain ⟨Ns, hreads, hNs⟩ := ih hterms hps (s := '\n' :: _) rfl n (Nat.lt_of_succ_lt_succ hn)
    obtain ⟨head, regionTerms⟩ := term
    obtain ⟨c, hc, -, hmem⟩ := exists_head_headText hterm.1
      ((regionTexts column regionTerms).toList ++ '\n' :: ((opTexts column terms).toList ++ rest))
    have hhead : (s.dropWhile isSpace).head? = some c := by
      rw [hs, dropWhile_opText hterm.1, hc]
    refine ⟨N :: Ns, itemsUntil_step (opsClosed_line hhead hmem) hread hreads, ?_⟩
    rw [Unplaced.ops, Unplaced.ops, hN, hNs]

/-- The operations of a block read back. -/
theorem ops_append {p : Reader OpTerm} {terms : List OpTerm} (h : Legible.ops terms)
    (hp : ∀ term ∈ terms, ReadsOp p column term) (hend : OpsEnd rest)
    (hs : s.dropWhile isSpace = ((opTexts column terms).toList ++ rest).dropWhile isSpace) :
    ∃ Ns, ops p s = .done Ns (rest.dropWhile isSpace) ∧
      Unplaced.ops Ns = Unplaced.ops terms := by
  have hlength := length_lt_dropWhile_opTexts column h hend
  have hdrop := (List.dropWhile_suffix isSpace (l := s)).length_le
  rw [ops_eq]
  exact itemsUntil_opTexts h hp hend hs (by rw [hs] at hdrop; omega)

/-! ## Blocks -/

/-- Readers of operations and types read texts up to a length. -/
structure ReadsUpTo (m : Nat) (p : Reader OpTerm) (type : Reader TypeTerm) : Prop where
  op : ∀ column term, Legible.op term → (opText column term).toList.length ≤ m →
    ReadsOp p column term
  type : ∀ t, Spelled.type IsReadable t → (typeText t).toList.length ≤ m →
    IsItem type (typeText t) t

/-- The text of an argument of a block. -/
def argText (arg : String × TypeTerm) : String := "%" ++ arg.1 ++ ": " ++ typeText arg.2

theorem toList_argText (arg : String × TypeTerm) (s : List Char) : (argText arg).toList ++ s =
    '%' :: (arg.1.toList ++ ':' :: ' ' :: ((typeText arg.2).toList ++ s)) := by
  rw [argText]
  simp only [String.toList_append, List.append_assoc]
  rfl

/-- The arguments of a block in parentheses. -/
def argsPart (args : List (String × TypeTerm)) : List Char :=
  if args = [] then [] else '(' :: ((commas (args.map argText)).toList ++ [')'])

theorem toList_labelText (label : Label) (s : List Char) : (labelText label).toList ++ s =
    '^' :: (label.name.toList ++ (argsPart label.args ++ ':' :: s)) := by
  obtain ⟨name, args⟩ := label
  have hargs : (if args.isEmpty then "" else "(" ++ commas (args.map argText) ++ ")").toList =
      argsPart args := by
    cases args with
    | nil => rfl
    | cons arg args =>
      rw [argsPart, if_neg (List.cons_ne_nil _ _), List.isEmpty_cons, if_neg Bool.false_ne_true,
        String.toList_append, String.toList_append, List.append_assoc]
      rfl
  change ("^" ++ name ++ (if args.isEmpty then "" else "(" ++ commas (args.map argText) ++ ")") ++
    ":").toList ++ s = _
  simp only [String.toList_append, hargs, List.append_assoc]
  rfl

/-- A reader for an argument of a block. -/
def argument (type : Reader TypeTerm) : Reader (String × TypeTerm) := do
  let arg ← valueName
  spaces
  char ':'
  spaces
  return (arg, ← type)

theorem isItem_argument {type : Reader TypeTerm} {arg : String × TypeTerm}
    (hname : IsMarkable arg.1) (htype : IsItem type (typeText arg.2) arg.2) :
    IsItem (argument type) (argText arg) arg where
  leaves := by
    have hhead := toList_argText arg []
    rw [List.append_nil] at hhead
    rw [hhead]
    exact leaves_cons.2 (by decide)
  reads rest hrest := by
    have hspace := leaves_isSpace_append htype.leaves (hrest.leaves (p := isSpace) (by decide))
    rw [toList_argText]
    refine (bind_done (marked_append hname (leaves_cons.2 (by decide)))).trans ?_
    rw [bind_done (spaces_of_leaves (leaves_cons.2 (by decide))), bind_done (char_cons _ _),
      bind_done (spaces_blank hspace), bind_done (htype.reads rest hrest), pure_apply]

/-- The arguments of a block, or none. -/
theorem args_part {type : Reader TypeTerm} {args : List (String × TypeTerm)}
    (h : ∀ arg ∈ args, IsItem (argument type) (argText arg) arg) (s : List Char) :
    ∃ o, optional (listed '(' ')' (argument type)) (argsPart args ++ ':' :: s) =
      .done o (':' :: s) ∧ o.getD [] = args := by
  rw [argsPart]
  split
  · rename_i hnone
    have hstuck : Stuck (listed '(' ')' (argument type)) (':' :: s) :=
      (stuck_char_of_head (c := ':') rfl (by decide)).bind _
    exact ⟨none, hstuck.optional, hnone.symm⟩
  · have hitems : List.Forall₂ (IsItem (argument type)) (args.map argText) args := by
      rw [List.forall₂_map_left_iff]
      exact List.forall₂_same.2 h
    have hstuck : Stuck (argument type) (')' :: ':' :: s) :=
      ((stuck_char_of_head (c := ')') rfl (by decide)).bind _).bind _
    refine ⟨some args, optional_done ?_, rfl⟩
    rw [List.cons_append, List.append_assoc]
    exact listed_append (by decide) hitems hstuck

theorem block_eq (p : Reader OpTerm) (type : Reader TypeTerm) : block p type = (do
    spaces
    let name ← labelName
    let args ← optional (listed '(' ')' (argument type))
    blanks
    char ':'
    return .mk (some ⟨name, args.getD []⟩) (← ops p)) := rfl

theorem argsPart_leaves (args : List (String × TypeTerm)) (s : List Char) :
    Leaves isWordChar (argsPart args ++ ':' :: s) := by
  rw [argsPart]
  split
  · exact leaves_cons.2 (by decide)
  · exact leaves_cons.2 (by decide)

section Nested

variable {m : Nat} {p : Reader OpTerm} {type : Reader TypeTerm} {terms : List BlockTerm}
  {opTerms : List OpTerm}

theorem length_opText_le {term : OpTerm} (h : term ∈ opTerms) :
    (opText column term).toList.length ≤ (opTexts column opTerms).toList.length := by
  induction opTerms with
  | nil => cases h
  | cons u terms ih =>
    rw [opTexts, String.toList_append, List.length_append]
    rcases List.mem_cons.1 h with rfl | h
    · exact Nat.le_add_right _ _
    · exact (ih h).trans (Nat.le_add_left _ _)

theorem readsOp_of_le (hreads : ReadsUpTo m p type) (h : Legible.ops opTerms)
    (hm : (opTexts column opTerms).toList.length ≤ m) :
    ∀ term ∈ opTerms, ReadsOp p column term := fun term hterm =>
  hreads.op column term (Legible.ops_iff.1 h term hterm) ((length_opText_le hterm).trans hm)

theorem length_typeText_le {label : Label} {arg : String × TypeTerm} (h : arg ∈ label.args) :
    (typeText arg.2).toList.length ≤ (labelText label).toList.length := by
  have hlabel := toList_labelText label []
  have harg := toList_argText arg []
  have hcommas := length_le_length_commas (List.mem_map_of_mem (f := argText) h)
  rw [List.append_nil] at hlabel harg
  rw [harg] at hcommas
  rw [hlabel, argsPart, if_neg (List.ne_nil_of_mem h)]
  simp only [List.length_append, List.length_cons] at hcommas ⊢
  omega

/-- A block with a label reads back. -/
theorem block_append (column : Nat) {label : Label} (hreads : ReadsUpTo m p type)
    (hlabel : Legible.Label label) (h : Legible.ops opTerms) (hend : OpsEnd rest)
    (hm : (labelText label).toList.length ≤ m ∧ (opTexts column opTerms).toList.length ≤ m)
    (hs : s.dropWhile isSpace = (labelText label).toList ++
      '\n' :: ((opTexts column opTerms).toList ++ rest)) :
    ∃ Ns, block p type s = .done (.mk (some label) Ns) (rest.dropWhile isSpace) ∧
      Unplaced.ops Ns = Unplaced.ops opTerms := by
  have hitem : ∀ arg ∈ label.args, IsItem (argument type) (argText arg) arg := fun arg harg =>
    isItem_argument (hlabel.args arg harg).1 (hreads.type _ (hlabel.args arg harg).2
      ((length_typeText_le harg).trans hm.1))
  rw [toList_labelText] at hs
  obtain ⟨o, hargs, ho⟩ := args_part hitem ('\n' :: ((opTexts column opTerms).toList ++ rest))
  obtain ⟨Ns, hops, hNs⟩ := ops_append h (readsOp_of_le hreads h hm.2) hend
    (s := '\n' :: ((opTexts column opTerms).toList ++ rest)) rfl
  refine ⟨Ns, ?_, hNs⟩
  have hname (t : List Char) : labelName ('^' ::
      (label.name.toList ++ (argsPart label.args ++ ':' :: t))) =
        .done label.name (argsPart label.args ++ ':' :: t) :=
    marked_append hlabel.name (argsPart_leaves _ _)
  rw [block_eq, bind_done (spaces_apply s), hs, bind_done (hname _), bind_done hargs,
    bind_done (blanks_apply _)]
  refine (bind_done (char_cons _ _)).trans ((bind_done hops).trans ?_)
  rw [ho]
  rfl

theorem braced_nil_end (column : Nat) (rest : List Char) : OpsEnd (braced column [] rest) := by
  refine ⟨'}', by decide, ?_⟩
  rw [braced_nil, dropWhile_indentation]
  rfl

theorem dropWhile_braced_nil (column : Nat) (rest : List Char) :
    (braced column [] rest).dropWhile isSpace = '}' :: rest := by
  rw [braced_nil, dropWhile_indentation]
  rfl

theorem dropWhile_braced_some (column : Nat) (label : Label) (opTerms : List OpTerm)
    (terms : List BlockTerm) (rest : List Char) :
    (braced column (.mk (some label) opTerms :: terms) rest).dropWhile isSpace =
      (labelText label).toList ++
        '\n' :: ((opTexts (column + 4) opTerms).toList ++ braced column terms rest) := by
  rw [braced_some, dropWhile_indentation]
  exact dropWhile_of_leaves (leaves_of_head (head?_labelText label _) (by decide))

/-- Blocks that all have labels. -/
def Labelled (terms : List BlockTerm) : Prop := ∀ term ∈ terms, ∃ l ops, term = .mk (some l) ops

theorem opsEnd_braced (column : Nat) (h : Labelled terms) (rest : List Char) :
    OpsEnd (braced column terms rest) := by
  cases terms with
  | nil => exact ⟨'}', by decide, by rw [dropWhile_braced_nil]; rfl⟩
  | cons term terms =>
    obtain ⟨label, opTerms, rfl⟩ := h term List.mem_cons_self
    refine ⟨'^', by decide, ?_⟩
    rw [dropWhile_braced_some]
    exact head?_labelText label _

theorem length_lt_dropWhile_braced (column : Nat) (h : Labelled terms) (rest : List Char) :
    terms.length < ((braced column terms rest).dropWhile isSpace).length := by
  induction terms with
  | nil =>
    rw [dropWhile_braced_nil]
    exact Nat.succ_pos _
  | cons term terms ih =>
    obtain ⟨⟨label, opTerms, rfl⟩, hterms⟩ := List.forall_mem_cons.1 h
    have hdrop := (List.dropWhile_suffix isSpace (l := braced column terms rest)).length_le
    have := ih hterms
    rw [dropWhile_braced_some]
    simp only [List.length_append, List.length_cons]
    omega

/-- Whether the blocks of a region end. -/
def blocksClosed : Reader Bool := do
  spaces
  startsWith '}'

theorem blocksClosed_end (hs : s.dropWhile isSpace = '}' :: rest) :
    blocksClosed s = .done true ('}' :: rest) := by
  rw [blocksClosed, bind_done (spaces_apply s), hs]
  rfl

theorem blocksClosed_label (hs : (s.dropWhile isSpace).head? = some '^') :
    blocksClosed s = .done false (s.dropWhile isSpace) := by
  rw [blocksClosed, bind_done (spaces_apply s), startsWith_apply, hs]
  rfl

theorem itemsUntil_blockTexts (hreads : ReadsUpTo m p type) (hlabels : Labelled terms)
    (h : Legible.blocks terms) (hm : (blockTexts column terms).toList.length ≤ m)
    (hs : s.dropWhile isSpace = (braced column terms rest).dropWhile isSpace)
    {n : Nat} (hn : terms.length < n) :
    ∃ Ns, itemsUntil blocksClosed (block p type) n s = .done Ns ('}' :: rest) ∧
      Unplaced.blocks Ns = Unplaced.blocks terms := by
  obtain ⟨n, rfl⟩ := Nat.exists_eq_add_one.2 (Nat.zero_lt_of_lt hn)
  induction terms generalizing s n with
  | nil =>
    rw [dropWhile_braced_nil] at hs
    exact ⟨[], itemsUntil_stop (blocksClosed_end hs), rfl⟩
  | cons term terms ih =>
    obtain ⟨n, rfl⟩ := Nat.exists_eq_add_one.2 (Nat.zero_lt_of_lt (Nat.lt_of_succ_lt_succ hn))
    obtain ⟨hterm, hterms⟩ := List.forall_mem_cons.1 hlabels
    obtain ⟨label, opTerms, rfl⟩ := hterm
    obtain ⟨⟨hlabel, hops⟩, hblocks⟩ := h
    rw [dropWhile_braced_some] at hs
    rw [blockTexts] at hm
    simp only [String.toList_append, List.length_append] at hm
    obtain ⟨Ns, hblock, hNs⟩ := block_append (column + 4) hreads (hlabel label rfl) hops
      (opsEnd_braced column hterms rest)
      (s := s.dropWhile isSpace) ⟨by omega, by omega⟩
      (by rw [dropWhile_of_leaves (leaves_dropWhile _ _), hs])
    obtain ⟨Ms, hblocks, hMs⟩ := ih hterms hblocks (by omega)
      (s := (braced column terms rest).dropWhile isSpace)
      (dropWhile_of_leaves (leaves_dropWhile _ _)) n (Nat.lt_of_succ_lt_succ hn)
    have hclosed := blocksClosed_label (s := s) (by rw [hs]; exact head?_labelText label _)
    refine ⟨_, itemsUntil_step hclosed hblock hblocks, ?_⟩
    rw [Unplaced.blocks, Unplaced.blocks, hNs, hMs]

/-! ## Regions -/

theorem blocks_mark (p : Reader OpTerm) (type : Reader TypeTerm) (s : List Char) :
    blocks p type ('^' :: s) = itemsUntil blocksClosed (block p type) (s.length + 2) ('^' :: s) :=
  rfl

theorem blocks_line (p : Reader OpTerm) (type : Reader TypeTerm)
    (hs : ∀ c ∈ s.head?, c ∉ ['^', '}']) :
    blocks p type s = (do return [.mk none (← ops p)] : Reader (List BlockTerm)) s := by
  refine (bind_done (rest_apply _)).trans (congrFun ?_ s)
  split
  · exact absurd (hs _ rfl) (by decide)
  · exact absurd (hs _ rfl) (by decide)
  · rfl

/-- The blocks of a region read back, after white space. -/
theorem blocks_append (hreads : ReadsUpTo m p type) (hshape : Legible.Shape terms)
    (h : Legible.blocks terms) (hm : (blockTexts column terms).toList.length ≤ m)
    (rest : List Char) :
    ∃ Ns, blocks p type ((braced column terms rest).dropWhile isSpace) = .done Ns ('}' :: rest) ∧
      Unplaced.blocks Ns = Unplaced.blocks terms := by
  rcases hshape with ⟨opTerms, hne, rfl⟩ | hlabels
  · obtain ⟨-, hops⟩ := h.1
    rw [blockTexts, String.toList_append, List.length_append] at hm
    have hlength : (opTexts (column + 2) opTerms).toList.length ≤ m := by omega
    obtain ⟨Ns, hread, hNs⟩ := ops_append hops (readsOp_of_le hreads hops hlength)
      (braced_nil_end column rest)
      (s := (braced column [.mk none opTerms] rest).dropWhile isSpace)
      (by rw [dropWhile_of_leaves (leaves_dropWhile _ _), braced_none])
    obtain ⟨⟨head, regionTerms⟩, opTerms, rfl⟩ := List.exists_cons_of_ne_nil hne
    obtain ⟨c, hc, -, hmem⟩ := exists_head_headText hops.1.1
      ((regionTexts (column + 2) regionTerms).toList ++
        '\n' :: ((opTexts (column + 2) opTerms).toList ++ braced column [] rest))
    have hhead : ((braced column [.mk none (.mk head regionTerms :: opTerms)] rest).dropWhile
        isSpace).head? = some c := by
      rw [braced_none, toList_opTexts_cons, dropWhile_opText hops.1.1, hc]
    rw [dropWhile_braced_nil] at hread
    refine ⟨[.mk none Ns], ?_, ?_⟩
    · rw [blocks_line p type fun d hd hmem' => ?_, bind_done hread, pure_apply]
      rw [hhead] at hd
      cases hd
      exact hmem (List.mem_cons_of_mem _ hmem')
    · rw [Unplaced.blocks, Unplaced.blocks, hNs]
      rfl
  · cases terms with
    | nil =>
      rw [dropWhile_braced_nil]
      exact ⟨[], rfl, rfl⟩
    | cons term terms =>
      have hlength := length_lt_dropWhile_braced column hlabels rest
      obtain ⟨Ns, hread, hNs⟩ := itemsUntil_blockTexts hreads hlabels h hm
        (s := (braced column (term :: terms) rest).dropWhile isSpace)
        (dropWhile_of_leaves (leaves_dropWhile _ _)) (Nat.lt_succ_of_lt hlength)
      obtain ⟨label, opTerms, rfl⟩ := hlabels term List.mem_cons_self
      obtain ⟨t, ht⟩ : ∃ t, (braced column (.mk (some label) opTerms :: terms) rest).dropWhile
          isSpace = '^' :: t := by
        rw [dropWhile_braced_some]
        exact ⟨_, List.eq_cons_of_mem_head? (head?_labelText label _)⟩
      rw [ht] at hread ⊢
      exact ⟨Ns, (blocks_mark p type t).trans hread, hNs⟩

/-- A region reads back. -/
theorem region_append (column : Nat) (hreads : ReadsUpTo m p type) (hshape : Legible.Shape terms)
    (h : Legible.blocks terms) (hm : (blockTexts column terms).toList.length ≤ m)
    (rest : List Char) :
    ∃ Ns, region p type ('{' :: '\n' :: braced column terms rest) = .done (.mk Ns) rest ∧
      Unplaced.blocks Ns = Unplaced.blocks terms := by
  obtain ⟨Ns, hread, hNs⟩ := blocks_append hreads hshape h hm rest
  have hspaces : spaces ('\n' :: braced column terms rest) =
      .done () ((braced column terms rest).dropWhile isSpace) := rfl
  refine ⟨Ns, bind_done ?_, hNs⟩
  rw [bracketed, bind_done (char_cons _ _), bind_done hspaces, bind_done hread,
    bind_done (spaces_of_leaves (leaves_cons.2 (by decide))), bind_done (char_cons _ _),
    pure_apply]

/-- Whether the regions of an operation end. -/
def regionsClosed : Reader Bool := do
  blanks
  return !(← startsWith '{')

theorem regions_eq (p : Reader OpTerm) (type : Reader TypeTerm) (s : List Char) :
    regions p type s = itemsUntil regionsClosed (region p type) (s.length + 1) s := rfl

theorem regionsClosed_apply (s : List Char) :
    regionsClosed s = .done (!((skip s).head? == some '{')) (skip s) := by
  rw [regionsClosed, bind_done (blanks_apply s), bind_done (startsWith_apply _ _), pure_apply]

theorem itemsUntil_regionTexts {terms : List RegionTerm} (hreads : ReadsUpTo m p type)
    (h : Legible.regions terms) (hm : (regionTexts column terms).toList.length ≤ m)
    (hs : skip s = skip ((regionTexts column terms).toList ++ '\n' :: rest))
    {n : Nat} (hn : terms.length < n) :
    ∃ Ns, itemsUntil regionsClosed (region p type) n s = .done Ns ('\n' :: rest) ∧
      Unplaced.regions Ns = Unplaced.regions terms := by
  obtain ⟨n, rfl⟩ := Nat.exists_eq_add_one.2 (Nat.zero_lt_of_lt hn)
  have hclosed := regionsClosed_apply s
  rw [hs] at hclosed
  induction terms generalizing s n with
  | nil => exact ⟨[], itemsUntil_stop hclosed, rfl⟩
  | cons term terms ih =>
    obtain ⟨n, rfl⟩ := Nat.exists_eq_add_one.2 (Nat.zero_lt_of_lt (Nat.lt_of_succ_lt_succ hn))
    obtain ⟨blockTerms⟩ := term
    obtain ⟨⟨hshape, hblocks⟩, hregions⟩ := h
    rw [toList_regionTexts_cons] at hclosed
    rw [regionTexts] at hm
    simp only [String.toList_append, List.length_append] at hm
    obtain ⟨Ns, hread, hNs⟩ := region_append column hreads hshape hblocks (by omega)
      ((regionTexts column terms).toList ++ '\n' :: rest)
    obtain ⟨Ms, hrests, hMs⟩ := ih hregions (by omega)
      (s := (regionTexts column terms).toList ++ '\n' :: rest) rfl n
      (Nat.lt_of_succ_lt_succ hn) (regionsClosed_apply _)
    refine ⟨_, itemsUntil_step hclosed hread hrests, ?_⟩
    rw [Unplaced.regions, Unplaced.regions, hNs, hMs]

theorem length_lt_skip_regionTexts (column : Nat) (terms : List RegionTerm) (rest : List Char) :
    terms.length < (skip ((regionTexts column terms).toList ++ '\n' :: rest)).length := by
  induction terms with
  | nil => exact Nat.succ_pos _
  | cons term terms ih =>
    obtain ⟨blockTerms⟩ := term
    have hdrop := (List.dropWhile_suffix isBlank
      (l := (regionTexts column terms).toList ++ '\n' :: rest)).length_le
    have hskip : skip (' ' :: '{' :: '\n' ::
        braced column blockTerms ((regionTexts column terms).toList ++ '\n' :: rest)) =
      '{' :: '\n' :: braced column blockTerms ((regionTexts column terms).toList ++ '\n' :: rest) :=
      rfl
    rw [toList_regionTexts_cons, hskip, braced]
    rw [skip] at ih
    simp only [List.length_append, List.length_cons] at ih hdrop ⊢
    omega

/-- The regions of an operation read back, up to the line break after them. -/
theorem regions_append {terms : List RegionTerm} (hreads : ReadsUpTo m p type)
    (h : Legible.regions terms) (hm : (regionTexts column terms).toList.length ≤ m)
    (hs : skip s = skip ((regionTexts column terms).toList ++ '\n' :: rest)) :
    ∃ Ns, regions p type s = .done Ns ('\n' :: rest) ∧
      Unplaced.regions Ns = Unplaced.regions terms := by
  have hlength := length_lt_skip_regionTexts column terms rest
  have hdrop : (skip s).length ≤ s.length := (List.dropWhile_suffix isBlank).length_le
  rw [regions_eq]
  exact itemsUntil_regionTexts hreads h hm hs (by rw [hs] at hdrop; omega)

end Nested

/-! ## Operations -/

section Lengths

variable {head : Head}

theorem length_typeText_le_headText {t : TypeTerm} (h : t ∈ head.types) :
    (typeText t).toList.length ≤ (headText head).toList.length := by
  have hcommas := length_le_length_commas (List.mem_map_of_mem (f := typeText) h)
  rw [toList_headText_eq, afterName, typesPart, if_neg (List.ne_nil_of_mem h), typeTexts_eq_map]
  simp only [List.length_append, List.length_cons]
  omega

theorem length_valueText_le_headText {key : String} {a : AttributeTerm}
    (h : Entry.mk key a ∈ head.entries) :
    (valueText a).toList.length ≤ (headText head).toList.length := by
  have hcommas := length_le_length_commas (List.mem_map_of_mem (f := entryText) h)
  rw [toList_entryText] at hcommas
  rw [toList_headText_eq, afterName, toList_entriesText, if_neg (List.ne_nil_of_mem h),
    entryTexts_eq_map]
  simp only [List.length_append, List.length_cons] at hcommas ⊢
  omega

end Lengths

theorem isItem_type {n : Nat} {t : TypeTerm} (h : Spelled.type IsReadable t)
    (hn : (typeText t).toList.length ≤ n + 1) : IsItem (type n) (typeText t) t where
  leaves := leaves_isSpace_typeText h
  reads rest hrest := (type_append_and_value_append n).1 t h hn rest hrest.typeEnds

theorem isWordItem_type {n : Nat} {t : TypeTerm} (h : Spelled.type IsReadable t)
    (hn : (typeText t).toList.length ≤ n + 1) :
    IsWordItem TypeEnds (type n) (typeText t) t := by
  obtain ⟨c, hc, hspace⟩ := exists_head_typeText h
  refine ⟨?_, leaves_of_head hc ?_, (type_append_and_value_append n).1 t h hn⟩
  · intro hnil
    rw [hnil] at hc
    cases hc
  · rw [isSpace, Bool.or_eq_false_iff, Bool.or_eq_false_iff, Bool.or_eq_false_iff] at hspace
    exact hspace.1.1.1

theorem isItem_value {n : Nat} {a : AttributeTerm} (h : Spelled.value IsReadable a)
    (hn : (valueText a).toList.length ≤ n) : IsItem (value n) (valueText a) a where
  leaves := leaves_isSpace_valueText h
  reads := (type_append_and_value_append n).2 a h hn

/-- The attributes and types of a line read back, given as many nested brackets as the
    line is long. -/
theorem isItem_entries {head : Head} (hline : Legible.Line head) {n : Nat}
    (hn : (headText head).toList.length ≤ n) : ∀ key a, Entry.mk key a ∈ head.entries →
      IsKey key ∧ IsItem (value n) (valueText a) a := fun _ _ ha =>
  have hspelled := Spelled.entries_iff.1 hline.spelled.entries _ ha
  ⟨hspelled.1, isItem_value hspelled.2 ((length_valueText_le_headText ha).trans hn)⟩

theorem isWordItem_types {head : Head} (hline : Legible.Line head) {n : Nat}
    (hn : (headText head).toList.length ≤ n) : ∀ t ∈ head.types,
      IsWordItem TypeEnds (type n) (typeText t) t := fun t ht =>
  isWordItem_type (Spelled.types_iff.1 hline.spelled.types t ht)
    (((length_typeText_le_headText ht).trans hn).trans (Nat.le_succ n))

/-- An operation reads back, given that shorter ones do. -/
theorem readsOp_succ {length n : Nat} (hreads : ReadsUpTo n (operation length n) (type (n + 1)))
    {term : OpTerm} (h : Legible.op term) (hn : (opText column term).toList.length ≤ n + 1) :
    ReadsOp (operation length (n + 1)) column term := by
  intro s rest hs
  obtain ⟨head, terms⟩ := term
  obtain ⟨hline, hregions⟩ := h
  have htext := toList_opText column head terms []
  rw [List.append_nil] at htext
  rw [htext] at hn
  simp only [List.length_append, List.length_cons] at hn
  -- every part of the line is told from what follows it
  have hends := lineEnds_regionTexts column hregions rest
  have hgap := gap_afterName head hends.gap
  have hnext := next_entriesText head.entries (next_typesPart head.types hends)
  have hgapEntries := gap_entriesText head.entries (gap_typesPart head.types hends.gap)
  obtain ⟨c, hc, hstart⟩ := IsWord.exists_head hline.spelled.dialect
    ('.' :: (head.kind.name.toList ++
      (afterName head ++ ((regionTexts column terms).toList ++ '\n' :: rest))))
  have hpercent : c ≠ '%' := by
    rintro rfl
    exact absurd hstart (by decide)
  have hblank : isBlank c = false := by
    have := not_mem_of_isWordStart hstart (l := [' ', '\t']) (by decide)
    simpa [isBlank] using this
  rw [dropWhile_opText hline, toList_headText_eq] at hs
  simp only [List.append_assoc, List.cons_append] at hs
  obtain ⟨results, s₁, hresults, hresultsEq, hs₁⟩ := results_part hline.results hc hblank hpercent
  have hname := qualifiedName_append hline.spelled.dialect hline.spelled.name
    (hgap.leaves (p := isWordChar) (by decide))
  rw [afterName] at hresults hname hs₁ hs
  simp only [List.append_assoc] at hresults hname hs₁ hs
  have hsymbol := symbol_part head.symbol hline.spelled.symbol
    (gap_operandsPart head.operands hgapEntries)
    ((next_operandsPart head.operands hnext).ne (by decide))
  obtain ⟨operands, s₂, hoperands, hoperandsEq, hs₂⟩ :=
    operands_part hline.operands hgapEntries hnext (by decide)
  obtain ⟨es, s₃, hentries, hentriesEq, hs₃⟩ := entries_part
    (isItem_entries hline (n := n + 1) (by omega))
    (stuck_entries_typesPart head.types hends _) hs₂
  obtain ⟨types, s₄, htypes, htypesEq, hs₄⟩ := types_part
    (isWordItem_types hline (n := n + 1) (by omega)) hends.typeEnds hends.next (by decide) hs₃
  obtain ⟨Ns, hregionsRead, hNs⟩ := regions_append hreads hregions (by omega) hs₄
  refine ⟨.mk ⟨results.getD [], head.kind, head.symbol, operands.getD [], es.getD [],
    types.getD [], ⟨length - byteLength (s.dropWhile isSpace),
      length - byteLength ('\n' :: rest)⟩⟩ Ns, ?_, ?_⟩
  · rw [operation, bind_done (spaces_apply s), bind_done (rest_apply _), hs, bind_done hresults,
      bind_done (blanks_apply s₁), hs₁, bind_done hname]
    refine (bind_done hsymbol).trans ((bind_done hoperands).trans ((bind_done hentries).trans ?_))
    refine (bind_done htypes).trans ((bind_done hregionsRead).trans ?_)
    rfl
  · rw [Unplaced.op, Unplaced.op, hNs, hresultsEq, hoperandsEq, hentriesEq, htypesEq]

theorem length_pos_opText (column : Nat) (term : OpTerm) :
    0 < (opText column term).toList.length := by
  obtain ⟨head, terms⟩ := term
  have htext := toList_opText column head terms []
  rw [List.append_nil] at htext
  rw [htext]
  simp only [List.length_append, List.length_cons]
  omega

/-- An operation reads back, given as many nested brackets as its text is long. -/
theorem readsOp_operation (length n : Nat) : ∀ column term, Legible.op term →
    (opText column term).toList.length ≤ n → ReadsOp (operation length n) column term := by
  induction n with
  | zero =>
    intro column term _ hn
    exact absurd (length_pos_opText column term) (Nat.not_lt.2 hn)
  | succ n ih =>
    intro column term h hn
    exact readsOp_succ ⟨ih, fun t ht hlength => isItem_type ht (by omega)⟩ h hn

end Source

/-- The text of a term reads as the term, up to the places in it. -/
theorem readTerm_text {term : OpTerm} (h : Legible.op term) :
    ∃ N, readTerm term.text = .ok N ∧ Unplaced.op N = Unplaced.op term := by
  obtain ⟨N, hread, hN⟩ := readsOp_operation (byteLength term.text.toList)
    (term.text.toList.length + 2) 0 term h (by rw [OpTerm.text]; omega) term.text.toList []
    (by rw [List.append_nil]; rfl)
  refine ⟨N, ?_, hN⟩
  unfold readTerm
  dsimp only
  rw [hread]
  rfl

end Offload
