import Mathlib.Data.List.TakeWhile
import Offload.Text.Reader

/-!
# Readings of composed readers

What a reader makes of a text follows from what its parts make of theirs. The
statements here come in two kinds:

* forward, for reading a known text: a part that gets done hands on what is left
  (`bind_done`), a class takes all of its characters up to one that is none
  (`takeWhile_append`), items between commas are read one by one
  (`separated1_append`);
* backward, for what is known after a reading: a composed reader gets done iff
  its parts do (`bind_eq_done` and the others named so).
-/

namespace Offload.Text.Reader

variable {α β : Type} {p q : Reader α} {f : α → Reader β}
  {c : Char} {s s' t rest place : List Char} {a : α} {b : β}

/-- What holds of the characters of a list is decided along the list, not over all
    characters that there are. -/
instance (priority := high) decidableForallMem {P : Char → Prop} [DecidablePred P]
    (cs : List Char) : Decidable (∀ c ∈ cs, P c) := List.decidableBAll P cs

/-- The reader does not get done. -/
def Stuck (p : Reader α) (s : List Char) : Prop := ∃ place, p s = .stuck place

theorem done_or_stuck (p : Reader α) (s : List Char) :
    (∃ a rest, p s = .done a rest) ∨ Stuck p s := by
  cases h : p s with
  | done a rest => exact .inl ⟨a, rest, rfl⟩
  | stuck place => exact .inr ⟨place, h⟩

theorem Stuck.not_done (h : Stuck p s) (hread : p s = .done a rest) : False := by
  obtain ⟨place, hplace⟩ := h
  rw [hplace] at hread
  cases hread

/-! ## Sequences and choices -/

theorem pure_apply (a : α) (s : List Char) : (pure a : Reader α) s = .done a s := rfl

theorem rest_apply (s : List Char) : Reader.rest s = .done s s := rfl

theorem startsWith_apply (c : Char) (s : List Char) :
    startsWith c s = .done (s.head? == some c) s := rfl

theorem bind_apply (p : Reader α) (f : α → Reader β) (s : List Char) :
    (p >>= f) s = match p s with
      | .done a rest => f a rest
      | .stuck place => .stuck place := rfl

theorem bind_done (h : p s = .done a rest) : (p >>= f) s = f a rest := by
  rw [bind_apply, h]

theorem Stuck.bind (h : Stuck p s) (f : α → Reader β) : Stuck (p >>= f) s := by
  obtain ⟨place, h⟩ := h
  exact ⟨place, by rw [bind_apply, h]⟩

theorem stuck_bind (h : p s = .done a rest) (hf : Stuck (f a) rest) : Stuck (p >>= f) s := by
  rwa [Stuck, bind_done h]

theorem orElse_apply (p q : Reader α) (s : List Char) : (p <|> q) s = match p s with
    | .done a rest => .done a rest
    | .stuck _ => q s := rfl

theorem orElse_done (h : p s = .done a rest) : (p <|> q) s = .done a rest := by
  rw [orElse_apply, h]

theorem Stuck.orElse (h : Stuck p s) : (p <|> q) s = q s := by
  obtain ⟨place, h⟩ := h
  rw [orElse_apply, h]

theorem optional_done (h : p s = .done a rest) : optional p s = .done (some a) rest := by
  rw [optional, h]

theorem Stuck.optional (h : Stuck p s) : optional p s = .done none s := by
  obtain ⟨place, h⟩ := h
  rw [Reader.optional, h]

@[simp]
theorem pure_eq_done {a b : α} : (pure a : Reader α) s = .done b rest ↔ a = b ∧ s = rest := by
  rw [pure_apply, Reading.done.injEq]

@[simp]
theorem bind_eq_done : (p >>= f) s = .done b rest ↔
    ∃ a s', p s = .done a s' ∧ f a s' = .done b rest := by
  rw [bind_apply]
  constructor
  · intro h
    cases hp : p s with
    | done a s' => exact ⟨a, s', rfl, by rwa [hp] at h⟩
    | stuck place => rw [hp] at h; cases h
  · rintro ⟨a, s', hp, hf⟩
    rwa [hp]

@[simp]
theorem fail_ne_done : (fail : Reader α) s ≠ .done a rest := by
  simp [fail]

theorem orElse_eq_done : (p <|> q) s = .done a rest ↔
    p s = .done a rest ∨ Stuck p s ∧ q s = .done a rest := by
  rw [orElse_apply, Stuck]
  cases p s <;> simp

theorem optional_eq_done {o : Option α} : optional p s = .done o rest ↔
    (∃ a, o = some a ∧ p s = .done a rest) ∨ (o = none ∧ Stuck p s ∧ s = rest) := by
  rw [optional, Stuck]
  constructor
  · intro h
    cases hp : p s with
    | done a s' => rw [hp] at h; cases h; exact .inl ⟨a, rfl, rfl⟩
    | stuck place => rw [hp] at h; cases h; exact .inr ⟨rfl, ⟨place, rfl⟩, rfl⟩
  · rintro (⟨a, rfl, hp⟩ | ⟨rfl, ⟨place, hp⟩, rfl⟩) <;> rw [hp]

theorem stuck_orElse : Stuck (p <|> q) s ↔ Stuck p s ∧ Stuck q s := by
  rcases done_or_stuck p s with ⟨a, rest, h⟩ | h
  · simp [Stuck, orElse_done h, h]
  · simp [Stuck, h.orElse, show ∃ place, p s = .stuck place from h]

theorem stuck_bind_pure {g : α → β} : Stuck (do return g (← p)) s ↔ Stuck p s := by
  refine ⟨fun h => ?_, fun h => h.bind _⟩
  rcases done_or_stuck p s with ⟨a, rest, hp⟩ | hp
  · obtain ⟨place, h⟩ := h
    rw [bind_done hp] at h
    cases h
  · exact hp

/-! ## Characters -/

theorem satisfy_cons {p : Char → Bool} (h : p c) : satisfy p (c :: s) = .done c s := by
  rw [satisfy, if_pos h]

theorem satisfy_eq_done {p : Char → Bool} :
    satisfy p s = .done c rest ↔ s = c :: rest ∧ p c := by
  cases s with
  | nil => simp [satisfy]
  | cons d s =>
    rw [satisfy]
    split
    · rename_i h
      constructor
      · rintro ⟨⟩
        exact ⟨rfl, h⟩
      · rintro ⟨h, -⟩
        cases h
        rfl
    · rename_i h
      simp only [reduceCtorEq, List.cons.injEq, false_iff]
      rintro ⟨⟨rfl, -⟩, hc⟩
      exact h hc

/-- A text goes on with no character of a class. -/
def Leaves (p : Char → Bool) (s : List Char) : Prop := ∀ c ∈ s.head?, p c = false

@[simp]
theorem leaves_nil (p : Char → Bool) : Leaves p [] := by simp [Leaves]

@[simp]
theorem leaves_cons {p : Char → Bool} : Leaves p (c :: s) ↔ p c = false := by simp [Leaves]

theorem dropWhile_of_leaves {p : Char → Bool} (h : Leaves p s) : s.dropWhile p = s := by
  cases s with
  | nil => rfl
  | cons c s => rw [List.dropWhile_cons, if_neg (by simp [leaves_cons.1 h])]

theorem leaves_dropWhile (p : Char → Bool) (s : List Char) : Leaves p (s.dropWhile p) := by
  induction s with
  | nil => exact leaves_nil p
  | cons c s ih =>
    rw [List.dropWhile_cons]
    split
    · exact ih
    · rename_i h
      exact leaves_cons.2 (by simpa using h)

theorem Leaves.stuck {p : Char → Bool} (h : Leaves p s) : Stuck (satisfy p) s := by
  cases s with
  | nil => exact ⟨[], rfl⟩
  | cons c s => exact ⟨c :: s, by rw [satisfy, leaves_cons.1 h]; rfl⟩

theorem char_cons (c : Char) (s : List Char) : char c (c :: s) = .done () s := by
  rw [char, bind_done (satisfy_cons (by simp)), pure_apply]

theorem stuck_char (h : s.head? ≠ some c) : Stuck (char c) s := by
  refine Stuck.bind (Leaves.stuck fun d hd => ?_) _
  rw [beq_eq_false_iff_ne]
  rintro rfl
  exact h hd

@[simp]
theorem char_eq_done {u : Unit} : char c s = .done u rest ↔ s = c :: rest := by
  simp [char, satisfy_eq_done]

theorem literal_append (t : String) (s : List Char) :
    literal t (t.toList ++ s) = .done () s := by
  rw [literal, if_pos (List.isPrefixOf_iff_prefix.2 (List.prefix_append _ _)), List.drop_left]

theorem stuck_literal {t : String} (h : ¬t.toList <+: s) : Stuck (literal t) s :=
  ⟨s, by rw [literal, if_neg (mt List.isPrefixOf_iff_prefix.1 h)]⟩

theorem not_prefix_of_stuck_literal {t : String} (h : Stuck (literal t) s) : ¬t.toList <+: s := by
  rintro ⟨rest, rfl⟩
  obtain ⟨place, h⟩ := h
  rw [literal_append] at h
  cases h

section Classes

variable {p : Char → Bool}

theorem takeWhile_append (hs : ∀ c ∈ s, p c) (hrest : Leaves p rest) :
    takeWhile p (s ++ rest) = .done s rest := by
  have hnil : rest.takeWhile p = [] := by
    cases rest with
    | nil => rfl
    | cons c rest => rw [List.takeWhile_cons, if_neg (by simp [leaves_cons.1 hrest])]
  have hall : rest.dropWhile p = rest := by
    cases rest with
    | nil => rfl
    | cons c rest => rw [List.dropWhile_cons, if_neg (by simp [leaves_cons.1 hrest])]
  rw [takeWhile, List.takeWhile_append_of_pos hs, List.dropWhile_append_of_pos hs, hnil, hall,
    List.append_nil]

theorem takeWhile_eq_done : takeWhile p s = .done s' rest ↔
    s' = s.takeWhile p ∧ rest = s.dropWhile p := by
  rw [takeWhile, Reading.done.injEq, eq_comm, @eq_comm _ _ rest]

theorem takeWhile1_append (hs : ∀ c ∈ s, p c) (hne : s ≠ []) (hrest : Leaves p rest) :
    takeWhile1 p (s ++ rest) = .done s rest := by
  cases s with
  | nil => exact absurd rfl hne
  | cons c s =>
    obtain ⟨hc, hs⟩ := List.forall_mem_cons.1 hs
    rw [List.cons_append, takeWhile1, bind_done (satisfy_cons hc),
      bind_done (takeWhile_append hs hrest), pure_apply]

theorem Leaves.stuck_takeWhile1 (h : Leaves p s) : Stuck (takeWhile1 p) s := h.stuck.bind _

end Classes

/-! ## Items between commas -/

section Separated

variable {item : Reader α} {separator : Reader Unit}

theorem separatedRest_succ (n : Nat) (s : List Char) :
    separatedRest item separator (n + 1) s = match separator s with
      | .stuck _ => .done [] s
      | .done _ s' => match item s' with
        | .stuck _ => .done [] s
        | .done a s'' => (do return a :: (← separatedRest item separator n)) s'' := rfl

theorem separatedRest_stop {n : Nat} (h : Stuck separator s) :
    separatedRest item separator n s = .done [] s := by
  obtain ⟨place, h⟩ := h
  cases n with
  | zero => rfl
  | succ n => rw [separatedRest_succ, h]

theorem separatedRest_step {n : Nat} {as : List α} (hsep : separator s = .done () s')
    (hitem : item s' = .done a t)
    (htail : separatedRest item separator n t = .done as rest) :
    separatedRest item separator (n + 1) s = .done (a :: as) rest := by
  rw [separatedRest_succ, hsep]
  simp only [hitem]
  rw [bind_done htail, pure_apply]

theorem separated1_done {as : List α} (hitem : item s = .done a s')
    (htail : separatedRest item separator s'.length s' = .done as rest) :
    separated1 item separator s = .done (a :: as) rest := by
  rw [separated1, bind_done hitem, bind_done (rest_apply s'), bind_done htail, pure_apply]

theorem Stuck.separated1 (h : Stuck item s) : Stuck (separated1 item separator) s := h.bind _

theorem Stuck.separated (h : Stuck item s) : separated item separator s = .done [] s := by
  rw [Reader.separated, bind_done h.separated1.optional, pure_apply, Option.getD_none]

theorem separated_done {as : List α} (h : separated1 item separator s = .done as rest) :
    separated item separator s = .done as rest := by
  rw [separated, bind_done (optional_done h), pure_apply, Option.getD_some]

/-- What holds of all that an item may be holds of all items. -/
theorem of_separatedRest {P : α → Prop} (hP : ∀ s a rest, item s = .done a rest → P a) {n : Nat}
    {as : List α} (h : separatedRest item separator n s = .done as rest) : ∀ a ∈ as, P a := by
  induction n generalizing s as with
  | zero =>
    obtain ⟨rfl, -⟩ := pure_eq_done.1 h
    simp
  | succ n ih =>
    rw [separatedRest_succ] at h
    split at h
    · cases h
      simp
    · split at h
      · cases h
        simp
      · rename_i a s'' hitem
        obtain ⟨as', s₃, htail, hpure⟩ := bind_eq_done.1 h
        obtain ⟨rfl, rfl⟩ := pure_eq_done.1 hpure
        exact List.forall_mem_cons.2 ⟨hP _ _ _ hitem, ih htail⟩

theorem of_separated1 {P : α → Prop} (hP : ∀ s a rest, item s = .done a rest → P a)
    {as : List α} (h : separated1 item separator s = .done as rest) : ∀ a ∈ as, P a := by
  simp only [separated1, bind_eq_done, pure_eq_done] at h
  obtain ⟨a, s₁, hitem, s₂, s₃, -, as', s₄, htail, rfl, -⟩ := h
  exact List.forall_mem_cons.2 ⟨hP _ _ _ hitem, of_separatedRest hP htail⟩

theorem of_separated {P : α → Prop} (hP : ∀ s a rest, item s = .done a rest → P a)
    {as : List α} (h : separated item separator s = .done as rest) : ∀ a ∈ as, P a := by
  simp only [separated, bind_eq_done, pure_eq_done] at h
  obtain ⟨o, s₁, ho, rfl, -⟩ := h
  rcases optional_eq_done.1 ho with ⟨as, rfl, h⟩ | ⟨rfl, -, -⟩
  · exact of_separated1 hP h
  · simp

end Separated

end Offload.Text.Reader
