import Mathlib.Data.List.Basic
import Mathlib.Data.List.Forall2
import Mathlib.Data.List.InsertIdx
import Mathlib.Data.List.Nodup

/-!
# Positions in lists

Where an element stands in a list is said by what comes before it and what comes
after it: `l = before ++ a :: after`. The statements here turn positions given by
number into this form.
-/

namespace Offload.Position

variable {α : Type} {a b : α} {l before after : List α}

theorem idxOf?_eq_some_iff [DecidableEq α] {n : Nat} :
    l.idxOf? a = some n ↔
      ∃ before after, l = before ++ a :: after ∧ a ∉ before ∧ before.length = n := by
  induction l generalizing n with
  | nil => simp
  | cons c l ih =>
    rw [List.idxOf?_cons]
    split
    · rename_i hc
      obtain rfl := eq_of_beq hc
      constructor
      · rintro h
        exact ⟨[], l, rfl, List.not_mem_nil, Option.some.inj h⟩
      · rintro ⟨before, after, hl, hmem, rfl⟩
        cases before with
        | nil => rfl
        | cons d before =>
          rw [List.cons_append, List.cons.injEq] at hl
          exact absurd (hl.1 ▸ List.mem_cons_self) hmem
    · rename_i hc
      have hne : a ≠ c := fun e => hc (beq_iff_eq.2 e.symm)
      simp only [Option.map_eq_some_iff, ih]
      constructor
      · rintro ⟨_, ⟨before, after, rfl, hmem, rfl⟩, rfl⟩
        exact ⟨c :: before, after, rfl, by simp [hne, hmem], rfl⟩
      · rintro ⟨before, after, hl, hmem, rfl⟩
        cases before with
        | nil => exact absurd (List.cons.inj hl).1.symm hne
        | cons d before =>
          obtain ⟨rfl, rfl⟩ := List.cons.inj hl
          exact ⟨_, ⟨before, after, rfl, fun h => hmem (List.mem_cons_of_mem _ h), rfl⟩, rfl⟩

theorem insertIdx_length (l before : List α) (a : α) :
    (before ++ l).insertIdx before.length a = before ++ a :: l := by
  induction before with
  | nil => rfl
  | cons b before ih => simp [ih]

/-- Where an element stands in a list without duplicates is determined. -/
theorem split_unique {before' after' : List α} (hl : (before ++ a :: after).Nodup)
    (h : before ++ a :: after = before' ++ a :: after') : before = before' ∧ after = after' := by
  have hbefore : a ∉ before := fun hm =>
    (List.nodup_append.1 hl).2.2 a hm a List.mem_cons_self rfl
  have hafter : a ∉ after := (List.nodup_cons.1 (List.nodup_append.1 hl).2.1).1
  obtain ⟨h₁, -, h₂⟩ := (List.append_cons_inj_of_notMem hbefore hafter).1 h
  exact ⟨h₁, h₂⟩

/-- An element in the middle has no part in what is last, unless it is. -/
theorem getLast?_replace {c z : α} (h : (before ++ a :: after).getLast? = some z) (hz : z ≠ a) :
    (before ++ c :: after).getLast? = some z := by
  rcases List.eq_nil_or_concat after with rfl | ⟨after, last, rfl⟩
  · rw [List.getLast?_concat] at h
    exact absurd (Option.some.inj h).symm hz
  · rw [List.concat_eq_append, ← List.cons_append, ← List.append_assoc,
      List.getLast?_concat] at h ⊢
    exact h

/-- What is last stays last when others are left out. -/
theorem getLast?_filter {p : α → Bool} {z : α} (h : l.getLast? = some z) (hz : p z) :
    (l.filter p).getLast? = some z := by
  obtain ⟨before, rfl⟩ := List.getLast?_eq_some_iff.1 h
  rw [List.filter_append, List.filter_cons_of_pos hz, List.filter_nil, List.getLast?_concat]

/-- Where an element stands in a list, there stands its partner in a related one. -/
theorem exists_split_of_forall₂ {β : Type} {r : α → β → Prop} {b : β} {before' after' : List β}
    (h : List.Forall₂ r l (before' ++ b :: after')) :
    ∃ before a after, l = before ++ a :: after ∧ List.Forall₂ r before before' ∧ r a b ∧
      List.Forall₂ r after after' := by
  induction before' generalizing l with
  | nil =>
    obtain ⟨a, after, hab, hafter, rfl⟩ := List.forall₂_cons_right_iff.1 h
    exact ⟨[], a, after, rfl, .nil, hab, hafter⟩
  | cons c before' ih =>
    obtain ⟨d, l, hdc, hl, rfl⟩ := List.forall₂_cons_right_iff.1 h
    obtain ⟨before, a, after, rfl, hbefore, hab, hafter⟩ := ih hl
    exact ⟨d :: before, a, after, rfl, .cons hdc hbefore, hab, hafter⟩

theorem exists_forall₂ {β : Type} {r : α → β → Prop} (h : ∀ a ∈ l, ∃ b, r a b) :
    ∃ l', List.Forall₂ r l l' := by
  induction l with
  | nil => exact ⟨[], .nil⟩
  | cons a l ih =>
    obtain ⟨b, hab⟩ := h a List.mem_cons_self
    obtain ⟨l', hl⟩ := ih fun c hc => h c (List.mem_cons_of_mem a hc)
    exact ⟨b :: l', .cons hab hl⟩

theorem head?_of_forall₂ {β : Type} {r : α → β → Prop} {l' : List β} (h : List.Forall₂ r l l')
    (ha : l.head? = some a) : ∃ b, l'.head? = some b ∧ r a b := by
  cases h with
  | nil => cases ha
  | cons hab _ =>
    obtain rfl := Option.some.inj ha
    exact ⟨_, rfl, hab⟩

theorem forall₂_congr {β : Type} {r s : α → β → Prop} {l' : List β}
    (h : ∀ a ∈ l, ∀ b, r a b ↔ s a b) : List.Forall₂ r l l' ↔ List.Forall₂ s l l' := by
  induction l generalizing l' with
  | nil => simp
  | cons a l ih =>
    simp only [List.forall₂_cons_left_iff, h a List.mem_cons_self,
      ih fun b hb => h b (List.mem_cons_of_mem a hb)]

/-- Elements that are related are in the lists. -/
theorem forall₂_mem {β : Type} {r : α → β → Prop} {l' : List β} (h : List.Forall₂ r l l') :
    List.Forall₂ (fun a b => a ∈ l ∧ b ∈ l' ∧ r a b) l l' := by
  induction h with
  | nil => exact .nil
  | cons hab _ ih =>
    exact .cons ⟨List.mem_cons_self, List.mem_cons_self, hab⟩
      (ih.imp fun a b h => ⟨List.mem_cons_of_mem _ h.1, List.mem_cons_of_mem _ h.2.1, h.2.2⟩)

theorem forall₂_dropLast {β : Type} {r : α → β → Prop} {l' : List β} (h : List.Forall₂ r l l') :
    List.Forall₂ r l.dropLast l'.dropLast := by
  rw [List.dropLast_eq_take, List.dropLast_eq_take, ← h.length_eq]
  exact List.forall₂_take _ h

/-- Lists related to the same one are related. -/
theorem forall₂_of_common {β γ : Type} {r : α → β → Prop} {s : α → γ → Prop} {t : β → γ → Prop}
    {l₁ : List β} {l₂ : List γ} (h₁ : List.Forall₂ r l l₁) (h₂ : List.Forall₂ s l l₂)
    (ht : ∀ a b c, r a b → s a c → t b c) : List.Forall₂ t l₁ l₂ := by
  induction h₁ generalizing l₂ with
  | nil =>
    cases h₂
    exact .nil
  | cons hab _ ih =>
    cases h₂ with
    | cons hac h₂ => exact .cons (ht _ _ _ hab hac) (ih h₂)

/-- A list whose elements tell their positions has no duplicates. -/
theorem nodup_of_position {r : α → Nat → Prop} (hr : ∀ a m n, r a m → r a n → m = n)
    (h : ∀ n a, l[n]? = some a → r a n) : l.Nodup := by
  rw [List.nodup_iff_getElem?_ne_getElem?]
  intro i j hij hj e
  have hj' := List.getElem?_eq_getElem hj
  have := hr _ _ _ (h i _ (e.trans hj')) (h j _ hj')
  omega

/-- Nothing comes after the last element of a list without duplicates. -/
theorem eq_nil_of_getLast? (hnodup : (before ++ a :: after).Nodup)
    (h : (before ++ a :: after).getLast? = some a) : after = [] := by
  rcases List.eq_nil_or_concat after with hnil | ⟨rest, z, rfl⟩
  · exact hnil
  · rw [List.getLast?_append_cons, List.concat_eq_append, ← List.cons_append,
      List.getLast?_concat] at h
    obtain rfl := Option.some.inj h
    have ha := (List.nodup_cons.1 (List.nodup_append.1 hnodup).2.1).1
    exact absurd (by simp) ha

/-! ## The same place in two lists -/

/-- Two elements stand at the same place of two lists. -/
def Matched {β : Type} (l : List α) (l' : List β) (a : α) (b : β) : Prop :=
  ∃ n : Nat, l[n]? = some a ∧ l'[n]? = some b

namespace Matched

variable {β : Type} {l' : List β} {a' : β}

theorem symm (h : Matched l l' a a') : Matched l' l a' a := by
  obtain ⟨n, ha, ha'⟩ := h
  exact ⟨n, ha', ha⟩

theorem mem (h : Matched l l' a a') : a ∈ l ∧ a' ∈ l' := by
  obtain ⟨n, ha, ha'⟩ := h
  exact ⟨List.mem_of_getElem? ha, List.mem_of_getElem? ha'⟩

theorem of_append {before' after' : List β} (h : before.length = before'.length) :
    Matched (before ++ a :: after) (before' ++ a' :: after') a a' :=
  ⟨before.length, by simp, by simp [h]⟩

/-- Without duplicates an element stands at one place. -/
theorem unique (h : Matched l l' a a') (h' : Matched l l' b a') (hl' : l'.Nodup) : a = b := by
  obtain ⟨n, ha, ha'⟩ := h
  obtain ⟨m, hb, hb'⟩ := h'
  obtain rfl : n = m := (List.getElem?_inj (List.getElem?_eq_some_iff.1 ha').1 hl').1
    (ha'.trans hb'.symm)
  exact Option.some.inj (ha.symm.trans hb)

theorem of_forall₂ {r : α → β → Prop} (h : List.Forall₂ r l l') (ha' : a' ∈ l') :
    ∃ a, Matched l l' a a' ∧ r a a' := by
  obtain ⟨n, hn, rfl⟩ := List.mem_iff_getElem.1 ha'
  have hlength : n < l.length := h.length_eq ▸ hn
  exact ⟨l[n], ⟨n, List.getElem?_eq_getElem hlength, List.getElem?_eq_getElem hn⟩,
    List.Forall₂.get h hlength hn⟩

theorem eq (h : Matched l l a b) : a = b := by
  obtain ⟨n, ha, hb⟩ := h
  exact Option.some.inj (ha.symm.trans hb)

/-- Related lists have related elements at the same place. -/
theorem rel {r : α → β → Prop} (h : Matched l l' a a') (hl : List.Forall₂ r l l') : r a a' := by
  obtain ⟨n, ha, ha'⟩ := h
  obtain ⟨hn, rfl⟩ := List.getElem?_eq_some_iff.1 ha
  obtain ⟨hn', rfl⟩ := List.getElem?_eq_some_iff.1 ha'
  exact List.Forall₂.get hl hn hn'

/-- Lists of the same length have the same places. -/
theorem forall₂ (h : l.length = l'.length) : List.Forall₂ (Matched l l') l l' :=
  List.forall₂_iff_get.2 ⟨h, fun n hn hn' =>
    ⟨n, List.getElem?_eq_getElem hn, List.getElem?_eq_getElem hn'⟩⟩

end Matched

/-- Two elements stand at the same place of two lists, behind elements that are related. -/
def Aligned {β : Type} (r : α → β → Prop) (l : List α) (l' : List β) (a : α) (b : β) : Prop :=
  ∃ before after before' after', l = before ++ a :: after ∧ l' = before' ++ b :: after' ∧
    List.Forall₂ r before before'

theorem Matched.aligned {β : Type} {r : α → β → Prop} {l' : List β} {a' : β}
    (h : Matched l l' a a') (hl : List.Forall₂ r l l') : Aligned r l l' a a' := by
  obtain ⟨n, ha, ha'⟩ := h
  obtain ⟨hn, rfl⟩ := List.getElem?_eq_some_iff.1 ha
  obtain ⟨hn', rfl⟩ := List.getElem?_eq_some_iff.1 ha'
  exact ⟨l.take n, l.drop (n + 1), l'.take n, l'.drop (n + 1), by simp, by simp,
    List.forall₂_take n hl⟩

/-- A place in a list that is made from each of two elements is one in all of them. -/
theorem Aligned.flatMap {β γ δ : Type} {r : α → β → Prop} {s : γ → δ → Prop} {l' : List β}
    {a' : β} {c : γ} {c' : δ} {f : α → List γ} {g : β → List δ} (h : Aligned r l l' a a')
    (hfg : ∀ a b, r a b → List.Forall₂ s (f a) (g b)) (hc : Aligned s (f a) (g a') c c') :
    Aligned s (l.flatMap f) (l'.flatMap g) c c' := by
  obtain ⟨before, after, before', after', rfl, rfl, hbefore⟩ := h
  obtain ⟨inner, rest, inner', rest', hf, hg, hinner⟩ := hc
  refine ⟨before.flatMap f ++ inner, rest ++ after.flatMap f, before'.flatMap g ++ inner',
    rest' ++ after'.flatMap g, by simp [hf], by simp [hg], ?_⟩
  exact List.rel_append (List.rel_flatMap hbefore fun a b hab => hfg a b hab) hinner

/-- What is found under a key has its place in the list. -/
theorem mem_of_lookup {κ : Type} [BEq κ] [LawfulBEq κ] {entries : List (κ × α)} {key : κ}
    (h : entries.lookup key = some a) : (key, a) ∈ entries := by
  obtain ⟨_, _, rfl, -⟩ := List.lookup_eq_some_iff.1 h
  exact List.mem_append_right _ List.mem_cons_self

theorem lookup_eq_none {κ : Type} [BEq κ] [LawfulBEq κ] {entries : List (κ × α)} {key : κ}
    (h : key ∉ entries.map Prod.fst) : entries.lookup key = none := by
  refine List.lookup_eq_none_iff.2 fun e he => bne_iff_ne.2 ?_
  rintro rfl
  exact h (List.mem_map_of_mem he)

/-- What stands under a key is found, if no other entry has the key. -/
theorem lookup_of_mem {κ : Type} [BEq κ] [LawfulBEq κ] {entries : List (κ × α)} {key : κ}
    (hnodup : (entries.map Prod.fst).Nodup) (h : (key, a) ∈ entries) :
    entries.lookup key = some a := by
  obtain ⟨before, after, rfl⟩ := List.append_of_mem h
  refine List.lookup_eq_some_iff.2 ⟨before, after, rfl, fun e he => bne_iff_ne.2 fun heq => ?_⟩
  rw [List.map_append, List.nodup_append] at hnodup
  exact hnodup.2.2 e.1 (List.mem_map_of_mem he) key List.mem_cons_self heq.symm

end Offload.Position
