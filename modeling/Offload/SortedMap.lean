/-!
# Sorted maps

A `SortedMap` is a map as the list of its entries, in the order of their keys,
each key once. The order is part of it, so two maps with the same value under
every key are equal, and whatever is in the list is found under its key.

A list of entries in any order becomes a map by `SortedMap.ofList`, and a list
with distinct keys can be sorted by them (`sortBy`), which gives the list of that
map (`sortBy_of_perm`).
-/

namespace Offload

/-! ## Sorting -/

section Sorting

variable {α : Type} {le : α → α → Bool} {a b : α} {l l' : List α}

/-- Put an item into a list, before the first that it may stand before. -/
def insertBy (le : α → α → Bool) (a : α) : List α → List α
  | [] => [a]
  | b :: l => if le a b then a :: b :: l else b :: insertBy le a l

/-- Sort a list; items that may stand in both orders stay in theirs. -/
def sortBy (le : α → α → Bool) : List α → List α
  | [] => []
  | a :: l => insertBy le a (sortBy le l)

theorem perm_insertBy : (insertBy le a l).Perm (a :: l) := by
  induction l with
  | nil => exact .refl _
  | cons b l ih =>
    rw [insertBy]
    split
    · exact .refl _
    · exact (ih.cons b).trans (.swap a b l)

theorem perm_sortBy : ∀ l : List α, (sortBy le l).Perm l
  | [] => .refl _
  | a :: l => perm_insertBy.trans ((perm_sortBy l).cons a)

theorem pairwise_insertBy (total : ∀ a b, le a b || le b a)
    (trans : ∀ a b c, le a b → le b c → le a c) (h : l.Pairwise fun a b => le a b) :
    (insertBy le a l).Pairwise fun a b => le a b := by
  induction l with
  | nil => exact List.pairwise_singleton _ _
  | cons b l ih =>
    obtain ⟨hb, hl⟩ := List.pairwise_cons.1 h
    rw [insertBy]
    split
    · rename_i hle
      exact List.pairwise_cons.2 ⟨List.forall_mem_cons.2 ⟨hle, fun c hc =>
        trans a b c hle (hb c hc)⟩, h⟩
    · rename_i hle
      refine List.pairwise_cons.2 ⟨fun c hc => ?_, ih hl⟩
      rcases List.mem_cons.1 (perm_insertBy.mem_iff.1 hc) with rfl | hc
      · exact (Bool.or_eq_true_iff.1 (total b c)).resolve_right hle
      · exact hb c hc

theorem pairwise_sortBy (total : ∀ a b, le a b || le b a)
    (trans : ∀ a b c, le a b → le b c → le a c) :
    ∀ l : List α, (sortBy le l).Pairwise fun a b => le a b
  | [] => .nil
  | _ :: l => pairwise_insertBy total trans (pairwise_sortBy total trans l)

/-- Sorting gives the one list with the same items that is in order. -/
theorem sortBy_of_perm (total : ∀ a b, le a b || le b a)
    (trans : ∀ a b c, le a b → le b c → le a c)
    (antisymm : ∀ a b, a ∈ l' → b ∈ l' → le a b → le b a → a = b)
    (h : l'.Pairwise fun a b => le a b) (hperm : l.Perm l') : sortBy le l = l' :=
  ((perm_sortBy l).trans hperm).eq_of_pairwise
    (fun a b ha hb => antisymm a b (hperm.mem_iff.1 ((perm_sortBy l).mem_iff.1 ha)) hb)
    (pairwise_sortBy total trans l) h

end Sorting

/-! ## Maps -/

/-- A map as the list of its entries, in the order of their keys, each key once. -/
structure SortedMap (κ α : Type) [LT κ] where
  entries : List (κ × α)
  ordered : entries.Pairwise fun e f => e.1 < f.1
  deriving DecidableEq, Repr

namespace SortedMap

section Basic

variable {κ α β : Type} [LT κ]

/-- The map without entries. -/
def empty : SortedMap κ α := ⟨[], .nil⟩

instance : EmptyCollection (SortedMap κ α) := ⟨empty⟩
instance : Inhabited (SortedMap κ α) := ⟨empty⟩

@[ext] theorem ext {m n : SortedMap κ α} (h : m.entries = n.entries) : m = n := by
  cases m
  cases n
  cases h
  rfl

/-- The keys, in order. -/
def keys (m : SortedMap κ α) : List κ := m.entries.map Prod.fst

/-- The map with other values under the same keys. -/
def mapValues (m : SortedMap κ α) (f : α → β) : SortedMap κ β where
  entries := m.entries.map fun e => (e.1, f e.2)
  ordered := List.pairwise_map.2 m.ordered

/-- The part of a map with some of the keys. -/
def restrict (m : SortedMap κ α) (keep : κ → Bool) : SortedMap κ α where
  entries := m.entries.filter fun e => keep e.1
  ordered := m.ordered.sublist List.filter_sublist

/-- The value under a key. -/
def get? [BEq κ] (m : SortedMap κ α) (key : κ) : Option α := m.entries.lookup key

/-- Whether there is a value under a key. -/
def contains [BEq κ] (m : SortedMap κ α) (key : κ) : Bool := (m.get? key).isSome

end Basic

/-! ### Entries by key -/

section Entries

variable {κ α : Type} [LT κ] [DecidableEq κ] {key : κ} {a : α} {l : List (κ × α)} {m : SortedMap κ α}
  {e f : κ × α}

/-- Put a value under a key into a list of entries, in the place of an earlier
    one. -/
def setEntry [DecidableLT κ] (key : κ) (a : α) : List (κ × α) → List (κ × α)
  | [] => [(key, a)]
  | (k, b) :: rest =>
    if key < k then (key, a) :: (k, b) :: rest
    else if key = k then (key, a) :: rest
    else (k, b) :: setEntry key a rest

theorem mem_setEntry [DecidableLT κ] (h : e ∈ setEntry key a l) : e = (key, a) ∨ e ∈ l := by
  induction l with
  | nil => exact .inl (List.mem_singleton.1 h)
  | cons f rest ih =>
    rw [setEntry] at h
    split at h
    · exact List.mem_cons.1 h
    split at h
    · exact (List.mem_cons.1 h).imp_right (List.mem_cons_of_mem f)
    · rcases List.mem_cons.1 h with rfl | h
      · exact .inr List.mem_cons_self
      · exact (ih h).imp_right (List.mem_cons_of_mem f)

theorem self_mem_setEntry [DecidableLT κ] : (key, a) ∈ setEntry key a l := by
  induction l with
  | nil => exact List.mem_singleton_self _
  | cons f rest ih =>
    rw [setEntry]
    split
    · exact List.mem_cons_self
    split
    · exact List.mem_cons_self
    · exact List.mem_cons_of_mem f ih

theorem mem_setEntry_of_ne [DecidableLT κ] (he : e ∈ l) (hne : e.1 ≠ key) :
    e ∈ setEntry key a l := by
  induction l with
  | nil => cases he
  | cons f rest ih =>
    rw [setEntry]
    split
    · exact List.mem_cons_of_mem _ he
    split
    · rename_i heq
      rcases List.mem_cons.1 he with rfl | he
      · exact absurd heq.symm hne
      · exact List.mem_cons_of_mem _ he
    · rcases List.mem_cons.1 he with rfl | he
      · exact List.mem_cons_self
      · exact List.mem_cons_of_mem f (ih he)

theorem contains_iff : m.contains key ↔ ∃ e ∈ m.entries, e.1 = key := by
  rw [contains, get?, List.lookup_isSome_iff]
  exact exists_congr fun e => and_congr_right fun _ => by rw [beq_iff_eq, eq_comm]

end Entries

variable {κ α : Type} [LE κ] [LT κ] [Std.LawfulOrderLT κ]
  {m n : SortedMap κ α} {key : κ} {a : α} {e f : κ × α} {l : List (κ × α)}

theorem nodup_keys (m : SortedMap κ α) : m.keys.Nodup :=
  List.pairwise_map.2 (m.ordered.imp Std.ne_of_lt)

/-- A key has one entry. -/
theorem eq_of_key (he : e ∈ m.entries) (hf : f ∈ m.entries) (hkey : e.1 = f.1) : e = f := by
  obtain ⟨l, h⟩ := m
  induction l with
  | nil => cases he
  | cons x rest ih =>
    obtain ⟨hx, hrest⟩ := List.pairwise_cons.1 h
    rcases List.mem_cons.1 he with rfl | he'
    · rcases List.mem_cons.1 hf with rfl | hf'
      · rfl
      · exact absurd hkey (Std.ne_of_lt (hx f hf'))
    · rcases List.mem_cons.1 hf with rfl | hf'
      · exact absurd hkey.symm (Std.ne_of_lt (hx e he'))
      · exact ih hrest he' hf'

variable [DecidableEq κ]

/-- What is found under a key is its entry. -/
theorem get?_eq_some_iff : m.get? key = some a ↔ (key, a) ∈ m.entries := by
  constructor
  · intro h
    obtain ⟨before, after, heq, -⟩ := List.lookup_eq_some_iff.1 h
    exact heq ▸ List.mem_append_right before List.mem_cons_self
  · intro h
    have hsome : (m.get? key).isSome :=
      List.lookup_isSome_iff.2 ⟨_, h, beq_self_eq_true key⟩
    obtain ⟨b, hb⟩ := Option.isSome_iff_exists.1 hsome
    obtain ⟨before, after, heq, -⟩ := List.lookup_eq_some_iff.1 hb
    have hmem : (key, b) ∈ m.entries := heq ▸ List.mem_append_right before List.mem_cons_self
    rw [hb, (Prod.mk.inj (eq_of_key hmem h rfl)).2]

/-- A key that stays has the value that it had. -/
theorem get?_restrict {keep : κ → Bool} (h : keep key) :
    (m.restrict keep).get? key = m.get? key := by
  refine Option.ext fun a => ?_
  rw [get?_eq_some_iff, get?_eq_some_iff]
  exact List.mem_filter.trans (and_iff_left h)

variable [Std.IsLinearOrder κ] [DecidableLT κ]

theorem ordered_setEntry (h : l.Pairwise fun e f => e.1 < f.1) :
    (setEntry key a l).Pairwise fun e f => e.1 < f.1 := by
  induction l with
  | nil => exact List.pairwise_singleton _ _
  | cons f rest ih =>
    obtain ⟨hf, hrest⟩ := List.pairwise_cons.1 h
    rw [setEntry]
    split
    · rename_i hlt
      exact List.pairwise_cons.2 ⟨List.forall_mem_cons.2 ⟨hlt, fun e he =>
        Std.lt_trans hlt (hf e he)⟩, h⟩
    split
    · rename_i heq
      subst heq
      exact List.pairwise_cons.2 ⟨hf, hrest⟩
    · rename_i hnlt hne
      refine List.pairwise_cons.2 ⟨fun e he => ?_, ih hrest⟩
      rcases mem_setEntry he with rfl | he
      · exact Std.lt_of_le_of_ne (Std.not_lt.1 hnlt) (Ne.symm hne)
      · exact hf e he

/-! ### Setting values -/

/-- Put a value under a key, in the place of an earlier one. -/
def set (m : SortedMap κ α) (key : κ) (a : α) : SortedMap κ α :=
  ⟨setEntry key a m.entries, ordered_setEntry m.ordered⟩

/-- The other entries stay as they are. -/
theorem mem_set : e ∈ (m.set key a).entries ↔ e = (key, a) ∨ e ∈ m.entries ∧ e.1 ≠ key := by
  constructor
  · intro he
    by_cases hkey : e.1 = key
    · exact .inl (eq_of_key (m := m.set key a) he self_mem_setEntry hkey)
    · refine .inr ⟨(mem_setEntry he).resolve_left fun heq => hkey ?_, hkey⟩
      rw [heq]
  · rintro (rfl | ⟨he, hne⟩)
    · exact self_mem_setEntry
    · exact mem_setEntry_of_ne he hne

theorem get?_set {k : κ} : (m.set key a).get? k = if k = key then some a else m.get? k := by
  refine Option.ext fun b => ?_
  rw [get?_eq_some_iff, mem_set, Prod.mk.injEq]
  split
  · rename_i hk
    rw [Option.some.injEq, eq_comm (a := a)]
    exact ⟨fun h => (h.resolve_right fun h => h.2 hk).2, fun h => .inl ⟨hk, h⟩⟩
  · rename_i hk
    rw [get?_eq_some_iff]
    exact ⟨fun h => (h.resolve_left fun h => hk h.1).1, fun h => .inr ⟨h, hk⟩⟩

theorem contains_set {k : κ} : (m.set key a).contains k ↔ k = key ∨ m.contains k := by
  simp only [contains_iff, mem_set]
  constructor
  · rintro ⟨e, rfl | ⟨he, -⟩, rfl⟩
    · exact .inl rfl
    · exact .inr ⟨e, he, rfl⟩
  · rintro (rfl | ⟨e, he, rfl⟩)
    · exact ⟨_, .inl rfl, rfl⟩
    · by_cases hkey : e.1 = key
      · exact ⟨_, .inl rfl, hkey.symm⟩
      · exact ⟨e, .inr ⟨he, hkey⟩, rfl⟩

/-- Put the values of some entries under their keys; of entries with the same key
    the last one counts. -/
def setAll (m : SortedMap κ α) (entries : List (κ × α)) : SortedMap κ α :=
  entries.foldl (fun m e => m.set e.1 e.2) m

/-- The map of a list of entries. -/
def ofList (entries : List (κ × α)) : SortedMap κ α := setAll empty entries

/-- A list of entries stands for its map. -/
instance : Coe (List (κ × α)) (SortedMap κ α) := ⟨ofList⟩

/-- Put the values of another map under their keys. -/
def append (m n : SortedMap κ α) : SortedMap κ α := m.setAll n.entries

theorem mem_setAll (h : e ∈ (m.setAll l).entries) : e ∈ m.entries ∨ e ∈ l := by
  induction l generalizing m with
  | nil => exact .inl h
  | cons f l ih =>
    rcases ih h with h | h
    · refine (mem_set.1 h).symm.imp And.left fun heq => ?_
      rw [heq]
      exact List.mem_cons_self
    · exact .inr (List.mem_cons_of_mem f h)

/-- A key after all others comes last. -/
theorem setEntry_of_lt (h : ∀ e ∈ l, e.1 < key) : setEntry key a l = l ++ [(key, a)] := by
  induction l with
  | nil => rfl
  | cons e rest ih =>
    have he := h e List.mem_cons_self
    rw [setEntry, if_neg (Std.not_lt.2 (Std.le_of_lt he)), if_neg (Std.ne_of_lt he).symm,
      ih fun e he => h e (List.mem_cons_of_mem _ he), List.cons_append]

/-- Entries that come in the order of their keys, after those of a map, are put
    at its end. -/
theorem entries_setAll (h : (m.entries ++ l).Pairwise fun e f => e.1 < f.1) :
    (m.setAll l).entries = m.entries ++ l := by
  induction l generalizing m with
  | nil => exact (List.append_nil _).symm
  | cons f l ih =>
    have hset : (m.set f.1 f.2).entries = m.entries ++ [f] :=
      setEntry_of_lt fun e he => (List.pairwise_append.1 h).2.2 e he f List.mem_cons_self
    rw [setAll, List.foldl_cons]
    rw [List.append_cons, ← hset] at h
    rw [List.append_cons, ← hset]
    exact ih h

/-- The map of entries that are in order has just these. -/
theorem entries_ofList (h : l.Pairwise fun e f => e.1 < f.1) : (ofList l).entries = l :=
  entries_setAll (m := empty) h

/-- Of entries with distinct keys all are there, with the other entries of the
    map. -/
theorem mem_setAll_iff (hl : (l.map Prod.fst).Nodup) : e ∈ (m.setAll l).entries ↔
    e ∈ l ∨ e ∈ m.entries ∧ e.1 ∉ l.map Prod.fst := by
  induction l generalizing m with
  | nil => simp [setAll]
  | cons f l ih =>
    obtain ⟨hf, hl⟩ := List.nodup_cons.1 hl
    rw [setAll, List.foldl_cons]
    refine (ih hl).trans ?_
    rw [mem_set, List.map_cons, List.mem_cons, List.mem_cons]
    constructor
    · rintro (he | ⟨rfl | ⟨he, hne⟩, hnot⟩)
      · exact .inl (.inr he)
      · exact .inl (.inl rfl)
      · exact .inr ⟨he, not_or.2 ⟨hne, hnot⟩⟩
    · rintro ((rfl | he) | ⟨he, hnot⟩)
      · exact .inr ⟨.inl rfl, hf⟩
      · exact .inl he
      · exact .inr ⟨.inr ⟨he, (not_or.1 hnot).1⟩, (not_or.1 hnot).2⟩

theorem mem_append : e ∈ (m.append n).entries ↔ e ∈ n.entries ∨ e ∈ m.entries ∧ e.1 ∉ n.keys :=
  mem_setAll_iff n.nodup_keys

/-- A key is in a map with another one iff it is in one of them. -/
theorem contains_append : (m.append n).contains key ↔ m.contains key ∨ n.contains key := by
  simp only [contains_iff, mem_append]
  constructor
  · rintro ⟨e, he | ⟨he, -⟩, hkey⟩
    · exact .inr ⟨e, he, hkey⟩
    · exact .inl ⟨e, he, hkey⟩
  · rintro (⟨e, he, hkey⟩ | ⟨e, he, hkey⟩)
    · by_cases hmem : e.1 ∈ n.keys
      · obtain ⟨f, hf, heq⟩ := List.mem_map.1 hmem
        exact ⟨f, .inl hf, heq.trans hkey⟩
      · exact ⟨e, .inr ⟨he, hmem⟩, hkey⟩
    · exact ⟨e, .inl he, hkey⟩

end SortedMap

end Offload
