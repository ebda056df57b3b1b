import Mathlib.Data.List.Forall2
import Offload.Fault
import Offload.Proofs.Outcome

/-!
# Outcomes that agree

Two computations *agree* up to a relation if what they give is related whenever both of
them succeed (`Agree`). Nothing is said of a computation that fails, so two runs of one
program over related data agree as soon as each of its steps does: the statements here
follow the steps, one for each way in which they are put together.
-/

namespace Offload

variable {ε α β γ δ : Type}

theorem rel_imp {r r' : α → β → Prop} {a : Option α} {b : Option β} (h : Option.Rel r a b)
    (hr : ∀ a b, r a b → r' a b) : Option.Rel r' a b := by
  cases h with
  | none => exact .none
  | some h => exact .some (hr _ _ h)

theorem rel_cases {r : α → β → Prop} {a : Option α} {b : Option β} (h : Option.Rel r a b) :
    a = none ∧ b = none ∨ ∃ x y, a = some x ∧ b = some y ∧ r x y := by
  cases h with
  | none => exact .inl ⟨rfl, rfl⟩
  | some h => exact .inr ⟨_, _, rfl, rfl, h⟩

theorem rel_some_left {r : α → β → Prop} {a : α} {y : Option β} (h : Option.Rel r (some a) y) :
    ∃ b, y = some b ∧ r a b := by
  cases h with
  | some h => exact ⟨_, rfl, h⟩

theorem rel_some_right {r : α → β → Prop} {x : Option α} {b : β} (h : Option.Rel r x (some b)) :
    ∃ a, x = some a ∧ r a b := by
  cases h with
  | some h => exact ⟨_, rfl, h⟩

/-! ## Related lists -/

section Lists

variable {r : α → β → Prop} {xs : List α} {ys : List β}

theorem forall₂_insertIdx (h : List.Forall₂ r xs ys) {x : α} {y : β} (hxy : r x y) (n : Nat) :
    List.Forall₂ r (xs.insertIdx n x) (ys.insertIdx n y) := by
  induction h generalizing n with
  | nil =>
    cases n with
    | zero => exact .cons hxy .nil
    | succ n => exact .nil
  | cons hab hrest ih =>
    cases n with
    | zero => exact .cons hxy (.cons hab hrest)
    | succ n => exact .cons hab (ih n)

theorem forall₂_set (h : List.Forall₂ r xs ys) {x : α} {y : β} (hxy : r x y) (n : Nat) :
    List.Forall₂ r (xs.set n x) (ys.set n y) := by
  induction h generalizing n with
  | nil => exact .nil
  | cons hab hrest ih =>
    cases n with
    | zero => exact .cons hxy hrest
    | succ n => exact .cons hab (ih n)

theorem forall₂_getElem? (h : List.Forall₂ r xs ys) (n : Nat) : Option.Rel r xs[n]? ys[n]? := by
  induction h generalizing n with
  | nil => exact .none
  | cons hab _ ih =>
    cases n with
    | zero => exact .some hab
    | succ n => exact ih n

theorem rel_getLast? (h : List.Forall₂ r xs ys) : Option.Rel r xs.getLast? ys.getLast? := by
  rw [List.getLast?_eq_getElem?, List.getLast?_eq_getElem?, h.length_eq]
  exact forall₂_getElem? h _

theorem rel_head? (h : List.Forall₂ r xs ys) : Option.Rel r xs.head? ys.head? := by
  cases h with
  | nil => exact .none
  | cons hab _ => exact .some hab

theorem forall₂_zip {s : γ → δ → Prop} {as : List γ} {bs : List δ} (h : List.Forall₂ r xs ys)
    (h' : List.Forall₂ s as bs) :
    List.Forall₂ (fun e e' => r e.1 e'.1 ∧ s e.2 e'.2) (xs.zip as) (ys.zip bs) := by
  induction h generalizing as bs with
  | nil => exact .nil
  | cons hab _ ih =>
    cases h' with
    | nil => exact .nil
    | cons hcd h' => exact .cons ⟨hab, hcd⟩ (ih h')

end Lists

/-! ## Agreement -/

/-- What two computations give is related, if both succeed. -/
def Agree (r : α → β → Prop) (x : Except ε α) (y : Except ε β) : Prop :=
  ∀ a b, x = .ok a → y = .ok b → r a b

namespace Agree

variable {r : α → β → Prop} {s : γ → δ → Prop} {x : Except ε α} {y : Except ε β}
  {f : α → Except ε γ} {g : β → Except ε δ}

theorem mono {r' : α → β → Prop} (h : Agree r x y) (hr : ∀ a b, r a b → r' a b) :
    Agree r' x y := fun a b ha hb => hr a b (h a b ha hb)

theorem pure {a : α} {b : β} (h : r a b) : Agree r (Pure.pure a : Except ε α) (Pure.pure b) := by
  intro a' b' ha hb
  rwa [← Outcome.pure_eq_ok.1 ha, ← Outcome.pure_eq_ok.1 hb]

theorem throw_left {e : ε} : Agree r (throw e) y := fun _ _ ha => absurd ha Outcome.throw_ne_ok

theorem throw_right {e : ε} : Agree r x (throw e) := fun _ _ _ hb => absurd hb Outcome.throw_ne_ok

/-- One step after another, the second with what the first has given. -/
theorem bind_ok (hx : Agree r x y)
    (hf : ∀ a b, x = .ok a → y = .ok b → r a b → Agree s (f a) (g b)) :
    Agree s (x >>= f) (y >>= g) := by
  intro c d hc hd
  obtain ⟨a, ha, hc⟩ := Outcome.bind_eq_ok.1 hc
  obtain ⟨b, hb, hd⟩ := Outcome.bind_eq_ok.1 hd
  exact hf a b ha hb (hx a b ha hb) c d hc hd

theorem bind (hx : Agree r x y) (hf : ∀ a b, r a b → Agree s (f a) (g b)) :
    Agree s (x >>= f) (y >>= g) := hx.bind_ok fun a b _ _ => hf a b

/-- A choice that is the same on both sides. -/
theorem ite {c d : Prop} [Decidable c] [Decidable d] {x' : Except ε α} {y' : Except ε β}
    (hcd : c ↔ d) (ht : c → Agree r x y) (hf : ¬c → Agree r x' y') :
    Agree r (if c then x else x') (if d then y else y') := by
  by_cases hc : c
  · rw [if_pos hc, if_pos (hcd.1 hc)]
    exact ht hc
  · rw [if_neg hc, if_neg fun hd => hc (hcd.2 hd)]
    exact hf hc

theorem found {a : Option α} {b : Option β} (h : Option.Rel r a b) :
    Agree r (Offload.found a) (Offload.found b) := by
  intro a' b' ha hb
  rw [found_eq_ok_iff] at ha hb
  subst ha hb
  cases h
  assumption

/-! ## Lists -/

section Lists

variable {xs : List α} {ys : List β}

theorem flatMapM {f : α → Except ε (List γ)} {g : β → Except ε (List δ)}
    (h : List.Forall₂ r xs ys) (hf : ∀ a b, r a b → Agree (List.Forall₂ s) (f a) (g b)) :
    Agree (List.Forall₂ s) (xs.flatMapM f) (ys.flatMapM g) := by
  induction h with
  | nil =>
    rw [List.flatMapM_nil, List.flatMapM_nil]
    exact .pure .nil
  | cons hab _ ih =>
    rw [List.flatMapM_cons, List.flatMapM_cons]
    exact (hf _ _ hab).bind fun cs ds hcds => ih.bind fun cs' ds' hcds' =>
      .pure (List.rel_append hcds hcds')

theorem allM {f : α → Except ε Bool} {g : β → Except ε Bool} (h : List.Forall₂ r xs ys)
    (hf : ∀ a b, r a b → Agree (· = ·) (f a) (g b)) :
    Agree (· = ·) (xs.allM f) (ys.allM g) := by
  induction h with
  | nil => exact .pure rfl
  | cons hab _ ih =>
    rw [List.allM_cons, List.allM_cons]
    refine (hf _ _ hab).bind fun c d hcd => ?_
    subst hcd
    cases c with
    | false => exact .pure rfl
    | true => exact ih

end Lists

end Agree

end Offload
