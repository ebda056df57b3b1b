import Mathlib.Data.List.Basic
import Offload.Proofs.Text.Reader

/-!
# Numerals read back

The decimal digits of a number read as the number (`natural_append`), and what
is read is below the limit (`lt_of_natural`).
-/

namespace Offload.Text

open Reader

theorem toList_toString (n : Nat) : (toString n).toList = Nat.toDigits 10 n := by
  rw [Nat.toString_eq_ofList_toDigits, String.toList_ofList]

theorem toString_ne_empty (n : Nat) : (toString n).toList ≠ [] := by
  rw [toList_toString]
  exact Nat.toDigits_ne_nil

theorem isDigit_of_mem_toString {n : Nat} {c : Char} (h : c ∈ (toString n).toList) :
    c.isDigit := by
  rw [toList_toString] at h
  exact Nat.isDigit_of_mem_toDigits (by decide) (Nat.le_refl 10) h

theorem exists_head?_toString (n : Nat) (rest : List Char) :
    ∃ c, ((toString n).toList ++ rest).head? = some c ∧ c.isDigit := by
  cases h : (toString n).toList with
  | nil => exact absurd h (toString_ne_empty n)
  | cons c cs => exact ⟨c, rfl, isDigit_of_mem_toString (n := n) (by rw [h]; exact .head _)⟩

/-- A number starts with a digit. -/
theorem leaves_toString {p : Char → Bool} (hp : ∀ c : Char, c.isDigit → p c = false) (n : Nat)
    (rest : List Char) : Leaves p ((toString n).toList ++ rest) := by
  obtain ⟨c, hc, hdigit⟩ := exists_head?_toString n rest
  intro d hd
  rw [hc] at hd
  cases hd
  exact hp c hdigit

@[simp]
theorem digitsValue_toString (n : Nat) : digitsValue (toString n).toList = n := by
  rw [toList_toString]
  exact Nat.ofDigitChars_ten_toDigits

theorem toString_injective : Function.Injective (toString : Nat → String) := fun m n h => by
  rw [← digitsValue_toString m, h, digitsValue_toString]

/-- Only zero is written with a zero in front. -/
theorem head?_toDigits_ne_zero {n : Nat} (h : 0 < n) : (Nat.toDigits 10 n).head? ≠ some '0' := by
  induction n using Nat.strongRecOn with
  | ind n ih =>
    by_cases hn : n < 10
    · have hall : ∀ n : Fin 10, 0 < n.val → (Nat.toDigits 10 n).head? ≠ some '0' := by decide
      exact hall ⟨n, hn⟩ h
    · rw [Nat.toDigits_of_base_le (by decide) (Nat.not_lt.1 hn),
        List.head?_append_of_ne_nil _ Nat.toDigits_ne_nil]
      exact ih (n / 10) (by omega) (by omega)

/-- The digits of a number read as the number. -/
theorem natural_append {limit n : Nat} (h : n < limit) {rest : List Char}
    (hrest : Leaves Char.isDigit rest) :
    natural limit ((toString n).toList ++ rest) = .done n rest := by
  rcases Nat.eq_zero_or_pos n with rfl | hpos
  · rfl
  have hdigits := takeWhile1_append (fun c => isDigit_of_mem_toString) (toString_ne_empty n) hrest
  rw [natural.eq_def]
  split
  · rename_i rest' heq
    have hhead := head?_toDigits_ne_zero hpos
    rw [← toList_toString, ← List.head?_append_of_ne_nil _ (toString_ne_empty n), heq] at hhead
    exact absurd rfl hhead
  · rw [hdigits]
    simp only [digitsValue_toString, if_pos h]

theorem Reader.Leaves.stuck_natural {limit : Nat} {s : List Char} (h : Leaves Char.isDigit s) :
    Stuck (natural limit) s := by
  obtain ⟨place, hplace⟩ := h.stuck_takeWhile1
  rw [Stuck, natural.eq_def]
  split
  · exact absurd (leaves_cons.1 h) (by decide)
  · exact ⟨place, by rw [hplace]⟩

theorem lt_of_natural {limit n : Nat} {s rest : List Char} (hlimit : 0 < limit)
    (h : natural limit s = .done n rest) : n < limit := by
  rw [natural.eq_def] at h
  split at h
  · cases h
    exact hlimit
  · split at h
    · cases h
    · dsimp only at h
      split at h
      · cases h
        assumption
      · cases h

end Offload.Text
