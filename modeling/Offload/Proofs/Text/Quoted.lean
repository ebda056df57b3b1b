import Offload.Proofs.Text.Reader
import Offload.Text.Quoted

/-!
# Quoted strings read back

The escapes of a character read as the character again (`quotedRest_escapeChar`),
and so a quoted string as the string, whatever comes after it
(`quotedString_append`).
-/

namespace Offload.Text

open Reader

theorem anyChar_cons (c : Char) (s : List Char) : anyChar (c :: s) = .done c s := rfl

theorem hexValue_digitChar {n : Nat} (h : n < 16) : hexValue (Nat.digitChar n) = some n := by
  have hall : ∀ n : Fin 16, hexValue (Nat.digitChar n) = some n.val := by decide
  exact hall ⟨n, h⟩

theorem hexCode_hexByte {n : Nat} (h : n < 0x100) :
    hexCode (Nat.digitChar (n / 16)) (Nat.digitChar (n % 16)) = some n := by
  have hne : ∀ d : Fin 16, Nat.digitChar d ≠ '+' := by decide
  have hhigh : n / 16 < 16 := by omega
  rw [hexCode, if_neg (hne ⟨n / 16, hhigh⟩), hexValue_digitChar hhigh,
    hexValue_digitChar (by omega)]
  simp only [Option.bind_eq_bind, Option.bind_some, Option.pure_def, Option.some.injEq]
  omega

/-- The escape of a control character reads as the character. -/
theorem escapeSequence_hexByte {c : Char} (h : c.toNat < 0x100) (s : List Char) :
    escapeSequence ('x' :: hexByte c.toNat ++ s) = .done [c] s := by
  simp only [escapeSequence, hexByte, List.cons_append, bind_apply, anyChar_cons,
    hexCode_hexByte h]
  exact congrArg (fun c => Reading.done [c] s) (Char.ofNat_toNat c)

theorem quotedRest_escapeChar (n : Nat) (c : Char) (s : List Char) :
    quotedRest (n + 1) (escapeChar c ++ s) = (do return c :: (← quotedRest n)) s := by
  rw [escapeChar.eq_def]
  split
  iterate 6 · rfl
  rename_i hbackslash hquote _ _ _ _
  split
  · rename_i hcontrol
    have hsmall : c.toNat < 0x100 := by
      simp only [isControl, Bool.or_eq_true, Bool.and_eq_true, decide_eq_true_eq] at hcontrol
      omega
    have hescape := escapeSequence_hexByte hsmall s
    change (do return (← escapeSequence) ++ (← quotedRest n) : Reader _)
      ('x' :: hexByte c.toNat ++ s) = _
    rw [bind_done hescape]
    rfl
  · rw [quotedRest, List.singleton_append, bind_done (anyChar_cons c s)]
    split
    · exact absurd rfl hquote
    · exact absurd rfl hbackslash
    · rfl

theorem quotedRest_escape (cs : List Char) {n : Nat} (h : cs.length < n) (rest : List Char) :
    quotedRest n (cs.flatMap escapeChar ++ '"' :: rest) = .done cs rest := by
  induction cs generalizing n with
  | nil =>
    obtain ⟨n, rfl⟩ := Nat.exists_eq_add_one.2 h
    rfl
  | cons c cs ih =>
    obtain ⟨n, rfl⟩ := Nat.exists_eq_add_one.2 (Nat.zero_lt_of_lt h)
    rw [List.flatMap_cons, List.append_assoc, quotedRest_escapeChar,
      bind_done (ih (Nat.lt_of_succ_lt_succ h)), pure_apply]

theorem escapeChar_ne_nil (c : Char) : escapeChar c ≠ [] := by
  rw [escapeChar.eq_def]
  split
  iterate 6 · exact List.cons_ne_nil _ _
  split <;> exact List.cons_ne_nil _ _

theorem length_le_length_escape (cs : List Char) : cs.length ≤ (cs.flatMap escapeChar).length := by
  induction cs with
  | nil => exact Nat.le_refl 0
  | cons c cs ih =>
    have := List.length_pos_iff.2 (escapeChar_ne_nil c)
    rw [List.flatMap_cons, List.length_append, List.length_cons]
    omega

theorem toList_quoted (s : String) :
    (quoted s).toList = '"' :: (s.toList.flatMap escapeChar ++ ['"']) := by
  simp [quoted, escape]

/-- A quoted string reads as the string. -/
theorem quotedString_append (s : String) (rest : List Char) :
    quotedString ((quoted s).toList ++ rest) = .done s rest := by
  have hlength := length_le_length_escape s.toList
  rw [toList_quoted, List.cons_append, quotedString, bind_done (char_cons _ _),
    bind_done (rest_apply _), List.append_assoc, List.singleton_append,
    bind_done (quotedRest_escape s.toList (by rw [List.length_append]; omega) rest), pure_apply,
    String.ofList_toList]

end Offload.Text
