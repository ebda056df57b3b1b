import Mathlib.Algebra.Group.Nat.Defs
import Offload.Device.Fold

/-!
# Folding and the arithmetic of words

A value of `i1`, `i32` or `i64` is a word of so many bits (`DataType.bits`), and the
instructions on integers compute on words, in two's complement (`Action.bits?`). Folding
carries all words as numbers of 64 bits. A number is *reduced* at a type if it is the one
that `DataType.cut` keeps of it: zero or one for `i1`, the number of an `i32` with its sign.

Folding gives the word that the instruction computes (`Action.bits_of_fold?`)

* for sums, products, bitwise operations, `zext` and `trunc`, of any literals;
* for quotients, remainders, `sext` and comparisons, of reduced literals, except where the
  order of two different words of one bit is asked for. The word of the literal 1 is -1.

Literals that are not reduced are divided, extended and compared as they are written, and
ordered words of one bit come out the wrong way (`not_forall_bits_of_fold?`).
-/

namespace Offload.Device

/-! ## Words -/

namespace DataType

/-- The number of bits of an integer type; other types have none. -/
def width : DataType → Nat
  | i1 => 1
  | i32 => 32
  | i64 => 64
  | _ => 0

/-- The word of a type that a literal stands for. -/
def bits (t : DataType) (n : Int64) : BitVec t.width := n.toBitVec.setWidth t.width

theorem width_le (t : DataType) : t.width ≤ 64 := by cases t <;> decide

end DataType

/-- An operation on words. A quotient and a remainder by zero are undefined, as are those
    of the least number by -1. -/
def BinaryOp.bits? {w : Nat} (op : BinaryOp) (a b : BitVec w) : Option (BitVec w) :=
  let divides := b ≠ 0 ∧ ¬(a = BitVec.intMin w ∧ b = -1)
  match op with
  | add => some (a + b)
  | sub => some (a - b)
  | mul => some (a * b)
  | sdiv => if divides then some (a.sdiv b) else none
  | srem => if divides then some (a.srem b) else none
  | and => some (a &&& b)
  | or => some (a ||| b)
  | xor => some (a ^^^ b)
  | _ => none

/-- A comparison of words as numbers with a sign. -/
def IntComparison.holdsBits {w : Nat} (c : IntComparison) (a b : BitVec w) : Bool :=
  match c with
  | eq => a = b
  | ne => a ≠ b
  | slt => a.slt b
  | sle => a.sle b
  | sgt => b.slt a
  | sge => b.sle a

/-- Whether the answer depends on which of two words is greater. -/
def IntComparison.isOrder : IntComparison → Bool
  | eq | ne => false
  | _ => true

/-- A conversion of a word. Only a word that is not wider is extended, and only one that
    is not narrower is truncated. -/
def Conversion.bits? {w : Nat} (op : Conversion) (a : BitVec w) (target : Nat) :
    Option (BitVec target) :=
  match op with
  | zext => if w ≤ target then some (a.setWidth target) else none
  | sext => if w ≤ target then some (a.signExtend target) else none
  | trunc => if target ≤ w then some (a.setWidth target) else none
  | _ => none

/-- The word that an action on integers computes from literals. -/
def Action.bits? : (a : Action) → Option (BitVec a.resultType.width)
  | binary op type (.int a) (.int b) =>
    if 0 < type.width then op.bits? (type.bits a) (type.bits b) else none
  | compareInt c type (.int a) (.int b) =>
    if 0 < type.width then some (.ofBool (c.holdsBits (type.bits a) (type.bits b))) else none
  | convert op source (.int n) target =>
    if 0 < source.width ∧ 0 < target.width then op.bits? (source.bits n) target.width else none
  | _ => none

/-- Whether folding needs nothing of the literals, or they are such that it is right. -/
def Action.Exact : Action → Prop
  | binary op type (.int a) (.int b) =>
    op = .sdiv ∨ op = .srem → type.cut a = a ∧ type.cut b = b
  | compareInt c type (.int a) (.int b) =>
    type.cut a = a ∧ type.cut b = b ∧ (type = .i1 → c.isOrder → a = b)
  | convert .sext source (.int n) _ => source = .i1 ∨ source.cut n = n
  | _ => True

/-! ## Reduced numbers -/

/-- The last bit of a number. -/
theorem and_one (n : Int64) : n &&& 1 = 0 ∨ n &&& 1 = 1 := by
  have h : n.toBitVec &&& 1#64 = 0#64 ∨ n.toBitVec &&& 1#64 = 1#64 := by
    rw [← BitVec.toNat_inj, ← BitVec.toNat_inj, BitVec.toNat_and]
    simp
    omega
  exact h.imp Int64.toBitVec.inj Int64.toBitVec.inj

namespace DataType

variable {s t : DataType} {a b n : Int64}

theorem toInt_bits (t : DataType) (n : Int64) :
    (t.bits n).toInt = n.toInt.bmod (2 ^ t.width) := by
  rw [bits, BitVec.toInt_setWidth, ← Int64.toInt_toBitVec, BitVec.toInt_eq_toNat_bmod,
    Int.bmod_bmod_of_dvd (Nat.pow_dvd_pow 2 t.width_le)]

@[simp]
theorem bits_cut (t : DataType) (n : Int64) : t.bits (t.cut n) = t.bits n := by
  cases t
  case i1 =>
    rw [bits, cut, Int64.toBitVec_and, BitVec.setWidth_and]
    exact BitVec.and_allOnes
  case i32 =>
    apply BitVec.eq_of_toInt_eq
    rw [toInt_bits, toInt_bits]
    simp [cut, width]
  all_goals rfl

/-- The reduced numbers of one bit. -/
theorem eq_zero_or_eq_one (h : cut .i1 n = n) : n = 0 ∨ n = 1 := by
  rw [← h]
  exact and_one n

theorem integer_cases (h : 0 < t.width) : t = .i1 ∨ t = .i32 ∨ t = .i64 := by
  cases t <;> simp [width] at h ⊢

/-- A reduced number of more bits is that of its word, with the sign. -/
theorem toInt_bits_of_cut (ht : t = .i32 ∨ t = .i64) (h : t.cut n = n) :
    (t.bits n).toInt = n.toInt := by
  rw [toInt_bits]
  obtain rfl | rfl := ht
  · have h32 := congrArg Int64.toInt h
    rwa [cut, Int32.toInt_toInt64, Int64.toInt_toInt32] at h32
  · exact BitVec.toInt_bmod_cancel n.toBitVec

/-- A reduced number with a sign is also one of a wider type. -/
theorem cut_of_width_le (hs : s = .i32 ∨ s = .i64) (hle : s.width ≤ t.width)
    (h : s.cut n = n) : (t = .i32 ∨ t = .i64) ∧ t.cut n = n := by
  obtain rfl | rfl := hs
  · cases t <;> simp [width] at hle ⊢
    case i32 => exact h
    case i64 => rfl
  · cases t <;> simp [width] at hle ⊢
    rfl

/-! ## Operations -/

theorem bits_add (t : DataType) (a b : Int64) : t.bits (a + b) = t.bits a + t.bits b :=
  BitVec.setWidth_add _ _ t.width_le

theorem bits_sub (t : DataType) (a b : Int64) : t.bits (a - b) = t.bits a - t.bits b := by
  rw [Int64.sub_eq_add_neg, bits_add, BitVec.sub_eq_add_neg]
  exact congrArg (t.bits a + ·) (BitVec.setWidth_neg_of_le t.width_le)

theorem bits_mul (t : DataType) (a b : Int64) : t.bits (a * b) = t.bits a * t.bits b :=
  BitVec.setWidth_mul _ _ t.width_le

/-- The last bits of a number, as many as a word of a narrow type has. -/
theorem bits_and_mask {m : Int64} (hm : m.toBitVec.toNat = 2 ^ s.width - 1) :
    t.bits (n &&& m) = (s.bits n).setWidth t.width := by
  apply BitVec.eq_of_toNat_eq
  simp only [bits, Int64.toBitVec_and, BitVec.toNat_setWidth, BitVec.toNat_and, hm,
    Nat.and_two_pow_sub_one_eq_mod]

/-- Reduced numbers are divided as their words are. -/
theorem bits_div (h0 : 0 < t.width) (ha : t.cut a = a) (hb : t.cut b = b) :
    t.bits (a / b) = (t.bits a).sdiv (t.bits b) := by
  obtain rfl | ht := integer_cases h0
  · obtain rfl | rfl := eq_zero_or_eq_one ha <;> obtain rfl | rfl := eq_zero_or_eq_one hb <;>
      decide
  · apply BitVec.eq_of_toInt_eq
    rw [BitVec.toInt_sdiv, toInt_bits_of_cut ht ha, toInt_bits_of_cut ht hb, toInt_bits,
      Int64.toInt_div, Int.bmod_bmod_of_dvd]
    exact mod_cast Nat.pow_dvd_pow 2 t.width_le

theorem bits_mod (h0 : 0 < t.width) (ha : t.cut a = a) (hb : t.cut b = b) :
    t.bits (a % b) = (t.bits a).srem (t.bits b) := by
  obtain rfl | ht := integer_cases h0
  · obtain rfl | rfl := eq_zero_or_eq_one ha <;> obtain rfl | rfl := eq_zero_or_eq_one hb <;>
      decide
  · have h := BitVec.toInt_srem (t.bits a) (t.bits b)
    rw [toInt_bits_of_cut ht ha, toInt_bits_of_cut ht hb, ← Int64.toInt_mod] at h
    apply BitVec.eq_of_toInt_eq
    rw [toInt_bits, ← h]
    exact BitVec.toInt_bmod_cancel _

/-- Reduced numbers are equal if their words are. -/
theorem bits_inj (h0 : 0 < t.width) (ha : t.cut a = a) (hb : t.cut b = b) :
    t.bits a = t.bits b ↔ a = b := by
  refine ⟨fun h => ?_, congrArg t.bits⟩
  obtain rfl | ht := integer_cases h0
  · obtain rfl | rfl := eq_zero_or_eq_one ha <;> obtain rfl | rfl := eq_zero_or_eq_one hb <;>
      first | rfl | exact absurd h (by decide)
  · rw [← Int64.toInt_inj, ← toInt_bits_of_cut ht ha, ← toInt_bits_of_cut ht hb, h]

end DataType

open DataType

variable {t source target : DataType} {a b n c : Int64}

theorem BinaryOp.foldInt_bits {op : BinaryOp} {r : BitVec t.width} (h0 : 0 < t.width)
    (h : op.foldInt a b = some n) (hr : op.bits? (t.bits a) (t.bits b) = some r)
    (hd : op = sdiv ∨ op = srem → t.cut a = a ∧ t.cut b = b) : t.bits n = r := by
  cases op <;> simp only [foldInt, bits?, Option.some.injEq, Option.ite_none_right_eq_some,
    reduceCtorEq] at h hr
  case add => rw [← h, ← hr, bits_add]
  case sub => rw [← h, ← hr, bits_sub]
  case mul => rw [← h, ← hr, bits_mul]
  case sdiv =>
    obtain ⟨ha, hb⟩ := hd (.inl rfl)
    rw [← h.2, ← hr.2, bits_div h0 ha hb]
  case srem =>
    obtain ⟨ha, hb⟩ := hd (.inr rfl)
    rw [← h.2, ← hr.2, bits_mod h0 ha hb]
  case and => rw [← h, ← hr, bits, Int64.toBitVec_and, BitVec.setWidth_and]; rfl
  case or => rw [← h, ← hr, bits, Int64.toBitVec_or, BitVec.setWidth_or]; rfl
  case xor => rw [← h, ← hr, bits, Int64.toBitVec_xor, BitVec.setWidth_xor]; rfl

/-- Reduced numbers are compared as their words are, but for the order of words of one
    bit. -/
theorem IntComparison.holdsBits_bits {k : IntComparison} (h0 : 0 < t.width)
    (ha : t.cut a = a) (hb : t.cut b = b) (hk : t = .i1 → k.isOrder → a = b) :
    k.holdsBits (t.bits a) (t.bits b) = k.holds a b := by
  obtain rfl | ht := integer_cases h0
  · cases k
    case eq | ne => simp [holdsBits, holds, bits_inj h0 ha hb]
    all_goals
      obtain rfl := hk rfl rfl
      obtain rfl | rfl := eq_zero_or_eq_one ha <;> decide
  · have sa := toInt_bits_of_cut ht ha
    have sb := toInt_bits_of_cut ht hb
    cases k
    case eq | ne => simp [holdsBits, holds, bits_inj h0 ha hb]
    all_goals
      rw [Bool.eq_iff_iff]
      simp [holdsBits, holds, BitVec.slt_iff_toInt_lt, BitVec.sle_iff_toInt_le,
        Int64.lt_iff_toInt_lt, Int64.le_iff_toInt_le, sa, sb]

theorem Conversion.fold?_bits {op : Conversion} {r : BitVec target.width}
    (h0 : 0 < source.width) (h1 : 0 < target.width)
    (h : op.fold? source target (.int n) = some (.int c))
    (hr : op.bits? (source.bits n) target.width = some r)
    (hs : op = sext → source = .i1 ∨ source.cut n = n) : target.bits c = r := by
  cases op <;> simp only [fold?, bits?, Option.some.injEq, Operand.int.injEq,
    Option.ite_none_right_eq_some, reduceCtorEq] at h hr
  case zext =>
    obtain ⟨hle, rfl⟩ := hr
    obtain rfl | rfl | rfl := integer_cases h0
    · rw [← h]
      exact bits_and_mask rfl
    · rw [← h]
      exact bits_and_mask rfl
    · obtain rfl : target = .i64 := by
        obtain rfl | rfl | rfl := integer_cases h1 <;> simp [width] at hle ⊢
      simp [← h, bits, width]
  case sext =>
    obtain ⟨hle, rfl⟩ := hr
    by_cases hi : source = .i1
    · subst hi
      rw [← h, if_pos rfl, ← bits_cut .i1 n]
      obtain hn | hn := and_one n <;> rw [cut, hn] <;>
        obtain rfl | rfl | rfl := integer_cases h1 <;> decide
    · have hc := (hs rfl).resolve_left hi
      rw [if_neg hi] at h
      obtain ⟨ht, htc⟩ := cut_of_width_le ((integer_cases h0).resolve_left hi) hle hc
      apply BitVec.eq_of_toInt_eq
      rw [BitVec.toInt_signExtend_of_le hle,
        toInt_bits_of_cut ((integer_cases h0).resolve_left hi) hc, ← h, toInt_bits_of_cut ht htc]
  case trunc =>
    obtain ⟨hle, rfl⟩ := hr
    rw [← h, bits_cut]
    exact (BitVec.setWidth_setWidth_of_le _ hle).symm

/-! ## Instructions -/

/-- Folding gives the word that the instruction computes. -/
theorem Action.bits_of_fold? {a : Action} {c : Int64} {r : BitVec a.resultType.width}
    (h : a.fold? = some (.int c)) (hr : a.bits? = some r) (ha : a.Exact) :
    a.resultType.bits c = r := by
  cases a <;> try cases hr
  case binary op t x y =>
    cases x <;> cases y <;> try cases hr
    case int.int a b =>
      obtain ⟨h0, hop⟩ := Option.ite_none_right_eq_some.mp hr
      obtain ⟨n, hn, hc⟩ := Option.map_eq_some_iff.mp h
      cases hc
      exact (bits_cut t n).trans (op.foldInt_bits h0 hn hop ha)
  case compareInt k t x y =>
    cases x <;> cases y <;> try cases hr
    case int.int a b =>
      obtain ⟨h0, hk⟩ := Option.ite_none_right_eq_some.mp hr
      obtain ⟨ha, hb, hab⟩ := ha
      cases hk
      cases h
      rw [k.holdsBits_bits h0 ha hb hab]
      cases k.holds a b <;> rfl
  case convert op source x target =>
    cases x <;> try cases hr
    case int n =>
      obtain ⟨⟨h0, h1⟩, hop⟩ := Option.ite_none_right_eq_some.mp hr
      refine op.fold?_bits h0 h1 h hop fun hs => ?_
      subst hs
      exact ha

theorem Action.bits_of_fold?_negative :
    (Action.binary .sdiv .i32 (.int (-7)) (.int 2)).resultType.bits (-3) = (-3 : BitVec 32) :=
  Action.bits_of_fold? (a := .binary .sdiv .i32 (.int (-7)) (.int 2)) (by decide) (by decide)
    fun _ => ⟨by decide, by decide⟩

theorem not_forall_bits_of_fold? :
    ¬∀ (a : Action) (c : Int64) (r : BitVec a.resultType.width),
      a.fold? = some (.int c) → a.bits? = some r → a.resultType.bits c = r := by
  intro h
  exact absurd (h (.compareInt .slt .i1 (.int 1) (.int 0)) 0 1 (by decide) (by decide)) (by decide)

end Offload.Device
