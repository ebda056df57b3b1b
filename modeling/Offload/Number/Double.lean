/-!
# Double-precision numbers

A `Double` is a binary64 datum, given by its 64 bits: two data are equal when
their bits are, so that every NaN equals itself and the two zeros differ. The
comparisons of the numbers themselves (`lt`, `le`, `same`) are those of IEEE
754.

Arithmetic rounds to nearest, ties to even. An operation on a NaN returns that
NaN, made quiet; the first operand wins. An operation without a result, such as
`0 / 0`, returns `Double.invalid`.

Every finite datum is `mantissa · 2 ^ exponent`, up to sign; the remainder and
the decimal texts are computed exactly from these two numbers.
-/

namespace Offload

/-- A binary64 datum. -/
structure Double where
  bits : UInt64
  deriving DecidableEq, Hashable, Repr, Inhabited

namespace Double

/-- The number itself. -/
def toFloat (x : Double) : Float := Float.ofBits x.bits

/-- The datum of a number. -/
def ofFloat (x : Float) : Double := ⟨x.toBits⟩

/-- The sign bit. -/
def isNegative (x : Double) : Bool := x.bits >>> 63 == 1

/-- The eleven exponent bits. -/
def biasedExponent (x : Double) : Nat := (x.bits >>> 52 &&& 0x7FF).toNat

/-- The 52 fraction bits. -/
def fraction (x : Double) : Nat := (x.bits &&& 0xFFFFFFFFFFFFF).toNat

def isFinite (x : Double) : Bool := x.biasedExponent < 0x7FF
def isNaN (x : Double) : Bool := x.biasedExponent = 0x7FF && x.fraction ≠ 0
def isInfinite (x : Double) : Bool := x.biasedExponent = 0x7FF && x.fraction = 0

/-- The mantissa of a finite datum, with its hidden bit. -/
def mantissa (x : Double) : Nat :=
  if x.biasedExponent = 0 then x.fraction else x.fraction + 0x10000000000000

/-- The exponent of the unit in which a finite datum is an integer. -/
def exponent (x : Double) : Int :=
  if x.biasedExponent = 0 then -1074 else (x.biasedExponent : Int) - 1075

/-! ## Special data -/

/-- The NaN that an operation without a result returns. -/
def invalid : Double := ⟨0xFFF8000000000000⟩

/-- The NaN that a text names. -/
def nan : Double := ⟨0x7FF8000000000000⟩

def zero (negative : Bool) : Double := ⟨if negative then 0x8000000000000000 else 0⟩

def infinity (negative : Bool) : Double :=
  ⟨if negative then 0xFFF0000000000000 else 0x7FF0000000000000⟩

/-- A NaN, made quiet. -/
def quiet (x : Double) : Double := ⟨x.bits ||| 0x0008000000000000⟩

/-! ## Comparisons -/

def lt (x y : Double) : Bool := x.toFloat < y.toFloat
def le (x y : Double) : Bool := x.toFloat ≤ y.toFloat

/-- Equality of numbers: the zeros are the same, a NaN differs from all. -/
def same (x y : Double) : Bool := x.toFloat == y.toFloat

/-! ## Arithmetic -/

/-- A number as the result of an operation on numbers. -/
def result (x : Float) : Double := if x.isNaN then invalid else ofFloat x

/-- An operation on numbers, made one on data. -/
def operate (f : Float → Float → Float) (x y : Double) : Double :=
  if x.isNaN then x.quiet
  else if y.isNaN then y.quiet
  else result (f x.toFloat y.toFloat)

def add : Double → Double → Double := operate (· + ·)
def sub : Double → Double → Double := operate (· - ·)
def mul : Double → Double → Double := operate (· * ·)
def div : Double → Double → Double := operate (· / ·)

/-- The sign bit, flipped. -/
def neg (x : Double) : Double := ⟨x.bits ^^^ 0x8000000000000000⟩

/-- The datum of `m · 2 ^ e`, for a value that is one. -/
def ofExact (negative : Bool) (m : Nat) (e : Int) : Double :=
  let surplus := m.log2 - 52
  let x := (Float.ofNat (m >>> surplus)).scaleB (e + surplus)
  ofFloat (if negative then -x else x)

/-- The remainder of a division with the quotient rounded toward zero; it has
    the sign of the dividend, and is exact. -/
def rem (x y : Double) : Double :=
  if x.isNaN then x.quiet
  else if y.isNaN then y.quiet
  else if x.isInfinite || y.mantissa = 0 then invalid
  else if y.isInfinite then x
  else
    let e := min x.exponent y.exponent
    let mx := x.mantissa <<< (x.exponent - e).toNat
    let my := y.mantissa <<< (y.exponent - e).toNat
    ofExact x.isNegative (mx % my) e

/-! ## Other widths -/

/-- The bits of the nearest binary32 datum. -/
def toSingleBits (x : Double) : UInt32 :=
  if x.isNaN then
    (if x.isNegative then (0xFFC00000 : UInt32) else 0x7FC00000)
      ||| (x.bits >>> 29 &&& 0x3FFFFF).toUInt32
  else x.toFloat.toFloat32.toBits

/-- The nearest number of single precision. -/
def roundToSingle (x : Double) : Double :=
  if x.isNaN then ⟨x.quiet.bits &&& 0xFFFFFFFFE0000000⟩
  else ofFloat x.toFloat.toFloat32.toFloat

/-- The number nearest to a 64-bit integer. -/
def ofInt64 (n : Int64) : Double := ofFloat n.toFloat

/-- The integer part, clamped to 64 bits. -/
def toInt64 (x : Double) : Int64 := x.toFloat.toInt64

end Double

end Offload
