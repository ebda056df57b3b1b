import Offload.Number.Digits
import Offload.Number.Double

/-!
# Decimal texts of numbers

A number is written with the fewest decimal digits that read back as the same
number, and of these with the nearest (`Decimal.shortest`). A `FloatLayout`
says when these digits are laid out as `0.001` and when as `1e-3`; each of the
two text formats of the library has a layout of its own.

The search for the digits is exact: `shortest` works on the mantissa `m` and
the exponent `q` of the number `m · 2 ^ q` alone. The reals that round to it
form an interval from a half step below to a half step above it, which includes
its ends iff `m` is even. For one, two, … digits, `shortest` looks at the two
decimals of that length around the number, until one lies in the interval;
seventeen digits always suffice.

Reading (`Decimal.read`) rounds to nearest, ties to even, and overflows to
infinity.
-/

namespace Offload

/-- The number `digits · 10 ^ exponent`. -/
structure Decimal where
  digits : Nat
  exponent : Int
  deriving DecidableEq, Repr, Inhabited

namespace Decimal

/-- Drop the zeros at the end of the digits. -/
def trim (d : Decimal) : Decimal := go d.digits d.exponent 20
where
  go (digits : Nat) (exponent : Int) : Nat → Decimal
    | 0 => ⟨digits, exponent⟩
    | n + 1 =>
      if digits ≠ 0 ∧ digits % 10 = 0 then go (digits / 10) (exponent + 1) n
      else ⟨digits, exponent⟩

/-- The exponent of the leading digit of `num / den`. -/
def leadingExponent (num den : Nat) : Int :=
  if den ≤ num then (digitCount (num / den) : Int) - 1
  else -(digitCount ((den + num - 1) / num - 1) : Int)

/-- The search for the fewest digits, `n` of them or more. All quantities are
    over the denominator `4 · den`, where `num / den` is the number; `below` and
    `above` are the ends of the interval, `closed` says whether they belong. -/
def search (num den below above : Nat) (closed : Bool) (lead : Int) :
    (fuel n : Nat) → Decimal
  | 0, n => ⟨num / den, lead - n + 1⟩
  | fuel + 1, n =>
    let k := lead - n + 1
    -- The decimal `d · 10 ^ k` is `d · grid / (4 · den)`, after scaling by `up`.
    let up := Nat.pow 10 (-k).toNat
    let grid := 4 * den * Nat.pow 10 k.toNat
    let v := 4 * num * up
    let lo := v / grid
    let inside (d : Nat) : Bool :=
      if closed then below * up ≤ d * grid && d * grid ≤ above * up
      else below * up < d * grid && d * grid < above * up
    let loIn := inside lo
    let hiIn := inside (lo + 1)
    -- A decimal as far above as below is as good; the upper one is taken.
    if loIn && (!hiIn || v - lo * grid < (lo + 1) * grid - v) then ⟨lo, k⟩
    else if hiIn then ⟨lo + 1, k⟩
    else search num den below above closed lead fuel (n + 1)

/-- The shortest decimal that reads back as `m · 2 ^ q`, and of these the
    nearest, for `m ≠ 0`. The step below a power of two is half as long. -/
def shortest (m : Nat) (q : Int) : Decimal :=
  let num := m <<< q.toNat
  let den := 1 <<< (-q).toNat
  let step := 1 <<< q.toNat
  let stepBelow := if m = 0x10000000000000 ∧ q ≠ -1074 then step else 2 * step
  (search num den (4 * num - stepBelow) (4 * num + 2 * step) (m % 2 = 0)
    (leadingExponent num den) 17 1).trim

/-- The number nearest to a decimal. -/
def toDouble (negative : Bool) (d : Decimal) : Double :=
  let size := digitCount d.digits + d.exponent
  if d.digits = 0 || size < -330 then .zero negative
  else if 310 < size then .infinity negative
  else
    let x := Float.ofScientific d.digits (d.exponent < 0) d.exponent.natAbs
    .ofFloat (if negative then -x else x)

/-- The decimal `whole.fraction` with a signed exponent, all given by digits. -/
def ofText (whole fraction : List Char) (exponentNegative : Bool) (exponent : List Char) :
    Decimal where
  digits := digitsValue (whole ++ fraction)
  exponent :=
    (if exponentNegative then -(digitsValue exponent : Int) else digitsValue exponent)
      - fraction.length

end Decimal

/-- Where a text format changes from `0.001` to `1e-3`: the decimal exponents
    of the leading digit for which digits are laid out around a point. -/
structure FloatLayout where
  isPositional : Int → Bool

namespace FloatLayout

/-- Digits around a point, at least one on either side. -/
def positional (digits : List Char) (lead : Int) : String :=
  if lead < 0 then
    "0." ++ String.ofList (List.replicate (-lead - 1).toNat '0' ++ digits)
  else
    let whole := lead.toNat + 1
    let fraction := digits.drop whole
    String.ofList ((digits ++ List.replicate (whole - digits.length) '0').take whole) ++ "."
      ++ (if fraction.isEmpty then "0" else String.ofList fraction)

/-- Digits around a point after the first, and an exponent. -/
def scientific (digits : List Char) (lead : Int) : String :=
  String.ofList (digits.take 1)
    ++ (if digits.length ≤ 1 then "" else "." ++ String.ofList (digits.drop 1))
    ++ s!"e{lead}"

/-- The text of a number. A NaN shows no sign. -/
def text (layout : FloatLayout) (x : Double) : String :=
  if x.isNaN then "NaN"
  else
    (if x.isNegative then "-" else "")
      ++ if x.isInfinite then "inf"
        else if x.mantissa = 0 then "0.0"
        else
          let d := Decimal.shortest x.mantissa x.exponent
          let digits := Nat.toDigits 10 d.digits
          let lead := d.exponent + digits.length - 1
          if layout.isPositional lead then positional digits lead else scientific digits lead

end FloatLayout

end Offload
