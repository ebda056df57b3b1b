/-!
# Digits

The values of decimal and hexadecimal digits, and of runs of decimal digits,
with and without a sign.
-/

namespace Offload

/-- The number that a run of decimal digits denotes. -/
def digitsValue (digits : List Char) : Nat :=
  digits.foldl (fun n c => 10 * n + (c.toNat - '0'.toNat)) 0

/-- How many decimal digits a number has; none for zero. -/
def digitCount (n : Nat) : Nat := if n = 0 then 0 else (Nat.toDigits 10 n).length

/-- The number below `limit` that a text denotes: one decimal digit or more, after
    an optional plus sign. Leading zeros are fine. -/
def readNatural? (limit : Nat) (s : List Char) : Option Nat :=
  let digits := if s.head? = some '+' then s.drop 1 else s
  if digits.isEmpty || !digits.all Char.isDigit then none
  else
    let n := digitsValue digits
    if n < limit then some n else none

/-- The integer from `-limit` on and below `limit` that a text denotes: a number
    as `readNatural?` takes it, or one after a minus sign. -/
def readInteger? (limit : Nat) (s : List Char) : Option Int :=
  match s with
  | '-' :: digits =>
    if digits.head? = some '+' then none
    else (readNatural? (limit + 1) digits).map fun n => -(n : Int)
  | _ => (readNatural? limit s).map Int.ofNat

/-- The value of a hexadecimal digit. -/
def hexValue (c : Char) : Option Nat :=
  if c.isDigit then some (c.toNat - '0'.toNat)
  else if 'a' ≤ c ∧ c ≤ 'f' then some (c.toNat - 'a'.toNat + 10)
  else if 'A' ≤ c ∧ c ≤ 'F' then some (c.toNat - 'A'.toNat + 10)
  else none

/-- A number in lower-case hexadecimal digits, `width` of them at least. -/
def hexText (width n : Nat) : String :=
  let digits := Nat.toDigits 16 n
  String.ofList (List.replicate (width - digits.length) '0' ++ digits)

end Offload
