/-!
# Bytes as text

The text that bytes spell in UTF-8. Bytes that are no text are shown as well as
possible: U+FFFD stands for every longest start of a character that does not go
on as one, and for every byte that starts no character.
-/

namespace Offload.Text

/-- What must follow the first byte of a character: a number of bytes, and the
    limits of the first of them. -/
def continuation (b : UInt8) : Option (Nat × UInt8 × UInt8) :=
  if b < 0x80 then some (0, 0x80, 0xBF)
  else if b < 0xC2 then none
  else if b < 0xE0 then some (1, 0x80, 0xBF)
  else if b = 0xE0 then some (2, 0xA0, 0xBF)
  else if b = 0xED then some (2, 0x80, 0x9F)
  else if b < 0xF0 then some (2, 0x80, 0xBF)
  else if b = 0xF0 then some (3, 0x90, 0xBF)
  else if b < 0xF4 then some (3, 0x80, 0xBF)
  else if b = 0xF4 then some (3, 0x80, 0x8F)
  else none

/-- The bytes at the front that can follow the first byte of a character, `n` at
    most, of which the first lies between limits. -/
def following (low high : UInt8) : (n : Nat) → List UInt8 → List UInt8
  | n + 1, b :: bs => if low ≤ b && b ≤ high then b :: following 0x80 0xBF n bs else []
  | _, _ => []

/-- The character that bytes spell. -/
def spelled (bytes : List UInt8) : Char :=
  match bytes with
  | [] => '\uFFFD'
  | b :: bs =>
    let mask : UInt8 := if bs.isEmpty then 0x7F else 0xFF >>> (bs.length + 2).toUInt8
    Char.ofNat (bs.foldl (fun n c => 64 * n + (c &&& 0x3F).toNat) (b &&& mask).toNat)

/-- The characters that bytes spell, `n` at most. -/
def lossyChars : (n : Nat) → List UInt8 → List Char
  | n + 1, b :: bs =>
    match continuation b with
    | none => '\uFFFD' :: lossyChars n bs
    | some (count, low, high) =>
      let more := following low high count bs
      (if more.length = count then spelled (b :: more) else '\uFFFD')
        :: lossyChars n (bs.drop more.length)
  | _, _ => []

/-- The text that bytes spell, as well as possible. Every character takes a
    byte. -/
def ofBytes (bytes : List UInt8) : String := String.ofList (lossyChars bytes.length bytes)

end Offload.Text
