/-!
# White space

The characters with the property White_Space, and texts without those at their
ends.
-/

namespace Offload.Text

/-- Whether a character is white space. -/
def isBlank (c : Char) : Bool :=
  let n := c.toNat
  (0x9 ≤ n && n ≤ 0xD) || n = 0x20 || n = 0x85 || n = 0xA0 || n = 0x1680
    || (0x2000 ≤ n && n ≤ 0x200A) || n = 0x2028 || n = 0x2029 || n = 0x202F || n = 0x205F
    || n = 0x3000

/-- A text without white space at its end. -/
def trimEnd (s : List Char) : List Char := (s.reverse.dropWhile isBlank).reverse

/-- A text without white space at its ends. -/
def trim (s : List Char) : List Char := trimEnd (s.dropWhile isBlank)

/-- Cut a text at every occurrence of a character. -/
def splitAtChar (c : Char) (s : List Char) : List (List Char) := go s []
where
  go : List Char → List Char → List (List Char)
    | [], piece => [piece.reverse]
    | d :: ds, piece => if d = c then piece.reverse :: go ds [] else go ds (d :: piece)

/-- The lines of a text. What follows the last line break is a line if it is
    not empty. -/
def lines (s : List Char) : List (List Char) :=
  let pieces := splitAtChar '\n' s
  if pieces.getLast? = some [] then pieces.dropLast else pieces

end Offload.Text
