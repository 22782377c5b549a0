/-!
White space. `isBlank` is the Unicode property of that name; the layout of a source text knows
only the three horizontal blanks of `isLayout`.
-/

namespace Offside.Text

/-- Characters with the property White_Space. -/
def isBlank (c : Char) : Bool :=
  let n := c.toNat
  (0x9 ≤ n && n ≤ 0xD) || n == 0x20 || n == 0x85 || n == 0xA0 || n == 0x1680 ||
    (0x2000 ≤ n && n ≤ 0x200A) || n == 0x2028 || n == 0x2029 || n == 0x202F || n == 0x205F ||
    n == 0x3000

/-- Space, tab and form feed. -/
def isLayout (c : Char) : Bool := c == ' ' || c == '\t' || c == '\x0c'

/-- Drops the characters of a class from the end. -/
def dropEndWhile (p : Char → Bool) (text : List Char) : List Char :=
  (text.reverse.dropWhile p).reverse

end Offside.Text
