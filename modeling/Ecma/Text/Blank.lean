import Ecma.Text.Units

/-!
# Blank characters

White space and line terminators, as they may surround the text of a number.
-/

namespace Ecma

namespace Text

/-- The tab, the line feed and its neighbours, the spaces, the line and
paragraph separators and the byte order mark. -/
def isBlank (c : Char) : Bool :=
  let n := c.toNat
  (decide (0x9 ≤ n) && decide (n ≤ 0xd)) || n == 0x20 || n == 0xa0 || n == 0x1680 ||
    (decide (0x2000 ≤ n) && decide (n ≤ 0x200a)) || n == 0x2028 || n == 0x2029 ||
    n == 0x202f || n == 0x205f || n == 0x3000 || n == 0xfeff

/-- The characters without the blanks at either end. -/
def trimBlank (cs : List Char) : List Char :=
  ((cs.dropWhile isBlank).reverse.dropWhile isBlank).reverse

end Text

end Ecma
