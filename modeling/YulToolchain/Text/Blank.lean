/-!
# Blank Characters

The characters that count as white space around a name in a list, and the
removal of them. The set is that of the Unicode property `White_Space`.

## Main definitions

* `Text.isBlank`: Membership in the property.
* `Text.trimmed`: Text without the blanks at both ends.
-/

namespace YulToolchain

namespace Text

/-- Whether a character has the property `White_Space`. -/
def isBlank (c : Char) : Bool :=
  let n := c.toNat
  (9 ≤ n && n ≤ 13) || n == 0x20 || n == 0x85 || n == 0xa0 || n == 0x1680
    || (0x2000 ≤ n && n ≤ 0x200a) || n == 0x2028 || n == 0x2029 || n == 0x202f
    || n == 0x205f || n == 0x3000

/-- Text without the blanks at both ends. -/
def trimmed (cs : List Char) : List Char :=
  ((cs.dropWhile isBlank).reverse.dropWhile isBlank).reverse

end Text

end YulToolchain
