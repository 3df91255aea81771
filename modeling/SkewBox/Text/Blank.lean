/-!
# White space

The characters that count as white space around and inside what is read.  Spaces are the
ASCII blanks, the next-line mark, and every space, line and paragraph separator beyond ASCII.
Around a number the four separators of ASCII count too.

* `isSpace`: the characters between the parts of a formula.
* `isBlank`: the characters around a number.
* `trim`: a text without the blanks at its two ends.
-/

namespace SkewBox.Text

/-- Whether `c` has the Unicode property of white space. -/
def isSpace (c : Char) : Bool :=
  let n := c.toNat
  (0x9 ≤ n && n ≤ 0xd) || n == 0x20 || n == 0x85 || n == 0xa0 || n == 0x1680
    || (0x2000 ≤ n && n ≤ 0x200a) || n == 0x2028 || n == 0x2029 || n == 0x202f || n == 0x205f
    || n == 0x3000

/-- Whether `c` is white space or one of the separators of ASCII. -/
def isBlank (c : Char) : Bool := isSpace c || (0x1c ≤ c.toNat && c.toNat ≤ 0x1f)

def trim (cs : List Char) : List Char :=
  ((cs.dropWhile isBlank).reverse.dropWhile isBlank).reverse

end SkewBox.Text
