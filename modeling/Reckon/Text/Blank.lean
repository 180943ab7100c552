/-!
# Blank characters

The 25 characters with the Unicode property *White_Space*, which a line of
input may have around its number. This is a wider class than the blanks that
separate the words of a program.
-/

namespace Reckon.Text

/-- Whether a character is white space in the sense of Unicode. -/
def isWhiteSpace (c : Char) : Bool :=
  let n := c.toNat
  (0x09 ≤ n && n ≤ 0x0d) || n == 0x20 || n == 0x85 || n == 0xa0 ||
  n == 0x1680 || (0x2000 ≤ n && n ≤ 0x200a) || n == 0x2028 || n == 0x2029 ||
  n == 0x202f || n == 0x205f || n == 0x3000

/-- Drops the white space at both ends. -/
def trim (text : String) : String :=
  let front := text.toList.dropWhile isWhiteSpace
  String.ofList (front.reverse.dropWhile isWhiteSpace).reverse

end Reckon.Text
