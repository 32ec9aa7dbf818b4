/-! # Blank characters -/

namespace CodeIndex.Text

/-- Whether a character is white space by the Unicode property of that name. -/
def isBlank (c : Char) : Bool :=
  let n := c.toNat
  (0x09 ≤ n && n ≤ 0x0D) || n = 0x20 || n = 0x85 || n = 0xA0 || n = 0x1680
    || (0x2000 ≤ n && n ≤ 0x200A) || n = 0x2028 || n = 0x2029 || n = 0x202F || n = 0x205F
    || n = 0x3000

/-- The text without the blank characters at its two ends. -/
def trim (text : String) : String :=
  let cs := (text.toList.dropWhile isBlank).reverse.dropWhile isBlank
  String.ofList cs.reverse

end CodeIndex.Text
