/-! White space: the characters with the Unicode property of that name. Separators in a
schema and the ends that trimming removes are the same set. -/

namespace WireSchema.Text

def isBlank (c : Char) : Bool :=
  let n := c.toNat
  (9 ≤ n && n ≤ 13) || n == 0x20 || n == 0x85 || n == 0xa0 || n == 0x1680 ||
    (0x2000 ≤ n && n ≤ 0x200a) || n == 0x2028 || n == 0x2029 || n == 0x202f || n == 0x205f ||
    n == 0x3000

def skipBlanks (text : List Char) : List Char := text.dropWhile isBlank

def trim (text : List Char) : List Char :=
  ((skipBlanks text).reverse.dropWhile isBlank).reverse

/-- The text up to its first blank. -/
def firstWord (text : List Char) : List Char := text.takeWhile fun c => !isBlank c

end WireSchema.Text
