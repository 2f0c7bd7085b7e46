/-!
# Blanks

White space in the sense of the character standard, and texts without it at their ends.
-/

namespace Pushdown.Text

/-- White space: the ASCII blanks, the next-line and no-break characters, and the typographic
spaces. -/
def isBlank (c : Char) : Bool :=
  let n := c.toNat
  (9 ≤ n && n ≤ 13) || n == 0x20 || n == 0x85 || n == 0xA0 || n == 0x1680 ||
    (0x2000 ≤ n && n ≤ 0x200A) || n == 0x2028 || n == 0x2029 || n == 0x202F || n == 0x205F ||
    n == 0x3000

def skipBlanks (cs : List Char) : List Char := cs.dropWhile isBlank

def trimStart (s : String) : String := String.ofList (skipBlanks s.toList)

def trimEnd (s : String) : String := String.ofList (skipBlanks s.toList.reverse).reverse

def trim (s : String) : String := trimEnd (trimStart s)

end Pushdown.Text
