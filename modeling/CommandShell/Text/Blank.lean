/-!
# White space

The characters with the Unicode property `White_Space`, and trimming by them. Line scanning,
grammar notation and number reading all share this one notion of a blank.

## Main definitions

* `Text.isBlank` — the character is white space
* `Text.trimLeft`, `Text.trimRight`, `Text.trim` — a text without its outer blanks
-/

namespace CommandShell.Text

/-- The character has the Unicode property `White_Space`, which holds of 25 characters. -/
def isBlank (c : Char) : Bool :=
  let n := c.toNat
  (0x09 ≤ n && n ≤ 0x0D) || n == 0x20 || n == 0x85 || n == 0xA0 || n == 0x1680 ||
    (0x2000 ≤ n && n ≤ 0x200A) || n == 0x2028 || n == 0x2029 || n == 0x202F || n == 0x205F ||
    n == 0x3000

/-- A text without the blanks it begins with. -/
def trimLeft (cs : List Char) : List Char := cs.dropWhile isBlank

/-- A text without the blanks it ends with. -/
def trimRight (cs : List Char) : List Char := (trimLeft cs.reverse).reverse

def trim (cs : List Char) : List Char := trimRight (trimLeft cs)

end CommandShell.Text
