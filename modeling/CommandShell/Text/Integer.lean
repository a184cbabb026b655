/-!
# Integers in texts

Integers are read in decimal, with an optional sign in front, and have to fit a signed word of 64
bits.

## Main definitions

* `Text.fitsWord` — the integer fits a signed word of 64 bits
* `Text.readNat?` — the number that a text of digits writes
* `Text.readInt?` — the integer that a text writes
-/

namespace CommandShell.Text

/-- The integer fits a signed word of 64 bits. -/
def fitsWord (n : Int) : Bool := -0x8000000000000000 ≤ n && n < 0x8000000000000000

/-- The number that the digits of a text write in the given base, if each character is a digit and
there is at least one; `digit?` says what a digit is worth. -/
def readDigits? (base : Nat) (digit? : Char → Option Nat) : List Char → Option Nat
  | [] => none
  | c :: cs => (c :: cs).foldlM (fun n c => (digit? c).map (base * n + ·)) 0

/-- What a decimal digit is worth. -/
def decimalDigit? (c : Char) : Option Nat :=
  if c.isDigit then some (c.toNat - '0'.toNat) else none

/-- What a hexadecimal digit of either case is worth. -/
def hexDigit? (c : Char) : Option Nat :=
  if c.isDigit then some (c.toNat - '0'.toNat)
  else if 'a' ≤ c && c ≤ 'f' then some (c.toNat - 'a'.toNat + 10)
  else if 'A' ≤ c && c ≤ 'F' then some (c.toNat - 'A'.toNat + 10)
  else none

/-- The number that a text of decimal digits writes. -/
def readNat? (cs : List Char) : Option Nat := readDigits? 10 decimalDigit? cs

/-- The integer that a text of decimal digits writes, with an optional sign in front. -/
def readSigned? : List Char → Option Int
  | '+' :: digits => (readNat? digits).map Int.ofNat
  | '-' :: digits => (readNat? digits).map fun n => -Int.ofNat n
  | digits => (readNat? digits).map Int.ofNat

/-- The integer that a text writes, if it fits a word. -/
def readInt? (cs : List Char) : Option Int := (readSigned? cs).filter fitsWord

end CommandShell.Text
