import CommandShell.Toml.Document
import CommandShell.Toml.Strings

/-!
# Reading TOML documents

A document is read statement by statement. Numbers with a fraction, dates and times have no use in
settings and are refused like any other fault; a fault anywhere refuses the whole document.

## Main definitions

* `Toml.readInteger?` — the integer that a bare word writes
* `Toml.readPath?`, `Toml.readValue?`, `Toml.readStatement?` — the parts of a document
* `Toml.read?` — the statements of a document
-/

namespace CommandShell.Toml

/-- What is read, and the text after it. -/
abbrev Read (α : Type) := Option (α × List Char)

/-- A text without the blanks within a line that it begins with. -/
def skipGap (cs : List Char) : List Char := cs.dropWhile isGap

/-- A text without the blanks, line breaks and comments that it begins with. -/
def skipFiller (comment : Bool) : List Char → Option (List Char)
  | [] => some []
  | '\n' :: cs => skipFiller false cs
  | '\r' :: '\n' :: cs => skipFiller false cs
  | c :: cs =>
    if comment then if isPlain c then skipFiller true cs else none
    else if isGap c then skipFiller false cs
    else if c = '#' then skipFiller true cs
    else some (c :: cs)

/-- The text after the line that a statement stands on, if only a comment is left of it. -/
def endLine? (cs : List Char) : Option (List Char) :=
  let rest :=
    match skipGap cs with
    | '#' :: cs => cs.dropWhile isPlain
    | cs => cs
  if rest.isEmpty then some [] else afterBreak? rest

/-! ### Integers -/

/-- The digits of a number without the underscores between them, each of which needs a digit on
both sides. -/
def joinDigits? (cs : List Char) : Option (List Char) :=
  let groups := cs.splitOn '_'
  if groups.all (!·.isEmpty) then some groups.flatten else none

/-- The number that digits in a base write, with underscores between them. -/
def readGrouped? (base : Nat) (cs : List Char) : Option Nat :=
  (joinDigits? cs).bind (Text.readDigits? base fun c => (Text.hexDigit? c).filter (· < base))

/-- The number that decimal digits write, with underscores between them and no needless zero in
front. -/
def readDecimal? (cs : List Char) : Option Nat :=
  if cs.head? = some '0' ∧ cs ≠ ['0'] then none else readGrouped? 10 cs

/-- The integer that a bare word writes, if it fits a word of 64 bits. -/
def readInteger? (cs : List Char) : Option Int :=
  let unsigned (n : Option Nat) : Option Int := n.map Int.ofNat
  let n : Option Int :=
    match cs with
    | '0' :: 'x' :: digits => unsigned (readGrouped? 16 digits)
    | '0' :: 'o' :: digits => unsigned (readGrouped? 8 digits)
    | '0' :: 'b' :: digits => unsigned (readGrouped? 2 digits)
    | '+' :: digits => unsigned (readDecimal? digits)
    | '-' :: digits => (unsigned (readDecimal? digits)).map (-·)
    | digits => unsigned (readDecimal? digits)
  n.filter Text.fitsWord

/-! ### Keys -/

/-- The character may stand in a key without quotes. -/
def isKeyChar (c : Char) : Bool := c.isAlphanum || c == '_' || c == '-'

/-- Reads one part of a key. -/
def readKey? : List Char → Read String
  | '"' :: cs => readBasic? [] cs
  | '\'' :: cs => readLiteral? [] cs
  | cs =>
    let key := cs.takeWhile isKeyChar
    if key.isEmpty then none else some (.ofList key, cs.dropWhile isKeyChar)

/-- Reads a key of at most `fuel` parts, with the blanks around it. -/
def readPath? : (fuel : Nat) → List Char → Read Path
  | 0, _ => none
  | fuel + 1, cs =>
    (readKey? (skipGap cs)).bind fun (key, cs) =>
      match skipGap cs with
      | '.' :: cs => (readPath? fuel cs).map fun (path, cs) => (key :: path, cs)
      | cs => some ([key], cs)

/-! ### Values -/

/-- The character may stand in a value that is neither quoted nor bracketed. -/
def isBareChar (c : Char) : Bool := c.isAlphanum || c == '_' || c == '-' || c == '+' || c == '.'

/-- The value that a bare word writes. -/
def bareValue? (cs : List Char) : Option Value :=
  if cs = ['t', 'r', 'u', 'e'] then some (.boolean true)
  else if cs = ['f', 'a', 'l', 's', 'e'] then some (.boolean false)
  else (readInteger? cs).map .integer

mutual

/-- Reads a value that nests at most `fuel` deep. -/
def readValue? (fuel : Nat) (cs : List Char) : Read Value :=
  match fuel, cs with
  | 0, _ => none
  | _ + 1, '"' :: '"' :: '"' :: cs =>
    (readBasicLines? false [] (dropBreak cs)).map fun (s, cs) => (.text s, cs)
  | _ + 1, '"' :: cs => (readBasic? [] cs).map fun (s, cs) => (.text s, cs)
  | _ + 1, '\'' :: '\'' :: '\'' :: cs =>
    (readLiteralLines? [] (dropBreak cs)).map fun (s, cs) => (.text s, cs)
  | _ + 1, '\'' :: cs => (readLiteral? [] cs).map fun (s, cs) => (.text s, cs)
  | fuel + 1, '[' :: cs => (readItems? fuel cs).map fun (items, cs) => (.array items, cs)
  | fuel + 1, '\x7b' :: cs =>
    match skipGap cs with
    | '\x7d' :: cs => some (.table [], cs)
    | cs => (readEntries? fuel cs).map fun (entries, cs) => (.table entries, cs)
  | _ + 1, cs => (bareValue? (cs.takeWhile isBareChar)).map (·, cs.dropWhile isBareChar)

/-- Reads the items of an array up to its closing bracket. The last item may have a comma after
it. -/
def readItems? (fuel : Nat) (cs : List Char) : Read (List Value) :=
  match fuel with
  | 0 => none
  | fuel + 1 =>
    (skipFiller false cs).bind fun
      | ']' :: cs => some ([], cs)
      | cs =>
        (readValue? fuel cs).bind fun (item, cs) =>
          (skipFiller false cs).bind fun
            | ',' :: cs => (readItems? fuel cs).map fun (items, cs) => (item :: items, cs)
            | ']' :: cs => some ([item], cs)
            | _ => none

/-- Reads the entries of a table on one line up to its closing brace. -/
def readEntries? (fuel : Nat) (cs : List Char) : Read (List (Path × Value)) :=
  match fuel with
  | 0 => none
  | fuel + 1 =>
    (readPath? fuel cs).bind fun (path, cs) =>
      match cs with
      | '=' :: cs =>
        (readValue? fuel (skipGap cs)).bind fun (value, cs) =>
          match skipGap cs with
          | ',' :: cs =>
            (readEntries? fuel cs).map fun (entries, cs) => ((path, value) :: entries, cs)
          | '\x7d' :: cs => some ([(path, value)], cs)
          | _ => none
      | _ => none

end

/-! ### Statements -/

/-- Reads one statement, up to the end of what it says. -/
def readStatement? (fuel : Nat) : List Char → Read Statement
  | '[' :: '[' :: cs =>
    (readPath? fuel cs).bind fun
      | (path, ']' :: ']' :: cs) => some (.arrayHeader path, cs)
      | _ => none
  | '[' :: cs =>
    (readPath? fuel cs).bind fun
      | (path, ']' :: cs) => some (.header path, cs)
      | _ => none
  | cs =>
    (readPath? fuel cs).bind fun
      | (path, '=' :: cs) =>
        (readValue? fuel (skipGap cs)).map fun (value, cs) => (.assign path value, cs)
      | _ => none

/-- Reads at most `fuel` statements, each on lines of its own. -/
def readStatements? : (fuel : Nat) → List Char → Option (List Statement)
  | 0, _ => none
  | fuel + 1, cs =>
    (skipFiller false cs).bind fun cs =>
      if cs.isEmpty then some []
      else
        (readStatement? fuel cs).bind fun (statement, cs) =>
          (endLine? cs).bind fun cs => (readStatements? fuel cs).map (statement :: ·)

/-- The statements of a document, which may begin with a byte order mark. Every statement and every
value takes up characters, so the length of the document bounds their number and depth. -/
def read? (document : String) : Option (List Statement) :=
  let cs :=
    match document.toList with
    | '\uFEFF' :: cs => cs
    | cs => cs
  readStatements? (2 * cs.length + 2) cs

end CommandShell.Toml
