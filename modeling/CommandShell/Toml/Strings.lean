import CommandShell.Text.Integer

/-!
# Strings of TOML documents

There are four kinds of strings: basic and literal ones, each on one line or on several. Basic
strings know escapes, literal strings do not. A reader gets the characters after the opening
quotes, and gives the string and the characters after its closing quotes.

## Main definitions

* `Toml.isPlain` — the character may stand in strings and comments
* `Toml.escape?` — the character of an escape
* `Toml.readBasic?`, `Toml.readLiteral?` — strings on one line
* `Toml.readBasicLines?`, `Toml.readLiteralLines?` — strings on several lines
-/

namespace CommandShell.Toml

/-- A blank within a line. -/
def isGap (c : Char) : Bool := c == ' ' || c == '\t'

/-- The character may stand in strings and comments: it is a tab or no control character. -/
def isPlain (c : Char) : Bool := c == '\t' || (0x20 ≤ c.toNat && c.toNat != 0x7F)

/-- The text after a line break, if there is one in front. -/
def afterBreak? : List Char → Option (List Char)
  | '\n' :: cs => some cs
  | '\r' :: '\n' :: cs => some cs
  | _ => none

/-- The character with the code that hexadecimal digits write. -/
def charOfHex? (digits : List Char) : Option Char :=
  (Text.readDigits? 16 Text.hexDigit? digits).bind fun n =>
    if h : n.isValidChar then some (.ofNatAux n h) else none

/-- The character of a one-letter escape. -/
def escape? : Char → Option Char
  | 'b' => some '\x08'
  | 't' => some '\t'
  | 'n' => some '\n'
  | 'f' => some '\x0c'
  | 'r' => some '\r'
  | '"' => some '"'
  | '\\' => some '\\'
  | _ => none

/-- A string and the text after it. -/
abbrev ReadString := Option (String × List Char)

/-- The string whose characters are given last first, and the text after it. -/
def finish (done rest : List Char) : ReadString := some (.ofList done.reverse, rest)

/-- Reads a basic string on one line, whose characters so far are `done`, last first. -/
def readBasic? (done : List Char) : List Char → ReadString
  | [] => none
  | '"' :: cs => finish done cs
  | '\\' :: 'u' :: a :: b :: c :: d :: cs =>
    match charOfHex? [a, b, c, d] with
    | some e => readBasic? (e :: done) cs
    | none => none
  | '\\' :: 'U' :: a :: b :: c :: d :: e :: f :: g :: h :: cs =>
    match charOfHex? [a, b, c, d, e, f, g, h] with
    | some e => readBasic? (e :: done) cs
    | none => none
  | '\\' :: c :: cs =>
    match escape? c with
    | some e => readBasic? (e :: done) cs
    | none => none
  | c :: cs => if isPlain c then readBasic? (c :: done) cs else none

/-- Reads a literal string on one line. -/
def readLiteral? (done : List Char) : List Char → ReadString
  | [] => none
  | '\'' :: cs => finish done cs
  | c :: cs => if isPlain c then readLiteral? (c :: done) cs else none

/-- Reads a basic string on several lines; `skipping` holds after a backslash at the end of a line,
which joins the line to the next character that is no blank. Up to two quotes may stand before the
closing ones. -/
def readBasicLines? (skipping : Bool) (done : List Char) : List Char → ReadString
  | [] => none
  -- The last three quotes of a run close the string.
  | '"' :: '"' :: '"' :: '"' :: '"' :: cs => finish ('"' :: '"' :: done) cs
  | '"' :: '"' :: '"' :: '"' :: cs => finish ('"' :: done) cs
  | '"' :: '"' :: '"' :: cs => finish done cs
  | '\r' :: '\n' :: cs => readBasicLines? skipping (if skipping then done else '\n' :: done) cs
  | '\n' :: cs => readBasicLines? skipping (if skipping then done else '\n' :: done) cs
  | '\\' :: 'u' :: a :: b :: c :: d :: cs =>
    match charOfHex? [a, b, c, d] with
    | some e => readBasicLines? false (e :: done) cs
    | none => none
  | '\\' :: 'U' :: a :: b :: c :: d :: e :: f :: g :: h :: cs =>
    match charOfHex? [a, b, c, d, e, f, g, h] with
    | some e => readBasicLines? false (e :: done) cs
    | none => none
  | '\\' :: c :: cs =>
    match escape? c with
    | some e => readBasicLines? false (e :: done) cs
    | none =>
      if (afterBreak? ((c :: cs).dropWhile isGap)).isSome then readBasicLines? true done (c :: cs)
      else none
  | c :: cs =>
    if skipping && isGap c then readBasicLines? true done cs
    else if isPlain c then readBasicLines? false (c :: done) cs
    else none

/-- Reads a literal string on several lines. -/
def readLiteralLines? (done : List Char) : List Char → ReadString
  | [] => none
  | '\'' :: '\'' :: '\'' :: '\'' :: '\'' :: cs => finish ('\'' :: '\'' :: done) cs
  | '\'' :: '\'' :: '\'' :: '\'' :: cs => finish ('\'' :: done) cs
  | '\'' :: '\'' :: '\'' :: cs => finish done cs
  | '\r' :: '\n' :: cs => readLiteralLines? ('\n' :: done) cs
  | '\n' :: cs => readLiteralLines? ('\n' :: done) cs
  | c :: cs => if isPlain c then readLiteralLines? (c :: done) cs else none

/-- A text without the line break it begins with, if it does. -/
def dropBreak (cs : List Char) : List Char := (afterBreak? cs).getD cs

end CommandShell.Toml
