import CommandShell.Line.Token
import CommandShell.Text.Blank

/-!
# Scanning an input line

Blanks separate tokens. Double quotes group text and know the escapes `\"` and `\\`; single quotes
group text literally; a backslash outside quotes takes the next character as it is. Quoted and
bare parts written together make up one token. One scan serves two readings of a line: the strict
one refuses a quote that stays open, the lenient one lets it reach to the end of the line.

## Main definitions

* `Line.Mode` — what the scanner is inside of
* `Line.Scan` — the tokens of a line, and the quote left open if there is one
* `Line.scan` — the scan itself, one character at a time
* `Line.tokens?` — the strict reading, for a line to execute
* `Line.lenientTokens` — the lenient reading, for a line still being typed
* `Line.splitPartial` — the finished tokens and the one being typed

## Main results

* `Line.tokens?_eq_ok_iff` — the strict reading succeeds exactly if no quote is left open, and then
  agrees with the lenient one
-/

namespace CommandShell.Line

/-- What the scanner is inside of. -/
inductive Mode
  /-- Outside of quotes. -/
  | bare
  /-- Right after a backslash outside of quotes. -/
  | escape
  /-- Inside the quote that opened at the given offset. -/
  | quoted (quote : Quote) (opened : Nat)
  /-- Right after a backslash inside the double quote that opened at the given offset. -/
  | quotedEscape (opened : Nat)
  deriving DecidableEq, Repr

/-- A token being put together: where it began, and its characters so far, last first. -/
structure Draft where
  start : Nat
  chars : List Char
  deriving DecidableEq, Repr

/-- The draft in hand, or a new one that begins at `pos`. -/
def Draft.orNew (draft : Option Draft) (pos : Nat) : Draft := draft.getD ⟨pos, []⟩

/-- The draft with one more character. -/
def Draft.add (draft : Draft) (c : Char) : Draft := { draft with chars := c :: draft.chars }

/-- The token of a draft whose written form ends at `stop`. -/
def Draft.token (draft : Draft) (stop : Nat) : Token :=
  ⟨.ofList draft.chars.reverse, ⟨draft.start, stop⟩⟩

/-- What a line holds: its tokens, and the quote left open with the offset where it opened. -/
structure Scan where
  tokens : List Token
  unclosed : Option (Quote × Nat)
  deriving DecidableEq, Repr

/-- The scan of a line that has one more token in front, if a draft was in hand. -/
def Scan.after (draft : Option Draft) (stop : Nat) (rest : Scan) : Scan :=
  { rest with tokens := (draft.map (·.token stop)).toList ++ rest.tokens }

/-- Scans the rest of a line from the offset `pos`, with the token in hand in `draft`. A backslash
that nothing follows stands for itself, and so does one inside a double quote that escapes
neither a quote nor a backslash. -/
def scan (mode : Mode) (draft : Option Draft) (pos : Nat) : List Char → Scan
  | [] =>
    match mode with
    | .bare => .after draft pos ⟨[], none⟩
    | .escape => .after (some ((Draft.orNew draft pos).add '\\')) pos ⟨[], none⟩
    | .quoted quote opened => .after draft pos ⟨[], some (quote, opened)⟩
    | .quotedEscape opened =>
      .after (some ((Draft.orNew draft pos).add '\\')) pos ⟨[], some (.double, opened)⟩
  | c :: cs =>
    let next := pos + c.utf8Size
    let inHand := Draft.orNew draft pos
    match mode with
    | .bare =>
      if Text.isBlank c then .after draft pos (scan .bare none next cs)
      else if c = '"' then scan (.quoted .double pos) (some inHand) next cs
      else if c = '\'' then scan (.quoted .single pos) (some inHand) next cs
      else if c = '\\' then scan .escape (some inHand) next cs
      else scan .bare (some (inHand.add c)) next cs
    | .escape => scan .bare (some (inHand.add c)) next cs
    | .quoted quote opened =>
      if c = quote.mark then scan .bare (some inHand) next cs
      else if c = '\\' ∧ quote = .double then scan (.quotedEscape opened) (some inHand) next cs
      else scan (.quoted quote opened) (some (inHand.add c)) next cs
    | .quotedEscape opened =>
      if c = '"' ∨ c = '\\' then scan (.quoted .double opened) (some (inHand.add c)) next cs
      else scan (.quoted .double opened) (some ((inHand.add '\\').add c)) next cs

/-- The scan of a whole line. -/
def scanLine (line : String) : Scan := scan .bare none 0 line.toList

/-- The tokens of a line to execute, in which every quote has to be closed. -/
def tokens? (line : String) : Except OpenQuote (List Token) :=
  match (scanLine line).unclosed with
  | some (quote, opened) => .error ⟨quote, ⟨opened, Text.byteLength line.toList⟩⟩
  | none => .ok (scanLine line).tokens

/-- The tokens of a line still being typed: an open quote reaches to the end of the line. -/
def lenientTokens (line : String) : List Token := (scanLine line).tokens

/-- The finished tokens of a line still being typed, and the text of the token at its end: empty
unless a token touches the end of the line. -/
def splitPartial (line : String) : List Token × String :=
  let tokens := lenientTokens line
  match tokens.getLast? with
  | some last =>
    if last.span.stop = Text.byteLength line.toList then (tokens.dropLast, last.value)
    else (tokens, "")
  | none => (tokens, "")

theorem tokens?_eq_ok_iff {line : String} {tokens : List Token} :
    tokens? line = .ok tokens ↔ (scanLine line).unclosed = none ∧ lenientTokens line = tokens := by
  rw [tokens?, lenientTokens]
  split <;> simp_all

end CommandShell.Line
