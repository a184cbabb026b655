import CommandShell.Text.Blank
import CommandShell.Text.Cut
import CommandShell.Text.Lines

/-!
# Colours

What a session prints can be painted with the colours of a terminal's palette. Diagnostics are
painted line by line: the label of the error and the carets in one colour, the gutter in another.

## Main definitions

* `Ink` — the colours, with `Ink.code`
* `Style` — whether to paint
* `Style.paint` — a text in a colour
* `Style.diagnostic` — a painted diagnostic
-/

namespace CommandShell

/-- The colours of a session. -/
inductive Ink
  /-- Labels of errors, and carets. -/
  | header
  /-- Candidates. -/
  | literal
  /-- Help texts. -/
  | context
  /-- The gutter of diagnostics. -/
  | muted
  deriving DecidableEq, Repr

/-- The number of the colour in a palette of 256. -/
def Ink.code : Ink → Nat
  | header => 74
  | literal => 250
  | context => 245
  | muted => 240

/-- Whether to paint. -/
structure Style where
  colored : Bool
  deriving DecidableEq, Repr

namespace Style

/-- The control sequence that ends a colour. -/
def reset : List Char := ['\x1b', '[', '0', 'm']

/-- The control sequence that begins a colour. -/
def start (ink : Ink) : List Char :=
  ['\x1b', '[', '3', '8', ';', '5', ';'] ++ Nat.toDigits 10 ink.code ++ ['m']

/-- A text in a colour. An empty text needs none. -/
def paintChars (style : Style) (ink : Ink) (cs : List Char) : List Char :=
  if style.colored ∧ cs ≠ [] then start ink ++ cs ++ reset else cs

/-- A text in a colour. -/
def paint (style : Style) (ink : Ink) (text : String) : String :=
  .ofList (style.paintChars ink text.toList)

/-- What a diagnostic shows after its gutter: carets in colour behind their blanks, and any other
text as it is. -/
def gutterText (style : Style) (cs : List Char) : List Char :=
  let word := Text.trim cs
  if word ≠ [] ∧ word.all (· == '^') then
    cs.takeWhile Text.isBlank ++ style.paintChars .header (Text.trimLeft cs)
  else cs

/-- The beginnings of the lines of a diagnostic that are painted, and what becomes of the rest of
such a line. -/
def openings (style : Style) : List (List Char × Ink × (List Char → List Char)) :=
  [("error:".toList, .header, id), ("  -->".toList, .muted, id),
    ("   |".toList, .muted, style.gutterText)]

/-- One line of a diagnostic. -/
def diagnosticLine (style : Style) (line : List Char) : List Char :=
  let painted := style.openings.findSome? fun (opening, ink, finish) =>
    (Text.dropOpening? opening line).map fun rest => style.paintChars ink opening ++ finish rest
  painted.getD line

def diagnostic (style : Style) (text : String) : String :=
  if style.colored then
    .ofList (['\n'].intercalate ((Text.lines text.toList).map style.diagnosticLine))
  else text

end Style

end CommandShell
