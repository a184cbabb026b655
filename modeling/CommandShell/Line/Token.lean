import CommandShell.Span

/-!
# Tokens of an input line

A token is a word of an input line with its quoting undone, and the span of its written form. The
only fault of a line is a quote that stays open.

## Main definitions

* `Quote` — the two kinds of quotes
* `Token` — an unquoted word and where it is written
* `OpenQuote` — a quote that nothing closes, with its message
-/

namespace CommandShell

/-- The two kinds of quotes. -/
inductive Quote
  /-- Groups text; a backslash escapes a double quote or a backslash. -/
  | double
  /-- Groups text literally. -/
  | single
  deriving DecidableEq, Repr

namespace Quote

def mark : Quote → Char
  | .double => '"'
  | .single => '\''

/-- What the quote is called in messages. -/
def describe : Quote → String
  | .double => "double quote"
  | .single => "single quote"

end Quote

/-- A word of an input line, unquoted, with the span of its written form. -/
structure Token where
  value : String
  span : Span
  deriving DecidableEq, Repr

/-- A quote that nothing closes; the span runs from the quote to the end of the line. -/
structure OpenQuote where
  quote : Quote
  span : Span
  deriving DecidableEq, Repr

namespace OpenQuote

def message (e : OpenQuote) : String :=
  "unterminated " ++ e.quote.describe ++ " at position " ++ toString e.span.start

/-- The error message shown against the line. -/
def diagnostic (e : OpenQuote) (line : String) : String := e.span.diagnostic line e.message

end OpenQuote

end CommandShell
