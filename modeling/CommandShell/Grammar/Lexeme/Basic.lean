import CommandShell.Rule.Basic

/-!
# Lexemes of the grammar notation

A grammar is written with words, constants in angle brackets, square brackets, bars and group
operators.

## Main definitions

* `Lexeme.Kind` — what a lexeme is, with its description for messages
* `Lexeme` — a lexeme and where it is written
-/

namespace CommandShell

/-- The lexemes of the grammar notation. -/
inductive Lexeme.Kind
  /-- A run of name characters. -/
  | word (name : String)
  /-- `<name>` -/
  | constant (name : String)
  /-- `[` -/
  | opening
  /-- `]` -/
  | closing
  /-- `|` -/
  | bar
  /-- One of `? * + ! @`. -/
  | operator (op : GroupOp)
  deriving DecidableEq, Repr

namespace Lexeme.Kind

/-- How messages refer to a lexeme. -/
def describe : Kind → String
  | word name => "word '" ++ name ++ "'"
  | constant name => "constant <" ++ name ++ ">"
  | opening => "'['"
  | closing => "']'"
  | bar => "'|'"
  | operator op => "operator '" ++ op.char.toString ++ "'"

/-- The lexeme that a single character writes. -/
def ofMark? : Char → Option Kind
  | '[' => some opening
  | ']' => some closing
  | '|' => some bar
  | c => (GroupOp.ofChar? c).map operator

end Lexeme.Kind

/-- A lexeme and where it is written. -/
structure Lexeme where
  kind : Lexeme.Kind
  span : Span
  deriving DecidableEq, Repr

end CommandShell
