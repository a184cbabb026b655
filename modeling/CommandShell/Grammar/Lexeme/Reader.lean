import CommandShell.Grammar.Error
import CommandShell.Text.Blank
import CommandShell.Text.Name

/-!
# Reading the lexemes of a grammar

Words are runs of name characters, constants are names in angle brackets without blanks, and every
other lexeme is one character. Blanks separate words and mean nothing else.

## Main definitions

* `Lexeme.Pending` — the word or constant in hand
* `Lexeme.readFrom`, `Lexeme.read` — the lexemes of a text, or the first character at fault
-/

namespace CommandShell.Lexeme

/-- The name in hand while a text is read: where its lexeme began, and its characters so far, last
first. -/
inductive Pending
  | nothing
  | word (start : Nat) (name : List Char)
  | constant (start : Nat) (name : List Char)
  deriving DecidableEq, Repr

namespace Pending

/-- The name in hand with one more character, which is at the offset `pos`. -/
def add (c : Char) (pos : Nat) : Pending → Pending
  | nothing => word pos [c]
  | word start name => word start (c :: name)
  | constant start name => constant start (c :: name)

/-- The word in hand as a lexeme that ends at `stop`. -/
def word? (stop : Nat) : Pending → Option Lexeme
  | word start name => some ⟨.word (.ofList name.reverse), ⟨start, stop⟩⟩
  | nothing | constant .. => none

end Pending

/-- The lexemes of the rest of a text from the offset `pos`, after the name in hand. -/
def readFrom (pending : Pending) (pos : Nat) : List Char → Except GrammarError (List Lexeme)
  | [] =>
    match pending with
    | .constant start _ => .error (.malformedConstant ⟨start, start + 1⟩)
    | .nothing | .word .. => .ok (pending.word? pos).toList
  | c :: cs =>
    let next := pos + c.utf8Size
    if Text.isNameChar c then readFrom (pending.add c pos) next cs
    else
      match pending with
      | .constant start name =>
        -- Not even a blank may stand between the angle brackets.
        if c = '>' ∧ name ≠ [] then
          (readFrom .nothing next cs).map
            (⟨.constant (.ofList name.reverse), ⟨start, next⟩⟩ :: ·)
        else .error (.malformedConstant ⟨start, start + 1⟩)
      | .nothing | .word .. =>
        Except.map ((pending.word? pos).toList ++ ·) <|
          match Kind.ofMark? c with
          | some kind => (readFrom .nothing next cs).map (⟨kind, ⟨pos, next⟩⟩ :: ·)
          | none =>
            if Text.isBlank c then readFrom .nothing next cs
            else if c = '<' then readFrom (.constant pos []) next cs
            else .error (.unexpectedCharacter c ⟨pos, next⟩)

/-- The lexemes of a grammar's text. -/
def read (source : String) : Except GrammarError (List Lexeme) :=
  readFrom .nothing 0 source.toList

end CommandShell.Lexeme
