/-!
# Names

The characters of command and argument names, and the narrower shape that a name needs to be
addressed as `-name` or `name=value` on an input line. Both admit ASCII only.

## Main definitions

* `Text.isNameChar` — a letter, a digit, `-`, `_` or `.`
* `Text.isIdentifier` — name characters that begin with a letter or `_`
-/

namespace CommandShell.Text

/-- The character may stand in a command or argument name. -/
def isNameChar (c : Char) : Bool := c.isAlphanum || c == '-' || c == '_' || c == '.'

/-- A letter or `_`, then name characters. -/
def isIdentifier : List Char → Bool
  | [] => false
  | c :: cs => (c.isAlpha || c == '_') && cs.all isNameChar

theorem isNameChar_of_isAlpha {c : Char} (h : c.isAlpha = true) : isNameChar c = true := by
  simp [isNameChar, Char.isAlphanum, h]

/-- An identifier consists of name characters. -/
theorem all_isNameChar_of_isIdentifier {cs : List Char} (h : isIdentifier cs = true) :
    cs.all isNameChar = true := by
  cases cs with
  | nil => simp [isIdentifier] at h
  | cons c cs =>
    simp only [isIdentifier, Bool.and_eq_true, Bool.or_eq_true, beq_iff_eq] at h
    obtain ⟨hc | rfl, hcs⟩ := h
    · simp only [List.all_cons, isNameChar_of_isAlpha hc, hcs, Bool.and_self]
    · simpa [isNameChar] using hcs

/-- An equals sign is no name character, so the first one ends a name. -/
theorem isNameChar_equals : isNameChar '=' = false := by decide

end CommandShell.Text
