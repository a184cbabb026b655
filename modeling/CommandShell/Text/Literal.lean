import CommandShell.Text.Invisible

/-!
# Texts as literals

A text in double quotes, as descriptions of commands show it: quotes, backslashes and characters
that would not show are escaped.

## Main definitions

* `Text.literalChar` — one character of a literal
* `Text.literal` — a text in quotes
-/

namespace CommandShell.Text

/-- One character of a literal. Characters that do not show are written as `\u{…}`, but for the
few that have a letter. -/
def literalChar : Char → List Char
  | '\x00' => ['\\', '0']
  | '\t' => ['\\', 't']
  | '\n' => ['\\', 'n']
  | '\r' => ['\\', 'r']
  | '"' => ['\\', '"']
  | '\\' => ['\\', '\\']
  | c =>
    if isInvisible c then
      ['\\', 'u', '\x7b'] ++ Nat.toDigits 16 c.toNat ++ ['\x7d']
    else [c]

/-- A text in double quotes. -/
def literal (s : String) : String := .ofList ('"' :: s.toList.flatMap literalChar ++ ['"'])

end CommandShell.Text
