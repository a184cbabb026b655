import CommandShell.Grammar.Error
import CommandShell.Matching.Error

/-!
# Shell errors

Why a command cannot be registered or a line cannot be executed. No error makes the shell
unusable.

## Main definitions

* `ShellError` — the causes
* `ShellError.message`, `ShellError.diagnostic?` — the wording, and the fault shown in the line
-/

namespace CommandShell

/-- Why a command cannot be registered or a line cannot be executed. -/
inductive ShellError
  /-- The grammar of a command is faulty. -/
  | invalidGrammar (command : String) (inner : GrammarError) (source : String)
  /-- The arguments of a command do not go together. -/
  | grammar (inner : GrammarError)
  /-- The line does not fit its command. -/
  | matching (inner : MatchError)
  /-- A quote in the line stays open. -/
  | quoting (inner : OpenQuote)
  /-- No command has this name. -/
  | unknownCommand (name : String)
  /-- A command's grammar is that of a command with another name. -/
  | nameMismatch (name command : String)
  /-- A command of this name is registered, and may not be replaced. -/
  | duplicateCommand (name : String)
  /-- The command itself failed. -/
  | handler (command text : String)
  deriving DecidableEq, Repr

namespace ShellError

def message : ShellError → String
  | invalidGrammar command inner source =>
    "invalid grammar for '" ++ command ++ "':\n" ++
      (inner.diagnostic? source).getD inner.message
  | grammar inner => inner.message
  | matching inner => inner.message
  | quoting inner => inner.message
  | unknownCommand name => "unknown command: " ++ name
  | nameMismatch name command =>
    "command '" ++ name ++ "' has a grammar for '" ++ command ++ "'"
  | duplicateCommand name => "command '" ++ name ++ "' is already registered"
  | handler command text => command ++ ": " ++ text

/-- The message shown against the line, for a fault that has a place in it. -/
def diagnostic? (e : ShellError) (line : String) : Option String :=
  match e with
  | matching inner => inner.diagnostic? line
  | quoting inner => some (inner.diagnostic line)
  | _ => none

end ShellError

end CommandShell
