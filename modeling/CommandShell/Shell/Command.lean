import CommandShell.Signature
import CommandShell.Shell.Cache
import CommandShell.Shell.Error
import CommandShell.Text.Literal

/-!
# Commands

A command has a name, a description, a signature, and a handler that runs a matched line.
The handler reads the declarations of all commands, and reads and writes the candidate cache.

## Main definitions

* `CommandSpec` — what a command declares
* `Catalogue` — the declarations of a shell's commands, by name
* `Invocation`, `Outcome`, `Handler` — what a handler is given, and what it answers
* `Command` — a declaration with its handler
* `Declaration` — a command before its signature is built, with `Declaration.command`
-/

namespace CommandShell

/-- What a command declares: its name, its description and its signature. -/
structure CommandSpec where
  name : String
  description : String
  signature : Signature

/-- A one-line description of a command for debugging. -/
def CommandSpec.describe (spec : CommandSpec) : String :=
  "Command \x7b name: " ++ Text.literal spec.name ++ ", grammar: " ++
    Text.literal spec.signature.grammar.source ++ ", .. \x7d"

/-- A one-line description of a completion context for debugging. -/
def CompletionContext.describe (context : CompletionContext) : String :=
  "CompletionContext \x7b line: " ++ Text.literal context.line ++ ", source: " ++
    (if context.source.isSome then "true" else "false") ++ " \x7d"

/-- The declarations of the commands of a shell, by name, in order of registration. -/
abbrev Catalogue := Dict CommandSpec

/-- What a handler asks the shell to do next. -/
inductive Outcome
  /-- Print a text. -/
  | output (text : String)
  /-- Print nothing. -/
  | silent
  /-- Stop reading lines. -/
  | exit
  deriving DecidableEq, Repr

/-- A matched line, as its command sees it. -/
structure Invocation where
  spec : CommandSpec
  bindings : Bindings
  catalogue : Catalogue
  line : String

namespace Invocation

/-- The text of the argument with a name, if it is bound to one. -/
def str? (inv : Invocation) (name : String) : Option String :=
  (inv.bindings.get? name).bind Value.str?

/-- The integer of the argument with a name, if it is bound to one. -/
def int? (inv : Invocation) (name : String) : Option Int :=
  (inv.bindings.get? name).bind Value.int?

/-- The values of the argument with a name. -/
def items (inv : Invocation) (name : String) : List Value := inv.bindings.items name

/-- A failure of this command. -/
def fail (inv : Invocation) (text : String) : ShellError := .handler inv.spec.name text

end Invocation

/-- What a command does with a matched line: an answer, and the candidate cache after it. -/
abbrev Handler := Invocation → CandidateCache → Except ShellError Outcome × CandidateCache

/-- The handler that answers without touching the candidate cache. -/
def Handler.pure (answer : Invocation → Except ShellError Outcome) : Handler :=
  fun inv cache => (answer inv, cache)

/-- The handler that prints a text about the line. -/
def Handler.printing (text : Invocation → String) : Handler :=
  .pure fun inv => .ok (.output (text inv))

/-- A command: what it declares, and what it does. -/
structure Command where
  spec : CommandSpec
  handler : Handler

def Command.name (command : Command) : String := command.spec.name

/-- A command before its signature is built. Without a grammar, its arguments are all positional. -/
structure Declaration where
  name : String
  description : String := ""
  grammar : Option String := none
  args : List Argument := []
  handler : Handler

/-- The signature of a declared command, if the brackets of its grammar nest no deeper than `limit`.
The grammar has to begin with the command's own name. -/
def Declaration.signature (declaration : Declaration) (limit : Nat) :
    Except ShellError Signature :=
  let name := declaration.name
  (ArgumentSet.ofList declaration.args).mapError .grammar |>.bind fun args =>
    match declaration.grammar with
    | some source =>
      (Signature.ofSource source args limit).mapError (.invalidGrammar name · source)
        |>.bind fun signature =>
          if signature.grammar.command = name then .ok signature
          else .error (.nameMismatch name signature.grammar.command)
    | none => (Signature.positional name args).mapError .grammar

/-- The command that a declaration declares. -/
def Declaration.command (declaration : Declaration) (limit : Nat) : Except ShellError Command :=
  (declaration.signature limit).map fun signature =>
    ⟨⟨declaration.name, declaration.description, signature⟩, declaration.handler⟩

end CommandShell
