import CommandShell.Line.Scan
import CommandShell.Shell.Config
import CommandShell.Shell.Help
import CommandShell.Shell.Registry

/-!
# The shell

A shell holds registered commands, a candidate cache and settings. It executes lines and completes
lines that are still being typed. The names of the registered commands are kept in the cache, so
that arguments can be completed from them. A command is registered in place, first in the registry
and then in the cache.

## Main definitions

* `Shell` — commands, cache and settings
* `Shell.Edit`, `Edit.register` — changes in place, and that of a further command
* `Shell.register`, `Shell.ofConfig` — a further command, and the shell that settings describe
* `Shell.execute` — the outcome of a line, and the shell after it
* `Shell.complete` — what can be typed next
-/

namespace CommandShell

/-- Registered commands, a candidate cache and settings. -/
structure Shell where
  registry : Registry
  cache : CandidateCache
  config : ShellConfig

/-- What a host shows for a line still being typed: the help for the next token, and what the
token being typed could become. -/
structure Completion where
  toolbar : String
  candidates : List String
  deriving DecidableEq, Repr

namespace Shell

/-- A change of a shell in place. If it fails on its way then what it has changed so far remains. -/
abbrev Edit := EStateM ShellError Shell

/-- Registers a command in place. The registry takes it before the cache gets the names. -/
def Edit.register (declaration : Declaration) : Edit Unit := do
  let shell ← get
  let command ← ofExcept (declaration.command shell.config.maxNestingDepth)
  let registry ← ofExcept (shell.registry.insert command)
  modify fun shell => { shell with registry }
  modify fun shell =>
    { shell with cache := shell.cache.put Help.commandsKey shell.registry.names }

/-- The shell with one more command, if the command has a signature and its name is free or may be
taken again. -/
def register (shell : Shell) (declaration : Declaration) : Except ShellError Shell :=
  match (Edit.register declaration).run shell with
  | .ok _ next => .ok next
  | .error e _ => .error e

/-- The shell without commands, with the candidates that its settings name. -/
def bare (config : ShellConfig) : Shell where
  registry := .empty config.rejectDuplicateCommands
  cache := config.candidates
  config := config

/-- The shell that settings describe, with the commands that every shell has. -/
def ofConfig (config : ShellConfig) : Except ShellError Shell :=
  ((bare config).register Help.helpCommand).bind (·.register Help.exitCommand)

/-- The outcome of a line, and the shell after it. The first token names the command, the others
are its arguments; a line without tokens does nothing. -/
def execute (shell : Shell) (line : String) : Except ShellError Outcome × Shell :=
  match Line.tokens? line with
  | .error e => (.error (.quoting e), shell)
  | .ok [] => (.ok .silent, shell)
  | .ok (head :: rest) =>
    match shell.registry.get? head.value with
    | none => (.error (.unknownCommand head.value), shell)
    | some command =>
      match command.spec.signature.bind rest with
      | .error e => (.error (.matching e), shell)
      | .ok bindings =>
        let inv : Invocation := ⟨command.spec, bindings, shell.registry.catalogue, line⟩
        let (result, cache) := command.handler inv shell.cache
        (result, { shell with cache })

/-- What can be typed next at the end of a line: a command name, or what its command suggests as
far as the line matches. -/
def complete (shell : Shell) (line : String) : Completion :=
  let (tokens, typed) := Line.splitPartial line
  let separator := shell.config.toolbarSeparator
  match tokens with
  | [] =>
    let candidates := shell.registry.names.filter (Text.begins typed)
    ⟨separator.intercalate candidates, candidates⟩
  | head :: rest =>
    match shell.registry.get? head.value with
    | none => ⟨"", []⟩
    | some command =>
      let suggestions :=
        command.spec.signature.suggest rest typed ⟨line, some shell.cache.source⟩
      ⟨suggestions.toolbar separator, suggestions.candidates⟩

end Shell

end CommandShell
