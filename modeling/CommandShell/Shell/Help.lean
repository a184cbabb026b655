import CommandShell.Shell.Command

/-!
# Help

The two commands that every shell has: `help`, which lists commands or describes some of them, and
`exit`. Columns are as wide as the longest name in bytes, and are filled up by characters.

## Main definitions

* `Help.overview` — one line per command, sorted by name
* `Help.detail` — a command with its grammar and its arguments
* `Help.helpCommand`, `Help.exitCommand` — the two commands
-/

namespace CommandShell.Help

/-- The key of the candidate cache under which the names of the commands are kept. -/
def commandsKey : String := "commands"

/-- The width of a column of names: the most bytes that one of them has. -/
def columnWidth (names : List String) : Nat :=
  (names.map fun name => Text.byteLength name.toList).foldl max 0

/-- A text filled up with blanks to a number of characters. -/
def pad (width : Nat) (s : String) : String :=
  .ofList (s.toList ++ List.replicate (width - s.toList.length) ' ')

/-- A line for one command: its name in a column, and its description. -/
def summary (width : Nat) (spec : CommandSpec) : String :=
  .ofList (Text.trimRight ("  " ++ pad width spec.name ++ "  " ++ spec.description).toList)

/-- One line per command, sorted by the code points of their names. -/
def overview (catalogue : Catalogue) : String :=
  let width := columnWidth catalogue.keys
  let specs := catalogue.values.mergeSort fun a b => a.name ≤ b.name
  "\n".intercalate ("Commands:" :: specs.map (summary width))

/-- A line for one argument: its name in a column, its help, and its default. -/
def argumentLine (width : Nat) (arg : Argument) : String :=
  let default :=
    match arg.default? with
    | some value => "default: " ++ value.text
    | none => "required"
  "  " ++ pad width arg.name ++ "  " ++ arg.help ++ " (" ++ default ++ ")"

/-- The name, description, grammar and arguments of a command. -/
def detail (spec : CommandSpec) : String :=
  let args := spec.signature.args
  let title :=
    if spec.description.isEmpty then spec.name else spec.name ++ " - " ++ spec.description
  "\n".intercalate
    (title :: ("  syntax: " ++ spec.signature.grammar.source) ::
      args.toList.map (argumentLine (columnWidth args.names)))

/-- The description of the command with a name. -/
def describe (catalogue : Catalogue) (name : String) : Except ShellError String :=
  match catalogue.get? name with
  | some spec => .ok (detail spec)
  | none => .error (.unknownCommand name)

/-- Describes the commands with the given names, or lists all commands if none is given. -/
def answer (catalogue : Catalogue) (names : List String) : Except ShellError Outcome :=
  if names.isEmpty then .ok (.output (overview catalogue))
  else (names.mapM (describe catalogue)).map fun texts => .output ("\n\n".intercalate texts)

/-- The command that lists and describes commands. -/
def helpCommand : Declaration where
  name := "help"
  description := "List commands, or describe the named ones"
  grammar := some "help [names]@"
  args := [{
    name := "names"
    type := .dynamic commandsKey []
    default? := some (.list [])
    description? := some "Enter a command name" }]
  handler := .pure fun inv => answer inv.catalogue ((inv.items "names").map Value.text)

/-- The command that leaves the shell. -/
def exitCommand : Declaration where
  name := "exit"
  description := "Leave the shell"
  handler := .pure fun _ => .ok .exit

end CommandShell.Help
