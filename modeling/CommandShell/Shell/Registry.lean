import CommandShell.Shell.Command

/-!
# Registries

The commands of a shell by name, in the order in which the names were first registered.

## Main definitions

* `Registry` — the commands, and whether a name may be registered twice
* `Registry.insert` — a further command, in place of an earlier one of its name
* `Registry.catalogue` — what the commands declare
-/

namespace CommandShell

/-- The commands of a shell by name, and whether registering a name twice is refused. -/
structure Registry where
  commands : Dict Command
  rejectsDuplicates : Bool

namespace Registry

def empty (rejectsDuplicates : Bool) : Registry := ⟨∅, rejectsDuplicates⟩

def names (registry : Registry) : List String := registry.commands.keys

def get? (registry : Registry) (name : String) : Option Command := registry.commands.get? name

/-- What the commands declare. -/
def catalogue (registry : Registry) : Catalogue := registry.commands.map Command.spec

/-- The registry with one more command. It takes the place of an earlier command of its name, if
that is not refused. -/
def insert (registry : Registry) (command : Command) : Except ShellError Registry :=
  if registry.commands.contains command.name ∧ registry.rejectsDuplicates then
    .error (.duplicateCommand command.name)
  else .ok { registry with commands := registry.commands.put command.name command }

end Registry

end CommandShell
