import CommandShell.Rule.Basic

/-!
# Grammars

A grammar names a command and says how its arguments are written. A command whose arguments are
all positional needs no written grammar: the names of its arguments make one up.

## Main definitions

* `Grammar` — a command name, the rules of its arguments, and the text they were read from
* `Grammar.minimumArguments` — the fewest tokens that are worth matching against it
* `Grammar.ofNames` — the grammar of a command whose arguments are all positional
-/

namespace CommandShell

/-- A command name and the rules of its arguments, which end with the end rule, together with the
text they are written as. -/
structure Grammar where
  command : String
  rules : List Rule
  source : String
  deriving DecidableEq, Repr

namespace Grammar

/-- How deep brackets may nest unless a limit is set. -/
def defaultMaxDepth : Nat := 16

/-- The fewest tokens that are worth matching against the grammar. -/
def minimumArguments (grammar : Grammar) : Nat := Rule.minimumArguments grammar.rules

/-- The text of a command with these names after it. -/
def spelled (command : List Char) (names : List (List Char)) : List Char :=
  command ++ (names.map (' ' :: ·)).flatten

/-- One positional rule per name, numbered from `position`, where the text of the names begins at
the offset `start` with a blank before each. -/
def positionalRules (position start : Nat) : List String → List Rule
  | [] => [.finish position (.point start)]
  | name :: names =>
    let stop := start + 1 + Text.byteLength name.toList
    .leaf .required position name ⟨start + 1, stop⟩ :: positionalRules (position + 1) stop names

/-- The grammar of a command that takes one positional argument per name. -/
def ofNames (command : String) (names : List String) : Grammar where
  command := command
  rules := positionalRules 0 (Text.byteLength command.toList) names
  source := .ofList (spelled command.toList (names.map String.toList))

end Grammar

end CommandShell
