import CommandShell.Grammar.Parser
import CommandShell.Dict
import CommandShell.Toml.Reader

/-!
# Shell settings

The settings of a shell and how a TOML document gives them. A setting that is not given has a
default; an unknown setting, a setting given twice and a value of the wrong type are faults.

## Main definitions

* `ShellConfig` — the settings
* `ShellConfig.ofToml?` — the settings that a document gives
-/

namespace CommandShell

/-- The settings of a shell. -/
structure ShellConfig where
  /-- Printed before a line is read. -/
  prompt : String := "> "
  /-- How deep the brackets of grammars may nest; 0 is no limit. -/
  maxNestingDepth : Nat := Grammar.defaultMaxDepth
  /-- Joins the help texts of a completion. -/
  toolbarSeparator : String := " | "
  /-- Registering a name twice is refused. -/
  rejectDuplicateCommands : Bool := false
  /-- The lists that the candidate cache begins with. -/
  candidates : Dict (List String) := ∅

namespace ShellConfig

/-- The texts of an array of texts. -/
def textsOf? : Toml.Value → Option (List String)
  | .array items =>
    items.mapM fun
      | .text s => some s
      | _ => none
  | _ => none

/-- Where the table of candidates has been given so far. -/
inductive Candidates
  /-- Nowhere. -/
  | absent
  /-- By dotted keys, to which others can be added. -/
  | dotted
  /-- As a whole. -/
  | closed
  deriving DecidableEq, Repr

/-- The settings read so far, the names of those that are given, where the candidates are given,
and whether assignments belong to them. -/
structure Reading where
  config : ShellConfig := {}
  given : List String := []
  candidates : Candidates := .absent
  inCandidates : Bool := false

namespace Reading

/-- One more list of candidates, under a key that has none yet. -/
def addList (reading : Reading) (key : String) (value : Toml.Value) : Option Reading :=
  let candidates := reading.config.candidates
  if candidates.contains key then none
  else (textsOf? value).map fun items =>
    { reading with config := { reading.config with candidates := candidates.put key items } }

/-- One more list of candidates per entry of a table. -/
def addLists (reading : Reading) (entries : List (Toml.Path × Toml.Value)) : Option Reading :=
  entries.foldlM (fun reading entry =>
    match entry.1 with
    | [key] => reading.addList key entry.2
    | _ => none) reading

/-- A setting other than the candidates. -/
def set (config : ShellConfig) (key : String) (value : Toml.Value) : Option ShellConfig :=
  match key, value with
  | "prompt", .text s => some { config with prompt := s }
  | "max_nesting_depth", .integer n =>
    if 0 ≤ n then some { config with maxNestingDepth := n.toNat } else none
  | "toolbar_separator", .text s => some { config with toolbarSeparator := s }
  | "reject_duplicate_commands", .boolean b =>
    some { config with rejectDuplicateCommands := b }
  | _, _ => none

/-- Reads one statement. -/
def step (reading : Reading) : Toml.Statement → Option Reading
  | .header ["candidates"] =>
    if reading.candidates = .absent then
      some { reading with candidates := .closed, inCandidates := true }
    else none
  | .assign path value =>
    if reading.inCandidates then reading.addLists [(path, value)]
    else
      match path, value with
      | ["candidates"], .table entries =>
        if reading.candidates = .absent then
          { reading with candidates := .closed }.addLists entries
        else none
      | ["candidates", key], value =>
        -- Dotted keys add to a table that dotted keys made, never to one given as a whole.
        if reading.candidates = .closed then none
        else { reading with candidates := .dotted }.addList key value
      | [key], value =>
        if key ∈ reading.given then none
        else (set reading.config key value).map fun config =>
          { reading with config, given := key :: reading.given }
      | _, _ => none
  | .header _ | .arrayHeader _ => none

end Reading

/-- The settings that a document gives, if it has no fault. -/
def ofToml? (document : String) : Option ShellConfig :=
  (Toml.read? document).bind fun statements =>
    (statements.foldlM Reading.step {}).map Reading.config

end ShellConfig

end CommandShell
