import CommandShell.Shell.Basic

/-!
# Demonstration commands

A small set of commands that show positional arguments, optional, repeated and free-form groups,
maps, and an argument completed from what earlier lines have named.

## Main definitions

* `Demo.commands` — the commands
* `Demo.register` — a shell with the demonstration commands
-/

namespace CommandShell.Demo

/-- The key of the candidate cache under which the names of tenants are kept. -/
def tenantsKey : String := "tenants"

/-- The tenants that are offered at first. -/
def defaultTenants : List String := ["COMMON", "DEFAULT", "SINGLE", "MULTI"]

/-- The bindings of a line as one JSON object. -/
def bindingsText (inv : Invocation) : String := inv.bindings.toJson.render

/-- Remembers the tenant that a line names, and prints its bindings. -/
def runTenant : Handler := fun inv cache =>
  let cache :=
    match inv.str? "tname" with
    | some name => cache.add tenantsKey name
    | none => cache
  (.ok (.output (bindingsText inv)), cache)

/-- The words of a line, as they were read. -/
def echoWords (inv : Invocation) : String :=
  "command arguments: " ++ " ".intercalate ((inv.items "words").map Value.text)

/-- The demonstration commands. -/
def commands : List Declaration := [
  { name := "tenant"
    description := "Enter the tenant where you want to go"
    grammar := some "tenant tname [tid]?"
    args := [
      { name := "tname", type := .dynamic tenantsKey defaultTenants },
      { name := "tid", type := .int, default? := some (.int 0) }]
    handler := runTenant },
  { name := "node"
    description := "Run the node"
    grammar := some "node name [nid|nsig]?"
    args := [
      { name := "name", type := .str },
      { name := "nid", type := .int, default? := some (.int 0) },
      { name := "nsig", type := .int, default? := some (.int 0) }]
    handler := .printing bindingsText },
  { name := "leaf"
    description := "Attach one or more leaves to a node"
    grammar := some "leaf name [lid laddr]+"
    args := [
      { name := "name", type := .str },
      { name := "lid", type := .int },
      { name := "laddr", type := .str }]
    handler := .printing bindingsText },
  { name := "dbg"
    description := "Collect key=value settings"
    grammar := some "dbg [opts]@"
    args := [{ name := "opts", type := .map, default? := some (.map ∅) }]
    handler := .printing bindingsText },
  { name := "the-command"
    description := "Echo the words that follow"
    grammar := some "the-command [words]@"
    args := [{ name := "words", type := .str, default? := some (.list []) }]
    handler := .printing echoWords }]

/-- The shell with a list of tenants, unless it has one. -/
def seedTenants (shell : Shell) : Shell :=
  if shell.cache.contains tenantsKey then shell
  else { shell with cache := shell.cache.put tenantsKey defaultTenants }

/-- Registers commands one after the other, up to the first that fails; the result is the shell
with those before it, and the error if there is one. -/
def registerAll (shell : Shell) : List Declaration → Shell × Option ShellError
  | [] => (shell, none)
  | declaration :: declarations =>
    match shell.register declaration with
    | .ok shell => registerAll shell declarations
    | .error e => (shell, some e)

/-- The shell with the demonstration commands, up to the first that fails. -/
def register (shell : Shell) : Shell × Option ShellError := registerAll (seedTenants shell) commands

end CommandShell.Demo
