import CommandShell.Text.Blank
import CommandShell.Text.Cut
import CommandShell.Value

/-!
# Argument types

An argument type turns the text of a token into a value, describes itself in help texts and offers
completions. Some completions come from the host, which keeps lists of candidates under keys. The
host may also add types of its own, of which nothing is known.

## Main definitions

* `CandidateSource` — the lists of candidates that the host keeps
* `CompletionContext` — what a type knows about the line being completed
* `HostType` — a type that a host adds
* `ArgType` — the argument types
* `ArgType.convert`, `ConversionError` — the value of a text, or why it has none
* `ArgType.help`, `ArgType.complete?`, `ArgType.repeats` — help, completion, and repeated matches
* `ArgType.IsBuiltIn`, `ArgType.Lists` — a type that is not the host's, and one that lists values
-/

namespace CommandShell

/-- The lists of candidates that a host keeps under keys. -/
abbrev CandidateSource := String → Option (List String)

/-- The line being completed, and the host's candidates if there is a host. -/
structure CompletionContext where
  line : String
  source : Option CandidateSource

/-- The host's candidates under a key. -/
def CompletionContext.lookup (context : CompletionContext) (key : String) : Option (List String) :=
  context.source.bind (· key)

/-- A type that a host adds to the others. What it does is up to the host. -/
structure HostType where
  name : String
  /-- The value of a text, or the host's reason why it has none. -/
  convert : String → Except String Value
  /-- The help text while a text is typed. -/
  help : String → String
  /-- The candidates for a text that is typed, if the host has an opinion. -/
  complete? : CompletionContext → String → Option (List String) := fun _ _ => none
  repeats : Repeat := .append

/-- The types of argument values. -/
inductive ArgType
  /-- A decimal integer. -/
  | int
  /-- Any text. -/
  | str
  /-- One fixed text. -/
  | literal (label : String)
  /-- `key=value` pairs, collected into one map. -/
  | map
  /-- One of several fixed texts. -/
  | choice (options : List String)
  /-- Any text, completed from the host's candidates under `key`, or from `fallback` where the host
  has none. -/
  | dynamic (key : String) (fallback : List String)
  /-- A type of the host. -/
  | host (type : HostType)

/-- Why a text has no value of a type. -/
inductive ConversionError
  | notNumber (raw : String)
  | notLiteral (label : String)
  | notPair (raw : String)
  | notOption (options : List String)
  /-- A type of the host refuses the text. -/
  | refused (reason : String)
  deriving DecidableEq, Repr

def ConversionError.message : ConversionError → String
  | notNumber raw => "'" ++ raw ++ "' is not a number"
  | notLiteral label => "expected '" ++ label ++ "'"
  | notPair raw => "'" ++ raw ++ "' is not key=value"
  | notOption options => "expected one of " ++ ", ".intercalate options
  | refused reason => reason

namespace ArgType

/-- The short name of a type in listings. -/
def name : ArgType → String
  | int => "int"
  | str => "str"
  | literal _ => "prefix"
  | map => "map"
  | choice _ => "choice"
  | dynamic key _ => key
  | host type => type.name

/-- The value of a text. Integers may have blanks around them; the key of a pair ends at the first
`=` and is not empty. -/
def convert (type : ArgType) (raw : String) : Except ConversionError Value :=
  match type with
  | int =>
    match Text.readInt? (Text.trim raw.toList) with
    | some n => .ok (.int n)
    | none => .error (.notNumber raw)
  | str | dynamic _ _ => .ok (.str raw)
  | literal label => if raw = label then .ok (.str label) else .error (.notLiteral label)
  | map =>
    match Text.cutFirst? '=' raw.toList with
    | some (c :: cs, value) => .ok (.map (Dict.ofList [(.ofList (c :: cs), .ofList value)]))
    | some ([], _) | none => .error (.notPair raw)
  | choice options => if raw ∈ options then .ok (.str raw) else .error (.notOption options)
  | host type => (type.convert raw).mapError .refused

/-- A plural key without the letters `s` that it ends with. -/
def singular (key : String) : String :=
  .ofList (key.toList.reverse.dropWhile (· == 's')).reverse

/-- The help text of a type while `typed` is typed. -/
def help (type : ArgType) (typed : String := "") : String :=
  match type with
  | int => "Enter a number"
  | str => "Enter a string"
  | literal label => label
  | map => "Enter key=value"
  | choice options => "Choose one of " ++ ", ".intercalate options
  | dynamic key _ => "Enter a " ++ singular key ++ " name"
  | host type => type.help typed

/-- What a type offers for a text that is typed: those of its texts that begin with it. A type that
takes any text offers nothing. -/
def complete? (type : ArgType) (context : CompletionContext) (typed : String) :
    Option (List String) :=
  let beginning (texts : List String) : Option (List String) :=
    some (texts.filter (Text.begins typed))
  match type with
  | literal label => beginning [label]
  | choice options => beginning options
  | dynamic key fallback => beginning ((context.lookup key).getD fallback)
  | host type => type.complete? context typed
  | int | str | map => none

/-- How repeated matches of a type combine. -/
def repeats : ArgType → Repeat
  | map => .merge
  | host type => type.repeats
  | int | str | literal _ | choice _ | dynamic _ _ => .append

/-- The type is none of the host's. -/
def IsBuiltIn : ArgType → Prop
  | int | str | literal _ | map | choice _ | dynamic _ _ => True
  | host _ => False

/-- The values of repeated matches of the type make a list: of all types but that of maps, and of
those types of the host that ask for it. -/
def Lists : ArgType → Prop
  | int | str | literal _ | choice _ | dynamic _ _ => True
  | map => False
  | host type => type.repeats = .append

theorem repeats_eq_append_iff {type : ArgType} : type.repeats = .append ↔ type.Lists := by
  cases type <;> simp [repeats, Lists]

end ArgType

end CommandShell
