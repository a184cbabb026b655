import CommandShell.Grammar.Clause
import CommandShell.Line.Token
import CommandShell.Matching.Sentence

/-!
# Lineups

The plainest commands take their arguments in a row, as `put from to [more]@` does. One token goes
to each of the positional arguments in front, and all that are left over go to one free-form
argument, if there is one. Nothing has to be chosen then: the place of a token tells which argument
takes it.

## Main definitions

* `Lineup` — the names of arguments in a row
* `Lineup.phrase` — the grammar that writes a lineup
* `Lineup.takerAt?`, `Lineup.textAt` — the name of the argument that takes the token at a place, and
  the text that it takes of the token
* `Lineup.valuesFrom?` — the values of tokens, if all of them have one
* `Lineup.Misfit`, `Lineup.IsFull`, `Lineup.Lacks` — a token whose text has no value, no room for
  another token, and an argument that is given nothing
* `Sentence.IsAddress` — a token that presents itself as a flag or an assignment
* `Bindings.Gathers`, `Lineup.Holds` — what arguments hold in the end
-/

namespace CommandShell

/-- Arguments in a row: those in front take one token each, and the one at the end, if there is one,
takes all that are left over. -/
structure Lineup where
  front : List String
  rest? : Option String
  deriving DecidableEq, Repr

namespace Lineup

/-- The names of the arguments. -/
def names (lineup : Lineup) : List String := lineup.front ++ lineup.rest?.toList

/-- A word for each argument in front, and the one at the end in brackets: `[rest]@`. -/
def clauses (lineup : Lineup) : List Clause :=
  lineup.front.map .word ++
    (lineup.rest?.map fun rest => .group .freeForm [[.word rest]]).toList

/-- The command with the arguments behind it. -/
def phrase (lineup : Lineup) (command : String) : Phrase := ⟨command, lineup.clauses⟩

/-- The name of the argument that takes the token at a place. -/
def takerAt? (lineup : Lineup) (place : Nat) : Option String :=
  lineup.front[place]?.or lineup.rest?

/-- The text that the argument at a place takes of a token. The free-form argument takes even a
token with its own name whole. -/
def textAt (lineup : Lineup) (place : Nat) (word : String) : String :=
  match lineup.front[place]? with
  | some name => Sentence.ownText name word
  | none => word

/-- The argument that takes the token at a place. -/
def argumentAt? (lineup : Lineup) (args : ArgumentSet) (place : Nat) : Option Argument :=
  (lineup.takerAt? place).bind args.find?

/-- The value of the token at a place, if an argument takes it and has a value for its text. -/
def valueAt? (lineup : Lineup) (args : ArgumentSet) (place : Nat) (word : String) : Option Value :=
  (lineup.argumentAt? args place).bind fun argument =>
    (argument.type.convert (lineup.textAt place word)).toOption

/-- The values of tokens, the first of which stands at `place`, if all of them have one. -/
def valuesFrom? (lineup : Lineup) (args : ArgumentSet) (place : Nat) :
    List Token → Option (List Value)
  | [] => some []
  | token :: tokens =>
    (lineup.valueAt? args place token.value).bind fun value =>
      (lineup.valuesFrom? args (place + 1) tokens).map (value :: ·)

/-- The tokens before have values, and the argument that takes the next one has none for its
text. -/
structure Misfit (lineup : Lineup) (args : ArgumentSet) (before : List Token) (token : Token)
    (argument : Argument) (reason : ConversionError) : Prop where
  fits : (lineup.valuesFrom? args 0 before).isSome = true
  taker : lineup.argumentAt? args before.length = some argument
  refuses : argument.type.convert (lineup.textAt before.length token.value) = .error reason

/-- The tokens have values, and nothing takes another one. -/
structure IsFull (lineup : Lineup) (args : ArgumentSet) (tokens : List Token) : Prop where
  fits : (lineup.valuesFrom? args 0 tokens).isSome = true
  rest : lineup.rest? = none
  length_eq : tokens.length = lineup.front.length

/-- Nothing is left over of so many tokens for the argument at the end, and it has no default. -/
def Lacks (lineup : Lineup) (args : ArgumentSet) (count : Nat) (name : String) : Prop :=
  lineup.rest? = some name ∧ count = lineup.front.length ∧
    ∃ argument, args.find? name = some argument ∧ argument.default? = none

end Lineup

/-- The token is `-name` or `name=value`, where the name is an identifier. -/
def Sentence.IsAddress (token : String) : Prop :=
  ∃ name, Text.isIdentifier name.toList = true ∧
    (token = "-" ++ name ∨ ∃ value, token = assignment name value)

/-- An argument holds what the values that were given to it amount to. -/
structure Bindings.Gathers (bindings : Bindings) (argument : Argument) (given : List Value) :
    Prop where
  /-- Every value is one match. -/
  matched : bindings.matched argument.name = given.length
  /-- Without any value, the argument keeps its default. -/
  default : given = [] → bindings.get? argument.name = argument.default?
  /-- The only value stands for itself. -/
  single : ∀ value, given = [value] → bindings.get? argument.name = some value
  /-- With any value at all, it has one. -/
  bound : given ≠ [] → (bindings.get? argument.name).isSome = true
  /-- Several values are listed. -/
  listed : argument.type.Lists → 2 ≤ given.length →
    bindings.get? argument.name = some (.list given)
  /-- Maps become one, with their keys in the order in which they first appear and the value that
  was given last for each. -/
  merged : argument.type = .map → given ≠ [] → ∃ (maps : List (Dict String)) (whole : Dict String),
    given = maps.map .map ∧ bindings.get? argument.name = some (.map whole) ∧
      whole.keys = (maps.flatMap Dict.keys).eraseDups ∧
      ∀ key, whole.get? key = maps.reverse.findSome? (·.get? key)

/-- Each argument in front holds the value of the token at its place, and the one at the end what
the others amount to. -/
structure Lineup.Holds (lineup : Lineup) (args : ArgumentSet) (values : List Value)
    (bindings : Bindings) : Prop where
  arguments : bindings.arguments = args.toList
  front : ∀ (place : Nat) (name : String) (argument : Argument), lineup.front[place]? = some name →
    args.find? name = some argument →
    ∃ value, values[place]? = some value ∧ bindings.Gathers argument [value]
  rest : ∀ (name : String) (argument : Argument), lineup.rest? = some name →
    args.find? name = some argument →
    bindings.Gathers argument (values.drop lineup.front.length)

end CommandShell
