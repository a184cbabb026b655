import CommandShell.Argument.Bindings
import CommandShell.Text.Name
import CommandShell.Tree.Language

/-!
# Sentences

How the tokens of a line say a sequence of symbols, and which raw texts they give to which
arguments. A token says one symbol, or, as `name=value`, a flag together with its value.

## Main definitions

* `Sentence.ownText` — what a positional argument takes from a token
* `Sentence.Says` — the tokens say the symbols and give the raw texts
-/

namespace CommandShell.Sentence

/-- The token `name=value`. -/
def assignment (name value : String) : String := name ++ "=" ++ value

/-- What the positional argument `name` takes from a token: the token itself, or the text behind
its own `name=`. -/
def ownText (name token : String) : String :=
  if Text.isIdentifier name.toList then
    ((Text.dropOpening? (name.toList ++ ['=']) token.toList).map String.ofList).getD token
  else token

/-- The tokens say the symbols, one after the other, and give the raw texts to the arguments. -/
inductive Says : List Symbol → List String → List (ArgId × String) → Prop
  /-- Nothing is said. -/
  | nil : Says [] [] []
  /-- Any token is the value of a positional argument. -/
  | argument {id : ArgId} {name token : String} {symbols : List Symbol} {tokens : List String}
      {given : List (ArgId × String)} (rest : Says symbols tokens given) :
      Says (⟨.argument id, name⟩ :: symbols) (token :: tokens) ((id, ownText name token) :: given)
  /-- Any token is a free-form value. -/
  | freeForm {id : ArgId} {name token : String} {symbols : List Symbol} {tokens : List String}
      {given : List (ArgId × String)} (rest : Says symbols tokens given) :
      Says (⟨.freeForm id, name⟩ :: symbols) (token :: tokens) ((id, token) :: given)
  /-- A constant is said by its literal, which is given to the argument of that name. -/
  | constant {id? : Option ArgId} {literal name : String} {symbols : List Symbol}
      {tokens : List String} {given : List (ArgId × String)} (rest : Says symbols tokens given) :
      Says (⟨.constant literal id?, name⟩ :: symbols) (literal :: tokens)
        ((id?.map (·, literal)).toList ++ given)
  /-- A flag is said by its name behind a dash, and gives nothing. -/
  | flag {id : ArgId} {name : String} {symbols : List Symbol} {tokens : List String}
      {given : List (ArgId × String)} (rest : Says symbols tokens given) :
      Says (⟨.flag id, name⟩ :: symbols) (("-" ++ name) :: tokens) given
  /-- A flag whose name is an identifier is said together with its value. -/
  | assigned {id : ArgId} {name value : String} {symbols : List Symbol} {tokens : List String}
      {given : List (ArgId × String)} (hname : Text.isIdentifier name.toList = true)
      (rest : Says symbols tokens given) :
      Says (⟨.flag id, name⟩ :: ⟨.freeForm id, name⟩ :: symbols) (assignment name value :: tokens)
        ((id, value) :: given)

end CommandShell.Sentence
