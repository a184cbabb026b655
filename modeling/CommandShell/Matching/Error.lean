import CommandShell.Argument.Type
import CommandShell.Line.Token

/-!
# Match errors

Why the tokens of a line do not fit a command.

## Main definitions

* `MatchError` — the causes
* `MatchError.message`, `MatchError.span?` — the wording, and where the fault is in the line
* `MatchError.diagnostic?` — the fault shown in the line
-/

namespace CommandShell

/-- Why a line does not fit a command. -/
inductive MatchError
  /-- Fewer tokens than the grammar needs at least. -/
  | tooFewArguments (expected found : Nat)
  /-- A token that nothing takes. -/
  | unknownArgument (token : Token)
  /-- A token without a name, where the command is complete. -/
  | tooManyArguments (token : Token)
  /-- The line ends early; these are the labels of what could come next. -/
  | endsEarly (expected : List String)
  /-- An argument without a default has no value. -/
  | unbound (name : String)
  /-- A text without a value of its argument's type; the span is that of its token. -/
  | conversion (name raw : String) (reason : ConversionError) (span : Span)
  deriving DecidableEq, Repr

namespace MatchError

/-- Where the fault is in the line, if it has a place there. -/
def span? : MatchError → Option Span
  | unknownArgument token | tooManyArguments token => some token.span
  | conversion _ _ _ span => some span
  | tooFewArguments .. | endsEarly _ | unbound _ => none

/-- The error message. -/
def message : MatchError → String
  | tooFewArguments expected found =>
    "too few arguments: expected at least " ++ toString expected ++ ", got " ++ toString found
  | unknownArgument token => "<" ++ token.value ++ "> not found"
  | tooManyArguments token => "too many arguments: <" ++ token.value ++ ">"
  | endsEarly expected => "mandatory argument <" ++ "|".intercalate expected ++ "> not present"
  | unbound name => "mandatory argument <" ++ name ++ "> not present"
  | conversion name raw reason _ =>
    "invalid value '" ++ raw ++ "' for <" ++ name ++ ">: " ++ reason.message

/-- The message shown against the line, if the fault has a place there. -/
def diagnostic? (e : MatchError) (line : String) : Option String :=
  e.span?.map (·.diagnostic line e.message)

end MatchError

end CommandShell
