import CommandShell.Grammar.Lexeme.Basic

/-!
# Grammar errors

What can be wrong with a grammar, with the arguments that it names, or with the links of
a parse tree. Each constructor is one cause; the wording is in `GrammarError.message` alone.

## Main definitions

* `GrammarError` — the causes
* `GrammarError.message`, `GrammarError.span?` — the wording, and where the fault is written
* `GrammarError.snippet?`, `GrammarError.diagnostic?` — the fault shown in the grammar's text
-/

namespace CommandShell

/-- What a grammar had to go on with. -/
inductive Expectation
  /-- The name of the command. -/
  | commandName
  /-- A group, or the end of the grammar. -/
  | group
  /-- A group, where a positional argument comes too late. -/
  | groupAfterPositionals
  /-- More of a group. -/
  | groupItem
  deriving DecidableEq, Repr

/-- How messages refer to what was expected. -/
def Expectation.describe : Expectation → String
  | .commandName => "command name"
  | .group => "'['"
  | .groupAfterPositionals => "'[' (positional arguments come first)"
  | .groupItem => "argument, '[', '|' or ']'"

/-- The nodes that a parse tree has one of. -/
inductive Sentinel
  | start
  | finish
  deriving DecidableEq, Repr

def Sentinel.label : Sentinel → String
  | .start => "start"
  | .finish => "end"

/-- What can be wrong with a grammar or with the tree of its rules. -/
inductive GrammarError
  /-- A character without meaning in the notation. -/
  | unexpectedCharacter (c : Char) (span : Span)
  /-- A `<` without a name and a `>` after it; the span is that of the `<`. -/
  | malformedConstant (span : Span)
  /-- A lexeme that does not fit. -/
  | unexpectedLexeme (found : Lexeme.Kind) (expected : Expectation) (span : Span)
  /-- The grammar ends early. -/
  | unexpectedEnd (expected : Expectation) (span : Span)
  /-- A `[` that nothing closes. -/
  | unclosedBracket (span : Span)
  /-- A `]` without an operator; the span is empty, right after the bracket. -/
  | missingOperator (span : Span)
  /-- A group or an alternative with nothing in it. -/
  | emptyAlternative (span : Span)
  /-- Brackets nested more deeply than `limit`; the span is that of the first `[` too many. -/
  | nestingTooDeep (limit : Nat) (span : Span)
  /-- An end rule inside a group. -/
  | nestedFinish
  /-- A rule after the end rule. -/
  | ruleAfterFinish (rule : Rule)
  /-- A name that no argument has. -/
  | undeclaredArgument (name : String) (span : Span)
  /-- A name that two arguments have. -/
  | duplicateArgument (name : String)
  /-- A second parent for a node that takes one. -/
  | reparent (label : String)
  /-- A link to or from a node that does not exist. -/
  | noSuchNode (id : Nat)
  /-- A child for the end node. -/
  | childOfFinish
  /-- A second start or end node. -/
  | duplicateSentinel (sentinel : Sentinel)
  deriving DecidableEq, Repr

namespace GrammarError

/-- Where the fault is written in the grammar, if it is written there. -/
def span? : GrammarError → Option Span
  | unexpectedCharacter _ span | malformedConstant span | unexpectedLexeme _ _ span
  | unexpectedEnd _ span | unclosedBracket span | missingOperator span | emptyAlternative span
  | nestingTooDeep _ span | undeclaredArgument _ span => some span
  | nestedFinish | ruleAfterFinish _ | duplicateArgument _ | reparent _ | noSuchNode _
  | childOfFinish | duplicateSentinel _ => none

def message : GrammarError → String
  | unexpectedCharacter c span =>
    "unexpected character '" ++ c.toString ++ "' at position " ++ toString span.start
  | malformedConstant span => "malformed constant at position " ++ toString span.start
  | unexpectedLexeme found expected span =>
    "unexpected " ++ found.describe ++ " at position " ++ toString span.start ++
      ", expected " ++ expected.describe
  | unexpectedEnd expected _ => "unexpected end of grammar, expected " ++ expected.describe
  | unclosedBracket span => "unbalanced '[' at position " ++ toString span.start
  | missingOperator span =>
    "missing group operator after ']' at position " ++ toString span.start ++
      ", expected one of ? * + ! @"
  | emptyAlternative span => "empty group alternative at position " ++ toString span.start
  | nestingTooDeep limit span =>
    "groups nested deeper than " ++ toString limit ++ " levels at position " ++
      toString span.start
  | nestedFinish => "end rule nested inside a group"
  | ruleAfterFinish rule => "rule '" ++ rule.describe ++ "' follows the end rule"
  | undeclaredArgument name _ => "grammar names undeclared argument <" ++ name ++ ">"
  | duplicateArgument name => "duplicate argument name: " ++ name
  | reparent label => "node '" ++ label ++ "' already has a parent"
  | noSuchNode id => "node '#" ++ toString id ++ "' already has a parent"
  | childOfFinish => "the end node cannot have children"
  | duplicateSentinel sentinel => "a parse tree has exactly one " ++ sentinel.label ++ " node"

/-- The grammar with carets under the fault, if it has a place there. -/
def snippet? (e : GrammarError) (source : String) : Option String :=
  e.span?.map (·.snippet source)

/-- The message shown against the grammar, if the fault has a place there. -/
def diagnostic? (e : GrammarError) (source : String) : Option String :=
  e.span?.map (·.diagnostic source e.message)

end GrammarError

end CommandShell
