import CommandShell.Argument.Bindings
import CommandShell.Matching.Error
import CommandShell.Matching.Shape
import CommandShell.Tree.Frontier

/-!
# Matching tokens against a tree

Tokens move through a parse tree one after the other. At each step the first node of the frontier
that accepts the token takes it, and no choice is taken back. A step may bind a value: the token,
or the part of it after `name=`.

## Main definitions

* `Matcher` — a tree, the arguments that its nodes refer to, and the least number of tokens
* `Matcher.accept?`, `Matcher.select?` — the step of a token to a node, and to the first node that
  accepts it
* `Matcher.advance`, `Matcher.run` — one token, and all tokens, with their values bound
* `Matcher.bind` — the bindings of a whole line
* `Matcher.walk` — the node that the tokens of a line lead to, with nothing bound
-/

namespace CommandShell

/-- A tree, the arguments that its nodes refer to, and the fewest tokens worth matching. -/
structure Matcher where
  tree : Tree
  args : ArgumentSet
  minimum : Nat

/-- What an accepted token does: the node it leads to, and the argument it binds with the raw text
of the value. -/
structure Step where
  node : NodeId
  bound : Option (ArgId × String)
  deriving DecidableEq, Repr

namespace Matcher

/-- The name of an argument; an argument outside the set has the empty name. -/
def argName (matcher : Matcher) (id : ArgId) : String :=
  ((matcher.args.get? id).map Argument.name).getD ""

/-- What a token does at a node, if the node accepts it. A flag takes `-name` and waits for its
value, or takes `name=value` together with it. -/
def accept? (matcher : Matcher) (id : NodeId) (token : String) : Option Step :=
  match (matcher.tree.node? id).map Node.kind, Shape.of token with
  | some (.argument arg), .assignment name value =>
    some ⟨id, some (arg, if name = matcher.argName arg then value else token)⟩
  -- Any other token is taken as it is; a free-form value keeps even its own `name=`.
  | some (.argument arg), _ | some (.freeForm arg), _ => some ⟨id, some (arg, token)⟩
  | some (.constant literal arg), _ =>
    if literal = token then some ⟨id, arg.map (·, token)⟩ else none
  | some (.flag arg), .flag name =>
    if name = matcher.argName arg then some ⟨id, none⟩ else none
  | some (.flag arg), .assignment name value =>
    -- The step goes on to the value node, which has had its token.
    if name = matcher.argName arg then
      (matcher.tree.valueOf? id).map fun node => ⟨node, some (arg, value)⟩
    else none
  | _, _ => none

/-- What a token does at the first node of a frontier that accepts it. -/
def select? (matcher : Matcher) (frontier : Frontier) (token : String) : Option Step :=
  frontier.nodes.findSome? (matcher.accept? · token)

/-- The error for a token that no node of a frontier accepts. -/
def reject (frontier : Frontier) (token : Token) : MatchError :=
  if frontier.reachesFinish ∧ Shape.of token.value = .bare then .tooManyArguments token
  else .unknownArgument token

/-- The value of a raw text for an argument; an argument outside the set takes any text. -/
def convert (matcher : Matcher) (id : ArgId) (raw : String) (span : Span) :
    Except MatchError Value :=
  match matcher.args.get? id with
  | none => .ok (.str raw)
  | some arg =>
    match arg.type.convert raw with
    | .ok value => .ok value
    | .error reason => .error (.conversion arg.name raw reason span)

/-- The bindings after a step of a token with the given span. -/
def record (matcher : Matcher) (bindings : Bindings) (step : Step) (span : Span) :
    Except MatchError Bindings :=
  match step.bound with
  | none => .ok bindings
  | some (id, raw) => (matcher.convert id raw span).map (bindings.bind id)

/-- Where a match stands: the last node, and the values bound so far. -/
structure Position where
  node : NodeId
  bindings : Bindings

/-- The position before the first token. -/
def initial (matcher : Matcher) : Position := ⟨Tree.root, matcher.args.index⟩

def advance (matcher : Matcher) (position : Position) (token : Token) :
    Except MatchError Position :=
  let frontier := matcher.tree.frontier position.node
  match matcher.select? frontier token.value with
  | none => .error (reject frontier token)
  | some step =>
    (matcher.record position.bindings step token.span).map fun bindings => ⟨step.node, bindings⟩

def run (matcher : Matcher) (position : Position) (tokens : List Token) :
    Except MatchError Position :=
  tokens.foldlM matcher.advance position

/-- The labels of what could come next, each once. -/
def expected (matcher : Matcher) (frontier : Frontier) : List String :=
  (frontier.nodes.filterMap fun id => (matcher.tree.node? id).map Node.label).eraseDups

/-- The bindings at the end of a line. The end has to be in reach, and no argument may be without
a value. -/
def close (matcher : Matcher) (position : Position) : Except MatchError Bindings :=
  let frontier := matcher.tree.frontier position.node
  if frontier.reachesFinish then
    match position.bindings.firstUnbound? with
    | some arg => .error (.unbound arg.name)
    | none => .ok position.bindings
  else .error (.endsEarly (matcher.expected frontier))

/-- The bindings of the tokens of a whole line, which do not include the command name. -/
def bind (matcher : Matcher) (tokens : List Token) : Except MatchError Bindings :=
  if tokens.length < matcher.minimum then
    .error (.tooFewArguments matcher.minimum tokens.length)
  else (matcher.run matcher.initial tokens).bind matcher.close

/-- The last node that the tokens lead to from a node, up to the first token that nothing
accepts. -/
def walkFrom (matcher : Matcher) (node : NodeId) : List Token → NodeId
  | [] => node
  | token :: tokens =>
    match matcher.select? (matcher.tree.frontier node) token.value with
    | some step => matcher.walkFrom step.node tokens
    | none => node

/-- The last node that the tokens of a line lead to. -/
def walk (matcher : Matcher) (tokens : List Token) : NodeId := matcher.walkFrom Tree.root tokens

end Matcher

end CommandShell
