import CommandShell.Grammar.Parser
import CommandShell.Matching.Completion
import CommandShell.Tree.Build

/-!
# Signatures

What a command takes: a grammar, the arguments it names, and the tree that both make up. A
signature is built once and then matches and completes lines.

## Main definitions

* `Signature` — a grammar with its arguments and its tree
* `Signature.ofSource` — the signature that a grammar's text writes
* `Signature.positional` — the signature of a command that has no grammar of its own
* `Signature.bind`, `Signature.suggest` — matching and completing the tokens after the command name
-/

namespace CommandShell

/-- A grammar with the arguments it names and the tree of its rules. -/
structure Signature where
  grammar : Grammar
  args : ArgumentSet
  tree : Tree
  tree_eq : Tree.build args grammar.rules = .ok tree

namespace Signature

/-- The signature of a grammar over the arguments. -/
def ofGrammar (grammar : Grammar) (args : ArgumentSet) : Except GrammarError Signature :=
  match h : Tree.build args grammar.rules with
  | .ok tree => .ok ⟨grammar, args, tree, h⟩
  | .error e => .error e

/-- The signature of the grammar that a text writes, if its brackets nest no deeper than `limit`. -/
def ofSource (source : String) (args : ArgumentSet) (limit : Nat) :
    Except GrammarError Signature :=
  (Grammar.parse source limit).bind (ofGrammar · args)

/-- A command without a grammar: all its arguments are positional, in order of declaration. -/
def positional (command : String) (args : ArgumentSet) : Except GrammarError Signature :=
  ofGrammar (.ofNames command args.names) args

/-- The matcher of a signature. -/
def matcher (signature : Signature) : Matcher :=
  ⟨signature.tree, signature.args, signature.grammar.minimumArguments⟩

/-- The bindings of the tokens after the command name. -/
def bind (signature : Signature) (tokens : List Token) : Except MatchError Bindings :=
  signature.matcher.bind tokens

/-- What can come after the finished tokens after the command name. -/
def suggest (signature : Signature) (tokens : List Token) (typed : String)
    (context : CompletionContext) : Suggestions :=
  signature.matcher.suggest tokens typed context

end Signature

end CommandShell
