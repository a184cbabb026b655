import CommandShell.Matching.Basic

/-!
# Completion

What can be typed next in a line: a help text for every node that can come next, and the texts
that they offer for the token being typed. Completion walks the tree as matching does and binds
nothing.

## Main definitions

* `Suggestions` — help texts and candidates, with `Suggestions.toolbar`
* `Matcher.offer?` — what one node suggests
* `Matcher.suggest` — what can come after the finished tokens of a line
-/

namespace CommandShell

/-- Help texts for what can come next, and candidates for the token being typed, each once. -/
structure Suggestions where
  help : List String
  candidates : List String
  deriving DecidableEq, Repr

/-- The help texts on one line. -/
def Suggestions.toolbar (suggestions : Suggestions) (separator : String) : String :=
  separator.intercalate suggestions.help

namespace Matcher

/-- The help text of a node and its candidates for what is typed. A node that refers to no
argument has nothing to suggest, unless it is a flag or a constant. -/
def offer? (matcher : Matcher) (context : CompletionContext) (typed : String) (id : NodeId) :
    Option (String × List String) :=
  (matcher.tree.node? id).bind fun node =>
    match node.kind with
    | .flag _ =>
      let text := "-" ++ node.label
      some (text, [text].filter (Text.begins typed))
    | .constant literal _ => some ("<" ++ literal ++ ">", [literal].filter (Text.begins typed))
    | kind =>
      (kind.arg?.bind matcher.args.get?).map fun arg =>
        (arg.name ++ ": " ++ arg.help typed, (arg.type.complete? context typed).getD [])

/-- What can come after the finished tokens of a line, for the token being typed. -/
def suggest (matcher : Matcher) (tokens : List Token) (typed : String)
    (context : CompletionContext) : Suggestions :=
  let frontier := matcher.tree.frontier (matcher.walk tokens)
  let offers := frontier.nodes.filterMap (matcher.offer? context typed)
  ⟨offers.map Prod.fst, (offers.flatMap Prod.snd).eraseDups⟩

end Matcher

end CommandShell
