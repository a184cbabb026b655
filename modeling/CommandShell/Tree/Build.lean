import CommandShell.Tree.Basic

/-!
# Building parse trees

A rule list is built into a tree rule by rule: each rule hangs off the node that the previous one
ended in. A group begins in a hook and ends in a hook, and its alternatives run side by side
between the two; if it repeats, they meet in a loop first, from which an edge leads back to the
beginning. If it may be left out, an edge leads around it.

## Main definitions

* `Tree.hang` — a new node under a parent
* `Tree.Bracket`, `Tree.openGroup`, `Tree.closeGroup` — the joints and the edges of a group
* `Tree.attach`, `Tree.attachAll` — a rule under a node, and the alternatives of a group
* `Tree.build` — the tree of a rule list
-/

namespace CommandShell.Tree

/-- A new node under the node `tail`. -/
def hang (tree : Tree) (tail : NodeId) (kind : NodeKind) (label : String) :
    Except GrammarError (Tree × NodeId) := do
  let (tree, id) ← tree.add kind label
  let tree ← tree.addChild tail id
  return (tree, id)

/-- The argument that a rule names. -/
def argumentOf (args : ArgumentSet) (rule : Rule) : Except GrammarError ArgId :=
  match args.idOf? rule.lookupName with
  | some id => .ok id
  | none => .error (.undeclaredArgument rule.lookupName rule.span)

/-- Hangs a rule that is no group off the node `tail`; the result is the node in which the rule
ends. Only top-level rules may end the line. -/
def attachLeaf (args : ArgumentSet) (tree : Tree) (tail : NodeId) (rule : Rule) (nested : Bool) :
    Except GrammarError (Tree × NodeId) := do
  let name := rule.lookupName
  match rule.kind with
  | .finish =>
    if nested then throw .nestedFinish
    tree.hang tail .finish Sentinel.finish.label
  | .required => tree.hang tail (.argument (← argumentOf args rule)) name
  | .freeForm => tree.hang tail (.freeForm (← argumentOf args rule)) name
  | .named =>
    -- The value hangs off the flag alone, so that nothing else can come after the flag.
    let id ← argumentOf args rule
    let (tree, flag) ← tree.hang tail (.flag id) name
    tree.hang flag (.freeForm id) name
  | .constant => tree.hang tail (.constant name (args.idOf? name)) name
  | .group _ => throw (.emptyAlternative rule.span)

/-- The nodes at the two ends of a group: its alternatives begin in `start`, meet in `join`, and
what follows the group hangs off `stop`. -/
structure Bracket where
  start : NodeId
  join : NodeId
  stop : NodeId

/-- The nodes of a new group under the node `tail`. -/
def openGroup (tree : Tree) (tail : NodeId) (op : GroupOp) :
    Except GrammarError (Tree × Bracket) := do
  let (tree, start) ← tree.hang tail .hook "hook"
  if op.isRepeatable then
    let (tree, loop) ← tree.add .loop "loop"
    let (tree, stop) ← tree.add .hook "hook"
    return (tree, ⟨start, loop, stop⟩)
  else
    let (tree, stop) ← tree.add .hook "hook"
    return (tree, ⟨start, stop, stop⟩)

/-- The edges of a group once its alternatives are built: from the loop on and back, and around
the group. -/
def closeGroup (tree : Tree) (bracket : Bracket) (op : GroupOp) : Except GrammarError Tree := do
  let tree ←
    if op.isRepeatable then
      (tree.addChild bracket.join bracket.stop).bind (·.addLoopChild bracket.join bracket.start)
    else .ok tree
  if op.isOptional then tree.addChild bracket.start bracket.stop else .ok tree

/-- Before a rule of a group: the node that the rule hangs off. A rule at position 0 begins a new
alternative, once the one before it has been led to the joint. -/
def turn (tree : Tree) (bracket : Bracket) (tail : NodeId) (position : Nat) :
    Except GrammarError (Tree × NodeId) :=
  if position = 0 ∧ tail ≠ bracket.start then
    (tree.addChild tail bracket.join).map (·, bracket.start)
  else .ok (tree, tail)

mutual

/-- Hangs a rule off the node `tail`; the result is the node in which the rule ends. -/
def attach (args : ArgumentSet) (tree : Tree) (tail : NodeId) (rule : Rule) (nested : Bool) :
    Except GrammarError (Tree × NodeId) :=
  match rule with
  | .nest (.group op) _ (first :: rest) _ => do
    let (tree, bracket) ← tree.openGroup tail op
    let (tree, last) ← attachAll args tree bracket bracket.start (first :: rest)
    -- `turn` has led all alternatives but the last to the joint.
    let tree ← tree.addChild last bracket.join
    let tree ← tree.closeGroup bracket op
    return (tree, bracket.stop)
  | rule => attachLeaf args tree tail rule nested
termination_by structural rule

/-- Hangs the rules of a group one after the other, the first of them off the node `tail`; the
result is the node in which the last alternative ends. -/
def attachAll (args : ArgumentSet) (tree : Tree) (bracket : Bracket) (tail : NodeId)
    (rules : List Rule) : Except GrammarError (Tree × NodeId) :=
  match rules with
  | [] => .ok (tree, tail)
  | rule :: rules => do
    let (tree, tail) ← tree.turn bracket tail rule.position
    let (tree, tail) ← attach args tree tail rule true
    attachAll args tree bracket tail rules
termination_by structural rules

end

/-- Hangs top-level rules one after the other off the node `tail`. Nothing follows the rule that
ends the line; `ended` says that it has come. -/
def buildFrom (args : ArgumentSet) (tree : Tree) (tail : NodeId) (ended : Bool) :
    List Rule → Except GrammarError Tree
  | [] => .ok tree
  | rule :: rules => do
    if ended then throw (.ruleAfterFinish rule)
    let (tree, tail) ← attach args tree tail rule false
    buildFrom args tree tail (rule.kind == .finish) rules

/-- The tree of a rule list. Every name in it but those of constants has to be declared. -/
def build (args : ArgumentSet) (rules : List Rule) : Except GrammarError Tree :=
  buildFrom args initial root false rules

end CommandShell.Tree
