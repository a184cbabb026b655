import CommandShell.Tree.Shape

/-!
# Trees that are changed in place

A host that makes a tree by hand holds one tree and changes it by calls, which may name nodes that
are not there, and may fail. A call first makes its checks and then its changes, one after the
other: an edge is noted at the node it leaves and then at the node it leads to.

## Main definitions

* `Tree.parents` — where the edges that lead to a node come from
* `Tree.Edit`, `Edit.add`, `Edit.link` — changes in place
* `Tree.Call`, `Tree.after`, `Tree.afterAll` — calls, and the tree that they leave
* `Tree.IsArena` — what is true of a tree however it is used
-/

namespace CommandShell.Tree

/-- The nodes that the edges to a node leave, each as often as it has such edges. -/
def parents (tree : Tree) (id : NodeId) : List NodeId := ((tree.node? id).map Node.parents).getD []

/-! ### Changes in place -/

/-- A change of a tree in place. If it fails on its way then what it has changed so far remains. -/
abbrev Edit := EStateM GrammarError Tree

namespace Edit

/-- Changes the node with an index, if there is one. -/
def node (id : NodeId) (change : Node → Node) : Edit Unit :=
  modify fun tree => { tree with nodes := tree.nodes.modify id change }

/-- Adds a node in place. An end is noted before the node itself is there. -/
def add (kind : NodeKind) (label : String) : Edit NodeId := do
  let tree ← get
  if kind = .start then throw (.duplicateSentinel .start)
  if kind = .finish ∧ tree.finish?.isSome then throw (.duplicateSentinel .finish)
  if kind = .finish then modify fun tree => { tree with finish? := some tree.size }
  modify fun tree => { tree with nodes := tree.nodes.push { kind, label } }
  return tree.size

/-- Adds an edge in place, at one of its ends after the other. -/
def link (parent child : NodeId) (isLoop : Bool) : Edit Unit := do
  let tree ← get
  let some target := tree.node? child | throw (.noSuchNode child)
  if target.kind.isBrowsable ∧ target.parents ≠ [] then throw (.reparent target.label)
  let some source := tree.node? parent | throw (.noSuchNode parent)
  if source.kind = .finish then throw .childOfFinish
  node parent (·.withChild ⟨child, isLoop⟩)
  node child (·.withParent parent)

end Edit

/-! ### Calls -/

/-- What a host asks of a tree. Indices need not be those of nodes. -/
inductive Call
  | add (kind : NodeKind) (label : String)
  | addChild (parent child : NodeId)
  | addLoopChild (parent child : NodeId)
  deriving DecidableEq, Repr

/-- What a call does to a tree. -/
def Call.perform : Call → Edit Unit
  | add kind label => do
    let _ ← Edit.add kind label
    return
  | addChild parent child => Edit.link parent child false
  | addLoopChild parent child => Edit.link parent child true

/-- The tree after a call, which may have failed. -/
def after (tree : Tree) (call : Call) : Tree :=
  match call.perform.run tree with
  | .ok _ next | .error _ next => next

/-- The tree after calls, one after the other. -/
def afterAll (tree : Tree) (calls : List Call) : Tree := calls.foldl after tree

/-! ### Invariants -/

/-- What is true of a tree however it is used. -/
structure IsArena (tree : Tree) : Prop where
  /-- The root is the only start. -/
  start_iff : ∀ id, tree.KindAt id .start ↔ id = root
  /-- The tree notes its end, and no other node is one. -/
  finish_iff : ∀ id, tree.KindAt id .finish ↔ tree.finish? = some id
  /-- Edges lead to nodes. -/
  target_lt : ∀ id, ∀ target ∈ tree.targets id, target < tree.size
  /-- Edges leave nodes. -/
  parent_lt : ∀ id, ∀ parent ∈ tree.parents id, parent < tree.size
  /-- Both ends of an edge know of it, as often as there is one. -/
  count_eq : ∀ parent child, (tree.targets parent).count child = (tree.parents child).count parent
  /-- A node that takes a token hangs under one node at most. -/
  length_parents_le : ∀ id kind, tree.KindAt id kind → kind.isBrowsable = true →
    (tree.parents id).length ≤ 1
  /-- Nothing comes behind the end. -/
  children_finish : ∀ id, tree.KindAt id .finish → tree.children id = []

end CommandShell.Tree
