import CommandShell.Argument.Basic

/-!
# Parse trees

The nodes of a parse tree live in an array and refer to each other by index. Nodes that take a
token (arguments, constants, free-form values and flags) hang under one parent; start, end, hooks
and loops take none and only join branches, so they can have several parents. The edge from a loop
back to the start of its group is marked.

## Main definitions

* `NodeKind`, `Edge`, `Node`, `Tree` — nodes, edges and trees
* `Tree.root`, `Tree.initial` — the start node, and the tree that holds nothing else
* `Tree.add`, `Tree.link` — a further node, and an edge between two nodes
* `Tree.valueOf?` — the value node after a flag

## Main results

* `Tree.size_of_add` — a node that is added takes the next index
-/

namespace CommandShell

/-- The index of a node in its tree. -/
abbrev NodeId := Nat

/-- What a node takes from a line. -/
inductive NodeKind
  /-- The root. -/
  | start
  /-- The end of the line; it has no children. -/
  | finish
  /-- A joint of alternatives. -/
  | hook
  /-- A joint from which the group can begin again. -/
  | loop
  /-- A positional argument: any token. -/
  | argument (id : ArgId)
  /-- The literal itself, which is also the value of an argument of that name. -/
  | constant (literal : String) (id : Option ArgId)
  /-- The value of an argument: any token. -/
  | freeForm (id : ArgId)
  /-- `-name`, with the value node as its only child. -/
  | flag (id : ArgId)
  deriving DecidableEq, Repr

namespace NodeKind

/-- The node only joins branches and takes no token. -/
def isStructural : NodeKind → Bool
  | start | finish | hook | loop => true
  | argument _ | constant .. | freeForm _ | flag _ => false

/-- The node takes a token and shows up in completions. -/
def isBrowsable (kind : NodeKind) : Bool := !kind.isStructural

/-- The argument that the node binds or announces. -/
def arg? : NodeKind → Option ArgId
  | argument id | freeForm id | flag id => some id
  | constant _ id => id
  | start | finish | hook | loop => none

end NodeKind

/-- An edge to a node, marked if it leads back from a loop to the start of its group. -/
structure Edge where
  target : NodeId
  isLoop : Bool
  deriving DecidableEq, Repr

/-- A node with its label, its parents and its outgoing edges. -/
structure Node where
  kind : NodeKind
  label : String
  parents : List NodeId := []
  children : List Edge := []
  deriving DecidableEq, Repr

def Node.withChild (node : Node) (edge : Edge) : Node :=
  { node with children := node.children ++ [edge] }

def Node.withParent (node : Node) (parent : NodeId) : Node :=
  { node with parents := node.parents ++ [parent] }

/-- The nodes of a parse tree, and which of them is the end. -/
structure Tree where
  nodes : Array Node
  finish? : Option NodeId
  deriving DecidableEq, Repr

namespace Tree

/-- The start node. -/
def root : NodeId := 0

/-- The tree that holds only its start node. -/
def initial : Tree := ⟨#[{ kind := .start, label := Sentinel.start.label }], none⟩

def size (tree : Tree) : Nat := tree.nodes.size

/-- The node with an index. -/
def node? (tree : Tree) (id : NodeId) : Option Node := tree.nodes[id]?

/-- The edges that leave a node. -/
def children (tree : Tree) (id : NodeId) : List Edge := ((tree.node? id).map Node.children).getD []

/-- The tree with one more node, which nothing links to yet, and the index of that node. A tree has
one start node and at most one end. -/
def add (tree : Tree) (kind : NodeKind) (label : String) : Except GrammarError (Tree × NodeId) :=
  let id := tree.size
  let nodes := tree.nodes.push { kind, label }
  match kind, tree.finish? with
  | .start, _ => .error (.duplicateSentinel .start)
  | .finish, some _ => .error (.duplicateSentinel .finish)
  | .finish, none => .ok (⟨nodes, some id⟩, id)
  | _, finish? => .ok (⟨nodes, finish?⟩, id)

/-- The tree with an edge that leaves `parent`, noted at both of its ends. -/
def connect (tree : Tree) (parent : NodeId) (edge : Edge) : Tree where
  nodes :=
    (tree.nodes.modify parent (·.withChild edge)).modify edge.target (·.withParent parent)
  finish? := tree.finish?

/-- The tree with an edge from `parent` to `child`. A node that takes a token has one parent, and
the end has no children. -/
def link (tree : Tree) (parent child : NodeId) (isLoop : Bool) : Except GrammarError Tree :=
  -- Of several faults, the first in this order is reported.
  match tree.node? child with
  | none => .error (.noSuchNode child)
  | some target =>
    if target.kind.isBrowsable ∧ target.parents ≠ [] then .error (.reparent target.label)
    else
      match tree.node? parent with
      | none => .error (.noSuchNode parent)
      | some source =>
        if source.kind = .finish then .error .childOfFinish
        else .ok (tree.connect parent ⟨child, isLoop⟩)

/-- The tree with a plain edge from `parent` to `child`. -/
def addChild (tree : Tree) (parent child : NodeId) : Except GrammarError Tree :=
  tree.link parent child false

/-- The tree with an edge from the loop `parent` back to `child`. -/
def addLoopChild (tree : Tree) (parent child : NodeId) : Except GrammarError Tree :=
  tree.link parent child true

/-- The value node that follows a flag. -/
def valueOf? (tree : Tree) (id : NodeId) : Option NodeId :=
  (tree.node? id).bind fun node =>
    match node.kind with
    | .flag _ => node.children.head?.map Edge.target
    | _ => none

/-- The indices that the edges of a node lead to. -/
def targets (tree : Tree) (id : NodeId) : List NodeId := (tree.children id).map Edge.target

/-- The indices that the plain edges of a node lead to. -/
def plainTargets (tree : Tree) (id : NodeId) : List NodeId :=
  ((tree.children id).filter (!·.isLoop)).map Edge.target

/-- A traversal that strikes a node off its list of open nodes has fewer of them left. -/
theorem length_erase_lt {ids : List NodeId} {id : NodeId} (h : id ∈ ids) :
    (ids.erase id).length < ids.length := by
  rw [List.length_erase_of_mem h]
  exact Nat.sub_one_lt (Nat.ne_of_gt (List.length_pos_of_mem h))

theorem size_of_add {tree tree' : Tree} {kind : NodeKind} {label : String} {id : NodeId}
    (h : tree.add kind label = .ok (tree', id)) : id = tree.size ∧ tree'.size = tree.size + 1 := by
  unfold add at h
  split at h <;> cases h <;> simp [size]

end Tree

end CommandShell
