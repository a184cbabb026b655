import CommandShell.Tree.Basic
import Mathlib.Logic.Relation

/-!
# Shapes of trees

What a parse tree looks like when it is complete. Apart from the edges that lead from loops back to
the beginning of their groups, it is a directed graph without cycles that begins in its start node
and ends in its end node.

## Main definitions

* `Tree.KindAt` — the kind of a node
* `Tree.PlainEdge`, `Tree.PlainPath`, `Tree.Acyclic` — edges that do not lead back, and their paths
* `Tree.IsClosedLoop` — a loop with both of its edges
* `Tree.IsShaped` — a complete tree
-/

namespace CommandShell.Tree

/-- There is a node with this index, and it is of this kind. -/
def KindAt (tree : Tree) (id : NodeId) (kind : NodeKind) : Prop :=
  (tree.node? id).map Node.kind = some kind

/-- An edge leads from `a` to `b`, and it is not marked as one that leads back. -/
def PlainEdge (tree : Tree) (a b : NodeId) : Prop := b ∈ tree.plainTargets a

/-- A path of no edge or more leads from `a` to `b`, and none of its edges leads back. -/
def PlainPath (tree : Tree) : NodeId → NodeId → Prop := Relation.ReflTransGen tree.PlainEdge

/-- No path of at least one edge returns to where it begins, unless an edge leads back. -/
def Acyclic (tree : Tree) : Prop := ∀ id, ¬ Relation.TransGen tree.PlainEdge id id

/-- Two edges leave the node: one that goes on to a hook, and one back to a hook from which the node
can be reached. -/
def IsClosedLoop (tree : Tree) (id : NodeId) : Prop :=
  ∃ stop start, tree.children id = [⟨stop, false⟩, ⟨start, true⟩] ∧ tree.KindAt stop .hook ∧
    tree.KindAt start .hook ∧ tree.PlainPath start id

/-- What a complete tree looks like. -/
structure IsShaped (tree : Tree) : Prop where
  /-- The root is the only start. -/
  start_iff : ∀ id, tree.KindAt id .start ↔ id = root
  /-- There is one end, and it can be reached from every node. -/
  exists_finish : ∃ stop, (∀ id, tree.KindAt id .finish ↔ id = stop) ∧
    ∀ id < tree.size, tree.PlainPath id stop
  /-- Every node can be reached from the root. -/
  path_from_root : ∀ id < tree.size, tree.PlainPath root id
  /-- No path goes around, unless an edge leads back. -/
  acyclic : tree.Acyclic
  /-- Every loop goes on and leads back. -/
  loops_closed : ∀ id, tree.KindAt id .loop → tree.IsClosedLoop id
  /-- Nothing but a loop leads back. -/
  loop_of_isLoop : ∀ id, ∀ edge ∈ tree.children id, edge.isLoop = true → tree.KindAt id .loop
  /-- The only child of a flag is the value of the same argument. -/
  flag_children : ∀ id arg, tree.KindAt id (.flag arg) →
    ∃ value, tree.children id = [⟨value, false⟩] ∧ tree.KindAt value (.freeForm arg)

end CommandShell.Tree
