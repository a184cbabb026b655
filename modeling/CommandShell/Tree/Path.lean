import CommandShell.Tree.Basic

/-!
# Paths through joints

A path along the edges of a tree that takes no token on its way: all nodes between its two ends are
joints. What can come next after a node lies at the end of such a path from it.

## Main definitions

* `NodeKind.isJoint` — the start, a hook or a loop
* `Tree.Leads` — a path through joints, of at least one edge
* `Tree.meets`, `Tree.meetsBehind` — what lies at the ends of all such paths, in the order of the
  edges
-/

namespace CommandShell

/-- The node joins branches and is not the end. -/
def NodeKind.isJoint : NodeKind → Bool
  | start | hook | loop => true
  | finish | argument _ | constant .. | freeForm _ | flag _ => false

theorem NodeKind.isJoint_iff {kind : NodeKind} :
    kind.isJoint = true ↔ kind.isStructural = true ∧ kind ≠ .finish := by
  cases kind <;> simp [isJoint, isStructural]

namespace Tree

variable {tree : Tree} {a b c : NodeId}

/-- There is a node with this index, and it is a joint. -/
def IsJointAt (tree : Tree) (id : NodeId) : Prop :=
  ∃ node, tree.node? id = some node ∧ node.kind.isJoint = true

/-- A path of at least one edge leads from `a` to `b`, and all nodes between the two are joints. -/
inductive Leads (tree : Tree) : NodeId → NodeId → Prop
  /-- An edge. -/
  | edge {a b : NodeId} (h : b ∈ tree.targets a) : Leads tree a b
  /-- An edge to a joint, and a path from there. -/
  | through {a b c : NodeId} (h : b ∈ tree.targets a) (joint : tree.IsJointAt b)
      (rest : Leads tree b c) : Leads tree a c

/-- A path begins with an edge: to its end, or to a joint from which it goes on. -/
theorem leads_iff :
    tree.Leads a c ↔
      c ∈ tree.targets a ∨ ∃ b ∈ tree.targets a, tree.IsJointAt b ∧ tree.Leads b c := by
  constructor
  · rintro (h | ⟨h, joint, rest⟩)
    · exact .inl h
    · exact .inr ⟨_, h, joint, rest⟩
  · rintro (h | ⟨b, h, joint, rest⟩)
    · exact .edge h
    · exact .through h joint rest

/-! ### All paths, in order -/

/-- There is a node with this index, and it is a joint. -/
def isJoint (tree : Tree) (id : NodeId) : Bool := (tree.node? id).any (·.kind.isJoint)

theorem isJoint_iff : tree.isJoint a = true ↔ tree.IsJointAt a := by
  simp [isJoint, IsJointAt, Option.any_eq_true]

/-- There is a node with this index, and it takes a token. -/
def takesToken (tree : Tree) (id : NodeId) : Bool := (tree.node? id).any (·.kind.isBrowsable)

/-- Depth-first exploration from a node along every path, the edges of a joint in their order: the
nodes that are no joints, once for each path that ends in them. A path comes to no node twice, and
only to those in `fresh`; what is met on one path is not struck off for the next. -/
def meets (tree : Tree) (fresh : List NodeId) (id : NodeId) : List NodeId :=
  if _h : id ∈ fresh then
    if tree.isJoint id then (tree.targets id).flatMap fun next => tree.meets (fresh.erase id) next
    else [id]
  else []
termination_by fresh.length
decreasing_by exact length_erase_lt _h

/-- What depth-first exploration meets behind a node, to which a path may come back. -/
def meetsBehind (tree : Tree) (id : NodeId) : List NodeId :=
  (tree.targets id).flatMap (tree.meets (List.range tree.size))

end Tree

end CommandShell
