import CommandShell.Tree.Basic

/-!
# Frontiers

The frontier of a node holds what can come next after it: the nodes that take a token and can be
reached through nodes that take none, and whether the end can be reached in the same way. Nodes
are found depth first, in the order of the edges, each once.

## Main definitions

* `Frontier` — the nodes that can come next, and whether the line may end
* `Tree.explore` — depth-first exploration from a list of nodes
* `Tree.frontier` — the frontier of a node
-/

namespace CommandShell

/-- What can come after a node. -/
structure Frontier where
  nodes : List NodeId
  reachesFinish : Bool
  deriving DecidableEq, Repr

namespace Tree

variable {ids : List NodeId} {id : NodeId}

/-- How many edges leave the nodes of a list. -/
def edgeCount (tree : Tree) : List NodeId → Nat
  | [] => 0
  | id :: ids => (tree.targets id).length + tree.edgeCount ids

/-- The edges of a node that is struck off a list no longer count. -/
theorem edgeCount_erase_add (tree : Tree) (h : id ∈ ids) :
    tree.edgeCount (ids.erase id) + (tree.targets id).length = tree.edgeCount ids := by
  induction ids with
  | nil => cases h
  | cons first rest ih =>
    by_cases hfirst : first = id
    · subst hfirst
      rw [List.erase_cons_head, edgeCount, Nat.add_comm]
    · have hrest := ih ((List.mem_cons.mp h).resolve_left (Ne.symm hfirst))
      rw [List.erase_cons_tail (by simpa using hfirst), edgeCount, edgeCount]
      omega

/-- The frontier met from the nodes in `pending`, one after the other and each with everything
behind it before the next, if only the nodes in `unseen` have not been met yet. -/
def explore (tree : Tree) (unseen pending : List NodeId) : Frontier :=
  match pending with
  | [] => ⟨[], false⟩
  | id :: pending =>
    if _h : id ∈ unseen then
      match (tree.node? id).map Node.kind with
      | none => tree.explore (unseen.erase id) pending
      | some .finish => { tree.explore (unseen.erase id) pending with reachesFinish := true }
      | some kind =>
        -- A joint is looked through; a node that takes a token hides what lies behind it.
        if kind.isStructural then tree.explore (unseen.erase id) (tree.targets id ++ pending)
        else
          let rest := tree.explore (unseen.erase id) pending
          { rest with nodes := id :: rest.nodes }
    else tree.explore unseen pending
-- Each step takes a pending node; an unseen one may add its children, once.
termination_by pending.length + tree.edgeCount unseen
decreasing_by
  all_goals simp only [List.length_cons, List.length_append]
  all_goals
    first
    | omega
    | have hcount := edgeCount_erase_add tree _h
      omega

/-- What can come after a node. The node itself is among it if an edge leads back to it. -/
def frontier (tree : Tree) (id : NodeId) : Frontier :=
  tree.explore (List.range tree.size) (tree.targets id)

end Tree

end CommandShell
