import CommandShell.Tree.Basic

/-!
# Outlines of trees

An outline writes one node per line, with its children indented below it. Edges back from a loop
are left out, and a node met again is written once more with dots in place of its children.

## Main definitions

* `Node.caption` — how a node is written
* `Tree.outlineLines`, `Tree.outline` — the lines of a tree, and its outline
-/

namespace CommandShell

/-- How an outline writes a node. -/
def Node.caption (node : Node) : String :=
  match node.kind with
  | .flag _ => "-" ++ node.label
  | .constant .. => "<" ++ node.label ++ ">"
  | .freeForm _ => node.label ++ "*"
  | .start | .finish | .hook | .loop | .argument _ => node.label

namespace Tree

/-- A line at a depth below the root. -/
def outlineLine (depth : Nat) (text : String) : String :=
  .ofList (List.replicate (2 * depth) ' ') ++ text

/-- The lines of the nodes in `pending` with their depths, each with everything below it before
the next, if only the nodes in `unseen` have not been written yet. -/
def outlineLines (tree : Tree) (unseen : List NodeId) (pending : List (Nat × NodeId)) :
    List String :=
  match pending with
  | [] => []
  | (depth, id) :: pending =>
    match tree.node? id with
    | none => tree.outlineLines unseen pending
    | some node =>
      if _h : id ∈ unseen then
        outlineLine depth node.caption ::
          tree.outlineLines (unseen.erase id)
            ((tree.plainTargets id).map (depth + 1, ·) ++ pending)
      else outlineLine depth (node.caption ++ " ...") :: tree.outlineLines unseen pending
termination_by (unseen.length, pending.length)
decreasing_by
  · exact .right _ (Nat.lt_succ_self _)
  · exact .left _ _ (length_erase_lt _h)
  · exact .right _ (Nat.lt_succ_self _)

/-- The outline of a tree from its root; every line ends in a line feed. -/
def outline (tree : Tree) : String :=
  String.join ((tree.outlineLines (List.range tree.size) [(0, root)]).map (· ++ "\n"))

end Tree

end CommandShell
