import CommandShell.Tree.Shape

/-!
# Sketches

What an outline shows, told without drawing it. A sketch is a forest: below a node of a tree stand
the nodes that its plain edges lead to, and a node that stands further up already has nothing below
it. The rows of a sketch are the lines of the outline, and each line is written out here.

## Main definitions

* `Sketch` — the nodes of an outline, with what stands below them
* `Row`, `Sketch.rows` — the lines of an outline
* `NodeKind.written`, `Row.text` — how a node and its line are written
* `Sketch.Follows` — below every expanded node stand its children
* `Sketch.Outlines` — the sketch shows every node of a tree once
-/

namespace CommandShell

/-- A line of an outline: a node at a depth, with its children below it or with dots. -/
structure Row where
  depth : Nat
  id : NodeId
  isExpanded : Bool
  deriving DecidableEq, Repr

/-- How a node shows its label: a flag with a dash in front, a constant in angle brackets, a
free-form value with a star behind it, and any other node as it is. -/
def NodeKind.written (kind : NodeKind) (label : List Char) : List Char :=
  match kind with
  | .flag _ => '-' :: label
  | .constant .. => '<' :: (label ++ ['>'])
  | .freeForm _ => label ++ ['*']
  | .start | .finish | .hook | .loop | .argument _ => label

/-- The line of a row: two blanks for each step down from the root, then the node, and dots behind
it if it was met before. -/
def Row.text (tree : Tree) (row : Row) : String :=
  match tree.node? row.id with
  | none => ""
  | some node =>
    .ofList (List.replicate (2 * row.depth) ' ' ++ node.kind.written node.label.toList ++
      if row.isExpanded then [] else [' ', '.', '.', '.'])

/-- The nodes that an outline shows side by side, with what stands below them. -/
inductive Sketch
  /-- Nothing more stands here. -/
  | done
  /-- A node with its children below it, and what stands behind it. -/
  | expanded (id : NodeId) (below next : Sketch)
  /-- A node that was met before, and what stands behind it. -/
  | again (id : NodeId) (next : Sketch)
  deriving DecidableEq, Repr

namespace Sketch

/-- The nodes that stand side by side. -/
def roots : Sketch → List NodeId
  | done => []
  | expanded id _ next | again id next => id :: next.roots

/-- The rows of a sketch at a depth, from the first to the last. -/
def rows (depth : Nat) : Sketch → List Row
  | done => []
  | expanded id below next => ⟨depth, id, true⟩ :: (below.rows (depth + 1) ++ next.rows depth)
  | again id next => ⟨depth, id, false⟩ :: next.rows depth

/-- Below every expanded node stand the nodes that its plain edges lead to, in their order. -/
def Follows (tree : Tree) : Sketch → Prop
  | done => True
  | expanded id below next =>
    below.roots = tree.plainTargets id ∧ below.Follows tree ∧ next.Follows tree
  | again _ next => next.Follows tree

/-- The sketch shows what can be reached from the root of a tree, and expands each node once. -/
structure Outlines (tree : Tree) (sketch : Sketch) : Prop where
  /-- Nothing stands beside the root. -/
  roots_eq : sketch.roots = [Tree.root]
  /-- Below every expanded node stand its children. -/
  follows : sketch.Follows tree
  /-- Every node that can be reached is expanded in one row. -/
  countP_expanded : ∀ id, tree.PlainPath Tree.root id →
    (sketch.rows 0).countP (fun row => row.isExpanded && row.id == id) = 1
  /-- No other node has a row. -/
  reached : ∀ row ∈ sketch.rows 0, tree.PlainPath Tree.root row.id
  /-- A node is expanded in the first of its rows, so whoever meets it again has met it before. -/
  isExpanded_first : ∀ id row, (sketch.rows 0).find? (·.id == id) = some row →
    row.isExpanded = true

end Sketch

end CommandShell
