import CommandShell.Proofs.Tree.Frontier
import CommandShell.Proofs.Tree.Growth

/-!
# Walks through a tree

A walk follows edges and notes the symbols of the nodes that take a token. What a tree reads is what
its walks to the end note: the joints on the way leave no trace.

## Main definitions

* `Symbol.spoken` — what a node adds to the symbols of a walk
* `Tree.Walk` — a path with the symbols on it
* `Tree.IsFinishAt` — the node ends the line

## Main results

* `Walk.mono` — a walk stays one when its tree grows
* `reads_iff_exists_walk` — a tree reads from a node what the walks from there to the end note
-/

namespace CommandShell

/-- What a node adds to the symbols of a walk: its own symbol, if it takes a token. -/
def Symbol.spoken (symbol : Symbol) : List Symbol :=
  if symbol.kind.isBrowsable then [symbol] else []

theorem Symbol.spoken_of_isStructural {symbol : Symbol} (h : symbol.kind.isStructural = true) :
    symbol.spoken = [] := by simp [spoken, NodeKind.isBrowsable, h]

theorem Symbol.spoken_of_isBrowsable {symbol : Symbol} (h : symbol.kind.isBrowsable = true) :
    symbol.spoken = [symbol] := by simp [spoken, h]

namespace Tree

variable {args : ArgumentSet} {tree tree' : Tree} {a b c stop : NodeId} {symbol : Symbol}
  {symbols first rest : List Symbol}

/-- A path of no edge or more leads from `a` to `b`. The symbols are those of the nodes on it that
take a token, `a` itself apart. -/
inductive Walk (tree : Tree) : NodeId → List Symbol → NodeId → Prop
  /-- The path of no edge. -/
  | here (a : NodeId) : Walk tree a [] a
  /-- An edge, and a path from its target. -/
  | step {a b c : NodeId} {symbol : Symbol} {symbols : List Symbol} (h : b ∈ tree.targets a)
      (hsymbol : tree.symbol? b = some symbol) (rest : Walk tree b symbols c) :
      Walk tree a (symbol.spoken ++ symbols) c

theorem Walk.append (h : tree.Walk a first b) (h' : tree.Walk b rest c) :
    tree.Walk a (first ++ rest) c := by
  induction h with
  | here a => exact h'
  | step h hsymbol _ ih =>
    rw [List.append_assoc]
    exact .step h hsymbol (ih h')

/-- A walk stays one when its tree grows. -/
theorem Walk.mono (h : tree.Walk a symbols b) (hext : tree.Extends tree') :
    tree'.Walk a symbols b := by
  induction h with
  | here a => exact .here a
  | step h hsymbol _ ih => exact .step (hext.targets_subset _ h) (hext.symbol?_eq_some hsymbol) ih

theorem walk_of_mem_targets (h : b ∈ tree.targets a) (hsymbol : tree.symbol? b = some symbol) :
    tree.Walk a symbol.spoken b := by
  rw [← List.append_nil symbol.spoken]
  exact .step h hsymbol (.here b)

/-- An edge to a joint notes nothing. -/
theorem walk_nil_of_mem_targets (h : b ∈ tree.targets a) (hsymbol : tree.symbol? b = some symbol)
    (hkind : symbol.kind.isStructural = true) : tree.Walk a [] b := by
  rw [← Symbol.spoken_of_isStructural hkind]
  exact walk_of_mem_targets h hsymbol

/-- A node that is hung under another is one step away from it. -/
theorem walk_hang {kind : NodeKind} {label : String} {tail : NodeId}
    (h : tree.hang tail kind label = .ok (tree', stop)) :
    tree'.Walk tail (Symbol.spoken ⟨kind, label⟩) stop := by
  apply walk_of_mem_targets
  · exact (mem_targets_hang h).mpr (.inr ⟨rfl, id_hang h⟩)
  · rw [symbol?_hang h, if_pos (id_hang h)]

/-! ### Walks to the end -/

/-- The node ends the line. -/
def IsFinishAt (tree : Tree) (id : NodeId) : Prop :=
  ∃ symbol, tree.symbol? id = some symbol ∧ symbol.kind = .finish

theorem symbol?_eq_some_iff :
    tree.symbol? a = some symbol ↔ ∃ node, tree.node? a = some node ∧ node.symbol = symbol :=
  Option.map_eq_some_iff

theorem symbol?_of_node? {node : Node} (h : tree.node? a = some node) :
    tree.symbol? a = some node.symbol := symbol?_eq_some_iff.mpr ⟨node, h, rfl⟩

/-- Joints on the way leave no trace. -/
theorem Leads.walk (h : tree.Leads a b) (hsymbol : tree.symbol? b = some symbol) :
    tree.Walk a symbol.spoken b := by
  induction h with
  | edge h => exact walk_of_mem_targets h hsymbol
  | through h joint _ ih =>
    obtain ⟨node, hnode, hkind⟩ := joint
    have hjoint := (NodeKind.isJoint_iff.mp hkind).1
    exact (walk_nil_of_mem_targets h (symbol?_of_node? hnode) hjoint).append (ih hsymbol)

/-- Nothing is read where the line may end. -/
theorem reads_nil_iff : tree.Reads a [] ↔ (tree.frontier a).reachesFinish = true := by
  constructor
  · rintro (h | _)
    exact h
  · exact .finish

/-- A symbol is read at a node that can come next, and the others behind that node. -/
theorem reads_cons_iff :
    tree.Reads a (symbol :: symbols) ↔
      ∃ next ∈ (tree.frontier a).nodes, tree.symbol? next = some symbol ∧
        tree.Reads next symbols := by
  constructor
  · intro h
    cases h with
    | next hmem hnode rest => exact ⟨_, hmem, symbol?_of_node? hnode, rest⟩
  · rintro ⟨next, hmem, hsymbol, hrest⟩
    obtain ⟨node, hnode, rfl⟩ := symbol?_eq_some_iff.mp hsymbol
    exact .next hmem hnode hrest

theorem walk_of_reads (h : tree.Reads a symbols) :
    ∃ stop, tree.IsFinishAt stop ∧ tree.Walk a symbols stop := by
  induction h with
  | finish h =>
    obtain ⟨stop, node, hlead, hnode, hkind⟩ := reachesFinish_frontier_iff.mp h
    have hwalk := hlead.walk (symbol?_of_node? hnode)
    rw [Symbol.spoken_of_isStructural (by simp [Node.symbol, hkind, NodeKind.isStructural])]
      at hwalk
    exact ⟨stop, ⟨_, symbol?_of_node? hnode, hkind⟩, hwalk⟩
  | @next id next node symbols h hnode _ ih =>
    obtain ⟨hlead, other, hother, hkind⟩ := mem_nodes_frontier_iff.mp h
    cases hother.symm.trans hnode
    obtain ⟨stop, hstop, hwalk⟩ := ih
    have hfirst := hlead.walk (symbol?_of_node? hnode)
    rw [Symbol.spoken_of_isBrowsable (by exact hkind)] at hfirst
    exact ⟨stop, hstop, hfirst.append hwalk⟩

/-- What is read from a joint is read from all nodes with an edge to it. -/
theorem Reads.of_joint (h : tree.Reads b symbols) (hedge : b ∈ tree.targets a)
    (joint : tree.IsJointAt b) : tree.Reads a symbols := by
  cases h with
  | finish h =>
    obtain ⟨stop, node, hlead, hnode⟩ := reachesFinish_frontier_iff.mp h
    exact .finish (reachesFinish_frontier_iff.mpr ⟨stop, node, .through hedge joint hlead, hnode⟩)
  | next h hnode rest =>
    obtain ⟨hlead, hkind⟩ := mem_nodes_frontier_iff.mp h
    exact .next (mem_nodes_frontier_iff.mpr ⟨.through hedge joint hlead, hkind⟩) hnode rest

/-- Nothing comes after the end. -/
theorem Walk.eq_of_isFinishAt (hw : tree.WellFormed args) (hfinish : tree.IsFinishAt a)
    (h : tree.Walk a symbols b) : symbols = [] ∧ b = a := by
  cases h with
  | here => exact ⟨rfl, rfl⟩
  | step h =>
    obtain ⟨symbol, hsymbol, hkind⟩ := hfinish
    rw [hw.finish_targets hsymbol hkind] at h
    exact absurd h List.not_mem_nil

/-- The walk must have an edge, since what is read from a node lies behind it. -/
theorem reads_of_walk (hw : tree.WellFormed args) (h : tree.Walk a symbols stop)
    (hstop : tree.IsFinishAt stop) (hne : a ≠ stop) : tree.Reads a symbols := by
  induction h with
  | here a => exact absurd rfl hne
  | @step a b c symbol symbols h hsymbol rest ih =>
    obtain ⟨node, hnode, rfl⟩ := symbol?_eq_some_iff.mp hsymbol
    by_cases hfinish : node.kind = .finish
    · obtain ⟨rfl, rfl⟩ := rest.eq_of_isFinishAt hw ⟨_, hsymbol, hfinish⟩
      rw [Symbol.spoken_of_isStructural (by simp [Node.symbol, hfinish, NodeKind.isStructural])]
      exact .finish (reachesFinish_frontier_iff.mpr ⟨_, node, .edge h, hnode, hfinish⟩)
    · have hrest : b ≠ c := by
        intro heq
        subst heq
        obtain ⟨symbol, hsymbol', hkind⟩ := hstop
        cases hsymbol.symm.trans hsymbol'
        exact hfinish hkind
      by_cases hkind : node.kind.isStructural = true
      · have joint : tree.IsJointAt b := ⟨node, hnode, NodeKind.isJoint_iff.mpr ⟨hkind, hfinish⟩⟩
        rw [Symbol.spoken_of_isStructural (by exact hkind)]
        exact (ih hstop hrest).of_joint h joint
      · have hbrowsable : node.kind.isBrowsable = true := by simp [NodeKind.isBrowsable, hkind]
        rw [Symbol.spoken_of_isBrowsable (by exact hbrowsable)]
        exact .next (mem_nodes_frontier_iff.mpr ⟨.edge h, node, hnode, hbrowsable⟩) hnode
          (ih hstop hrest)

/-- A tree reads from a node what the walks from there to the end note. -/
theorem reads_iff_exists_walk (hw : tree.WellFormed args) (ha : ¬ tree.IsFinishAt a) :
    tree.Reads a symbols ↔ ∃ stop, tree.IsFinishAt stop ∧ tree.Walk a symbols stop := by
  constructor
  · exact walk_of_reads
  · rintro ⟨stop, hstop, hwalk⟩
    refine reads_of_walk hw hwalk hstop ?_
    intro heq
    subst heq
    exact ha hstop

end Tree

end CommandShell
