import CommandShell.Proofs.Tree.Language
import CommandShell.Proofs.Tree.Shape
import CommandShell.Proofs.Tree.Spoken

/-!
# What can come next

Behind the symbols that have been read, a tree goes on with what its rules allow there. In general
that depends on which of several nodes with one symbol was taken; where no symbol comes twice, the
symbols lead to one node, and its frontier holds the symbols that some sentence continues with. No
node is a dead end, so nothing else is offered.

## Main definitions

* `Tree.Follows` — symbols lead from one node to another

## Main results

* `Tree.reads_append_iff` — a node reads the rest of what is read through it
* `Tree.exists_next_iff` — a symbol can come next if a sentence goes on with it
* `Tree.reachesFinish_iff` — the line may end where a sentence does
-/

namespace CommandShell.Tree

variable {args : ArgumentSet} {rules : List Rule} {tree : Tree}
  {a b id node next last stop : NodeId}
  {symbol : Symbol} {symbols before after : List Symbol}

/-! ### Symbols that lead to a node -/

/-- The symbols lead from one node to another: each is that of a node that can come next after the
one before. -/
inductive Follows (tree : Tree) : NodeId → List Symbol → NodeId → Prop
  /-- No symbols lead nowhere else. -/
  | here (id : NodeId) : Follows tree id [] id
  /-- A node that can come next, and the way on from it. -/
  | next {id next last : NodeId} {symbol : Symbol} {symbols : List Symbol}
      (h : next ∈ (tree.frontier id).nodes) (hsymbol : tree.symbol? next = some symbol)
      (rest : Follows tree next symbols last) : Follows tree id (symbol :: symbols) last

theorem Follows.concat (h : tree.Follows id before node) (hmem : next ∈ (tree.frontier node).nodes)
    (hsymbol : tree.symbol? next = some symbol) : tree.Follows id (before ++ [symbol]) next := by
  induction h with
  | here id => exact .next hmem hsymbol (.here next)
  | next h hfirst _ ih => exact .next h hfirst (ih hmem)

/-- Only nodes that take a token can come next. -/
theorem isBrowsable_of_mem_frontier (hmem : next ∈ (tree.frontier node).nodes)
    (hsymbol : tree.symbol? next = some symbol) : symbol.kind.isBrowsable = true := by
  obtain ⟨-, other, hother, hkind⟩ := mem_nodes_frontier_iff.mp hmem
  cases (symbol?_of_node? hother).symm.trans hsymbol
  exact hkind

/-- Where no symbol comes twice, the node that symbols lead to reads the rest of what is read
through it. -/
theorem reads_append_iff (hdistinct : tree.spoken.Nodup) (h : tree.Follows id before node) :
    tree.Reads id (before ++ after) ↔ tree.Reads node after := by
  induction h with
  | here id => rfl
  | next hmem hsymbol _ ih =>
    rw [← ih, List.cons_append, reads_cons_iff]
    constructor
    · -- The first symbol tells the node, so there is no other way to read it.
      rintro ⟨other, -, hother, hreads⟩
      have hkind := isBrowsable_of_mem_frontier hmem hsymbol
      rwa [eq_of_symbol?_eq hdistinct hsymbol hother hkind]
    · exact fun hreads => ⟨_, hmem, hsymbol, hreads⟩

/-! ### No dead ends -/

theorem walk_of_plainPath (hw : tree.WellFormed args) (h : tree.PlainPath a stop) :
    ∃ symbols, tree.Walk a symbols stop := by
  induction h using Relation.ReflTransGen.head_induction_on with
  | refl => exact ⟨[], .here stop⟩
  | @head a b hedge _ ih =>
    obtain ⟨symbols, hwalk⟩ := ih
    have htarget : b ∈ tree.targets a := List.mem_map.mpr ⟨_, plainEdge_iff.mp hedge, rfl⟩
    obtain ⟨symbol, hsymbol⟩ := exists_symbol?_of_lt (hw.target_lt htarget)
    exact ⟨_, .step htarget hsymbol hwalk⟩

/-- From every node but the end, the line can be brought to its end. -/
theorem IsShaped.exists_reads (h : tree.IsShaped) (hw : tree.WellFormed args)
    (hid : id < tree.size) (hfinish : ¬ tree.IsFinishAt id) : ∃ symbols, tree.Reads id symbols := by
  obtain ⟨stop, hstop, hpath⟩ := h.exists_finish
  obtain ⟨symbols, hwalk⟩ := walk_of_plainPath hw (hpath id hid)
  obtain ⟨label, hlabel⟩ := kindAt_iff.mp ((hstop stop).mpr rfl)
  exact ⟨symbols, (reads_iff_exists_walk hw hfinish).mpr ⟨stop, ⟨_, hlabel, rfl⟩, hwalk⟩⟩

/-! ### What the rules allow -/

section Rules

variable (h : build args rules = .ok tree) (hlast : rules.getLast?.map Rule.kind = some .finish)
  (hdistinct : tree.spoken.Nodup) (hfollows : tree.Follows root before node)

include h hlast hdistinct hfollows

/-- Where no symbol comes twice, a symbol can come next if a sentence goes on with it. -/
theorem exists_next_iff :
    (∃ next ∈ (tree.frontier node).nodes, tree.symbol? next = some symbol) ↔
      ∃ after, Rule.SpellsAll args rules (before ++ symbol :: after) := by
  simp only [← reads_build_iff h hlast, reads_append_iff hdistinct hfollows, reads_cons_iff]
  constructor
  · rintro ⟨next, hmem, hsymbol⟩
    have hkind := isBrowsable_of_mem_frontier hmem hsymbol
    have hfinish : ¬ tree.IsFinishAt next := by
      rintro ⟨other, hother, hend⟩
      cases hsymbol.symm.trans hother
      simp [hend, NodeKind.isBrowsable, NodeKind.isStructural] at hkind
    obtain ⟨last, hgrows⟩ := build_grows h
    obtain ⟨after, hreads⟩ := (isShaped_build h hlast).exists_reads hgrows.wellFormed
      (lt_size_of_symbol? hsymbol) hfinish
    exact ⟨after, next, hmem, hsymbol, hreads⟩
  · rintro ⟨after, next, hmem, hsymbol, -⟩
    exact ⟨next, hmem, hsymbol⟩

/-- Where no symbol comes twice, the line may end where a sentence does. -/
theorem reachesFinish_iff :
    (tree.frontier node).reachesFinish = true ↔ Rule.SpellsAll args rules before := by
  rw [← reads_nil_iff, ← reads_append_iff hdistinct hfollows, List.append_nil,
    reads_build_iff h hlast]

end Rules

end CommandShell.Tree
