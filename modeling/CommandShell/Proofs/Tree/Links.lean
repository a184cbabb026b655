import CommandShell.Proofs.Outcome
import CommandShell.Tree.Build
import CommandShell.Tree.Language

/-!
# Nodes and edges of a growing tree

What each step of building a tree does to the nodes and edges that are already there. A new node
takes the next index and has no edges, and a new edge changes the edges of its source alone.
Steps that fail leave no tree, so everything is said of the steps that succeed.

## Main definitions

* `Tree.symbol?` — the kind and the label of the node with an index
* `Bracket.Closes` — the edges that close a group

## Main results

* `add_eq_ok`, `link_eq_ok`, `hang_eq_ok` — when a step succeeds, and the tree that it gives
* `symbol?_hang`, `children_hang`, `symbol?_openGroup`, `children_openGroup`, `symbol?_closeGroup`,
  `children_closeGroup` — the nodes and edges after a step
-/

namespace CommandShell.Tree

variable {tree tree' : Tree} {kind : NodeKind} {label : String} {id parent child i j : NodeId}
  {isLoop : Bool} {symbol : Symbol}

/-- What the node with an index takes a token for. -/
def symbol? (tree : Tree) (id : NodeId) : Option Symbol := (tree.node? id).map Node.symbol

theorem lt_size_of_symbol? (h : tree.symbol? i = some symbol) : i < tree.size := by
  obtain ⟨node, hnode, -⟩ := Option.map_eq_some_iff.mp h
  exact (Array.getElem?_eq_some_iff.mp hnode).1

theorem exists_symbol?_of_lt (h : i < tree.size) : ∃ symbol, tree.symbol? i = some symbol :=
  ⟨_, Option.map_eq_some_iff.mpr ⟨_, Array.getElem?_eq_getElem h, rfl⟩⟩

theorem children_eq_nil (h : tree.size ≤ i) : tree.children i = [] := by
  simp [children, node?, Array.getElem?_eq_none h]

theorem lt_size_of_mem_children {edge : Edge} (h : edge ∈ tree.children i) : i < tree.size := by
  apply Nat.lt_of_not_le
  intro hle
  rw [children_eq_nil hle] at h
  exact List.not_mem_nil h

theorem targets_eq_nil (h : tree.size ≤ i) : tree.targets i = [] := by
  rw [targets, children_eq_nil h, List.map_nil]

/-! ### Single steps -/

/-- A node that can be added takes the next index, and everything else stays as it was. -/
theorem add_eq_ok (h : tree.add kind label = .ok (tree', id)) :
    id = tree.size ∧ tree'.nodes = tree.nodes.push { kind, label } := by
  unfold add at h
  split at h <;> cases h <;> simp [size]

theorem node?_add (h : tree.add kind label = .ok (tree', id)) :
    tree'.node? i = if i = tree.size then some { kind, label } else tree.node? i := by
  obtain ⟨-, hnodes⟩ := add_eq_ok h
  rw [node?, hnodes, Array.getElem?_push]
  rfl

theorem size_add (h : tree.add kind label = .ok (tree', id)) : tree'.size = tree.size + 1 :=
  (size_of_add h).2

theorem symbol?_add (h : tree.add kind label = .ok (tree', id)) :
    tree'.symbol? i = if i = tree.size then some ⟨kind, label⟩ else tree.symbol? i := by
  rw [symbol?, node?_add h]
  split <;> rfl

theorem children_add (h : tree.add kind label = .ok (tree', id)) :
    tree'.children i = tree.children i := by
  rw [children, node?_add h]
  split
  · simp_all [children, node?, size]
  · rfl

theorem targets_add (h : tree.add kind label = .ok (tree', id)) :
    tree'.targets i = tree.targets i := by
  rw [targets, children_add h, targets]

/-- An edge can be added between two nodes that are there, unless it leaves the end or gives a node
that takes a token a second parent. -/
theorem link_eq_ok (h : tree.link parent child isLoop = .ok tree') :
    parent < tree.size ∧ child < tree.size ∧
      (∀ symbol, tree.symbol? parent = some symbol → symbol.kind ≠ .finish) ∧
      tree' = tree.connect parent ⟨child, isLoop⟩ := by
  unfold link at h
  split at h <;> try contradiction
  rename_i target htarget
  split at h <;> try contradiction
  split at h <;> try contradiction
  rename_i source hsource
  split at h <;> try contradiction
  rename_i hfinish
  cases h
  refine ⟨(Array.getElem?_eq_some_iff.mp hsource).1, (Array.getElem?_eq_some_iff.mp htarget).1, ?_,
    rfl⟩
  rintro symbol hsymbol
  rw [symbol?, hsource] at hsymbol
  cases hsymbol
  exact hfinish

theorem node?_connect (edge : Edge) :
    (tree.connect parent edge).node? i =
      (tree.node? i).map fun node =>
        let node := if parent = i then node.withChild edge else node
        if edge.target = i then node.withParent parent else node := by
  simp only [node?, connect, Array.getElem?_modify]
  -- A node may be both the source and the target of an edge.
  by_cases hp : parent = i <;> by_cases ht : edge.target = i <;> simp [hp, ht, Function.comp_def]

theorem size_link (h : tree.link parent child isLoop = .ok tree') : tree'.size = tree.size := by
  obtain ⟨-, -, -, rfl⟩ := link_eq_ok h
  simp [size, connect]

theorem symbol?_link (h : tree.link parent child isLoop = .ok tree') :
    tree'.symbol? i = tree.symbol? i := by
  obtain ⟨-, -, -, rfl⟩ := link_eq_ok h
  rw [symbol?, node?_connect, symbol?, Option.map_map]
  congr 1
  funext node
  simp only [Function.comp]
  split <;> split <;> rfl

theorem children_link (h : tree.link parent child isLoop = .ok tree') :
    tree'.children i =
      if parent = i then tree.children i ++ [⟨child, isLoop⟩] else tree.children i := by
  obtain ⟨hparent, -, -, rfl⟩ := link_eq_ok h
  rw [children, node?_connect, children]
  cases hnode : tree.node? i with
  | none =>
    have hne : parent ≠ i := by
      intro heq
      subst heq
      exact absurd (Array.getElem?_eq_none_iff.mp hnode) (Nat.not_le.mpr hparent)
    simp [hne]
  | some node =>
    simp only [Option.map_some, Option.getD_some]
    split <;> split <;> rfl

theorem targets_link (h : tree.link parent child isLoop = .ok tree') :
    tree'.targets i = if parent = i then tree.targets i ++ [child] else tree.targets i := by
  rw [targets, children_link h]
  split <;> simp [targets]

theorem mem_targets_link (h : tree.link parent child isLoop = .ok tree') :
    j ∈ tree'.targets i ↔ j ∈ tree.targets i ∨ parent = i ∧ j = child := by
  rw [targets_link h]
  split <;> simp_all

/-! ### A node under another -/

theorem hang_eq_ok {tail : NodeId} (h : tree.hang tail kind label = .ok (tree', id)) :
    ∃ mid, tree.add kind label = .ok (mid, id) ∧ mid.link tail id false = .ok tree' := by
  obtain ⟨⟨mid, id'⟩, hadd, h⟩ := bind_eq_ok_iff.mp h
  obtain ⟨linked, hlink, h⟩ := bind_eq_ok_iff.mp h
  cases h
  exact ⟨mid, hadd, hlink⟩

theorem id_hang {tail : NodeId} (h : tree.hang tail kind label = .ok (tree', id)) :
    id = tree.size := by
  obtain ⟨mid, hadd, -⟩ := hang_eq_ok h
  exact (add_eq_ok hadd).1

theorem size_hang {tail : NodeId} (h : tree.hang tail kind label = .ok (tree', id)) :
    tree'.size = tree.size + 1 := by
  obtain ⟨mid, hadd, hlink⟩ := hang_eq_ok h
  rw [size_link hlink, size_add hadd]

theorem symbol?_hang {tail : NodeId} (h : tree.hang tail kind label = .ok (tree', id)) :
    tree'.symbol? i = if i = tree.size then some ⟨kind, label⟩ else tree.symbol? i := by
  obtain ⟨mid, hadd, hlink⟩ := hang_eq_ok h
  rw [symbol?_link hlink, symbol?_add hadd]

theorem children_hang {tail : NodeId} (h : tree.hang tail kind label = .ok (tree', id)) :
    tree'.children i =
      if tail = i then tree.children i ++ [⟨tree.size, false⟩] else tree.children i := by
  obtain ⟨mid, hadd, hlink⟩ := hang_eq_ok h
  rw [children_link hlink, children_add hadd, (add_eq_ok hadd).1]

theorem targets_hang {tail : NodeId} (h : tree.hang tail kind label = .ok (tree', id)) :
    tree'.targets i = if tail = i then tree.targets i ++ [tree.size] else tree.targets i := by
  rw [targets, children_hang h]
  split <;> simp [targets]

theorem mem_targets_hang {tail : NodeId} (h : tree.hang tail kind label = .ok (tree', id)) :
    j ∈ tree'.targets i ↔ j ∈ tree.targets i ∨ tail = i ∧ j = tree.size := by
  rw [targets_hang h]
  split <;> simp_all

/-! ### The joints of a group -/

variable {tail : NodeId} {op : GroupOp} {bracket : Bracket}

/-- The joints of a group are the next two or three nodes, of which the first hangs off `tail`. -/
theorem openGroup_eq_ok (h : tree.openGroup tail op = .ok (tree', bracket)) :
    ∃ opened joined,
      tree.hang tail .hook "hook" = .ok (opened, bracket.start) ∧
      (if op.isRepeatable then opened.add .loop "loop" = .ok (joined, bracket.join)
        else joined = opened ∧ bracket.join = bracket.stop) ∧
      joined.add .hook "hook" = .ok (tree', bracket.stop) := by
  obtain ⟨⟨opened, start⟩, hstart, h⟩ := bind_eq_ok_iff.mp h
  dsimp only at h
  split at h
  · rename_i hop
    obtain ⟨⟨joined, join⟩, hjoin, h⟩ := bind_eq_ok_iff.mp h
    obtain ⟨⟨stopped, stop⟩, hstop, h⟩ := bind_eq_ok_iff.mp h
    cases h
    exact ⟨opened, joined, hstart, by simpa [hop] using hjoin, hstop⟩
  · rename_i hop
    obtain ⟨⟨stopped, stop⟩, hstop, h⟩ := bind_eq_ok_iff.mp h
    cases h
    exact ⟨opened, opened, hstart, by simp [hop], hstop⟩

/-- Where the joints of a group stand. -/
theorem openGroup_bounds (h : tree.openGroup tail op = .ok (tree', bracket)) :
    bracket.start = tree.size ∧ bracket.start < bracket.join ∧
      bracket.join = (if op.isRepeatable then bracket.stop - 1 else bracket.stop) ∧
      tree'.size = bracket.stop + 1 ∧ bracket.start < bracket.stop := by
  obtain ⟨opened, joined, hstart, hjoin, hstop⟩ := openGroup_eq_ok h
  have hid := id_hang hstart
  have hsize := size_hang hstart
  have hstop' := size_of_add hstop
  split at hjoin
  · rw [if_pos ‹_›]
    have hjoin' := size_of_add hjoin
    refine ⟨hid, ?_, ?_, ?_, ?_⟩ <;> lia
  · rw [if_neg ‹_›]
    obtain ⟨rfl, hjoin⟩ := hjoin
    refine ⟨hid, ?_, hjoin, ?_, ?_⟩ <;> lia

/-- The kind of the joint in which the alternatives of a group meet. -/
def joinSymbol (op : GroupOp) : Symbol :=
  if op.isRepeatable then ⟨.loop, "loop"⟩ else ⟨.hook, "hook"⟩

theorem symbol?_openGroup (h : tree.openGroup tail op = .ok (tree', bracket)) :
    tree'.symbol? i =
      if i = bracket.stop ∨ i = bracket.start then some ⟨.hook, "hook"⟩
      else if i = bracket.join then some (joinSymbol op) else tree.symbol? i := by
  obtain ⟨opened, joined, hstart, hjoin, hstop⟩ := openGroup_eq_ok h
  have hid := id_hang hstart
  have hsize := size_hang hstart
  have hstop' := size_of_add hstop
  rw [symbol?_add hstop]
  split at hjoin
  · rename_i hop
    have hjoin' := size_of_add hjoin
    rw [symbol?_add hjoin, symbol?_hang hstart, ← hstop'.1, ← hjoin'.1, ← hid, joinSymbol,
      if_pos hop]
    by_cases hi : i = bracket.start
    · have hne : bracket.start ≠ bracket.stop ∧ bracket.start ≠ bracket.join := by lia
      simp [hi, hne.1, hne.2]
    · simp [hi]
  · obtain ⟨rfl, hjoin⟩ := hjoin
    rw [symbol?_hang hstart, ← hstop'.1, ← hid, hjoin]
    by_cases hi : i = bracket.start <;> by_cases hi' : i = bracket.stop <;> simp [hi, hi']

theorem isStructural_joinSymbol (op : GroupOp) : (joinSymbol op).kind.isStructural = true := by
  unfold joinSymbol
  split <;> rfl

theorem symbol?_join (h : tree.openGroup tail op = .ok (tree', bracket)) :
    tree'.symbol? bracket.join = some (joinSymbol op) := by
  obtain ⟨hstart, hlt, hjoin, -, -⟩ := openGroup_bounds h
  rw [symbol?_openGroup h]
  by_cases hstop : bracket.join = bracket.stop
  · have hop : op.isRepeatable = false := by
      rw [Bool.eq_false_iff]
      intro hop
      rw [if_pos hop] at hjoin
      lia
    simp [hstop, joinSymbol, hop]
  · have hne : bracket.join ≠ bracket.start := Nat.ne_of_gt hlt
    simp [hstop, hne]

theorem size_openGroup (h : tree.openGroup tail op = .ok (tree', bracket)) :
    tree'.size = tree.size + if op.isRepeatable then 3 else 2 := by
  obtain ⟨opened, joined, hstart, hjoin, hstop⟩ := openGroup_eq_ok h
  rw [size_add hstop]
  split at hjoin
  · rw [if_pos ‹_›, size_add hjoin, size_hang hstart]
  · rw [if_neg ‹_›, hjoin.1, size_hang hstart]

theorem children_openGroup (h : tree.openGroup tail op = .ok (tree', bracket)) :
    tree'.children i =
      if tail = i then tree.children i ++ [⟨bracket.start, false⟩] else tree.children i := by
  obtain ⟨opened, joined, hstart, hjoin, hstop⟩ := openGroup_eq_ok h
  rw [children_add hstop, id_hang hstart, ← children_hang hstart]
  split at hjoin
  · exact children_add hjoin
  · rw [hjoin.1]

theorem targets_openGroup (h : tree.openGroup tail op = .ok (tree', bracket)) :
    tree'.targets i =
      if tail = i then tree.targets i ++ [bracket.start] else tree.targets i := by
  rw [targets, children_openGroup h]
  split <;> simp [targets]

/-- The edges that close a group: from its loop on and back, and around it. -/
def Bracket.Closes (bracket : Bracket) (op : GroupOp) (i j : NodeId) : Prop :=
  op.isRepeatable = true ∧ i = bracket.join ∧ (j = bracket.stop ∨ j = bracket.start) ∨
    op.isOptional = true ∧ i = bracket.start ∧ j = bracket.stop

theorem closeGroup_eq_ok (h : tree.closeGroup bracket op = .ok tree') :
    ∃ passed looped,
      (if op.isRepeatable then tree.link bracket.join bracket.stop false = .ok passed ∧
        passed.link bracket.join bracket.start true = .ok looped else looped = tree) ∧
      (if op.isOptional then looped.link bracket.start bracket.stop false = .ok tree'
        else tree' = looped) := by
  have hskip {looped : Tree}
      (h : (if op.isOptional then looped.addChild bracket.start bracket.stop else .ok looped) =
        .ok tree') :
      if op.isOptional then looped.link bracket.start bracket.stop false = .ok tree'
        else tree' = looped := by
    split at h
    · rwa [if_pos ‹_›]
    · rw [if_neg ‹_›]
      exact (Except.ok.inj h).symm
  unfold closeGroup at h
  dsimp only at h
  split at h
  · obtain ⟨looped, hloop, h⟩ := bind_eq_ok_iff.mp h
    obtain ⟨passed, hpass, hloop⟩ := bind_eq_ok_iff'.mp hloop
    exact ⟨passed, looped, by simpa [*] using ⟨hpass, hloop⟩, hskip h⟩
  · obtain ⟨looped, hloop, h⟩ := bind_eq_ok_iff.mp h
    cases hloop
    exact ⟨tree, tree, by simp [*], hskip h⟩

theorem size_closeGroup (h : tree.closeGroup bracket op = .ok tree') : tree'.size = tree.size := by
  obtain ⟨passed, looped, hloop, hskip⟩ := closeGroup_eq_ok h
  have hlooped : looped.size = tree.size := by
    split at hloop
    · rw [size_link hloop.2, size_link hloop.1]
    · rw [hloop]
  split at hskip
  · rw [size_link hskip, hlooped]
  · rw [hskip, hlooped]

theorem symbol?_closeGroup (h : tree.closeGroup bracket op = .ok tree') :
    tree'.symbol? i = tree.symbol? i := by
  obtain ⟨passed, looped, hloop, hskip⟩ := closeGroup_eq_ok h
  have hlooped : looped.symbol? i = tree.symbol? i := by
    split at hloop
    · rw [symbol?_link hloop.2, symbol?_link hloop.1]
    · rw [hloop]
  split at hskip
  · rw [symbol?_link hskip, hlooped]
  · rw [hskip, hlooped]

/-- A loop is given an edge that goes on and one that leads back, the start of the group one that
leads around it. -/
theorem children_closeGroup (h : tree.closeGroup bracket op = .ok tree') :
    tree'.children i = tree.children i ++
      ((if op.isRepeatable ∧ bracket.join = i then
        [⟨bracket.stop, false⟩, ⟨bracket.start, true⟩] else []) ++
      if op.isOptional ∧ bracket.start = i then [⟨bracket.stop, false⟩] else []) := by
  obtain ⟨passed, looped, hloop, hskip⟩ := closeGroup_eq_ok h
  have hlooped : looped.children i = tree.children i ++
      if op.isRepeatable ∧ bracket.join = i then
        [⟨bracket.stop, false⟩, ⟨bracket.start, true⟩] else [] := by
    split at hloop
    · rw [children_link hloop.2, children_link hloop.1]
      by_cases hi : bracket.join = i <;> simp [*]
    · rw [hloop]
      simp [*]
  rw [← List.append_assoc, ← hlooped]
  split at hskip
  · rw [children_link hskip]
    by_cases hi : bracket.start = i <;> simp [*]
  · rw [hskip]
    simp [*]

theorem mem_targets_closeGroup (h : tree.closeGroup bracket op = .ok tree') :
    j ∈ tree'.targets i ↔ j ∈ tree.targets i ∨ bracket.Closes op i j := by
  simp only [targets, children_closeGroup h, List.map_append, List.mem_append, Bracket.Closes]
  refine or_congr_right (or_congr ?_ ?_)
  · split <;> grind
  · split <;> grind

end CommandShell.Tree
