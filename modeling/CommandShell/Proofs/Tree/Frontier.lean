import CommandShell.Tree.Frontier
import CommandShell.Tree.Path

/-!
# Frontiers are what joints lead to

The exploration behind a frontier strikes every node off a list of unseen nodes when it meets it,
so it never returns to a node. Nothing is lost by that: a path that comes back to a node can be cut
down to the part after its last visit there.

## Main definitions

* `Tree.Reaches` — a path through joints on which every node is still unseen

## Main results

* `Reaches.avoid` — a path can be rerouted around a node, or starts anew behind it
* `mem_nodes_frontier_iff`, `reachesFinish_frontier_iff` — a frontier holds exactly the nodes that
  take a token at the end of a path through joints, and says whether such a path leads to the end
-/

namespace CommandShell.Tree

variable {tree : Tree} {unseen pending : List NodeId} {a b c id : NodeId} {node : Node}

/-! ### Paths among unseen nodes -/

/-- A path, of no edge or more, leads from `a` to `b`. All its nodes are unseen, and all of them but
the last are joints. -/
inductive Reaches (tree : Tree) (unseen : List NodeId) : NodeId → NodeId → Prop
  /-- The path of no edge. -/
  | here {a : NodeId} (ha : a ∈ unseen) : Reaches tree unseen a a
  /-- An edge from a joint, and a path from there. -/
  | through {a b c : NodeId} (ha : a ∈ unseen) (joint : tree.IsJointAt a) (h : b ∈ tree.targets a)
      (rest : Reaches tree unseen b c) : Reaches tree unseen a c

theorem Reaches.mem_left (h : tree.Reaches unseen a b) : a ∈ unseen := by
  cases h with
  | here ha => exact ha
  | through ha _ _ _ => exact ha

theorem Reaches.mono {more : List NodeId} (hsub : unseen ⊆ more) (h : tree.Reaches unseen a b) :
    tree.Reaches more a b := by
  induction h with
  | here ha => exact .here (hsub ha)
  | through ha joint h _ ih => exact .through (hsub ha) joint h ih

/-- A path avoids the node `id`, or ends there, or its part after the last visit of `id` does. -/
theorem Reaches.avoid (id : NodeId) (h : tree.Reaches unseen a c) :
    tree.Reaches (unseen.erase id) a c ∨ c = id ∨
      tree.IsJointAt id ∧ ∃ b ∈ tree.targets id, tree.Reaches (unseen.erase id) b c := by
  -- What lies behind `a` is settled first, so the visit that is cut at is the last one.
  induction h with
  | @here a ha =>
    by_cases hid : a = id
    · exact .inr (.inl hid)
    · exact .inl (.here ((List.mem_erase_of_ne hid).mpr ha))
  | @through a b c ha joint h _ ih =>
    rcases ih with ih | ih
    · by_cases hid : a = id
      · subst hid
        exact .inr (.inr ⟨joint, b, h, ih⟩)
      · exact .inl (.through ((List.mem_erase_of_ne hid).mpr ha) joint h ih)
    · exact .inr ih

/-- What an unseen node `id` leads to: itself, and what its edges lead to once it is struck off. -/
theorem reaches_iff_of_mem (hid : id ∈ unseen) :
    tree.Reaches unseen id c ↔
      c = id ∨ tree.IsJointAt id ∧ ∃ b ∈ tree.targets id, tree.Reaches (unseen.erase id) b c := by
  constructor
  · intro h
    rcases h.avoid id with h' | h'
    · cases h' with
      | here => exact .inl rfl
      | through _ joint h rest => exact .inr ⟨joint, _, h, rest⟩
    · exact h'
  · rintro (rfl | ⟨joint, b, h, rest⟩)
    · exact .here hid
    · exact .through hid joint h (rest.mono List.erase_subset)

/-- Striking off the first pending node loses no path: what it hides is behind it. -/
theorem exists_reaches_cons_iff (hid : id ∈ unseen) :
    (∃ a ∈ id :: pending, tree.Reaches unseen a c) ↔
      c = id ∨ (tree.IsJointAt id ∧ ∃ b ∈ tree.targets id, tree.Reaches (unseen.erase id) b c) ∨
        ∃ a ∈ pending, tree.Reaches (unseen.erase id) a c := by
  simp only [List.mem_cons, exists_eq_or_imp, reaches_iff_of_mem hid]
  constructor
  · rintro ((h | h) | ⟨a, ha, h⟩)
    · exact .inl h
    · exact .inr (.inl h)
    · rcases h.avoid id with h | h | h
      · exact .inr (.inr ⟨a, ha, h⟩)
      · exact .inl h
      · exact .inr (.inl h)
  · rintro (h | h | ⟨a, ha, h⟩)
    · exact .inl (.inl h)
    · exact .inl (.inr h)
    · exact .inr ⟨a, ha, h.mono List.erase_subset⟩

theorem exists_reaches_cons_iff_of_not_mem (hid : id ∉ unseen) :
    (∃ a ∈ id :: pending, tree.Reaches unseen a c) ↔ ∃ a ∈ pending, tree.Reaches unseen a c := by
  simp only [List.mem_cons, exists_eq_or_imp]
  exact or_iff_right fun h => hid h.mem_left

/-! ### What an exploration finds -/

theorem isJointAt_iff {kind : NodeKind} (h : (tree.node? id).map Node.kind = some kind) :
    tree.IsJointAt id ↔ kind.isJoint = true := by
  obtain ⟨node, hnode, rfl⟩ := Option.map_eq_some_iff.mp h
  simp [IsJointAt, hnode]

theorem not_isJointAt_of_none (h : (tree.node? id).map Node.kind = none) :
    ¬ tree.IsJointAt id := by
  rintro ⟨node, hnode, -⟩
  simp [hnode] at h

theorem isJointAt_of_isStructural {kind : NodeKind}
    (h : (tree.node? id).map Node.kind = some kind) (hfinish : kind ≠ .finish)
    (hkind : kind.isStructural = true) : tree.IsJointAt id :=
  (isJointAt_iff h).mpr (NodeKind.isJoint_iff.mpr ⟨hkind, hfinish⟩)

theorem not_isJointAt_of_not_isStructural {kind : NodeKind}
    (h : (tree.node? id).map Node.kind = some kind) (hkind : ¬ kind.isStructural = true) :
    ¬ tree.IsJointAt id := by
  rw [isJointAt_iff h, NodeKind.isJoint_iff]
  exact fun hjoint => hkind hjoint.1

/-- A node that can take a token or end the line is found behind a joint, never on the way. -/
theorem exists_reaches_cons_iff_of_not_joint (hid : id ∈ unseen) (joint : ¬ tree.IsJointAt id) :
    (∃ a ∈ id :: pending, tree.Reaches unseen a c) ↔
      c = id ∨ ∃ a ∈ pending, tree.Reaches (unseen.erase id) a c := by
  rw [exists_reaches_cons_iff hid]
  simp only [joint, false_and, false_or]

theorem exists_reaches_cons_iff_of_joint (hid : id ∈ unseen) (joint : tree.IsJointAt id) :
    (∃ a ∈ id :: pending, tree.Reaches unseen a c) ↔
      c = id ∨ ∃ a ∈ tree.targets id ++ pending, tree.Reaches (unseen.erase id) a c := by
  rw [exists_reaches_cons_iff hid]
  simp only [joint, true_and, List.mem_append, or_and_right, exists_or]

/-- An exploration lists the nodes that take a token and that it has an unseen path to. -/
theorem mem_nodes_explore_iff {kind : NodeKind}
    (hc : (tree.node? c).map Node.kind = some kind) (hkind : kind.isBrowsable = true) :
    c ∈ (tree.explore unseen pending).nodes ↔ ∃ a ∈ pending, tree.Reaches unseen a c := by
  -- Of the nodes that are struck off, only one that takes a token can be `c` itself.
  fun_induction explore tree unseen pending with
  | case1 => simp
  | case2 unseen id pending hid hnone ih =>
    have hne : c ≠ id := by
      intro heq
      subst heq
      simp [hc] at hnone
    rw [ih, exists_reaches_cons_iff_of_not_joint hid (not_isJointAt_of_none hnone),
      or_iff_right hne]
  | case3 unseen id pending hid hfinish rest ih =>
    have hne : c ≠ id := by
      intro heq
      subst heq
      obtain rfl : kind = .finish := by simpa [hc] using hfinish
      simp [NodeKind.isBrowsable, NodeKind.isStructural] at hkind
    have joint : ¬ tree.IsJointAt id := by simp [isJointAt_iff hfinish, NodeKind.isJoint]
    rw [ih, exists_reaches_cons_iff_of_not_joint hid joint, or_iff_right hne]
  | case4 unseen id pending hid other hfinish hsome hother ih =>
    have hne : c ≠ id := by
      intro heq
      subst heq
      obtain rfl : kind = other := by simpa [hc] using hsome
      simp [NodeKind.isBrowsable, hother] at hkind
    have joint := isJointAt_of_isStructural hsome (fun h => hfinish h) hother
    rw [ih, exists_reaches_cons_iff_of_joint hid joint, or_iff_right hne]
  | case5 unseen id pending hid other hfinish hsome hother rest ih =>
    have joint := not_isJointAt_of_not_isStructural hsome hother
    rw [exists_reaches_cons_iff_of_not_joint hid joint, List.mem_cons, ih]
  | case6 unseen id pending hid ih => rw [ih, exists_reaches_cons_iff_of_not_mem hid]

/-- An exploration says whether it has an unseen path to an end. -/
theorem reachesFinish_explore_iff :
    (tree.explore unseen pending).reachesFinish = true ↔
      ∃ c, (tree.node? c).map Node.kind = some .finish ∧
        ∃ a ∈ pending, tree.Reaches unseen a c := by
  fun_induction explore tree unseen pending with
  | case1 => simp
  | case2 unseen id pending hid hnone ih =>
    rw [ih]
    apply exists_congr
    intro c
    apply and_congr_right
    intro hc
    have hne : c ≠ id := by
      intro heq
      subst heq
      simp [hc] at hnone
    rw [exists_reaches_cons_iff_of_not_joint hid (not_isJointAt_of_none hnone), or_iff_right hne]
  | case3 unseen id pending hid hfinish ih =>
    exact iff_of_true rfl ⟨id, hfinish, id, List.mem_cons_self, .here hid⟩
  | case4 unseen id pending hid other hfinish hsome hother ih =>
    rw [ih]
    apply exists_congr
    intro c
    apply and_congr_right
    intro hc
    have hne : c ≠ id := by
      intro heq
      subst heq
      exact hfinish (by simpa [hc] using hsome.symm)
    have joint := isJointAt_of_isStructural hsome (fun h => hfinish h) hother
    rw [exists_reaches_cons_iff_of_joint hid joint, or_iff_right hne]
  | case5 unseen id pending hid other hfinish hsome hother _ ih =>
    rw [ih]
    apply exists_congr
    intro c
    apply and_congr_right
    intro hc
    have hne : c ≠ id := by
      intro heq
      subst heq
      exact hfinish (by simpa [hc] using hsome.symm)
    have joint := not_isJointAt_of_not_isStructural hsome hother
    rw [exists_reaches_cons_iff_of_not_joint hid joint, or_iff_right hne]
  | case6 unseen id pending hid ih =>
    simp only [ih, exists_reaches_cons_iff_of_not_mem hid]

/-- Only nodes that take a token are listed. -/
theorem isBrowsable_of_mem_nodes_explore (h : c ∈ (tree.explore unseen pending).nodes) :
    ∃ node, tree.node? c = some node ∧ node.kind.isBrowsable = true := by
  fun_induction explore tree unseen pending with
  | case1 => simp at h
  | case2 unseen id pending hid hnone ih => exact ih h
  | case3 unseen id pending hid hfinish rest ih => exact ih h
  | case4 unseen id pending hid other hfinish hsome hother ih => exact ih h
  | case5 unseen id pending hid other hfinish hsome hother rest ih =>
    rcases List.mem_cons.mp h with rfl | h
    · obtain ⟨node, hnode, rfl⟩ := Option.map_eq_some_iff.mp hsome
      exact ⟨node, hnode, by simpa [NodeKind.isBrowsable] using hother⟩
    · exact ih h
  | case6 unseen id pending hid ih => exact ih h

/-! ### Frontiers -/

theorem lt_size_of_node? (h : tree.node? id = some node) : id < tree.size :=
  (Array.getElem?_eq_some_iff.mp h).1

theorem Reaches.leads (h : tree.Reaches unseen b c) (hb : b ∈ tree.targets a) :
    tree.Leads a c := by
  induction h generalizing a with
  | here _ => exact .edge hb
  | through _ joint h _ ih => exact .through hb joint (ih h)

/-- While every node is unseen, the paths from the children of a node are those from the node. -/
theorem exists_reaches_range_iff (hc : c < tree.size) :
    (∃ b ∈ tree.targets a, tree.Reaches (List.range tree.size) b c) ↔ tree.Leads a c := by
  constructor
  · rintro ⟨b, hb, h⟩
    exact h.leads hb
  · intro h
    induction h with
    | edge h => exact ⟨_, h, .here (List.mem_range.mpr hc)⟩
    | @through a b c h joint _ ih =>
      obtain ⟨d, hd, rest⟩ := ih hc
      have hb : b < tree.size := lt_size_of_node? joint.choose_spec.1
      exact ⟨b, h, .through (List.mem_range.mpr hb) joint hd rest⟩

/-- The nodes of a frontier are those that take a token at the end of a path through joints. -/
theorem mem_nodes_frontier_iff :
    c ∈ (tree.frontier a).nodes ↔
      tree.Leads a c ∧ ∃ node, tree.node? c = some node ∧ node.kind.isBrowsable = true := by
  constructor
  · intro h
    obtain ⟨node, hnode, hkind⟩ := isBrowsable_of_mem_nodes_explore h
    have hc : (tree.node? c).map Node.kind = some node.kind := by simp [hnode]
    refine ⟨?_, node, hnode, hkind⟩
    rwa [← exists_reaches_range_iff (lt_size_of_node? hnode), ← mem_nodes_explore_iff hc hkind]
  · rintro ⟨h, node, hnode, hkind⟩
    have hc : (tree.node? c).map Node.kind = some node.kind := by simp [hnode]
    rwa [frontier, mem_nodes_explore_iff hc hkind,
      exists_reaches_range_iff (lt_size_of_node? hnode)]

/-- The line may end where a path through joints leads to the end. -/
theorem reachesFinish_frontier_iff :
    (tree.frontier a).reachesFinish = true ↔
      ∃ c node, tree.Leads a c ∧ tree.node? c = some node ∧ node.kind = .finish := by
  rw [frontier, reachesFinish_explore_iff]
  apply exists_congr
  intro c
  constructor
  · rintro ⟨hc, h⟩
    obtain ⟨node, hnode, hkind⟩ := Option.map_eq_some_iff.mp hc
    exact ⟨node, (exists_reaches_range_iff (lt_size_of_node? hnode)).mp h, hnode, hkind⟩
  · rintro ⟨node, h, hnode, hkind⟩
    refine ⟨by simp [hnode, hkind], ?_⟩
    exact (exists_reaches_range_iff (lt_size_of_node? hnode)).mpr h

end CommandShell.Tree
