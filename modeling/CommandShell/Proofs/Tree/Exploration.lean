import CommandShell.Proofs.Distinct
import CommandShell.Proofs.Tree.Frontier

/-!
# Frontiers in the order of exploration

An exploration that strikes off what it has met lists the same nodes, in the same order, as one that
follows every path to its end and forgets nothing: what lies behind a node that was struck off has
been listed already, so leaving it out changes no first appearance.

## Main results

* `filter_meets_erase` — without a node that was explored, only what it leads to is missing
* `nodes_explore_eq` — striking off what was met leaves the first appearances as they are
* `frontier_eq_meetsBehind` — which nodes a frontier holds, and in which order
-/

namespace CommandShell.Tree

variable {tree : Tree} {fresh more unseen pending seen : List NodeId} {a c id : NodeId}

/-! ### All paths -/

theorem meets_of_not_mem (h : id ∉ fresh) : tree.meets fresh id = [] := by
  rw [meets, dif_neg h]

theorem meets_of_joint (h : id ∈ fresh) (joint : tree.isJoint id = true) :
    tree.meets fresh id = (tree.targets id).flatMap (tree.meets (fresh.erase id)) := by
  rw [meets, dif_pos h, if_pos joint]

theorem meets_of_not_joint (h : id ∈ fresh) (joint : ¬ tree.isJoint id = true) :
    tree.meets fresh id = [id] := by
  rw [meets, dif_pos h, if_neg joint]

/-- Only fresh nodes are met. -/
theorem mem_of_mem_meets (h : c ∈ tree.meets fresh a) : c ∈ fresh := by
  fun_induction meets tree fresh a with
  | case1 fresh a ha joint ih =>
    obtain ⟨next, -, hc⟩ := List.mem_flatMap.mp h
    exact List.mem_of_mem_erase (ih next hc)
  | case2 fresh a ha joint =>
    rw [List.mem_singleton.mp h]
    exact ha
  | case3 fresh a ha => exact absurd h List.not_mem_nil

/-- With more fresh nodes no less is met. -/
theorem meets_subset (hsub : fresh.Sublist more) :
    tree.meets fresh a ⊆ tree.meets more a := by
  fun_induction meets tree fresh a generalizing more with
  | case1 fresh a ha joint ih =>
    rw [meets_of_joint (hsub.subset ha) joint]
    intro c hc
    obtain ⟨next, hnext, hc⟩ := List.mem_flatMap.mp hc
    exact List.mem_flatMap.mpr ⟨next, hnext, ih next (hsub.erase a) hc⟩
  | case2 fresh a ha joint =>
    rw [meets_of_not_joint (hsub.subset ha) joint]
    exact List.Subset.refl _
  | case3 fresh a ha => exact List.nil_subset _

/-- Once a node has been explored, nothing is lost without it but what was met from there. -/
theorem filter_meets_erase (hsub : fresh.Sublist unseen) (hseen : tree.meets unseen id ⊆ seen) :
    (tree.meets fresh a).filter (· ∉ seen) = (tree.meets (fresh.erase id) a).filter (· ∉ seen) := by
  have hgone {fresh : List NodeId} (hsub : fresh.Sublist unseen) :
      (tree.meets fresh id).filter (· ∉ seen) = [] := by
    rw [List.filter_eq_nil_iff]
    intro c hc
    simpa using hseen (meets_subset hsub hc)
  -- By induction along the path from `a`, as long as it does not come to `id`; where it does, all
  -- that is met has been seen.
  fun_induction meets tree fresh a with
  | case1 fresh a ha joint ih =>
    by_cases hid : a = id
    · subst hid
      rw [← meets_of_joint ha joint, hgone hsub, hgone (List.erase_sublist.trans hsub)]
    · rw [meets_of_joint ((List.mem_erase_of_ne hid).mpr ha) joint, List.filter_flatMap,
        List.filter_flatMap, List.erase_comm]
      congr 1
      funext next
      exact ih next (List.erase_sublist.trans hsub)
  | case2 fresh a ha joint =>
    by_cases hid : a = id
    · subst hid
      rw [← meets_of_not_joint ha joint, hgone hsub, hgone (List.erase_sublist.trans hsub)]
    · rw [meets_of_not_joint ((List.mem_erase_of_ne hid).mpr ha) joint]
  | case3 fresh a ha => rw [meets_of_not_mem fun h => ha (List.mem_of_mem_erase h)]

/-! ### Striking off what was met -/

/-- Where two lists differ only in what stands in front of both, the same items appear, in the same
order. -/
theorem eraseDups_filter_append_congr {front back back' : List NodeId} {p : NodeId → Bool}
    (h : back.filter (· ∉ front) = back'.filter (· ∉ front)) :
    ((front ++ back).filter p).eraseDups = ((front ++ back').filter p).eraseDups := by
  have hback (list : List NodeId) : (list.filter p).removeAll (front.filter p) =
      (list.filter (· ∉ front)).filter p := by
    rw [List.removeAll, List.filter_filter, List.filter_filter]
    apply List.filter_congr
    intro item _
    by_cases hp : p item = true <;> simp [hp]
  rw [List.filter_append, List.filter_append, List.eraseDups_append, List.eraseDups_append, hback,
    hback, h]

/-- Once a pending node has been explored, the others can be explored without it. -/
theorem eraseDups_meets_cons {p : NodeId → Bool} :
    (((id :: pending).flatMap (tree.meets unseen)).filter p).eraseDups =
      ((tree.meets unseen id ++ pending.flatMap (tree.meets (unseen.erase id))).filter
        p).eraseDups := by
  rw [List.flatMap_cons]
  apply eraseDups_filter_append_congr
  rw [List.filter_flatMap, List.filter_flatMap]
  congr 1
  funext next
  exact filter_meets_erase (List.Sublist.refl _) (List.Subset.refl _)

/-- A pending node that is listed neither now nor later can be left out. -/
theorem eraseDups_meets_cons_of_not_takesToken (hid : id ∈ unseen)
    (joint : ¬ tree.isJoint id = true) (htoken : ¬ tree.takesToken id = true) :
    (((id :: pending).flatMap (tree.meets unseen)).filter tree.takesToken).eraseDups =
      ((pending.flatMap (tree.meets (unseen.erase id))).filter tree.takesToken).eraseDups := by
  rw [eraseDups_meets_cons, meets_of_not_joint hid joint, List.singleton_append,
    List.filter_cons_of_neg htoken]

/-- Striking off what was met leaves the first appearances as they are. -/
theorem nodes_explore_eq (h : unseen.Nodup) :
    (tree.explore unseen pending).nodes =
      ((pending.flatMap (tree.meets unseen)).filter tree.takesToken).eraseDups := by
  fun_induction explore tree unseen pending with
  | case1 unseen => rfl
  | case2 unseen id pending hid hnone ih =>
    have hnode : tree.node? id = none := by simpa using hnone
    rw [ih (h.erase id), eraseDups_meets_cons_of_not_takesToken hid (by simp [isJoint, hnode])
      (by simp [takesToken, hnode])]
  | case3 unseen id pending hid hfinish rest ih =>
    obtain ⟨node, hnode, hkind⟩ := Option.map_eq_some_iff.mp hfinish
    rw [eraseDups_meets_cons_of_not_takesToken hid
      (by simp [isJoint, hnode, hkind, NodeKind.isJoint])
      (by simp [takesToken, hnode, hkind, NodeKind.isBrowsable, NodeKind.isStructural])]
    exact ih (h.erase id)
  | case4 unseen id pending hid kind hfinish hkind hstructural ih =>
    -- A joint is replaced by its children, in front of what is still pending.
    have joint := isJoint_iff.mpr (isJointAt_of_isStructural hkind (fun h => hfinish h) hstructural)
    rw [ih (h.erase id), eraseDups_meets_cons, meets_of_joint hid joint, List.flatMap_append]
  | case5 unseen id pending hid kind hfinish hkind hstructural rest ih =>
    obtain ⟨node, hnode, rfl⟩ := Option.map_eq_some_iff.mp hkind
    have joint : ¬ tree.isJoint id = true := fun joint =>
      not_isJointAt_of_not_isStructural hkind hstructural (isJoint_iff.mp joint)
    have htoken : tree.takesToken id = true := by
      simp [takesToken, hnode, NodeKind.isBrowsable, hstructural]
    rw [eraseDups_meets_cons, meets_of_not_joint hid joint, List.singleton_append,
      List.filter_cons_of_pos htoken, List.eraseDups_cons]
    have hgone : ((pending.flatMap (tree.meets (unseen.erase id))).filter tree.takesToken).filter
        (fun other => !other == id) =
          (pending.flatMap (tree.meets (unseen.erase id))).filter tree.takesToken := by
      refine List.filter_eq_self.mpr fun other hother => ?_
      obtain ⟨next, -, hmeets⟩ := List.mem_flatMap.mp (List.mem_filter.mp hother).1
      have hne : other ≠ id := by
        rintro rfl
        exact h.not_mem_erase (mem_of_mem_meets hmeets)
      simpa using hne
    rw [hgone, ← ih (h.erase id)]
  | case6 unseen id pending hid ih =>
    rw [ih h, List.flatMap_cons, meets_of_not_mem hid, List.nil_append]

/-! ### Frontiers -/

theorem takesToken_iff :
    tree.takesToken c = true ↔ ∃ node, tree.node? c = some node ∧ node.kind.isBrowsable = true := by
  simp [takesToken, Option.any_eq_true]

/-- The frontier of a node of any tree, edges that lead back included. It holds the nodes that take
a token at the end of a path through joints, each once, in the order in which depth-first
exploration in the order of the edges first meets them. It says whether such a path leads to the
end. A node that takes a token is in its own frontier if such a path leads back to it. -/
theorem frontier_eq_meetsBehind (tree : Tree) (id : NodeId) :
    (∀ c, c ∈ (tree.frontier id).nodes ↔ tree.Leads id c ∧ tree.takesToken c = true) ∧
      (tree.frontier id).nodes.Nodup ∧
      (tree.frontier id).nodes = ((tree.meetsBehind id).filter tree.takesToken).eraseDups ∧
      ((tree.frontier id).reachesFinish = true ↔
        ∃ stop node, tree.Leads id stop ∧ tree.node? stop = some node ∧ node.kind = .finish) ∧
      (id ∈ (tree.frontier id).nodes ↔ tree.takesToken id = true ∧ tree.Leads id id) := by
  have hmem (c : NodeId) :
      c ∈ (tree.frontier id).nodes ↔ tree.Leads id c ∧ tree.takesToken c = true := by
    rw [mem_nodes_frontier_iff, takesToken_iff]
  have hnodes : (tree.frontier id).nodes =
      ((tree.meetsBehind id).filter tree.takesToken).eraseDups :=
    nodes_explore_eq List.nodup_range
  refine ⟨hmem, ?_, hnodes, reachesFinish_frontier_iff, (hmem id).trans and_comm⟩
  rw [hnodes]
  exact nodup_eraseDups _

end CommandShell.Tree
