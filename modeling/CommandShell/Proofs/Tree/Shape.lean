import CommandShell.Proofs.Tree.Frontier
import CommandShell.Proofs.Tree.Grafting

/-!
# The shape of a built tree

A rule list whose last rule ends the line is built into a complete tree: one graft between the root
and the end. In such a tree one can go on from every node but the end, to a node that takes a token
or to the end itself.

## Main results

* `isShaped_build` — the tree of a rule list is complete
* `IsShaped.exists_next` — only behind the end can nothing come next
-/

namespace CommandShell.Tree

variable {args : ArgumentSet} {rules : List Rule} {tree : Tree} {id a b stop i : NodeId}

/-- The tree of a rule list that ends the line is complete. -/
theorem isShaped_build (h : build args rules = .ok tree)
    (hlast : rules.getLast?.map Rule.kind = some .finish) : tree.IsShaped := by
  have hrules : rules ≠ [] := by
    rintro rfl
    cases hlast
  obtain ⟨stop, hattaches, hstop⟩ := attaches_buildFrom h hrules (Nat.zero_lt_one : root < 1)
  have hsteps := hattaches.steps
  have hcases (id : NodeId) : id = root ∨ initial.size ≤ id := by
    rw [root, show initial.size = 1 from rfl]
    lia
  have hroot : tree.KindAt root .start := hsteps.kindAt_start_iff.mpr rfl
  have hmarked : ∀ id, ∀ edge ∈ tree.children id, edge.isLoop = true → tree.KindAt id .loop := by
    intro id
    rcases hcases id with rfl | hid
    · exact hattaches.loop_of_isLoop_of_lt Nat.zero_lt_one (by simp [children_initial])
    · exact hattaches.loop_of_isLoop id hid
  refine ⟨fun id => hsteps.kindAt_start_iff, ⟨stop, fun id => ?_, fun id hid => ?_⟩, ?_,
    hattaches.acyclic acyclic_initial, fun id hkind => ?_, hmarked, fun id arg hkind => ?_⟩
  · constructor
    · intro hkind
      have hid := hsteps.finish?_of_kindAt hkind
      rw [hsteps.finish?_of_kindAt (hstop hlast)] at hid
      exact (Option.some.inj hid).symm
    · rintro rfl
      exact hstop hlast
  · rcases hcases id with rfl | hle
    · exact hattaches.path
    · exact hattaches.left id hle hid
  · intro id hid
    rcases hcases id with rfl | hle
    · exact .refl
    · exact hattaches.entered id hle hid
  · rcases hcases id with rfl | hle
    · cases hkind.unique hroot
    · exact hattaches.loops_closed id hle hkind
  · obtain ⟨last, hgrows⟩ := build_grows h
    obtain ⟨label, hlabel⟩ := kindAt_iff.mp hkind
    obtain ⟨value, htargets, hvalue⟩ := hgrows.flags hlabel
    refine ⟨value, ?_, kindAt_iff.mpr ⟨label, hvalue⟩⟩
    obtain ⟨⟨target, isLoop⟩, hchildren, rfl⟩ := List.map_eq_singleton_iff.mp htargets
    cases isLoop with
    | false => exact hchildren
    | true => cases hkind.unique (hmarked id _ (by rw [hchildren]; exact List.mem_cons_self) rfl)

/-- A path to the end comes to a node that is no joint, through joints only. -/
theorem exists_leads_of_plainPath (h : tree.PlainPath a stop) (hstop : tree.KindAt stop .finish)
    (hne : a ≠ stop) :
    ∃ c node, tree.Leads a c ∧ tree.node? c = some node ∧ node.kind.isJoint = false := by
  obtain ⟨finish, hfinish, hfinishKind⟩ := Option.map_eq_some_iff.mp hstop
  induction h using Relation.ReflTransGen.head_induction_on with
  | refl => exact absurd rfl hne
  | @head a b hedge hrest ih =>
    have hchild : b ∈ tree.targets a :=
      List.mem_map.mpr ⟨_, plainEdge_iff.mp hedge, rfl⟩
    by_cases hb : b = stop
    · subst hb
      exact ⟨b, finish, .edge hchild, hfinish, by rw [hfinishKind]; rfl⟩
    · obtain ⟨next, hnext, -⟩ := (Relation.ReflTransGen.cases_head hrest).resolve_left hb
      obtain ⟨node, hnode⟩ : ∃ node, tree.node? b = some node :=
        ⟨_, Array.getElem?_eq_getElem (lt_size_of_mem_children (plainEdge_iff.mp hnext))⟩
      cases hkind : node.kind.isJoint with
      | false => exact ⟨b, node, .edge hchild, hnode, hkind⟩
      | true =>
        obtain ⟨c, other, hleads, hother⟩ := ih hb
        exact ⟨c, other, .through hchild ⟨node, hnode, hkind⟩ hleads, hother⟩

/-- Only behind the end can nothing come next. -/
theorem IsShaped.exists_next (h : tree.IsShaped) (hid : id < tree.size)
    (hkind : ¬ tree.KindAt id .finish) :
    (tree.frontier id).nodes ≠ [] ∨ (tree.frontier id).reachesFinish = true := by
  obtain ⟨stop, hstop, hpath⟩ := h.exists_finish
  have hne : id ≠ stop := by
    rintro rfl
    exact hkind ((hstop id).mpr rfl)
  obtain ⟨c, node, hleads, hnode, hjoint⟩ :=
    exists_leads_of_plainPath (hpath id hid) ((hstop stop).mpr rfl) hne
  by_cases hfinish : node.kind = .finish
  · exact .inr (reachesFinish_frontier_iff.mpr ⟨c, node, hleads, hnode, hfinish⟩)
  · have hbrowsable : node.kind.isBrowsable = true := by
      cases hnodeKind : node.kind <;> simp_all [NodeKind.isJoint] <;> rfl
    have hmem : c ∈ (tree.frontier id).nodes :=
      mem_nodes_frontier_iff.mpr ⟨hleads, node, hnode, hbrowsable⟩
    exact .inl (List.ne_nil_of_mem hmem)

end CommandShell.Tree
