import CommandShell.Proofs.Tree.Steps
import CommandShell.Tree.Arena

/-!
# The invariants of trees

A tree that is changed in place by calls is the tree that the calls that succeed make, step by step:
a call that fails has changed nothing by then. So what each node and each edge preserves is true
after any calls.

## Main results

* `Edit.run_add`, `Edit.run_link` — a change in place either makes its step or changes nothing
* `stepsTo_afterAll` — calls make a tree step by step
* `IsArena.add`, `IsArena.link` — what each step preserves
* `isArena_of_calls` — what is true of a tree after any calls, and of each call that fails
-/

namespace CommandShell.Tree

variable {tree tree' : Tree} {kind : NodeKind} {label : String} {id parent child i p c : NodeId}
  {isLoop : Bool} {call : Call} {calls : List Call}

/-! ### Changes in place -/

namespace Edit

/-- Adding a node in place makes the tree with that node, or fails and changes nothing. -/
theorem run_add (tree : Tree) (kind : NodeKind) (label : String) :
    (add kind label).run tree =
      match tree.add kind label with
      | .ok (tree', id) => .ok id tree'
      | .error e => .error e tree := by
  unfold add Tree.add
  simp only [EStateM.run_bind, EStateM.run_get]
  cases kind with
  | start => rfl
  | finish => cases tree.finish? <;> rfl
  | _ => rfl

/-- Adding an edge in place makes the tree with that edge, or fails and changes nothing. -/
theorem run_link (tree : Tree) (parent child : NodeId) (isLoop : Bool) :
    (link parent child isLoop).run tree =
      match tree.link parent child isLoop with
      | .ok tree' => .ok () tree'
      | .error e => .error e tree := by
  unfold link Tree.link
  simp only [EStateM.run_bind, EStateM.run_get]
  -- The checks come one after the other, and both sides fail with the first that does.
  cases tree.node? child with
  | none => rfl
  | some target =>
    simp only
    split
    · rfl
    cases tree.node? parent with
    | none => rfl
    | some source =>
      simp only
      split <;> rfl

/-- Either the edge is the next step, or nothing changes. -/
theorem link_cases (tree : Tree) (parent child : NodeId) (isLoop : Bool) :
    (∃ tree', (link parent child isLoop).run tree = .ok () tree' ∧ tree.StepsTo tree') ∨
      ∃ e, (link parent child isLoop).run tree = .error e tree := by
  rw [run_link]
  cases hlink : tree.link parent child isLoop with
  | ok linked => exact .inl ⟨linked, rfl, .link .refl hlink⟩
  | error e => exact .inr ⟨e, rfl⟩

end Edit

/-! ### Calls -/

/-- A call makes one step, or fails and changes nothing. -/
theorem perform_cases (tree : Tree) (call : Call) :
    (∃ tree', call.perform.run tree = .ok () tree' ∧ tree.StepsTo tree') ∨
      ∃ e, call.perform.run tree = .error e tree := by
  cases call with
  | add kind label =>
    rw [Call.perform, EStateM.run_bind, Edit.run_add]
    cases hadd : tree.add kind label with
    | ok added => exact .inl ⟨added.1, rfl, .add .refl hadd⟩
    | error e => exact .inr ⟨e, rfl⟩
  | addChild parent child => exact Edit.link_cases tree parent child false
  | addLoopChild parent child => exact Edit.link_cases tree parent child true

theorem stepsTo_after (tree : Tree) (call : Call) : tree.StepsTo (tree.after call) := by
  rw [after]
  rcases perform_cases tree call with ⟨tree', hrun, hstep⟩ | ⟨e, hrun⟩
  · rwa [hrun]
  · rw [hrun]
    exact .refl

/-- Calls make a tree step by step. -/
theorem stepsTo_afterAll (tree : Tree) (calls : List Call) :
    tree.StepsTo (tree.afterAll calls) := by
  induction calls generalizing tree with
  | nil => exact .refl
  | cons call calls ih => exact (stepsTo_after tree call).trans (ih _)

/-! ### Both ends of an edge -/

theorem parents_add (h : tree.add kind label = .ok (tree', id)) :
    tree'.parents i = tree.parents i := by
  rw [parents, node?_add h]
  split
  · simp_all [parents, node?, size]
  · rfl

theorem parents_link (h : tree.link parent child isLoop = .ok tree') :
    tree'.parents i = if child = i then tree.parents i ++ [parent] else tree.parents i := by
  obtain ⟨-, hchild, -, rfl⟩ := link_eq_ok h
  rw [parents, node?_connect, parents]
  cases hnode : tree.node? i with
  | none =>
    have hne : child ≠ i := by
      rintro rfl
      exact absurd (Array.getElem?_eq_none_iff.mp hnode) (Nat.not_le.mpr hchild)
    simp [hne]
  | some node =>
    simp only [Option.map_some, Option.getD_some]
    split <;> split <;> rfl

theorem parents_initial (i : NodeId) : initial.parents i = [] := by
  cases i <;> rfl

theorem parents_eq_nil (h : tree.size ≤ i) : tree.parents i = [] := by
  simp [parents, node?, Array.getElem?_eq_none h]

/-- A node that takes a token has no parent when it is given one. -/
theorem parents_eq_nil_of_link (h : tree.link parent child isLoop = .ok tree')
    (hkind : tree.KindAt child kind) (hbrowsable : kind.isBrowsable = true) :
    tree.parents child = [] := by
  obtain ⟨node, hnode, rfl⟩ := Option.map_eq_some_iff.mp hkind
  rw [parents, hnode]
  by_contra hparents
  have hrefused : tree.link parent child isLoop = .error (.reparent node.label) := by
    simp only [link, hnode]
    exact if_pos ⟨hbrowsable, hparents⟩
  cases hrefused.symm.trans h

/-! ### Steps -/

theorem kindAt_add_iff {other : NodeKind} (h : tree.add kind label = .ok (tree', id)) :
    tree'.KindAt i other ↔ (i = tree.size ∧ other = kind) ∨ tree.KindAt i other := by
  rw [kindAt_iff, symbol?_add h, kindAt_iff]
  by_cases hi : i = tree.size
  · have hfree : tree.symbol? i = none := by
      rw [symbol?, node?, Array.getElem?_eq_none (Nat.le_of_eq hi.symm)]
      rfl
    simp [hi, hi ▸ hfree, eq_comm]
  · simp [hi]

theorem isArena_initial : initial.IsArena where
  start_iff id := StepsTo.kindAt_start_iff .refl
  finish_iff id := by
    refine iff_of_false (fun hkind => ?_) nofun
    cases StepsTo.finish?_of_kindAt .refl hkind
  target_lt id := by simp [targets_initial]
  parent_lt id := by simp [parents_initial]
  count_eq parent child := by simp [targets_initial, parents_initial]
  length_parents_le id kind _ _ := by simp [parents_initial]
  children_finish id _ := children_initial

/-- A new node has no edges, so only the kinds of nodes and the end change. -/
theorem IsArena.add (h : tree.IsArena) (hadd : tree.add kind label = .ok (tree', id)) :
    tree'.IsArena := by
  obtain ⟨hfinish, hnone⟩ := finish?_add hadd
  have hid := (add_eq_ok hadd).1
  refine ⟨fun i => ?_, fun i => ?_, fun i target htarget => ?_, fun i parent hparent => ?_,
    fun p c => ?_, fun i other hother hbrowsable => ?_, fun i hother => ?_⟩
  · have hne : .start ≠ kind := by
      rintro rfl
      cases hadd
    rw [kindAt_add_iff hadd, h.start_iff, or_iff_right fun hnew => hne hnew.2]
  · rw [kindAt_add_iff hadd, h.finish_iff, hfinish, ← hid]
    by_cases hkind : kind = .finish
    · simp [hkind, hnone hkind, eq_comm]
    · simp [hkind, Ne.symm hkind]
  · rw [targets_add hadd] at htarget
    rw [size_add hadd]
    exact Nat.lt_succ_of_lt (h.target_lt i target htarget)
  · rw [parents_add hadd] at hparent
    rw [size_add hadd]
    exact Nat.lt_succ_of_lt (h.parent_lt i parent hparent)
  · rw [targets_add hadd, parents_add hadd, h.count_eq]
  · rw [parents_add hadd]
    rcases (kindAt_add_iff hadd).mp hother with ⟨rfl, -⟩ | hother
    · rw [parents_eq_nil (Nat.le_refl _)]
      exact Nat.zero_le 1
    · exact h.length_parents_le i other hother hbrowsable
  · rw [children_add hadd]
    rcases (kindAt_add_iff hadd).mp hother with ⟨rfl, -⟩ | hother
    · exact children_eq_nil (Nat.le_refl _)
    · exact h.children_finish i hother

/-- A new edge is noted at both of its ends, and its checks keep it away from the end and from a
second parent of a node that takes a token. -/
theorem IsArena.link (h : tree.IsArena) (hlink : tree.link parent child isLoop = .ok tree') :
    tree'.IsArena := by
  obtain ⟨hparent, hchild, hopen, htree⟩ := link_eq_ok hlink
  refine ⟨fun id => ?_, fun id => ?_, fun id target htarget => ?_, fun id other hother => ?_,
    fun p c => ?_, fun id kind hkind hbrowsable => ?_, fun id hkind => ?_⟩
  · rw [kindAt_link_iff hlink, h.start_iff]
  · rw [kindAt_link_iff hlink, h.finish_iff, htree]
    rfl
  · rw [size_link hlink]
    rcases (mem_targets_link hlink).mp htarget with htarget | ⟨-, rfl⟩
    · exact h.target_lt id target htarget
    · exact hchild
  · rw [size_link hlink]
    rw [parents_link hlink] at hother
    split at hother
    · rcases List.mem_append.mp hother with hother | hother
      · exact h.parent_lt id other hother
      · rw [List.mem_singleton.mp hother]
        exact hparent
    · exact h.parent_lt id other hother
  · rw [targets_link hlink, parents_link hlink]
    have hcount := h.count_eq p c
    -- The edge counts once at either end, also if it leads back to where it begins.
    by_cases hp : parent = p <;> by_cases hc : child = c <;> simp [hp, hc, hcount]
  · rw [kindAt_link_iff hlink] at hkind
    rw [parents_link hlink]
    split
    · subst child
      rw [parents_eq_nil_of_link hlink hkind hbrowsable]
      rfl
    · exact h.length_parents_le id kind hkind hbrowsable
  · rw [kindAt_link_iff hlink] at hkind
    rw [children_link hlink]
    split
    · subst parent
      obtain ⟨label, hsymbol⟩ := kindAt_iff.mp hkind
      exact absurd rfl (hopen _ hsymbol)
    · exact h.children_finish id hkind

/-- Steps keep the invariants. -/
theorem StepsTo.isArena (h : tree.StepsTo tree') (harena : tree.IsArena) : tree'.IsArena := by
  induction h with
  | refl => exact harena
  | add _ hadd ih => exact ih.add hadd
  | link _ hlink ih => exact ih.link hlink

/-- The invariants of a tree after any calls, whether or not they succeed and whatever indices they
name. The root is its only start; it has one end at most, and notes it; edges run between nodes, and
both ends of an edge know of it as often as there is one; a node that takes a token has at most one
parent, and the end has no children. A call that fails leaves the whole tree as it was. -/
theorem isArena_of_calls (calls : List Call) :
    (initial.afterAll calls).IsArena ∧
      ∀ (call : Call) e tree', call.perform.run (initial.afterAll calls) = .error e tree' →
        tree' = initial.afterAll calls := by
  refine ⟨(stepsTo_afterAll initial calls).isArena isArena_initial, fun call e tree' hfails => ?_⟩
  rcases perform_cases (initial.afterAll calls) call with ⟨next, hrun, -⟩ | ⟨e', hrun⟩
  · cases hrun.symm.trans hfails
  · cases hrun.symm.trans hfails
    rfl

/-- Edges from a hook to itself, and two calls that fail: for an edge that would leave the end, and
for one from a node that is not there. -/
theorem isArena_of_calls_refused :
    let tree := initial.afterAll [.add .hook "hook", .addChild 1 1, .addLoopChild 1 1,
      .add .finish "end", .addChild 2 1, .addChild 9 1]
    tree.IsArena ∧ tree.parents 1 = [1, 1] ∧ ∃ tree',
      (Call.addChild 2 1).perform.run tree = .error .childOfFinish tree' ∧ tree' = tree := by
  intro tree
  obtain ⟨harena, hfails⟩ := isArena_of_calls [.add .hook "hook", .addChild 1 1,
    .addLoopChild 1 1, .add .finish "end", .addChild 2 1, .addChild 9 1]
  have hrefused : (Call.addChild 2 1).perform.run tree = .error .childOfFinish tree := rfl
  exact ⟨harena, by decide +kernel, tree, hrefused, hfails _ _ _ hrefused⟩

end CommandShell.Tree
