import CommandShell.Proofs.Tree.Arena
import CommandShell.Tree.Outline
import CommandShell.Tree.Sketch
import Mathlib.Algebra.BigOperators.Group.Finset.Basic

/-!
# What an outline shows

An outline strikes nodes off as it writes them, so it comes to an end on every tree, also on one
whose plain edges go around. It shows every node that can be reached from the root, each once with
its children below it, and one more line for every further edge to a node that was met before.

## Main definitions

* `Sketch.expandedIds` — the nodes that are expanded
* `Tree.Draws` — nodes side by side are drawn as a sketch, which strikes nodes off

## Main results

* `Draws.perm` — what is struck off is what is expanded
* `Draws.isExpanded_first` — a node is expanded in the first of its rows
* `outlineLine_caption` — a line of an outline is written as its row
* `Draws.outlineLines_eq` — the lines of an outline are the rows of the sketch that is drawn
* `outline_of_calls` — the outline of a tree after any calls
-/

namespace CommandShell

namespace Sketch

variable {tree : Tree} {depth : Nat} {id target : NodeId} {sketch : Sketch}

/-- The nodes that are expanded, in the order of their rows. -/
def expandedIds : Sketch → List NodeId
  | done => []
  | expanded id below next => id :: (below.expandedIds ++ next.expandedIds)
  | again _ next => next.expandedIds

theorem map_id_filter_rows (depth : Nat) (sketch : Sketch) :
    ((sketch.rows depth).filter Row.isExpanded).map Row.id = sketch.expandedIds := by
  induction sketch generalizing depth with
  | done => rfl
  | expanded id below next ihbelow ihnext => simp [rows, expandedIds, ihbelow, ihnext]
  | again id next ih => simp [rows, expandedIds, ih]

theorem mem_expandedIds_iff (depth : Nat) :
    id ∈ sketch.expandedIds ↔ ∃ row ∈ sketch.rows depth, row.isExpanded = true ∧ row.id = id := by
  simp [← map_id_filter_rows depth, and_assoc]

theorem countP_expanded_eq (depth : Nat) :
    (sketch.rows depth).countP (fun row => row.isExpanded && row.id == id) =
      sketch.expandedIds.count id := by
  rw [← map_id_filter_rows depth, List.count, List.countP_map, List.countP_filter]
  simp [Bool.and_comm]

/-- The nodes that stand side by side have rows. -/
theorem exists_row_of_mem_roots (depth : Nat) (h : id ∈ sketch.roots) :
    ∃ row ∈ sketch.rows depth, row.id = id := by
  induction sketch with
  | done => cases h
  | expanded other below next _ ih =>
    rcases List.mem_cons.mp h with rfl | h
    · exact ⟨_, List.mem_cons_self, rfl⟩
    · obtain ⟨row, hrow, hid⟩ := ih h
      exact ⟨row, List.mem_cons_of_mem _ (List.mem_append_right _ hrow), hid⟩
  | again other next ih =>
    rcases List.mem_cons.mp h with rfl | h
    · exact ⟨_, List.mem_cons_self, rfl⟩
    · obtain ⟨row, hrow, hid⟩ := ih h
      exact ⟨row, List.mem_cons_of_mem _ hrow, hid⟩

/-- The children of an expanded node have rows. -/
theorem Follows.exists_row (h : sketch.Follows tree) (depth : Nat) (hid : id ∈ sketch.expandedIds)
    (htarget : target ∈ tree.plainTargets id) : ∃ row ∈ sketch.rows depth, row.id = target := by
  induction sketch generalizing depth with
  | done => cases hid
  | expanded other below next ihbelow ihnext =>
    obtain ⟨hroots, hbelow, hnext⟩ := h
    rcases List.mem_cons.mp hid with rfl | hid
    · obtain ⟨row, hrow, hrow'⟩ := exists_row_of_mem_roots (depth + 1) (hroots ▸ htarget)
      exact ⟨row, List.mem_cons_of_mem _ (List.mem_append_left _ hrow), hrow'⟩
    · rcases List.mem_append.mp hid with hid | hid
      · obtain ⟨row, hrow, hrow'⟩ := ihbelow hbelow (depth + 1) hid
        exact ⟨row, List.mem_cons_of_mem _ (List.mem_append_left _ hrow), hrow'⟩
      · obtain ⟨row, hrow, hrow'⟩ := ihnext hnext depth hid
        exact ⟨row, List.mem_cons_of_mem _ (List.mem_append_right _ hrow), hrow'⟩
  | again other next ih =>
    obtain ⟨row, hrow, hrow'⟩ := ih h depth hid
    exact ⟨row, List.mem_cons_of_mem _ hrow, hrow'⟩

/-- Each edge that leaves an expanded node leads to a row of its own, and the nodes that stand side
by side have theirs. -/
theorem Follows.length_rows (h : sketch.Follows tree) (depth : Nat) :
    (sketch.rows depth).length =
      sketch.roots.length + (sketch.expandedIds.flatMap tree.plainTargets).length := by
  induction sketch generalizing depth with
  | done => rfl
  | expanded id below next ihbelow ihnext =>
    obtain ⟨hroots, hbelow, hnext⟩ := h
    simp only [rows, roots, expandedIds, List.length_cons, List.length_append, List.flatMap_cons,
      List.flatMap_append, ihbelow hbelow, ihnext hnext, hroots]
    omega
  | again id next ih =>
    simp only [rows, roots, expandedIds, List.length_cons, ih h]
    omega

end Sketch

namespace Tree

variable {tree : Tree} {unseen mid after ids : List NodeId} {id : NodeId} {sketch : Sketch}

/-- The nodes `ids` are drawn side by side, if only those in `unseen` have not been met yet; those
in `after` are left. -/
inductive Draws (tree : Tree) :
    (unseen ids : List NodeId) → Sketch → (after : List NodeId) → Prop
  | done {unseen : List NodeId} : Draws tree unseen [] .done unseen
  /-- A node is struck off before what is below it is drawn, and that before what is behind it. -/
  | expanded {unseen mid after ids : List NodeId} {id : NodeId} {below next : Sketch}
    (hid : id ∈ unseen) (hbelow : Draws tree (unseen.erase id) (tree.plainTargets id) below mid)
    (hnext : Draws tree mid ids next after) :
    Draws tree unseen (id :: ids) (.expanded id below next) after
  /-- Nothing is drawn below a node that was met before. -/
  | again {unseen after ids : List NodeId} {id : NodeId} {next : Sketch} (hid : id ∉ unseen)
    (hnext : Draws tree unseen ids next after) :
    Draws tree unseen (id :: ids) (.again id next) after

/-- The line of a node, with its dots if it was met before, is that of its row. -/
theorem outlineLine_caption {node : Node} (h : tree.node? id = some node) (depth : Nat)
    (isExpanded : Bool) :
    outlineLine depth (if isExpanded then node.caption else node.caption ++ " ...") =
      Row.text tree ⟨depth, id, isExpanded⟩ := by
  have hcaption : node.caption.toList = node.kind.written node.label.toList := by
    cases hkind : node.kind <;> simp [Node.caption, NodeKind.written, hkind]
  apply String.toList_injective
  cases isExpanded <;> simp [outlineLine, Row.text, h, hcaption]

namespace Draws

theorem roots_eq (h : tree.Draws unseen ids sketch after) : sketch.roots = ids := by
  induction h with
  | done => rfl
  | expanded _ _ _ _ ih => exact congrArg _ ih
  | again _ _ ih => exact congrArg _ ih

theorem follows (h : tree.Draws unseen ids sketch after) : sketch.Follows tree := by
  induction h with
  | done => trivial
  | expanded _ hbelow _ ihbelow ihnext => exact ⟨hbelow.roots_eq, ihbelow, ihnext⟩
  | again _ _ ih => exact ih

/-- What is struck off is what is expanded. -/
theorem perm (h : tree.Draws unseen ids sketch after) :
    unseen.Perm (sketch.expandedIds ++ after) := by
  induction h with
  | done => exact .refl _
  | @expanded unseen mid after ids id below next hid _ _ ihbelow ihnext =>
    have hmid := ihbelow.trans (ihnext.append_left below.expandedIds)
    rw [← List.append_assoc] at hmid
    exact (List.perm_cons_erase hid).trans (hmid.cons id)
  | again _ _ ih => exact ih

/-- What is left was there before, and has not been expanded. -/
theorem mem_unseen_iff (h : tree.Draws unseen ids sketch after) :
    id ∈ unseen ↔ id ∈ sketch.expandedIds ∨ id ∈ after := by
  rw [h.perm.mem_iff, List.mem_append]

theorem length_le (h : tree.Draws unseen ids sketch after) : after.length ≤ unseen.length := by
  rw [h.perm.length_eq, List.length_append]
  exact Nat.le_add_left _ _

/-- Each row shows a node that can be reached from one of those that stand side by side. -/
theorem exists_path (h : tree.Draws unseen ids sketch after) (depth : Nat) {row : Row}
    (hrow : row ∈ sketch.rows depth) : ∃ id ∈ ids, tree.PlainPath id row.id := by
  induction h generalizing depth with
  | done => cases hrow
  | expanded _ _ _ ihbelow ihnext =>
    rcases List.mem_cons.mp hrow with rfl | hrow
    · exact ⟨_, List.mem_cons_self, .refl⟩
    · rcases List.mem_append.mp hrow with hrow | hrow
      · obtain ⟨child, hchild, hpath⟩ := ihbelow (depth + 1) hrow
        exact ⟨_, List.mem_cons_self, .head hchild hpath⟩
      · obtain ⟨other, hother, hpath⟩ := ihnext depth hrow
        exact ⟨other, List.mem_cons_of_mem _ hother, hpath⟩
  | again _ _ ih =>
    rcases List.mem_cons.mp hrow with rfl | hrow
    · exact ⟨_, List.mem_cons_self, .refl⟩
    · obtain ⟨other, hother, hpath⟩ := ih depth hrow
      exact ⟨other, List.mem_cons_of_mem _ hother, hpath⟩

/-- What stands below the root can be reached from it. -/
theorem plainPath_of_mem_rows (h : tree.Draws unseen [root] sketch after) (depth : Nat) {row : Row}
    (hrow : row ∈ sketch.rows depth) : tree.PlainPath root row.id := by
  obtain ⟨id, hid, hpath⟩ := h.exists_path depth hrow
  rwa [List.mem_singleton.mp hid] at hpath

/-- A node is struck off only once. -/
theorem nodup_expandedIds (h : tree.Draws unseen ids sketch after) (hunseen : unseen.Nodup) :
    sketch.expandedIds.Nodup :=
  (List.nodup_append.mp (h.perm.nodup_iff.mp hunseen)).1

/-- A node that has not been met yet is expanded in the first of its rows. -/
theorem isExpanded_first (h : tree.Draws unseen ids sketch after) (depth : Nat) {row : Row}
    (hid : id ∈ unseen) (hrow : (sketch.rows depth).find? (·.id == id) = some row) :
    row.isExpanded = true := by
  induction h generalizing depth with
  | done => cases hrow
  | @expanded unseen mid after ids other below next hother hbelow hnext ihbelow ihnext =>
    by_cases heq : other = id
    · subst heq
      rw [Sketch.rows, List.find?_cons_of_pos (by simp)] at hrow
      cases hrow
      rfl
    · rw [Sketch.rows, List.find?_cons_of_neg (by simpa using heq), List.find?_append] at hrow
      have hrest : id ∈ unseen.erase other := (List.mem_erase_of_ne (Ne.symm heq)).mpr hid
      rcases Option.or_eq_some_iff.mp hrow with hrow | ⟨hnone, hrow⟩
      · exact ihbelow (depth + 1) hrest hrow
      · -- A node without a row below has not been struck off there.
        refine ihnext depth ((hbelow.mem_unseen_iff.mp hrest).resolve_left fun hid => ?_) hrow
        obtain ⟨first, hfirst, -, hid⟩ := (Sketch.mem_expandedIds_iff (depth + 1)).mp hid
        simpa [hid] using List.find?_eq_none.mp hnone first hfirst
  | @again unseen after ids other next hother _ ih =>
    have hne : ¬ other = id := by
      rintro rfl
      exact hother hid
    rw [Sketch.rows, List.find?_cons_of_neg (by simpa using hne)] at hrow
    exact ih depth hid hrow

/-- The lines of an outline are the rows of the sketch that is drawn. -/
theorem outlineLines_eq (h : tree.Draws unseen ids sketch after)
    (hclosed : ∀ id, ∀ target ∈ tree.plainTargets id, target < tree.size)
    (hids : ∀ id ∈ ids, id < tree.size) (depth : Nat) (pending : List (Nat × NodeId)) :
    tree.outlineLines unseen (ids.map (depth, ·) ++ pending) =
      (sketch.rows depth).map (Row.text tree) ++ tree.outlineLines after pending := by
  induction h generalizing depth pending with
  | done => rfl
  | @expanded unseen mid after ids id below next hid _ _ ihbelow ihnext =>
    rw [List.forall_mem_cons] at hids
    obtain ⟨node, hnode⟩ : ∃ node, tree.node? id = some node :=
      ⟨_, Array.getElem?_eq_getElem hids.1⟩
    rw [List.map_cons, List.cons_append, outlineLines]
    simp only [hnode, dif_pos hid]
    rw [ihbelow (hclosed id), ihnext hids.2]
    simp [Sketch.rows, ← outlineLine_caption hnode]
  | @again unseen after ids id next hid _ ih =>
    rw [List.forall_mem_cons] at hids
    obtain ⟨node, hnode⟩ : ∃ node, tree.node? id = some node :=
      ⟨_, Array.getElem?_eq_getElem hids.1⟩
    rw [List.map_cons, List.cons_append, outlineLines]
    simp only [hnode, dif_neg hid]
    rw [ih hids.2]
    simp [Sketch.rows, ← outlineLine_caption hnode]

end Draws

/-- Nodes side by side can be drawn on every tree. -/
theorem exists_draws (tree : Tree) (unseen ids : List NodeId) :
    ∃ sketch after, tree.Draws unseen ids sketch after := by
  -- What is below a node is drawn from fewer nodes, and so is what is behind it.
  induction hlength : unseen.length using Nat.strongRecOn generalizing unseen ids with
  | ind length ih =>
    subst hlength
    induction ids with
    | nil => exact ⟨.done, unseen, .done⟩
    | cons id ids ihids =>
      by_cases hid : id ∈ unseen
      · have hlt := length_erase_lt hid
        obtain ⟨below, mid, hbelow⟩ := ih _ hlt (unseen.erase id) (tree.plainTargets id) rfl
        obtain ⟨next, after, hnext⟩ := ih _ (hbelow.length_le.trans_lt hlt) mid ids rfl
        exact ⟨_, _, .expanded hid hbelow hnext⟩
      · obtain ⟨next, after, hnext⟩ := ihids
        exact ⟨_, _, .again hid hnext⟩

/-! ### The sketch of a whole tree -/

theorem IsArena.plainTarget_lt (h : tree.IsArena) (id : NodeId) :
    ∀ target ∈ tree.plainTargets id, target < tree.size := by
  intro target htarget
  obtain ⟨edge, hedge, rfl⟩ := List.mem_map.mp htarget
  exact h.target_lt id _ (List.mem_map_of_mem (List.mem_filter.mp hedge).1)

theorem IsArena.root_lt (h : tree.IsArena) : root < tree.size :=
  ((h.start_iff root).mpr rfl).lt_size

theorem IsArena.lt_size_of_plainPath (h : tree.IsArena) (hpath : tree.PlainPath root id) :
    id < tree.size := by
  cases hpath with
  | refl => exact h.root_lt
  | tail _ hedge => exact h.plainTarget_lt _ _ hedge

section Whole

variable (h : tree.IsArena) (hdraws : tree.Draws (List.range tree.size) [root] sketch after)

include h hdraws

/-- A node that has a row is expanded. -/
theorem mem_expandedIds_of_mem_rows {row : Row} (hrow : row ∈ sketch.rows 0) :
    row.id ∈ sketch.expandedIds := by
  have hlt := h.lt_size_of_plainPath (hdraws.plainPath_of_mem_rows 0 hrow)
  obtain ⟨first, hfirst⟩ : ∃ first, (sketch.rows 0).find? (·.id == row.id) = some first :=
    Option.isSome_iff_exists.mp (List.find?_isSome.mpr ⟨row, hrow, by simp⟩)
  have hexpanded := hdraws.isExpanded_first 0 (List.mem_range.mpr hlt) hfirst
  have hid : first.id = row.id := by simpa using List.find?_some hfirst
  exact (Sketch.mem_expandedIds_iff 0).mpr ⟨first, List.mem_of_find?_eq_some hfirst, hexpanded, hid⟩

/-- The nodes that are expanded are those that the root leads to. -/
theorem mem_expandedIds_iff_plainPath : id ∈ sketch.expandedIds ↔ tree.PlainPath root id := by
  constructor
  · intro hid
    obtain ⟨row, hrow, -, rfl⟩ := (Sketch.mem_expandedIds_iff 0).mp hid
    exact hdraws.plainPath_of_mem_rows 0 hrow
  · intro hpath
    -- Along the path, from an expanded node to the rows of its children.
    induction hpath with
    | refl =>
      have hroot : root ∈ sketch.roots := hdraws.roots_eq ▸ List.mem_singleton_self root
      obtain ⟨row, hrow, hid⟩ := Sketch.exists_row_of_mem_roots 0 hroot
      exact hid ▸ mem_expandedIds_of_mem_rows h hdraws hrow
    | tail _ hedge ih =>
      obtain ⟨row, hrow, hid⟩ := hdraws.follows.exists_row 0 ih hedge
      exact hid ▸ mem_expandedIds_of_mem_rows h hdraws hrow

/-- The sketch that is drawn from the root shows the tree. -/
theorem outlines_of_draws : sketch.Outlines tree where
  roots_eq := hdraws.roots_eq
  follows := hdraws.follows
  countP_expanded id hpath := by
    rw [Sketch.countP_expanded_eq 0]
    exact List.count_eq_one_of_mem (hdraws.nodup_expandedIds List.nodup_range)
      ((mem_expandedIds_iff_plainPath h hdraws).mpr hpath)
  reached row hrow := hdraws.plainPath_of_mem_rows 0 hrow
  isExpanded_first id row hrow := by
    have hid : row.id = id := by simpa using List.find?_some hrow
    have hpath := hdraws.plainPath_of_mem_rows 0 (List.mem_of_find?_eq_some hrow)
    have hlt := h.lt_size_of_plainPath (hid ▸ hpath)
    exact hdraws.isExpanded_first 0 (List.mem_range.mpr hlt) hrow

open Classical in
/-- The root has a row, and so has each plain edge of a node that the root leads to. -/
theorem length_rows_of_draws : (sketch.rows 0).length =
    1 + ∑ id ∈ Finset.range tree.size with tree.PlainPath root id,
      (tree.plainTargets id).length := by
  have hids : sketch.expandedIds.toFinset =
      (Finset.range tree.size).filter (tree.PlainPath root ·) := by
    ext id
    rw [List.mem_toFinset, mem_expandedIds_iff_plainPath h hdraws, Finset.mem_filter,
      Finset.mem_range]
    exact ⟨fun hpath => ⟨h.lt_size_of_plainPath hpath, hpath⟩, And.right⟩
  rw [hdraws.follows.length_rows, hdraws.roots_eq, List.length_flatMap, ← hids,
    List.sum_toFinset _ (hdraws.nodup_expandedIds List.nodup_range)]
  rfl

end Whole

/-! ### The text of an outline -/

/-- A line has no line feed if no label has. -/
theorem not_mem_text (h : ∀ node ∈ tree.nodes, '\n' ∉ node.label.toList) (row : Row) :
    '\n' ∉ (row.text tree).toList := by
  rw [Row.text]
  split
  · simp
  · next node hnode =>
    have hlabel := h node (Array.mem_of_getElem? hnode)
    have hwritten : '\n' ∉ node.kind.written node.label.toList := by
      cases node.kind <;> simp [NodeKind.written, hlabel]
    cases row.isExpanded <;> simp [hwritten]

theorem count_flatMap_lines {rows : List Row} (h : ∀ row ∈ rows, '\n' ∉ (row.text tree).toList) :
    (rows.flatMap fun row => (row.text tree).toList ++ ['\n']).count '\n' = rows.length := by
  induction rows with
  | nil => rfl
  | cons row rows ih =>
    rw [List.forall_mem_cons] at h
    rw [List.flatMap_cons, List.count_append, List.count_append, List.count_eq_zero.mpr h.1, ih h.2,
      List.length_cons]
    exact Nat.add_comm _ _

open Classical in
/-- The outline of a tree after any calls, whose plain edges may go around; its labels have no line
feeds. Its lines are the rows of a sketch in which every node that the root leads to is expanded
once, with its children below it, one step further in and in their order; further rows for a node
come behind that one, and there is nothing below them. So there is a line for the root and one for
each plain edge that leaves a node that the root leads to. -/
theorem outline_of_calls (calls : List Call)
    (hlabels : ∀ node ∈ (initial.afterAll calls).nodes, '\n' ∉ node.label.toList) :
    let tree := initial.afterAll calls
    ∃ sketch : Sketch, sketch.Outlines tree ∧
      (∀ row ∈ sketch.rows 0, '\n' ∉ (row.text tree).toList) ∧
      tree.outline.toList = ((sketch.rows 0).flatMap fun row => (row.text tree).toList ++ ['\n']) ∧
      tree.outline.toList.count '\n' =
        1 + ∑ id ∈ Finset.range tree.size with tree.PlainPath root id,
          (tree.plainTargets id).length := by
  intro tree
  have harena : tree.IsArena := (isArena_of_calls calls).1
  obtain ⟨sketch, after, hdraws⟩ := exists_draws tree (List.range tree.size) [root]
  have hlines : ∀ row ∈ sketch.rows 0, '\n' ∉ (row.text tree).toList := fun row _ =>
    not_mem_text hlabels row
  have hroot : ∀ id ∈ [root], id < tree.size := by simpa using harena.root_lt
  have htext : tree.outline.toList =
      (sketch.rows 0).flatMap fun row => (row.text tree).toList ++ ['\n'] := by
    have hrows := hdraws.outlineLines_eq harena.plainTarget_lt hroot 0 []
    simp only [List.map_cons, List.map_nil, List.append_nil] at hrows
    rw [outline, hrows, String.toList_join]
    simp [outlineLines, List.flatMap_map]
  refine ⟨sketch, outlines_of_draws harena hdraws, hlines, htext, ?_⟩
  rw [htext, count_flatMap_lines hlines]
  exact length_rows_of_draws harena hdraws

/-- Plain edges lead from a hook to itself and back to the root, and two more meet at the end. -/
theorem outline_of_calls_cycle :
    let tree := initial.afterAll [.add .hook "hook", .addChild root 1, .addChild 1 1,
      .addLoopChild 1 1, .addChild 1 root, .add (.flag 0) "name", .add (.freeForm 0) "name",
      .add (.constant "on" none) "on", .add .finish "end", .addChild 1 2, .addChild 2 3,
      .addChild 3 5, .addChild 1 4, .addChild 4 5]
    let lines := ["start", "  hook", "    hook ...", "    start ...", "    -name", "      name*",
      "        end", "    <on>", "      end ..."]
    (∀ node ∈ tree.nodes, '\n' ∉ node.label.toList) ∧ tree.plainTargets 1 = [1, root, 2, 4] ∧
      tree.outline = String.join (lines.map (· ++ "\n")) ∧
      ∃ sketch : Sketch, sketch.Outlines tree ∧
        ((sketch.rows 0).flatMap fun row => (row.text tree).toList ++ ['\n']) =
          lines.flatMap fun line => line.toList ++ ['\n'] := by
  intro tree lines
  have hlabels : ∀ node ∈ tree.nodes, '\n' ∉ node.label.toList := by decide +kernel
  have htree : tree = ⟨#[⟨.start, "start", [1], [⟨1, false⟩]⟩,
      ⟨.hook, "hook", [0, 1, 1], [⟨1, false⟩, ⟨1, true⟩, ⟨0, false⟩, ⟨2, false⟩, ⟨4, false⟩]⟩,
      ⟨.flag 0, "name", [1], [⟨3, false⟩]⟩, ⟨.freeForm 0, "name", [2], [⟨5, false⟩]⟩,
      ⟨.constant "on" none, "on", [1], [⟨5, false⟩]⟩, ⟨.finish, "end", [3, 4], []⟩], some 5⟩ := rfl
  have hlines : tree.outlineLines (List.range tree.size) [(0, root)] = lines := by
    rw [htree]
    subst lines
    cbv
  have houtline : tree.outline = String.join (lines.map (· ++ "\n")) := by rw [outline, hlines]
  obtain ⟨sketch, houtlines, -, htext, -⟩ := outline_of_calls _ hlabels
  refine ⟨hlabels, by decide +kernel, houtline, sketch, houtlines, ?_⟩
  rw [← htext, houtline]
  simp [String.toList_join, List.flatMap_map]

end Tree

end CommandShell
