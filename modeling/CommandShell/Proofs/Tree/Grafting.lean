import CommandShell.Proofs.Tree.Steps

/-!
# Grafts

What a rule adds to a tree is a graph of its own, grafted onto the node that the rule is hung off:
it is entered from that node alone and left through the node in which the rule ends, and inside it
everything lies between the two. Grafts can be put one behind the other, as the rules of a chain
are, and side by side, as the alternatives of a group are.

## Main definitions

* `Tree.Grafts` — what is added under one node and runs together in another
* `Tree.Attaches` — a graft that ends in a node of its own

## Main results

* `Attaches.trans`, `Grafts.trans` — grafts one behind the other, and side by side
* `attaches_attach` — a rule adds a graft
* `attaches_buildFrom` — so does a rule list
-/

namespace CommandShell.Tree

variable {args : ArgumentSet} {tree mid tree' opened filled : Tree} {kind : NodeKind}
  {label : String} {id tail start join stop last i : NodeId} {nested : Bool} {rule : Rule}
  {rules alternative : List Rule} {alternatives : List (List Rule)} {bracket : Bracket}
  {op : GroupOp}

/-! ### Grafts -/

/-- The nodes that were added to `tree` lie on paths from `tail` to `stop`. -/
structure Grafts (tree tree' : Tree) (tail stop : NodeId) : Prop where
  steps : tree.StepsTo tree'
  /-- Of the nodes that were there before, only `tail` has been given children. -/
  children_eq : ∀ i < tree.size, i ≠ tail → tree'.children i = tree.children i
  /-- No edge leads back from it. -/
  exists_more : ∃ more, tree'.children tail = tree.children tail ++ more ∧
    ∀ edge ∈ more, edge.isLoop = false
  /-- What comes next is still to be hung off `stop`. -/
  stop_children : tree'.children stop = []
  entered : ∀ i, tree.size ≤ i → i < tree'.size → tree'.PlainPath tail i
  left : ∀ i, tree.size ≤ i → i < tree'.size → tree'.PlainPath i stop
  loops_closed : ∀ i, tree.size ≤ i → tree'.KindAt i .loop → tree'.IsClosedLoop i
  loop_of_isLoop : ∀ i, tree.size ≤ i → ∀ edge ∈ tree'.children i, edge.isLoop = true →
    tree'.KindAt i .loop
  acyclic : tree.Acyclic → tree'.Acyclic

/-- What was added to `tree` under `tail` ends in a node of its own, which rules can be hung off. -/
structure Attaches (tree tree' : Tree) (tail stop : NodeId) : Prop
    extends Grafts tree tree' tail stop where
  size_le : tree.size ≤ stop
  stop_lt : stop < tree'.size
  not_loop : ¬ tree'.KindAt stop .loop

theorem IsClosedLoop.mono (h : tree.IsClosedLoop i) (hsteps : tree.StepsTo tree')
    (hchildren : tree'.children i = tree.children i) : tree'.IsClosedLoop i := by
  obtain ⟨stop, start, hedges, hstop, hstart, hpath⟩ := h
  exact ⟨stop, start, hchildren.trans hedges, hstop.mono hsteps.toExtends,
    hstart.mono hsteps.toExtends, hpath.mono hsteps⟩

namespace Grafts

/-- Nothing is grafted. -/
theorem refl (hstop : tree.children stop = []) : Grafts tree tree tail stop where
  steps := .refl
  children_eq _ _ _ := rfl
  exists_more := ⟨[], (List.append_nil _).symm, by simp⟩
  stop_children := hstop
  entered i hle hlt := absurd hlt (Nat.not_lt.mpr hle)
  left i hle hlt := absurd hlt (Nat.not_lt.mpr hle)
  loops_closed i hle hkind := absurd hkind.lt_size (Nat.not_lt.mpr hle)
  loop_of_isLoop i hle edge hedge := by
    rw [children_eq_nil hle] at hedge
    exact absurd hedge List.not_mem_nil
  acyclic := id

/-- A graft leaves the loops that are there closed. -/
theorem isClosedLoop_of_lt (h : Grafts tree tree' tail stop) (hi : i < tree.size) (hne : i ≠ tail)
    (hloop : tree.KindAt i .loop → tree.IsClosedLoop i) (hkind : tree'.KindAt i .loop) :
    tree'.IsClosedLoop i :=
  (hloop ((h.steps.toExtends.kindAt_iff hi).mp hkind)).mono h.steps (h.children_eq i hi hne)

/-- A graft adds no edge that leads back to a node that is there. -/
theorem loop_of_isLoop_of_lt (h : Grafts tree tree' tail stop) (hi : i < tree.size)
    (hloop : ∀ edge ∈ tree.children i, edge.isLoop = true → tree.KindAt i .loop) :
    ∀ edge ∈ tree'.children i, edge.isLoop = true → tree'.KindAt i .loop := by
  intro edge hedge hback
  have hold : edge ∈ tree.children i := by
    by_cases hne : i = tail
    · subst hne
      obtain ⟨more, hchildren, hplain⟩ := h.exists_more
      rw [hchildren] at hedge
      rcases List.mem_append.mp hedge with hedge | hedge
      · exact hedge
      · exact absurd (hplain edge hedge) (by simp [hback])
    · rwa [h.children_eq i hi hne] at hedge
  exact (hloop edge hold hback).mono h.steps.toExtends

/-- Two grafts side by side. -/
theorem trans (h : Grafts tree mid start join) (h' : Grafts mid tree' start join)
    (hstart : start < tree.size) : Grafts tree tree' start join where
  steps := h.steps.trans h'.steps
  children_eq i hi hne := by
    have hmid : i < mid.size := Nat.lt_of_lt_of_le hi h.steps.toExtends.size_le
    rw [h'.children_eq i hmid hne, h.children_eq i hi hne]
  exists_more := by
    obtain ⟨more, hmore, hplain⟩ := h.exists_more
    obtain ⟨more', hmore', hplain'⟩ := h'.exists_more
    exact ⟨more ++ more', by rw [hmore', hmore, List.append_assoc],
      List.forall_mem_append.mpr ⟨hplain, hplain'⟩⟩
  stop_children := h'.stop_children
  entered i hle hlt := by
    by_cases hmid : i < mid.size
    · exact (h.entered i hle hmid).mono h'.steps
    · exact h'.entered i (Nat.not_lt.mp hmid) hlt
  left i hle hlt := by
    by_cases hmid : i < mid.size
    · exact (h.left i hle hmid).mono h'.steps
    · exact h'.left i (Nat.not_lt.mp hmid) hlt
  loops_closed i hle := by
    by_cases hmid : i < mid.size
    · exact h'.isClosedLoop_of_lt hmid (by lia) (h.loops_closed i hle)
    · exact h'.loops_closed i (Nat.not_lt.mp hmid)
  loop_of_isLoop i hle := by
    by_cases hmid : i < mid.size
    · exact h'.loop_of_isLoop_of_lt hmid (h.loop_of_isLoop i hle)
    · exact h'.loop_of_isLoop i (Nat.not_lt.mp hmid)
  acyclic := h'.acyclic ∘ h.acyclic

end Grafts

namespace Attaches

theorem path (h : Attaches tree tree' tail stop) : tree'.PlainPath tail stop :=
  h.entered stop h.size_le h.stop_lt

/-- Two grafts one behind the other. -/
theorem trans (h : Attaches tree mid tail stop) (h' : Attaches mid tree' stop last)
    (htail : tail < tree.size) : Attaches tree tree' tail last where
  steps := h.steps.trans h'.steps
  children_eq i hi hne := by
    have hsize := h.steps.toExtends.size_le
    have hstop := h.size_le
    rw [h'.children_eq i (by lia) (by lia), h.children_eq i hi hne]
  exists_more := by
    have hsize := h.steps.toExtends.size_le
    have hstop := h.size_le
    rw [h'.children_eq tail (by lia) (by lia)]
    exact h.exists_more
  stop_children := h'.stop_children
  entered i hle hlt := by
    by_cases hmid : i < mid.size
    · exact (h.entered i hle hmid).mono h'.steps
    · exact (h.path.mono h'.steps).trans (h'.entered i (Nat.not_lt.mp hmid) hlt)
  left i hle hlt := by
    by_cases hmid : i < mid.size
    · exact ((h.left i hle hmid).mono h'.steps).trans h'.path
    · exact h'.left i (Nat.not_lt.mp hmid) hlt
  loops_closed i hle := by
    by_cases hmid : i < mid.size
    · intro hkind
      -- The second graft hangs off `stop`, which is no loop that it could have opened again.
      refine h'.isClosedLoop_of_lt hmid ?_ (h.loops_closed i hle) hkind
      rintro rfl
      exact h.not_loop ((h'.steps.toExtends.kindAt_iff hmid).mp hkind)
    · exact h'.loops_closed i (Nat.not_lt.mp hmid)
  loop_of_isLoop i hle := by
    by_cases hmid : i < mid.size
    · exact h'.loop_of_isLoop_of_lt hmid (h.loop_of_isLoop i hle)
    · exact h'.loop_of_isLoop i (Nat.not_lt.mp hmid)
  acyclic := h'.acyclic ∘ h.acyclic
  size_le := Nat.le_trans h.steps.toExtends.size_le h'.size_le
  stop_lt := h'.stop_lt
  not_loop := h'.not_loop

/-- A graft that is led to a node which was there before, to join the grafts beside it. -/
theorem grafts_link (h : Attaches tree mid start last)
    (hlink : mid.link last join false = .ok tree')
    (hstart : start < tree.size) (hjoin : join < tree.size) (hne : join ≠ start)
    (hchildren : tree.children join = []) : Grafts tree tree' start join := by
  have hlast : tree.size ≤ last := h.size_le
  have hsteps : mid.StepsTo tree' := .link .refl hlink
  have hsize : tree'.size = mid.size := size_link hlink
  have hjoined : mid.children join = [] := (h.children_eq join hjoin hne).trans hchildren
  have hkept {i : NodeId} (hi : i ≠ last) : tree'.children i = mid.children i := by
    rw [children_link hlink, if_neg (Ne.symm hi)]
  have hled : tree'.children last = [⟨join, false⟩] := by
    rw [children_link hlink, if_pos rfl, h.stop_children, List.nil_append]
  exact
    { steps := h.steps.trans hsteps
      children_eq := fun i hi hi' => (hkept (by lia)).trans (h.children_eq i hi hi')
      exists_more := by
        rw [hkept (by lia)]
        exact h.exists_more
      stop_children := (hkept (by lia)).trans hjoined
      entered := fun i hle hlt => (h.entered i hle (hsize ▸ hlt)).mono hsteps
      left := fun i hle hlt => ((h.left i hle (hsize ▸ hlt)).mono hsteps).trans
        (plainPath_of_mem_children (by rw [hled]; exact List.mem_singleton_self _))
      loops_closed := fun i hle hkind => by
        have hloop := (kindAt_link_iff hlink).mp hkind
        refine (h.loops_closed i hle hloop).mono hsteps (hkept ?_)
        rintro rfl
        exact h.not_loop hloop
      loop_of_isLoop := fun i hle edge hedge hback => by
        by_cases hi : i = last
        · rw [hi, hled, List.mem_singleton] at hedge
          rw [hedge] at hback
          cases hback
        · rw [hkept hi] at hedge
          exact (kindAt_link_iff hlink).mpr (h.loop_of_isLoop i hle edge hedge hback)
      acyclic := fun hacyclic => acyclic_link hlink (by lia) hjoined (h.acyclic hacyclic) }

end Attaches

/-! ### Single nodes -/

theorem acyclic_hang (h : tree.hang tail kind label = .ok (tree', id)) (htail : tail < tree.size)
    (hacyclic : tree.Acyclic) : tree'.Acyclic := by
  obtain ⟨mid, hadd, hlink⟩ := hang_eq_ok h
  obtain ⟨rfl, -⟩ := add_eq_ok hadd
  refine acyclic_link hlink (Nat.ne_of_lt htail) ?_ (acyclic_add hadd hacyclic)
  rw [children_add hadd, children_eq_nil (Nat.le_refl _)]

/-- A node that is hung under another one. -/
theorem attaches_hang (h : tree.hang tail kind label = .ok (tree', id)) (hkind : kind ≠ .loop)
    (htail : tail < tree.size) : Attaches tree tree' tail id := by
  obtain rfl := id_hang h
  have hsize := size_hang h
  have hnew {i : NodeId} (hle : tree.size ≤ i) (hlt : i < tree'.size) : i = tree.size := by lia
  have hchildren {i : NodeId} (hle : tree.size ≤ i) : tree'.children i = [] := by
    rw [children_hang h, if_neg (by lia), children_eq_nil hle]
  have hnot : ¬ tree'.KindAt tree.size .loop := by
    intro hloop
    exact hkind (hloop.eq_of_symbol? (by rw [symbol?_hang h, if_pos rfl]))
  exact
    { steps := .hang .refl h
      children_eq := fun i _ hne => by rw [children_hang h, if_neg (Ne.symm hne)]
      exists_more := ⟨[⟨tree.size, false⟩], by rw [children_hang h, if_pos rfl], by simp⟩
      stop_children := hchildren (Nat.le_refl _)
      entered := fun i hle hlt => by
        obtain rfl := hnew hle hlt
        exact plainPath_of_mem_children (by rw [children_hang h, if_pos rfl]; simp)
      left := fun i hle hlt => by
        obtain rfl := hnew hle hlt
        exact .refl
      loops_closed := fun i hle hloop => by
        obtain rfl := hnew hle hloop.lt_size
        exact absurd hloop hnot
      loop_of_isLoop := fun i hle edge hedge _ => by
        rw [hchildren hle] at hedge
        exact absurd hedge List.not_mem_nil
      acyclic := acyclic_hang h htail
      size_le := Nat.le_refl _
      stop_lt := by lia
      not_loop := hnot }

theorem attaches_attachLeaf (h : attachLeaf args tree tail rule nested = .ok (tree', stop))
    (htail : tail < tree.size) : Attaches tree tree' tail stop := by
  rcases attachLeaf_eq_ok h with
    ⟨-, -, h⟩ | ⟨symbol, hsymbol, h⟩ | ⟨id, mid, flag, -, -, hflag, hvalue⟩
  · exact attaches_hang h nofun htail
  · refine attaches_hang h ?_ htail
    intro heq
    have hbrowsable := Rule.isBrowsable_of_symbol? hsymbol
    rw [heq] at hbrowsable
    cases hbrowsable
  · have hmid := attaches_hang hflag nofun htail
    exact hmid.trans (attaches_hang hvalue nofun hmid.stop_lt) htail

/-! ### Groups -/

theorem eq_joint_of_openGroup (h : tree.openGroup tail op = .ok (tree', bracket))
    (hle : tree.size ≤ i) (hlt : i < tree'.size) :
    i = bracket.start ∨ i = bracket.join ∨ i = bracket.stop := by
  obtain ⟨hstart, hlt', hjoin, hsize, -⟩ := openGroup_bounds h
  have hsize' := size_openGroup h
  split at hjoin
  · rw [if_pos ‹_›] at hsize'
    lia
  · rw [if_neg ‹_›] at hsize'
    lia

theorem acyclic_openGroup (h : tree.openGroup tail op = .ok (tree', bracket))
    (htail : tail < tree.size) (hacyclic : tree.Acyclic) : tree'.Acyclic := by
  obtain ⟨opened, joined, hstart, hjoin, hstop⟩ := openGroup_eq_ok h
  have hopened := acyclic_hang hstart htail hacyclic
  split at hjoin
  · exact acyclic_add hstop (acyclic_add hjoin hopened)
  · obtain ⟨rfl, -⟩ := hjoin
    exact acyclic_add hstop hopened

theorem acyclic_closeGroup (h : tree.closeGroup bracket op = .ok tree')
    (hjoin : op.isRepeatable = true → bracket.join ≠ bracket.stop)
    (hstart : bracket.start ≠ bracket.stop) (hchildren : tree.children bracket.stop = [])
    (hacyclic : tree.Acyclic) : tree'.Acyclic := by
  obtain ⟨passed, looped, hloop, hskip⟩ := closeGroup_eq_ok h
  -- Nothing leaves the end of the group yet, so the edges to it close no cycle.
  have hlooped : looped.Acyclic ∧ looped.children bracket.stop = [] := by
    split at hloop
    · have hne := hjoin ‹_›
      refine ⟨acyclic_link_back hloop.2 (acyclic_link hloop.1 hne hchildren hacyclic), ?_⟩
      rw [children_link hloop.2, if_neg hne, children_link hloop.1, if_neg hne, hchildren]
    · rw [hloop]
      exact ⟨hacyclic, hchildren⟩
  split at hskip
  · exact acyclic_link hskip hstart hlooped.2 hlooped.1
  · rw [hskip]
    exact hlooped.1

/-- The joints of a group are hooks, unless the group repeats. -/
theorem kindAt_openGroup (h : tree.openGroup tail op = .ok (tree', bracket)) :
    tree'.KindAt bracket.start .hook ∧ tree'.KindAt bracket.stop .hook ∧
      tree'.KindAt bracket.join (if op.isRepeatable then .loop else .hook) := by
  refine ⟨kindAt_iff.mpr ⟨"hook", ?_⟩, kindAt_iff.mpr ⟨"hook", ?_⟩, ?_⟩
  · rw [symbol?_openGroup h, if_pos (.inr rfl)]
  · rw [symbol?_openGroup h, if_pos (.inl rfl)]
  · have hjoin := symbol?_join h
    unfold joinSymbol at hjoin
    split at hjoin
    · exact kindAt_iff.mpr ⟨_, by rw [if_pos ‹_›, hjoin]⟩
    · exact kindAt_iff.mpr ⟨_, by rw [if_neg ‹_›, hjoin]⟩

/-- What the joints of a group look like when the group is closed. -/
structure Encloses (tree : Tree) (bracket : Bracket) (op : GroupOp) : Prop where
  start_kind : tree.KindAt bracket.start .hook
  stop_kind : tree.KindAt bracket.stop .hook
  join_kind : tree.KindAt bracket.join (if op.isRepeatable then .loop else .hook)
  start_children : ∀ edge ∈ tree.children bracket.start, edge.isLoop = false
  join_children : op.isRepeatable = true →
    tree.children bracket.join = [⟨bracket.stop, false⟩, ⟨bracket.start, true⟩]
  join_eq : op.isRepeatable ≠ true → bracket.join = bracket.stop
  stop_children : tree.children bracket.stop = []
  path : tree.PlainPath bracket.start bracket.join

namespace Encloses

variable (h : tree.Encloses bracket op)
include h

theorem join_path : tree.PlainPath bracket.join bracket.stop := by
  by_cases hop : op.isRepeatable = true
  · exact plainPath_of_mem_children (by rw [h.join_children hop]; exact List.mem_cons_self)
  · rw [h.join_eq hop]
    exact .refl

/-- The only joint that can be a loop is the one in which the alternatives meet. -/
theorem isClosedLoop (hi : i = bracket.start ∨ i = bracket.join ∨ i = bracket.stop)
    (hkind : tree.KindAt i .loop) : tree.IsClosedLoop i := by
  rcases hi with rfl | rfl | rfl
  · cases hkind.unique h.start_kind
  · have hop := hkind.unique h.join_kind
    split at hop
    · exact ⟨_, _, h.join_children ‹_›, h.stop_kind, h.start_kind, h.path⟩
    · cases hop
  · cases hkind.unique h.stop_kind

theorem loop_of_isLoop (hi : i = bracket.start ∨ i = bracket.join ∨ i = bracket.stop) {edge : Edge}
    (hedge : edge ∈ tree.children i) (hback : edge.isLoop = true) : tree.KindAt i .loop := by
  have hstop (hedge : edge ∈ tree.children bracket.stop) : False := by
    rw [h.stop_children] at hedge
    exact List.not_mem_nil hedge
  rcases hi with rfl | rfl | rfl
  · exact absurd (h.start_children edge hedge) (by simp [hback])
  · by_cases hop : op.isRepeatable = true
    · have hkind := h.join_kind
      rwa [if_pos hop] at hkind
    · rw [h.join_eq hop] at hedge
      exact (hstop hedge).elim
  · exact (hstop hedge).elim

end Encloses

section Group

variable (hopen : tree.openGroup tail op = .ok (opened, bracket))
  (hfill : Grafts opened filled bracket.start bracket.join)
  (hclose : filled.closeGroup bracket op = .ok tree') (htail : tail < tree.size)
include hopen hfill htail

/-- Until a group is closed, nothing leads on from where it is left. -/
theorem children_stop_of_filled : filled.children bracket.stop = [] := by
  obtain ⟨hstart, -, -, hsize, hlt⟩ := openGroup_bounds hopen
  by_cases heq : bracket.stop = bracket.join
  · rw [heq, hfill.stop_children]
  · rw [hfill.children_eq _ (by lia) (by lia), children_openGroup hopen, if_neg (by lia),
      children_eq_nil (by lia)]

include hclose

theorem encloses_closeGroup (hpath : filled.PlainPath bracket.start bracket.join) :
    tree'.Encloses bracket op := by
  obtain ⟨hstart, hlt, hjoin, hsize, hlt'⟩ := openGroup_bounds hopen
  obtain ⟨hstartKind, hstopKind, hjoinKind⟩ := kindAt_openGroup hopen
  have hclosing : filled.StepsTo tree' := .closeGroup .refl hclose
  have hext := (hfill.steps.trans hclosing).toExtends
  refine ⟨hstartKind.mono hext, hstopKind.mono hext, hjoinKind.mono hext, ?_, ?_, ?_, ?_,
    hpath.mono hclosing⟩
  · obtain ⟨more, hmore, hplain⟩ := hfill.exists_more
    rw [children_closeGroup hclose, hmore, children_openGroup hopen, if_neg (by lia),
      children_eq_nil (by lia), if_neg (fun h => absurd h.2 (by lia))]
    intro edge hedge
    rcases List.mem_append.mp hedge with hedge | hedge
    · exact hplain edge (by simpa using hedge)
    · split at hedge
      · obtain rfl : edge = ⟨bracket.stop, false⟩ := by simpa using hedge
        rfl
      · exact absurd hedge List.not_mem_nil
  · intro hop
    rw [children_closeGroup hclose, hfill.stop_children, if_pos ⟨hop, rfl⟩,
      if_neg (fun h => absurd h.2 (by lia))]
    rfl
  · intro hop
    rwa [if_neg hop] at hjoin
  · have hne : ¬ (op.isRepeatable = true ∧ bracket.join = bracket.stop) := by
      rintro ⟨hop, heq⟩
      rw [if_pos hop] at hjoin
      lia
    rw [children_closeGroup hclose, children_stop_of_filled hopen hfill htail, if_neg hne,
      if_neg (fun h => absurd h.2 (by lia))]
    rfl

/-- The alternatives of a group between its two joints make up one graft. -/
theorem attaches_group (hpath : filled.PlainPath bracket.start bracket.join) :
    Attaches tree tree' tail bracket.stop := by
  obtain ⟨hstart, hlt, hjoin, hsize, hlt'⟩ := openGroup_bounds hopen
  have hencloses := encloses_closeGroup hopen hfill hclose htail hpath
  have hclosing : filled.StepsTo tree' := .closeGroup .refl hclose
  have hclosed : tree'.size = filled.size := size_closeGroup hclose
  have hgrown := hfill.steps.toExtends.size_le
  have hkept {i : NodeId} (hi : i ≠ bracket.start) (hi' : i ≠ bracket.join) :
      tree'.children i = filled.children i := by
    rw [children_closeGroup hclose, if_neg (fun h => hi' h.2.symm),
      if_neg (fun h => hi h.2.symm), List.append_nil, List.append_nil]
  have htailed : tree'.children tail = tree.children tail ++ [⟨bracket.start, false⟩] := by
    rw [hkept (by lia) (by lia), hfill.children_eq tail (by lia) (by lia),
      children_openGroup hopen, if_pos rfl]
  have hin : tree'.PlainPath tail bracket.start :=
    plainPath_of_mem_children (by rw [htailed]; simp)
  have hcases {i : NodeId} (hle : tree.size ≤ i) :
      (i = bracket.start ∨ i = bracket.join ∨ i = bracket.stop) ∨ opened.size ≤ i := by
    rcases Nat.lt_or_ge i opened.size with hi | hi
    · exact .inl (eq_joint_of_openGroup hopen hle hi)
    · exact .inr hi
  exact
    { steps := (StepsTo.refl.openGroup hopen).trans (hfill.steps.trans hclosing)
      children_eq := fun i hi hne => by
        rw [hkept (by lia) (by lia), hfill.children_eq i (by lia) (by lia),
          children_openGroup hopen, if_neg (Ne.symm hne)]
      exists_more := ⟨_, htailed, by simp⟩
      stop_children := hencloses.stop_children
      entered := fun i hle hlt => by
        rcases hcases hle with (rfl | rfl | rfl) | hi
        · exact hin
        · exact hin.trans hencloses.path
        · exact (hin.trans hencloses.path).trans hencloses.join_path
        · exact hin.trans ((hfill.entered i hi (by lia)).mono hclosing)
      left := fun i hle hlt => by
        rcases hcases hle with (rfl | rfl | rfl) | hi
        · exact hencloses.path.trans hencloses.join_path
        · exact hencloses.join_path
        · exact .refl
        · exact ((hfill.left i hi (by lia)).mono hclosing).trans hencloses.join_path
      loops_closed := fun i hle hkind => by
        rcases hcases hle with hi | hi
        · exact hencloses.isClosedLoop hi hkind
        · exact (hfill.loops_closed i hi ((kindAt_closeGroup_iff hclose).mp hkind)).mono hclosing
            (hkept (by lia) (by lia))
      loop_of_isLoop := fun i hle edge hedge hback => by
        rcases hcases hle with hi | hi
        · exact hencloses.loop_of_isLoop hi hedge hback
        · rw [hkept (by lia) (by lia)] at hedge
          exact (kindAt_closeGroup_iff hclose).mpr (hfill.loop_of_isLoop i hi edge hedge hback)
      acyclic := fun hacyclic => acyclic_closeGroup hclose
        (fun hop => by rw [if_pos hop] at hjoin; lia) (by lia)
        (children_stop_of_filled hopen hfill htail)
        (hfill.acyclic (acyclic_openGroup hopen htail hacyclic))
      size_le := by lia
      stop_lt := by lia
      not_loop := fun hkind => by cases hkind.unique hencloses.stop_kind }

end Group

/-! ### Rules -/

theorem attaches_chain_of_forall
    (ih : ∀ rule ∈ rules, ∀ {tree tail tree' stop},
      attach args tree tail rule true = .ok (tree', stop) → tail < tree.size →
        Attaches tree tree' tail stop)
    (hne : rules ≠ []) (h : chain args tree tail rules = .ok (tree', last))
    (htail : tail < tree.size) : Attaches tree tree' tail last := by
  induction rules generalizing tree tail with
  | nil => exact absurd rfl hne
  | cons rule rules ihr =>
    obtain ⟨mid, stop, hattach, h⟩ := chain_cons_eq_ok h
    have hfirst := ih rule List.mem_cons_self hattach htail
    by_cases hrules : rules = []
    · subst hrules
      cases h
      exact hfirst
    · exact hfirst.trans (ihr (fun rule hmem => ih rule (List.mem_cons_of_mem _ hmem)) hrules h
        hfirst.stop_lt) htail

theorem grafts_branch_of_forall
    (ih : ∀ rule ∈ alternative, ∀ {tree tail tree' stop},
      attach args tree tail rule true = .ok (tree', stop) → tail < tree.size →
        Attaches tree tree' tail stop)
    (hne : alternative ≠ []) (h : branch args start join tree alternative = .ok tree')
    (hstart : start < tree.size) (hjoin : join < tree.size) (hjoined : join ≠ start)
    (hchildren : tree.children join = []) :
    Grafts tree tree' start join ∧ tree'.PlainPath start join := by
  obtain ⟨mid, last, hchain, hlink⟩ := branch_eq_ok h
  have hmid := attaches_chain_of_forall ih hne hchain hstart
  refine ⟨hmid.grafts_link hlink hstart hjoin hjoined hchildren, ?_⟩
  have hlast : tree'.PlainPath last join :=
    plainPath_of_mem_children (by rw [children_link hlink, if_pos rfl]; simp)
  exact (hmid.path.mono (.link .refl hlink)).trans hlast

theorem grafts_branches_of_forall
    (ih : ∀ alternative ∈ alternatives, ∀ rule ∈ alternative, ∀ {tree tail tree' stop},
      attach args tree tail rule true = .ok (tree', stop) → tail < tree.size →
        Attaches tree tree' tail stop)
    (hne : ∀ alternative ∈ alternatives, alternative ≠ [])
    (h : alternatives.foldlM (branch args start join) tree = .ok tree')
    (hstart : start < tree.size) (hjoin : join < tree.size) (hjoined : join ≠ start)
    (hchildren : tree.children join = []) :
    Grafts tree tree' start join ∧ (alternatives ≠ [] → tree'.PlainPath start join) := by
  induction alternatives generalizing tree with
  | nil =>
    cases h
    exact ⟨.refl hchildren, fun hne => absurd rfl hne⟩
  | cons alternative alternatives iha =>
    rw [List.foldlM_cons] at h
    obtain ⟨closed, hbranch, h⟩ := bind_eq_ok_iff.mp h
    obtain ⟨hfirst, hpath⟩ := grafts_branch_of_forall (ih alternative List.mem_cons_self)
      (hne alternative List.mem_cons_self) hbranch hstart hjoin hjoined hchildren
    have hsize := hfirst.steps.toExtends.size_le
    obtain ⟨hrest, -⟩ := iha (fun alternative hmem => ih alternative (List.mem_cons_of_mem _ hmem))
      (fun alternative hmem => hne alternative (List.mem_cons_of_mem _ hmem)) h (by lia) (by lia)
      hfirst.stop_children
    exact ⟨hfirst.trans hrest hstart, fun _ => hpath.mono hrest.steps⟩

/-- A rule that is hung into a tree adds a graft. -/
theorem attaches_attach (h : attach args tree tail rule nested = .ok (tree', stop))
    (htail : tail < tree.size) : Attaches tree tree' tail stop := by
  induction rule using Rule.induction generalizing tree tail nested tree' stop with
  | single rule hrule =>
    rw [attach_of_not_isFilledGroup hrule] at h
    exact attaches_attachLeaf h htail
  | group op position rules span hrules ih =>
    obtain ⟨opened, bracket, filled, hopen, hfill, hclose, rfl⟩ := attach_group_eq_ok hrules h
    obtain ⟨hstart, hlt, hjoin, hsize, hlt'⟩ := openGroup_bounds hopen
    have hjoinLt : bracket.join < opened.size := by
      split at hjoin <;> lia
    have hchildren : opened.children bracket.join = [] := by
      rw [children_openGroup hopen, if_neg (by lia), children_eq_nil (by lia)]
    obtain ⟨hgrafts, hpath⟩ := grafts_branches_of_forall
      (fun alternative halternative rule hrule => ih alternative halternative rule hrule)
      (fun _ => Rule.ne_nil_of_mem_alternatives) hfill (by lia) hjoinLt (Nat.ne_of_gt hlt) hchildren
    refine attaches_group hopen hgrafts hclose htail (hpath ?_)
    intro hnone
    rw [← Rule.flatten_alternatives rules, hnone] at hrules
    exact hrules rfl

/-- So does a rule list. If its last rule ends the line, that is where the graft ends. -/
theorem attaches_buildFrom {ended : Bool} (h : buildFrom args tree tail ended rules = .ok tree')
    (hne : rules ≠ []) (htail : tail < tree.size) :
    ∃ last, Attaches tree tree' tail last ∧
      (rules.getLast?.map Rule.kind = some .finish → tree'.KindAt last .finish) := by
  induction rules generalizing tree tail ended with
  | nil => exact absurd rfl hne
  | cons rule rules ih =>
    obtain ⟨-, mid, stop, hattach, h⟩ := buildFrom_cons_eq_ok h
    have hfirst := attaches_attach hattach htail
    by_cases hrules : rules = []
    · subst hrules
      cases h
      refine ⟨stop, hfirst, fun hkind => ?_⟩
      have hhang := hang_of_attach_finish (by simpa using hkind) hattach
      exact kindAt_iff.mpr ⟨_, by rw [symbol?_hang hhang, if_pos (id_hang hhang)]⟩
    · obtain ⟨last, hrest, hfinish⟩ := ih h hrules hfirst.stop_lt
      refine ⟨last, hfirst.trans hrest htail, fun hkind => hfinish ?_⟩
      rwa [List.getLast?_cons_of_ne_nil hrules] at hkind

end CommandShell.Tree
