import CommandShell.Proofs.Rule.Spelling
import CommandShell.Proofs.Tree.Links

/-!
# How a tree is put together

A rule list is built by one pass over flat lists in which positions mark the alternatives. Seen from
the outside, a group is built from its alternatives one by one, and an alternative from its rules
one after the other. This is the view in which properties of trees are proved: by induction on
rules, where a group is a list of alternatives.

## Main definitions

* `Tree.chain` — the rules of one alternative, one after the other
* `Tree.branch` — one alternative between the two joints of its group

## Main results

* `attachLeaf_eq_ok`, `attach_group_eq_ok` — what a rule adds to the tree it is hung into
* `size_le_of_attach` — a rule ends in a new node
-/

namespace CommandShell

namespace Tree

variable {args : ArgumentSet} {tree tree' : Tree} {tail last stop : NodeId} {nested : Bool}
  {rule : Rule} {rules : List Rule} {bracket : Bracket} {op : GroupOp}

/-! ### Rules that are no groups -/

theorem attach_of_not_isFilledGroup (h : rule.isFilledGroup = false) :
    attach args tree tail rule nested = attachLeaf args tree tail rule nested := by
  unfold attach
  split
  · simp [Rule.isFilledGroup] at h
  · rfl

theorem argumentOf_eq_ok {id : ArgId} (h : argumentOf args rule = .ok id) :
    args.idOf? rule.lookupName = some id := by
  unfold argumentOf at h
  split at h
  · cases h
    assumption
  · contradiction

/-- A rule that is no group adds the end, the node of its symbol, or a flag with its value. -/
theorem attachLeaf_eq_ok (h : attachLeaf args tree tail rule nested = .ok (tree', stop)) :
    (rule.kind = .finish ∧ nested = false ∧
        tree.hang tail .finish Sentinel.finish.label = .ok (tree', stop)) ∨
      (∃ symbol, rule.symbol? args = some symbol ∧
        tree.hang tail symbol.kind symbol.label = .ok (tree', stop)) ∨
      ∃ id mid flag, rule.kind = .named ∧ args.idOf? rule.lookupName = some id ∧
        tree.hang tail (.flag id) rule.lookupName = .ok (mid, flag) ∧
        mid.hang flag (.freeForm id) rule.lookupName = .ok (tree', stop) := by
  unfold attachLeaf at h
  dsimp only at h
  split at h
  · rename_i hkind
    cases nested with
    | true => cases h
    | false => exact .inl ⟨hkind, rfl, h⟩
  · rename_i hkind
    obtain ⟨id, hid, h⟩ := bind_eq_ok_iff.mp h
    refine .inr (.inl ⟨⟨.argument id, rule.lookupName⟩, ?_, h⟩)
    simp [Rule.symbol?, hkind, argumentOf_eq_ok hid]
  · rename_i hkind
    obtain ⟨id, hid, h⟩ := bind_eq_ok_iff.mp h
    refine .inr (.inl ⟨⟨.freeForm id, rule.lookupName⟩, ?_, h⟩)
    simp [Rule.symbol?, hkind, argumentOf_eq_ok hid]
  · rename_i hkind
    obtain ⟨id, hid, h⟩ := bind_eq_ok_iff.mp h
    obtain ⟨⟨mid, flag⟩, hflag, h⟩ := bind_eq_ok_iff.mp h
    exact .inr (.inr ⟨id, mid, flag, hkind, argumentOf_eq_ok hid, hflag, h⟩)
  · rename_i hkind
    refine .inr (.inl ⟨⟨.constant rule.lookupName (args.idOf? rule.lookupName), rule.lookupName⟩,
      ?_, h⟩)
    simp [Rule.symbol?, hkind]
  · cases h

/-- The rule that ends the line adds the end. -/
theorem hang_of_attach_finish (hkind : rule.kind = .finish)
    (h : attach args tree tail rule false = .ok (tree', stop)) :
    tree.hang tail .finish Sentinel.finish.label = .ok (tree', stop) := by
  have hrule : rule.isFilledGroup = false := by
    cases rule <;> simp_all [Rule.kind, Rule.isFilledGroup]
  rw [attach_of_not_isFilledGroup hrule, attachLeaf, hkind] at h
  exact h

/-! ### Groups -/

/-- The rules of one alternative, hung one after the other off the node `tail`; the result is the
node in which the last of them ends. -/
def chain (args : ArgumentSet) (tree : Tree) (tail : NodeId) :
    List Rule → Except GrammarError (Tree × NodeId)
  | [] => .ok (tree, tail)
  | rule :: rules => do
    let (tree, tail) ← attach args tree tail rule true
    chain args tree tail rules

/-- One alternative of a group, from the joint in which it begins to the one in which it ends. -/
def branch (args : ArgumentSet) (start join : NodeId) (tree : Tree) (alternative : List Rule) :
    Except GrammarError Tree := do
  let (tree, last) ← chain args tree start alternative
  tree.addChild last join

theorem chain_cons_eq_ok (h : chain args tree tail (rule :: rules) = .ok (tree', last)) :
    ∃ mid stop, attach args tree tail rule true = .ok (mid, stop) ∧
      chain args mid stop rules = .ok (tree', last) := by
  obtain ⟨⟨mid, stop⟩, hattach, h⟩ := bind_eq_ok_iff.mp h
  exact ⟨mid, stop, hattach, h⟩

theorem branch_eq_ok {start join : NodeId} {alternative : List Rule}
    (h : branch args start join tree alternative = .ok tree') :
    ∃ mid last, chain args tree start alternative = .ok (mid, last) ∧
      mid.link last join false = .ok tree' := by
  obtain ⟨⟨mid, last⟩, hchain, h⟩ := bind_eq_ok_iff.mp h
  exact ⟨mid, last, hchain, h⟩

theorem turn_eq_ok {position : Nat} {tail' : NodeId}
    (h : tree.turn bracket tail position = .ok (tree', tail')) :
    if position = 0 ∧ tail ≠ bracket.start then
      tree.link tail bracket.join false = .ok tree' ∧ tail' = bracket.start
    else tree' = tree ∧ tail' = tail := by
  unfold turn at h
  split at h
  · rw [if_pos ‹_›]
    obtain ⟨linked, hlink, h⟩ := map_eq_ok_iff.mp h
    cases h
    exact ⟨hlink, rfl⟩
  · rw [if_neg ‹_›]
    cases h
    exact ⟨rfl, rfl⟩

theorem attachAll_cons_eq_ok
    (h : attachAll args tree bracket tail (rule :: rules) = .ok (tree', last)) :
    ∃ turned tail' mid stop, tree.turn bracket tail rule.position = .ok (turned, tail') ∧
      attach args turned tail' rule true = .ok (mid, stop) ∧
      attachAll args mid bracket stop rules = .ok (tree', last) := by
  rw [attachAll] at h
  obtain ⟨⟨turned, tail'⟩, hturn, h⟩ := bind_eq_ok_iff.mp h
  obtain ⟨⟨mid, stop⟩, hattach, h⟩ := bind_eq_ok_iff.mp h
  exact ⟨turned, tail', mid, stop, hturn, hattach, h⟩

theorem attach_isFilledGroup {position : Nat} {span : Span} (hrules : rules ≠ [])
    (h : attach args tree tail (.nest (.group op) position rules span) nested =
      .ok (tree', stop)) :
    ∃ opened bracket body last joined, tree.openGroup tail op = .ok (opened, bracket) ∧
      attachAll args opened bracket bracket.start rules = .ok (body, last) ∧
      body.link last bracket.join false = .ok joined ∧
      joined.closeGroup bracket op = .ok tree' ∧ stop = bracket.stop := by
  cases rules with
  | nil => exact absurd rfl hrules
  | cons first rest =>
    rw [attach] at h
    obtain ⟨⟨opened, bracket⟩, hopen, h⟩ := bind_eq_ok_iff.mp h
    obtain ⟨⟨body, last⟩, hbody, h⟩ := bind_eq_ok_iff.mp h
    obtain ⟨joined, hjoin, h⟩ := bind_eq_ok_iff.mp h
    obtain ⟨closed, hclose, h⟩ := bind_eq_ok_iff.mp h
    cases h
    exact ⟨opened, bracket, body, last, joined, hopen, hbody, hjoin, hclose, rfl⟩

theorem size_turn {position : Nat} {tail' : NodeId}
    (h : tree.turn bracket tail position = .ok (tree', tail')) : tree'.size = tree.size := by
  have h := turn_eq_ok h
  split at h
  · exact size_link h.1
  · rw [h.1]

theorem size_le_of_attachAll
    (ih : ∀ rule ∈ rules, ∀ {tree tail tree' stop},
      attach args tree tail rule true = .ok (tree', stop) → tree.size ≤ stop ∧ stop < tree'.size)
    (h : attachAll args tree bracket tail rules = .ok (tree', last)) :
    tree.size ≤ tree'.size := by
  induction rules generalizing tree tail with
  | nil =>
    cases h
    exact Nat.le_refl _
  | cons rule rules ihr =>
    obtain ⟨turned, tail', mid, stop, hturn, hattach, h⟩ := attachAll_cons_eq_ok h
    have hturned := size_turn hturn
    have hmid := ih rule List.mem_cons_self hattach
    have hrest := ihr (fun rule hmem => ih rule (List.mem_cons_of_mem _ hmem)) h
    lia

/-- A rule ends in a node that was not there before. -/
theorem size_le_of_attach (h : attach args tree tail rule nested = .ok (tree', stop)) :
    tree.size ≤ stop ∧ stop < tree'.size := by
  induction rule using Rule.induction generalizing tree tail nested tree' stop with
  | single rule hrule =>
    rw [attach_of_not_isFilledGroup hrule] at h
    rcases attachLeaf_eq_ok h with ⟨-, -, h⟩ | ⟨symbol, -, h⟩ | ⟨id, mid, flag, -, -, hflag, h⟩
    · have := id_hang h
      have := size_hang h
      lia
    · have := id_hang h
      have := size_hang h
      lia
    · have := id_hang h
      have := size_hang h
      have := size_hang hflag
      lia
  | group op position rules span hrules ih =>
    obtain ⟨opened, bracket, body, last, joined, hopen, hbody, hjoin, hclose, rfl⟩ :=
      attach_isFilledGroup hrules h
    obtain ⟨hstart, hstartjoin, hjoinstop, hopened, hstartstop⟩ := openGroup_bounds hopen
    -- The induction is through alternatives, which are made up of the rules of the group.
    have hbody' : opened.size ≤ body.size := by
      refine size_le_of_attachAll (fun rule hmem => ?_) hbody
      rw [← Rule.flatten_alternatives rules, List.mem_flatten] at hmem
      obtain ⟨alternative, halternative, hrule⟩ := hmem
      exact ih alternative halternative rule hrule
    have hjoined := size_link hjoin
    have hclosed := size_closeGroup hclose
    lia

/-- In the middle of a group: the rules up to the next one at position 0 go on with the current
alternative, and the rest are further alternatives. -/
theorem exists_alternatives_of_attachAll {joined : Tree} (htail : tail ≠ bracket.start)
    (hstart : bracket.start < tree.size)
    (h : attachAll args tree bracket tail rules = .ok (tree', last))
    (hlink : tree'.link last bracket.join false = .ok joined) :
    ∃ current others mid stop closed,
      (∀ rule, Rule.alternatives (rule :: rules) = (rule :: current) :: others) ∧
      chain args tree tail current = .ok (mid, stop) ∧
      mid.link stop bracket.join false = .ok closed ∧
      others.foldlM (branch args bracket.start bracket.join) closed = .ok joined := by
  -- The rules are walked through as they are built, so the cut is found from the first on.
  induction rules generalizing tree tail with
  | nil =>
    cases h
    exact ⟨[], [], tree', last, joined, fun _ => rfl, rfl, hlink, rfl⟩
  | cons rule rules ih =>
    obtain ⟨turned, tail', mid, stop, hturn, hattach, h⟩ := attachAll_cons_eq_ok h
    have hsize := size_turn hturn
    have hstop := size_le_of_attach hattach
    have hne : stop ≠ bracket.start := by lia
    have hmid : bracket.start < mid.size := by lia
    obtain ⟨current, others, body, last', closed, hcut, hchain, hclose, hothers⟩ :=
      ih hne hmid h
    have hchain' : chain args turned tail' (rule :: current) = .ok (body, last') :=
      bind_eq_ok_iff.mpr ⟨(mid, stop), hattach, hchain⟩
    have hturn := turn_eq_ok hturn
    by_cases hposition : rule.position = 0
    · rw [if_pos ⟨hposition, htail⟩] at hturn
      obtain ⟨hend, rfl⟩ := hturn
      refine ⟨[], (rule :: current) :: others, tree, tail, turned, fun previous => ?_, rfl, hend,
        ?_⟩
      · rw [Rule.alternatives, hcut]
        simp [hposition]
      · rw [List.foldlM_cons]
        exact bind_eq_ok_iff.mpr ⟨closed, bind_eq_ok_iff.mpr ⟨(body, last'), hchain', hclose⟩,
          hothers⟩
    · rw [if_neg fun h => hposition h.1] at hturn
      obtain ⟨rfl, rfl⟩ := hturn
      refine ⟨rule :: current, others, body, last', closed, fun previous => ?_, hchain', hclose,
        hothers⟩
      rw [Rule.alternatives, hcut]
      simp [hposition]

/-- A group adds its joints, its alternatives one by one, and the edges that close it. -/
theorem attach_group_eq_ok {position : Nat} {span : Span} (hrules : rules ≠ [])
    (h : attach args tree tail (.nest (.group op) position rules span) nested =
      .ok (tree', stop)) :
    ∃ opened bracket filled, tree.openGroup tail op = .ok (opened, bracket) ∧
      (Rule.alternatives rules).foldlM (branch args bracket.start bracket.join) opened =
        .ok filled ∧
      filled.closeGroup bracket op = .ok tree' ∧ stop = bracket.stop := by
  obtain ⟨opened, bracket, body, last, filled, hopen, hbody, hlink, hclose, hstop⟩ :=
    attach_isFilledGroup hrules h
  refine ⟨opened, bracket, filled, hopen, ?_, hclose, hstop⟩
  obtain ⟨hstart, -, -, hopened, hlt⟩ := openGroup_bounds hopen
  cases rules with
  | nil => exact absurd rfl hrules
  | cons rule rules =>
    obtain ⟨turned, tail', mid, stop, hturn, hattach, hrest⟩ := attachAll_cons_eq_ok hbody
    -- The first rule hangs off the opening joint, at whatever position it is.
    have hturn := turn_eq_ok hturn
    rw [if_neg fun h => h.2 rfl] at hturn
    obtain ⟨rfl, rfl⟩ := hturn
    have hfresh := size_le_of_attach hattach
    have hne : stop ≠ bracket.start := by lia
    have hmid : bracket.start < mid.size := by lia
    obtain ⟨current, others, body', last', closed, hcut, hchain, hclosed, hothers⟩ :=
      exists_alternatives_of_attachAll hne hmid hrest hlink
    rw [hcut, List.foldlM_cons]
    refine bind_eq_ok_iff.mpr ⟨closed, ?_, hothers⟩
    exact bind_eq_ok_iff.mpr
      ⟨(body', last'), bind_eq_ok_iff.mpr ⟨(mid, stop), hattach, hchain⟩, hclosed⟩

/-! ### Rules that can be hung into a tree -/

/-- The rule can be hung into some tree. -/
def CanAttach (args : ArgumentSet) (rule : Rule) (nested : Bool) : Prop :=
  ∃ tree tail result, attach args tree tail rule nested = .ok result

theorem canAttach_of_mem_chain (h : chain args tree tail rules = .ok (tree', last))
    (hmem : rule ∈ rules) : CanAttach args rule true := by
  induction rules generalizing tree tail with
  | nil => exact absurd hmem List.not_mem_nil
  | cons first rules ih =>
    obtain ⟨mid, stop, hattach, h⟩ := chain_cons_eq_ok h
    rcases List.mem_cons.mp hmem with rfl | hmem
    · exact ⟨tree, tail, (mid, stop), hattach⟩
    · exact ih h hmem

theorem canAttach_of_mem_branches {start join : NodeId} {alternatives : List (List Rule)}
    {alternative : List Rule}
    (h : alternatives.foldlM (branch args start join) tree = .ok tree')
    (halternative : alternative ∈ alternatives) (hmem : rule ∈ alternative) :
    CanAttach args rule true := by
  induction alternatives generalizing tree with
  | nil => exact absurd halternative List.not_mem_nil
  | cons first others ih =>
    rw [List.foldlM_cons] at h
    obtain ⟨closed, hbranch, h⟩ := bind_eq_ok_iff.mp h
    rcases List.mem_cons.mp halternative with rfl | halternative
    · obtain ⟨mid, last, hchain, -⟩ := branch_eq_ok hbranch
      exact canAttach_of_mem_chain hchain hmem
    · exact ih h halternative

/-- With a group, the rules of its alternatives have been hung into the tree. -/
theorem CanAttach.of_mem_alternatives {position : Nat} {span : Span} {alternative : List Rule}
    (h : CanAttach args (.nest (.group op) position rules span) nested)
    (halternative : alternative ∈ Rule.alternatives rules) (hmem : rule ∈ alternative) :
    CanAttach args rule true := by
  have hrules : rules ≠ [] := by
    intro heq
    subst heq
    exact absurd halternative List.not_mem_nil
  obtain ⟨tree, tail, ⟨tree', stop⟩, h⟩ := h
  obtain ⟨opened, bracket, filled, -, hfill, -⟩ := attach_group_eq_ok hrules h
  exact canAttach_of_mem_branches hfill halternative hmem

/-! ### Whole rule lists -/

theorem buildFrom_cons_eq_ok {ended : Bool}
    (h : buildFrom args tree tail ended (rule :: rules) = .ok tree') :
    ended = false ∧ ∃ mid stop, attach args tree tail rule false = .ok (mid, stop) ∧
      buildFrom args mid stop (rule.kind == .finish) rules = .ok tree' := by
  rw [buildFrom] at h
  cases ended with
  | true => cases h
  | false =>
    obtain ⟨⟨mid, stop⟩, hattach, h⟩ := bind_eq_ok_iff.mp h
    exact ⟨rfl, mid, stop, hattach, h⟩

/-- All rules of a tree have been hung into it. -/
theorem canAttach_of_mem_buildFrom {ended : Bool}
    (h : buildFrom args tree tail ended rules = .ok tree') (hmem : rule ∈ rules) :
    CanAttach args rule false := by
  induction rules generalizing tree tail ended with
  | nil => exact absurd hmem List.not_mem_nil
  | cons first rules ih =>
    obtain ⟨-, mid, stop, hattach, h⟩ := buildFrom_cons_eq_ok h
    rcases List.mem_cons.mp hmem with rfl | hmem
    · exact ⟨tree, tail, (mid, stop), hattach⟩
    · exact ih h hmem

end Tree

end CommandShell
