import CommandShell.Proofs.Grammar.Rules
import CommandShell.Proofs.Tree.Walk

/-!
# What can go wrong in building a tree

Building a rule list reports the first fault of the list, and succeeds if there is none. The links
and nodes of the tree itself never go wrong: rules are hung off nodes that are there and are not
the end, what is given a second parent is a joint, and no rule can ask for a second end.

## Main definitions

* `Reports` — a step that fails with a given fault, or succeeds if there is none
* `Tree.IsOpen`, `Tree.Ready` — a node that can have children, and a tree that waits for a rule
* `Tree.HasJoints` — the joints of a group that is being filled

## Main results

* `Tree.exists_hang`, `Tree.exists_openGroup`, `Tree.exists_turn`, `Tree.exists_closeGroup` — steps
  that cannot fail
* `Tree.reports_attach` — hanging a rule into a tree reports the first fault of that rule
* `Tree.reports_build` — building a rule list reports its first fault
* `Tree.build_verdict` — when a rule list can be built, and what is reported if it cannot
-/

namespace CommandShell

open Rule (Place)

/-! ### Steps that report faults -/

section Reports

variable {α β : Type} {x : Except GrammarError α} {f : α → Except GrammarError β}
  {fault? fault'? : Option GrammarError} {q q' : α → Prop} {r : β → Prop}

/-- If there is a fault then the step fails with it, and otherwise its result has the property. -/
def Reports (x : Except GrammarError α) (fault? : Option GrammarError) (q : α → Prop) : Prop :=
  match fault? with
  | some e => x = .error e
  | none => ∃ a, x = .ok a ∧ q a

theorem Reports.mono (h : Reports x fault? q) (hq : ∀ a, q a → q' a) : Reports x fault? q' := by
  cases fault? with
  | some e => exact h
  | none =>
    obtain ⟨a, hx, ha⟩ := h
    exact ⟨a, hx, hq a ha⟩

/-- Of two steps the first that has a fault reports it. -/
theorem Reports.bind (h : Reports x fault? q) (hf : ∀ a, q a → Reports (f a) fault'? r) :
    Reports (x >>= f) (fault?.or fault'?) r := by
  cases fault? with
  | some e =>
    rw [show x = .error e from h]
    rfl
  | none =>
    obtain ⟨a, rfl, ha⟩ := h
    exact hf a ha

/-- A step that cannot fail leaves the faults to the next one. -/
theorem reports_bind_of_ok (h : ∃ a, x = .ok a ∧ q a) (hf : ∀ a, q a → Reports (f a) fault? r) :
    Reports (x >>= f) fault? r := by
  have hx : Reports x none q := h
  exact hx.bind hf

/-- A step is followed by one that cannot fail. -/
theorem Reports.bind_of_ok (h : Reports x fault? q) (hf : ∀ a, q a → ∃ b, f a = .ok b ∧ r b) :
    Reports (x >>= f) fault? r := by
  rw [← Option.or_none (o := fault?)]
  exact h.bind hf

theorem Reports.eq_error_iff {e : GrammarError} (h : Reports x fault? q) :
    x = .error e ↔ fault? = some e := by
  cases fault? with
  | some fault =>
    rw [show x = .error fault from h, Except.error.injEq, Option.some.injEq]
  | none =>
    obtain ⟨a, rfl, -⟩ := h
    exact iff_of_false nofun nofun

theorem Reports.exists_ok_iff (h : Reports x fault? q) : (∃ a, x = .ok a) ↔ fault? = none := by
  cases fault? with
  | some e =>
    rw [show x = .error e from h]
    exact iff_of_false nofun nofun
  | none =>
    obtain ⟨a, hx, -⟩ := h
    exact iff_of_true ⟨a, hx⟩ rfl

end Reports

namespace Tree

variable {args : ArgumentSet} {tree tree' : Tree} {tail last parent child id : NodeId}
  {nested isLoop : Bool} {rule : Rule} {rules : List Rule} {bracket : Bracket} {op : GroupOp}
  {kind : NodeKind} {label : String}

/-! ### Nodes that can be linked -/

/-- The node is there and is not the end, so it can have children. -/
def IsOpen (tree : Tree) (id : NodeId) : Prop :=
  ∃ symbol, tree.symbol? id = some symbol ∧ symbol.kind ≠ .finish

theorem IsOpen.mono (h : tree.IsOpen id) (hext : tree.Extends tree') : tree'.IsOpen id := by
  obtain ⟨symbol, hsymbol, hkind⟩ := h
  exact ⟨symbol, hext.symbol?_eq_some hsymbol, hkind⟩

theorem isJointAt_iff_symbol? :
    tree.IsJointAt id ↔ ∃ symbol, tree.symbol? id = some symbol ∧ symbol.kind.isJoint = true := by
  constructor
  · rintro ⟨node, hnode, hkind⟩
    exact ⟨node.symbol, symbol?_of_node? hnode, hkind⟩
  · rintro ⟨symbol, hsymbol, hkind⟩
    obtain ⟨node, hnode, rfl⟩ := symbol?_eq_some_iff.mp hsymbol
    exact ⟨node, hnode, hkind⟩

theorem IsJointAt.mono (h : tree.IsJointAt id) (hext : tree.Extends tree') :
    tree'.IsJointAt id := by
  obtain ⟨symbol, hsymbol, hkind⟩ := isJointAt_iff_symbol?.mp h
  exact isJointAt_iff_symbol?.mpr ⟨symbol, hext.symbol?_eq_some hsymbol, hkind⟩

theorem IsJointAt.isOpen (h : tree.IsJointAt id) : tree.IsOpen id := by
  obtain ⟨symbol, hsymbol, hkind⟩ := isJointAt_iff_symbol?.mp h
  exact ⟨symbol, hsymbol, (NodeKind.isJoint_iff.mp hkind).2⟩

/-- A tree without an end that is about to be given a rule under the node `tail`. -/
structure Ready (tree : Tree) (tail : NodeId) : Prop where
  finish?_eq : tree.finish? = none
  isOpen : tree.IsOpen tail

/-- Both ends of a group are there, and where its alternatives meet. -/
structure HasJoints (tree : Tree) (bracket : Bracket) : Prop where
  start : tree.IsJointAt bracket.start
  join : tree.IsJointAt bracket.join
  stop : tree.IsJointAt bracket.stop

theorem HasJoints.mono (h : tree.HasJoints bracket) (hext : tree.Extends tree') :
    tree'.HasJoints bracket :=
  ⟨h.start.mono hext, h.join.mono hext, h.stop.mono hext⟩

/-! ### Steps that cannot fail -/

/-- Where there is no end, any node but a start can be added. -/
theorem exists_add (kind : NodeKind) (label : String) (hfinish : tree.finish? = none)
    (hkind : kind ≠ .start) :
    ∃ tree', tree.add kind label = .ok (tree', tree.size) ∧
      (kind ≠ .finish → tree'.finish? = none) := by
  unfold add
  cases kind <;> simp_all

/-- An edge from a node that is not the end to one that no edge leads to, or to a joint. -/
theorem exists_link {node : Node} (isLoop : Bool) (hparent : tree.IsOpen parent)
    (hchild : tree.node? child = some node)
    (hfree : node.kind.isBrowsable = true → node.parents = []) :
    ∃ tree', tree.link parent child isLoop = .ok tree' ∧ tree'.finish? = tree.finish? := by
  obtain ⟨symbol, hsymbol, hkind⟩ := hparent
  obtain ⟨source, hsource, rfl⟩ := symbol?_eq_some_iff.mp hsymbol
  refine ⟨tree.connect parent ⟨child, isLoop⟩, ?_, rfl⟩
  rw [link, hchild]
  dsimp only
  rw [if_neg (fun h => h.2 (hfree h.1)), hsource]
  exact if_neg hkind

/-- An edge to a joint can be added however many there are. -/
theorem exists_link_joint (isLoop : Bool) (hparent : tree.IsOpen parent)
    (hchild : tree.IsJointAt child) :
    ∃ tree', tree.link parent child isLoop = .ok tree' ∧ tree'.finish? = tree.finish? := by
  obtain ⟨node, hnode, hkind⟩ := hchild
  refine exists_link isLoop hparent hnode fun hbrowsable => ?_
  simp [NodeKind.isBrowsable, (NodeKind.isJoint_iff.mp hkind).1] at hbrowsable

/-- A new node can be hung under any node but the end. -/
theorem exists_hang (kind : NodeKind) (label : String) (hr : Ready tree tail)
    (hkind : kind ≠ .start) :
    ∃ result, tree.hang tail kind label = .ok result ∧ tree.Extends result.1 ∧
      (kind ≠ .finish → Ready result.1 result.2) := by
  obtain ⟨mid, hadd, hfinish⟩ := exists_add kind label hr.finish?_eq hkind
  have hnode : mid.node? tree.size = some { kind, label } := by rw [node?_add hadd, if_pos rfl]
  obtain ⟨tree', hlink, hfinish'⟩ :=
    exists_link false (hr.isOpen.mono (extends_add hadd)) hnode fun _ => rfl
  have hhang : tree.hang tail kind label = .ok (tree', tree.size) :=
    bind_eq_ok_iff.mpr ⟨_, hadd, bind_eq_ok_iff.mpr ⟨_, hlink, rfl⟩⟩
  refine ⟨_, hhang, extends_hang hhang, fun hne => ⟨?_, ⟨kind, label⟩, ?_, hne⟩⟩
  · rw [hfinish', hfinish hne]
  · rw [symbol?_hang hhang, if_pos rfl]

theorem hasJoints_openGroup (h : tree.openGroup tail op = .ok (tree', bracket)) :
    tree'.HasJoints bracket := by
  have hhook {i : NodeId} (hi : i = bracket.stop ∨ i = bracket.start) : tree'.IsJointAt i :=
    isJointAt_iff_symbol?.mpr ⟨⟨.hook, "hook"⟩, by rw [symbol?_openGroup h, if_pos hi], rfl⟩
  refine ⟨hhook (.inr rfl), isJointAt_iff_symbol?.mpr ⟨_, symbol?_join h, ?_⟩, hhook (.inl rfl)⟩
  unfold joinSymbol
  split <;> rfl

/-- The joints of a group have no other parents yet, and its first one is hung under `tail`. -/
theorem exists_openGroup (op : GroupOp) (hr : Ready tree tail) :
    ∃ result, tree.openGroup tail op = .ok result ∧ result.1.finish? = none := by
  obtain ⟨⟨opened, start⟩, hstart, -, hready⟩ := exists_hang .hook "hook" hr nofun
  have hopened : opened.finish? = none := (hready nofun).finish?_eq
  by_cases hop : op.isRepeatable = true
  · obtain ⟨joined, hjoin, hfinish⟩ := exists_add .loop "loop" hopened nofun
    obtain ⟨stopped, hstop, hfinish'⟩ := exists_add .hook "hook" (hfinish nofun) nofun
    refine ⟨(stopped, ⟨start, opened.size, joined.size⟩),
      bind_eq_ok_iff.mpr ⟨_, hstart, ?_⟩, hfinish' nofun⟩
    dsimp only
    rw [if_pos hop]
    exact bind_eq_ok_iff.mpr ⟨_, hjoin, bind_eq_ok_iff.mpr ⟨_, hstop, rfl⟩⟩
  · obtain ⟨stopped, hstop, hfinish⟩ := exists_add .hook "hook" hopened nofun
    refine ⟨(stopped, ⟨start, opened.size, opened.size⟩),
      bind_eq_ok_iff.mpr ⟨_, hstart, ?_⟩, hfinish nofun⟩
    dsimp only
    rw [if_neg hop]
    exact bind_eq_ok_iff.mpr ⟨_, hstop, rfl⟩

/-- The edges that close a group lead from joint to joint. -/
theorem exists_closeGroup (op : GroupOp) (hj : tree.HasJoints bracket) :
    ∃ tree', tree.closeGroup bracket op = .ok tree' ∧ tree'.finish? = tree.finish? := by
  have hskip {looped : Tree} (hj : looped.HasJoints bracket) :
      ∃ tree', (if op.isOptional then looped.addChild bracket.start bracket.stop
        else .ok looped) = .ok tree' ∧ tree'.finish? = looped.finish? := by
    split
    · exact exists_link_joint false hj.start.isOpen hj.stop
    · exact ⟨looped, rfl, rfl⟩
  by_cases hop : op.isRepeatable = true
  · obtain ⟨passed, hpass, hfinish⟩ := exists_link_joint false hj.join.isOpen hj.stop
    have hpassed := hj.mono (extends_link hpass)
    obtain ⟨looped, hback, hfinish'⟩ := exists_link_joint true hpassed.join.isOpen hpassed.start
    obtain ⟨tree', hclose, hfinish''⟩ := hskip (hpassed.mono (extends_link hback))
    refine ⟨tree', ?_, hfinish''.trans (hfinish'.trans hfinish)⟩
    unfold closeGroup
    rw [if_pos hop]
    exact bind_eq_ok_iff.mpr ⟨looped, bind_eq_ok_iff'.mpr ⟨passed, hpass, hback⟩, hclose⟩
  · obtain ⟨tree', hclose, hfinish⟩ := hskip hj
    refine ⟨tree', ?_, hfinish⟩
    unfold closeGroup
    rw [if_neg hop]
    exact bind_eq_ok_iff.mpr ⟨tree, rfl, hclose⟩

/-- The next rule of a group can be hung off the opening joint or off the rule before it. -/
theorem exists_turn {position : Nat} (hr : Ready tree tail) (hj : tree.HasJoints bracket) :
    ∃ result, tree.turn bracket tail position = .ok result ∧ tree.Extends result.1 ∧
      Ready result.1 result.2 := by
  unfold turn
  split
  · obtain ⟨tree', hlink, hfinish⟩ := exists_link_joint false hr.isOpen hj.join
    have hext := extends_link hlink
    exact ⟨_, map_eq_ok_iff.mpr ⟨tree', hlink, rfl⟩, hext, hfinish.trans hr.finish?_eq,
      (hj.start.mono hext).isOpen⟩
  · exact ⟨_, rfl, .refl _, hr⟩

/-! ### Rules -/

/-- Where a rule stands that is hung into a tree. -/
def placeOf (nested : Bool) : Place := if nested then .inGroup else .line

/-- A rule hung into a tree leaves the tree ready for the next rule, unless it ends the line. -/
def LeavesReady (tree : Tree) (rule : Rule) (nested : Bool) (result : Tree × NodeId) : Prop :=
  tree.Extends result.1 ∧ (nested = true ∨ rule.kind ≠ .finish → Ready result.1 result.2)

/-- A rule that is looked up has no fault but a name that is not declared. -/
theorem reports_argumentOf (h : rule.needsDeclaration = true) :
    Reports (argumentOf args rule) (rule.fault? args (placeOf nested)) fun _ => True := by
  have hfault : rule.fault? args (placeOf nested) = if rule.lookupName ∈ args.names then none
      else some (.undeclaredArgument rule.lookupName rule.span) := by
    unfold Rule.needsDeclaration at h
    cases nested <;> split at h <;> simp_all [Rule.fault?, placeOf]
  rw [hfault, argumentOf]
  cases hid : args.idOf? rule.lookupName with
  | none =>
    rw [if_neg (ArgumentSet.idOf?_eq_none_iff.mp hid)]
    rfl
  | some id =>
    have hdeclared : rule.lookupName ∈ args.names := by
      by_contra hundeclared
      rw [ArgumentSet.idOf?_eq_none_iff.mpr hundeclared] at hid
      cases hid
    rw [if_pos hdeclared]
    exact ⟨id, rfl, trivial⟩

theorem exists_hang_leavesReady (kind : NodeKind) (label : String) (hr : Ready tree tail)
    (hstart : kind ≠ .start) (hkind : kind ≠ .finish) :
    ∃ result, tree.hang tail kind label = .ok result ∧ LeavesReady tree rule nested result := by
  obtain ⟨result, hhang, hext, hready⟩ := exists_hang kind label hr hstart
  exact ⟨result, hhang, hext, fun _ => hready hkind⟩

/-- A rule that is no group reports what is wrong with it, and nothing else can go wrong. -/
theorem reports_attachLeaf (hrule : rule.isFilledGroup = false) (hr : Ready tree tail) :
    Reports (attachLeaf args tree tail rule nested) (rule.fault? args (placeOf nested))
      (LeavesReady tree rule nested) := by
  unfold attachLeaf
  dsimp only
  split
  case h_1 hkind =>
    cases nested with
    | true =>
      -- The place is what makes the difference: only a line can be ended.
      have hfault : rule.fault? args (placeOf true) = some .nestedFinish := by
        simp [Rule.fault?, placeOf, hkind]
      rw [hfault]
      rfl
    | false =>
      have hfault : rule.fault? args (placeOf false) = none := by
        simp [Rule.fault?, placeOf, hkind]
      rw [hfault]
      obtain ⟨result, hhang, hext, -⟩ :=
        exists_hang .finish Sentinel.finish.label hr (by simp)
      exact ⟨result, hhang, hext, fun hgoes => absurd hkind (hgoes.resolve_left Bool.false_ne_true)⟩
  case h_2 hkind =>
    refine (reports_argumentOf (by simp [Rule.needsDeclaration, hkind])).bind_of_ok fun id _ => ?_
    exact exists_hang_leavesReady (.argument id) _ hr (by simp) (by simp)
  case h_3 hkind =>
    refine (reports_argumentOf (by simp [Rule.needsDeclaration, hkind])).bind_of_ok fun id _ => ?_
    exact exists_hang_leavesReady (.freeForm id) _ hr (by simp) (by simp)
  case h_4 hkind =>
    -- The value is hung under the flag, which is as ready for it as for any other node.
    refine (reports_argumentOf (by simp [Rule.needsDeclaration, hkind])).bind_of_ok fun id _ => ?_
    obtain ⟨⟨mid, flag⟩, hflag, hext, hready⟩ :=
      exists_hang (.flag id) rule.lookupName hr (by simp)
    obtain ⟨result, hvalue, hext', hready'⟩ :=
      exists_hang (.freeForm id) rule.lookupName (hready (by simp)) (by simp)
    exact ⟨result, bind_eq_ok_iff.mpr ⟨_, hflag, hvalue⟩, hext.trans hext',
      fun _ => hready' (by simp)⟩
  case h_5 hkind =>
    have hfault : rule.fault? args (placeOf nested) = none := by
      cases nested <;> simp [Rule.fault?, placeOf, hkind]
    rw [hfault]
    exact exists_hang_leavesReady (.constant ..) _ hr (by simp) (by simp)
  case h_6 op hkind =>
    have hempty : rule.rules = [] := by
      cases rule with
      | leaf | bare => rfl
      | nest kind position rules span =>
        obtain rfl : kind = .group op := hkind
        cases rules with
        | nil => rfl
        | cons first rest => cases hrule
    have hfault : rule.fault? args (placeOf nested) = some (.emptyAlternative rule.span) := by
      cases nested <;> simp [Rule.fault?, placeOf, hkind, hempty]
    rw [hfault]
    rfl

/-- One after the other, the rules of a group report what is wrong with them. -/
theorem reports_attachAll_of_forall
    (ih : ∀ rule ∈ rules, ∀ {tree tail}, Ready tree tail →
      Reports (attach args tree tail rule true) (Rule.firstFault? args (rule.visits .inGroup))
        (LeavesReady tree rule true))
    (hr : Ready tree tail) (hj : tree.HasJoints bracket) :
    Reports (attachAll args tree bracket tail rules)
      (Rule.firstFault? args (Rule.visitsAll rules))
      fun result => tree.Extends result.1 ∧ Ready result.1 result.2 := by
  induction rules generalizing tree tail with
  | nil => exact ⟨(tree, tail), rfl, .refl _, hr⟩
  | cons rule rules ihr =>
    rw [attachAll, Rule.visitsAll, Rule.firstFault?_append]
    refine reports_bind_of_ok (exists_turn hr hj) ?_
    rintro ⟨turned, tail'⟩ ⟨hturned, hready⟩
    refine (ih rule List.mem_cons_self hready).bind ?_
    rintro ⟨mid, stop⟩ ⟨hmid, hstop⟩
    have hext := hturned.trans hmid
    refine (ihr (fun rule hmem => ih rule (List.mem_cons_of_mem _ hmem)) (hstop (.inl rfl))
      (hj.mono hext)).mono ?_
    rintro ⟨tree', last⟩ ⟨hrest, hlast⟩
    exact ⟨hext.trans hrest, hlast⟩

/-- A rule that is hung into a tree reports its first fault. -/
theorem reports_attach (nested : Bool) (hr : Ready tree tail) :
    Reports (attach args tree tail rule nested)
      (Rule.firstFault? args (rule.visits (placeOf nested))) (LeavesReady tree rule nested) := by
  induction rule using Rule.induction generalizing tree tail nested with
  | single rule hrule =>
    rw [attach_of_not_isFilledGroup hrule, Rule.visits_of_not_isFilledGroup hrule,
      Rule.firstFault?_singleton]
    exact reports_attachLeaf hrule hr
  | group op position rules span hrules ih =>
    have hown : Rule.firstFault? args
        (Rule.visits (placeOf nested) (.nest (.group op) position rules span)) =
          Rule.firstFault? args (Rule.visitsAll rules) := by
      cases nested <;> simp [Rule.visits, Rule.firstFault?, Rule.fault?, placeOf, Rule.kind,
        Rule.rules, hrules]
    rw [hown]
    cases rules with
    | nil => exact absurd rfl hrules
    | cons first rest =>
      rw [attach]
      obtain ⟨⟨opened, bracket⟩, hopen, hfinish⟩ := exists_openGroup op hr
      have hjoints : opened.HasJoints bracket := hasJoints_openGroup hopen
      have hready : Ready opened bracket.start := ⟨hfinish, hjoints.start.isOpen⟩
      refine reports_bind_of_ok (q := (· = (opened, bracket))) ⟨_, hopen, rfl⟩ ?_
      rintro _ rfl
      refine (reports_attachAll_of_forall ?_ hready hjoints).bind_of_ok ?_
      · intro rule hrule tree tail hr
        rw [← Rule.flatten_alternatives (first :: rest)] at hrule
        obtain ⟨alternative, halternative, hrule⟩ := List.mem_flatten.mp hrule
        exact ih alternative halternative rule hrule true hr
      · rintro ⟨body, last⟩ ⟨hbody, hlast⟩
        have hfilled := hjoints.mono hbody
        obtain ⟨joined, hjoin, hfinish⟩ :=
          exists_link_joint false hlast.isOpen hfilled.join
        have hjoined := hfilled.mono (extends_link hjoin)
        obtain ⟨tree', hclose, hfinish'⟩ := exists_closeGroup op hjoined
        have hext := (extends_link hjoin).trans (extends_closeGroup hclose)
        refine ⟨(tree', bracket.stop),
          bind_eq_ok_iff.mpr ⟨joined, hjoin, bind_eq_ok_iff.mpr ⟨tree', hclose, rfl⟩⟩,
          ((extends_openGroup hopen).trans hbody).trans hext, fun _ => ⟨?_, ?_⟩⟩
        · exact (hfinish'.trans hfinish).trans hlast.finish?_eq
        · exact (hjoined.mono (extends_closeGroup hclose)).stop.isOpen

/-! ### Whole rule lists -/

theorem ready_initial : Ready initial root :=
  ⟨rfl, _, symbol?_initial_root, by simp⟩

/-- Behind the end, the next rule is a fault whatever it is. -/
theorem firstFault?_visits_afterFinish :
    Rule.firstFault? args (rule.visits .afterFinish) = some (.ruleAfterFinish rule) := by
  unfold Rule.visits
  split <;> simp [Rule.firstFault?, Rule.fault?]

theorem reports_buildFrom {ended : Bool} (hr : ended = false → Ready tree tail) :
    Reports (buildFrom args tree tail ended rules)
      (Rule.firstFault? args (Rule.visitsFrom ended rules)) fun _ => True := by
  induction rules generalizing tree tail ended with
  | nil => exact ⟨tree, rfl, trivial⟩
  | cons rule rules ih =>
    rw [Rule.visitsFrom, Rule.firstFault?_append]
    cases ended with
    | true =>
      rw [if_pos rfl, firstFault?_visits_afterFinish]
      rfl
    | false =>
      refine Reports.bind (reports_attach false (hr rfl)) ?_
      rintro ⟨mid, stop⟩ ⟨-, hready⟩
      exact ih fun hended => hready (.inr (by simpa using hended))

/-- Building a rule list reports its first fault, and succeeds if it has none. -/
theorem reports_build : Reports (build args rules)
    (Rule.firstFault? args (Rule.visitsFrom false rules)) fun _ => True :=
  reports_buildFrom fun _ => ready_initial

/-- Building a rule list succeeds exactly if nothing is wrong with the list, and fails with what is
wrong with the first of its rules, in depth-first order, that something is wrong with. Nothing goes
wrong with the nodes and links of the tree, and if the list is that of a grammar then all that can
be wrong is a name. -/
theorem build_verdict (args : ArgumentSet) (rules : List Rule) :
    ((∃ tree, build args rules = .ok tree) ↔ Rule.IsBuildable args rules) ∧
    (∀ e, build args rules = .error e ↔
      ∃ before place rule after, Rule.visitsFrom false rules = before ++ (place, rule) :: after ∧
        rule.fault? args place = some e ∧
        ∀ place rule, (place, rule) ∈ before → rule.fault? args place = none) ∧
    (∀ e, build args rules = .error e →
      (∀ label, e ≠ .reparent label) ∧ (∀ id, e ≠ .noSuchNode id) ∧ e ≠ .childOfFinish ∧
        ∀ sentinel, e ≠ .duplicateSentinel sentinel) ∧
    ∀ source limit grammar, Grammar.parse source limit = .ok grammar → grammar.rules = rules →
      ∀ e, build args rules = .error e →
        ∃ rule : Rule, rule.StandsIn rules ∧ rule.lookupName ∉ args.names ∧
          e = .undeclaredArgument rule.lookupName rule.span := by
  have herror (e : GrammarError) : build args rules = .error e ↔
      Rule.firstFault? args (Rule.visitsFrom false rules) = some e := reports_build.eq_error_iff
  refine ⟨?_, ?_, ?_, ?_⟩
  · rw [← Rule.firstFault?_visitsFrom_eq_none_iff]
    exact reports_build.exists_ok_iff
  · intro e
    rw [herror, Rule.firstFault?_eq_some_iff]
  · intro e h
    obtain ⟨before, place, rule, after, -, hfault, -⟩ :=
      Rule.firstFault?_eq_some_iff.mp ((herror e).mp h)
    rcases Rule.eq_of_fault?_eq_some hfault with rfl | rfl | rfl | rfl <;>
      exact ⟨nofun, nofun, nofun, nofun⟩
  · rintro source limit grammar hparse rfl e h
    exact (Grammar.isWellShaped_rules hparse).exists_undeclared ((herror e).mp h)

/-- If neither of its names is declared, `load path [n]*` has no tree, on account of a name. -/
theorem build_verdict_load : ∃ grammar e, Grammar.parse "load path [n]*" 16 = .ok grammar ∧
    build ∅ grammar.rules = .error e ∧ ∃ rule : Rule, rule.StandsIn grammar.rules ∧
      rule.lookupName ∉ (∅ : ArgumentSet).names ∧
      e = .undeclaredArgument rule.lookupName rule.span := by
  obtain ⟨grammar, hparse⟩ := exists_eq_ok_of_isOk
    (x := Grammar.parse "load path [n]*" 16) (by decide +kernel)
  have hfails : ((Grammar.parse "load path [n]*" 16).map fun grammar =>
      (build ∅ grammar.rules).isOk) = .ok false := by decide +kernel
  obtain ⟨other, hother, hrules⟩ := map_eq_ok_iff.mp hfails
  cases hother.symm.trans hparse
  cases hbuild : build ∅ grammar.rules with
  | ok tree => simp [hbuild, Except.isOk, Except.toBool] at hrules
  | error e =>
    exact ⟨grammar, e, hparse, hbuild,
      (build_verdict ∅ grammar.rules).2.2.2 _ _ grammar hparse rfl e hbuild⟩

end Tree

end CommandShell
