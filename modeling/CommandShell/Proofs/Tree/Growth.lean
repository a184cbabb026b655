import CommandShell.Proofs.Tree.Assembly

/-!
# Trees only grow

Building a tree adds nodes and edges and takes none away. New edges leave only nodes that rules can
be hung off, so a flag keeps its value node as its only child and the end has no children, and what
a node is labelled with is what its argument is called.

## Main definitions

* `Tree.Extends` — a tree has all nodes and edges of another one
* `Tree.WellFormed`, `Tree.FlagsLeadToValues` — what holds of every tree that is being built
* `Tree.IsTail` — a node that rules can be hung off
* `Tree.Growing`, `Tree.Grows` — a tree between two steps, and what a step makes of it

## Main results

* `attach_grows` — a rule leads from a well-formed tree to a well-formed extension of it
* `build_grows` — the tree of a rule list is well formed
-/

namespace CommandShell

/-- The label of a symbol is the name of the argument that its kind refers to. -/
def Symbol.Declared (args : ArgumentSet) (symbol : Symbol) : Prop :=
  match symbol.kind with
  | .argument id | .freeForm id | .flag id => args.idOf? symbol.label = some id
  | .constant literal id => literal = symbol.label ∧ id = args.idOf? symbol.label
  | .start | .finish | .hook | .loop => True

theorem Rule.declared_of_symbol? {args : ArgumentSet} {rule : Rule} {symbol : Symbol}
    (h : rule.symbol? args = some symbol) : symbol.Declared args ∧ ¬ symbol.IsFlag := by
  unfold symbol? at h
  split at h
  · obtain ⟨id, hid, rfl⟩ := Option.map_eq_some_iff.mp h
    exact ⟨hid, by simp [Symbol.IsFlag]⟩
  · obtain ⟨id, hid, rfl⟩ := Option.map_eq_some_iff.mp h
    exact ⟨hid, by simp [Symbol.IsFlag]⟩
  · cases h
    exact ⟨⟨rfl, rfl⟩, by simp [Symbol.IsFlag]⟩
  all_goals contradiction

namespace Tree

variable {args : ArgumentSet} {tree tree' tree'' : Tree} {tail last stop start join id i : NodeId}
  {nested isLoop : Bool} {rule : Rule} {rules : List Rule} {alternatives : List (List Rule)}
  {bracket : Bracket} {op : GroupOp} {kind : NodeKind} {label : String} {symbol : Symbol}

/-! ### Extensions -/

/-- The tree `tree'` has all nodes and edges of `tree`. -/
structure Extends (tree tree' : Tree) : Prop where
  size_le : tree.size ≤ tree'.size
  symbol?_eq : ∀ {i : NodeId}, i < tree.size → tree'.symbol? i = tree.symbol? i
  targets_subset : ∀ i : NodeId, tree.targets i ⊆ tree'.targets i

namespace Extends

theorem refl (tree : Tree) : tree.Extends tree :=
  ⟨Nat.le_refl _, fun _ => rfl, fun _ => List.Subset.refl _⟩

theorem trans (h : tree.Extends tree') (h' : tree'.Extends tree'') : tree.Extends tree'' where
  size_le := Nat.le_trans h.size_le h'.size_le
  symbol?_eq hi := (h'.symbol?_eq (Nat.lt_of_lt_of_le hi h.size_le)).trans (h.symbol?_eq hi)
  targets_subset i := List.Subset.trans (h.targets_subset i) (h'.targets_subset i)

theorem symbol?_eq_some (h : tree.Extends tree') (hi : tree.symbol? i = some symbol) :
    tree'.symbol? i = some symbol := by
  rw [h.symbol?_eq (lt_size_of_symbol? hi), hi]

end Extends

theorem extends_add (h : tree.add kind label = .ok (tree', id)) : tree.Extends tree' where
  size_le := by
    have := size_add h
    lia
  symbol?_eq hi := by rw [symbol?_add h, if_neg (Nat.ne_of_lt hi)]
  targets_subset i := by rw [targets_add h]; exact List.Subset.refl _

theorem extends_link (h : tree.link start join isLoop = .ok tree') : tree.Extends tree' where
  size_le := (size_link h).ge
  symbol?_eq _ := symbol?_link h
  targets_subset _ := fun _ hmem => (mem_targets_link h).mpr (.inl hmem)

theorem extends_hang (h : tree.hang tail kind label = .ok (tree', id)) : tree.Extends tree' := by
  obtain ⟨mid, hadd, hlink⟩ := hang_eq_ok h
  exact (extends_add hadd).trans (extends_link hlink)

theorem extends_openGroup (h : tree.openGroup tail op = .ok (tree', bracket)) :
    tree.Extends tree' := by
  obtain ⟨opened, joined, hstart, hjoin, hstop⟩ := openGroup_eq_ok h
  have hopened := extends_hang hstart
  split at hjoin
  · exact hopened.trans ((extends_add hjoin).trans (extends_add hstop))
  · obtain ⟨rfl, -⟩ := hjoin
    exact hopened.trans (extends_add hstop)

theorem extends_closeGroup (h : tree.closeGroup bracket op = .ok tree') : tree.Extends tree' where
  size_le := (size_closeGroup h).ge
  symbol?_eq _ := symbol?_closeGroup h
  targets_subset _ := fun _ hmem => (mem_targets_closeGroup h).mpr (.inl hmem)

/-! ### Well-formed trees -/

/-- What holds of a tree after every step of building it. -/
structure WellFormed (args : ArgumentSet) (tree : Tree) : Prop where
  /-- Edges lead to nodes of the tree. -/
  target_lt : ∀ {i j : NodeId}, j ∈ tree.targets i → j < tree.size
  /-- Labels are the names of arguments. -/
  declared : ∀ {i : NodeId} {symbol : Symbol}, tree.symbol? i = some symbol → symbol.Declared args
  /-- The end has no children. -/
  finish_targets : ∀ {i : NodeId} {symbol : Symbol}, tree.symbol? i = some symbol →
    symbol.kind = .finish → tree.targets i = []

/-- The only child of a flag is the node of its value. -/
def FlagsLeadToValues (tree : Tree) : Prop :=
  ∀ {i : NodeId} {id : ArgId} {name : String}, tree.symbol? i = some ⟨.flag id, name⟩ →
    ∃ value, tree.targets i = [value] ∧ tree.symbol? value = some ⟨.freeForm id, name⟩

/-- The node is there and is no flag, so rules can be hung off it. -/
def IsTail (tree : Tree) (id : NodeId) : Prop :=
  ∃ symbol, tree.symbol? id = some symbol ∧ ¬ symbol.IsFlag

theorem IsTail.lt_size (h : tree.IsTail id) : id < tree.size :=
  lt_size_of_symbol? h.choose_spec.1

theorem IsTail.mono (h : tree.IsTail id) (hext : tree.Extends tree') : tree'.IsTail id := by
  obtain ⟨symbol, hsymbol, hflag⟩ := h
  exact ⟨symbol, hext.symbol?_eq_some hsymbol, hflag⟩

theorem IsTail.ne_of_flag {arg : ArgId} (h : tree.IsTail id)
    (hi : tree.symbol? i = some ⟨.flag arg, label⟩) : id ≠ i := by
  intro heq
  subst heq
  obtain ⟨symbol, hsymbol, hflag⟩ := h
  cases hsymbol.symm.trans hi
  exact hflag ⟨arg, rfl⟩

theorem wellFormed_add (h : tree.add kind label = .ok (tree', id)) (hw : tree.WellFormed args)
    (hdeclared : Symbol.Declared args ⟨kind, label⟩) : tree'.WellFormed args where
  target_lt hmem := by
    rw [targets_add h] at hmem
    exact Nat.lt_of_lt_of_le (hw.target_lt hmem) (extends_add h).size_le
  declared hsymbol := by
    rw [symbol?_add h] at hsymbol
    split at hsymbol
    · cases hsymbol
      exact hdeclared
    · exact hw.declared hsymbol
  finish_targets hsymbol hkind := by
    rw [symbol?_add h] at hsymbol
    rw [targets_add h]
    split at hsymbol
    · exact targets_eq_nil (by lia)
    · exact hw.finish_targets hsymbol hkind

theorem wellFormed_link (h : tree.link start join isLoop = .ok tree') (hw : tree.WellFormed args) :
    tree'.WellFormed args where
  target_lt hmem := by
    rw [size_link h]
    rcases (mem_targets_link h).mp hmem with hmem | ⟨-, rfl⟩
    · exact hw.target_lt hmem
    · exact (link_eq_ok h).2.1
  declared hsymbol := hw.declared (symbol?_link h ▸ hsymbol)
  finish_targets {i symbol} hsymbol hkind := by
    rw [symbol?_link h] at hsymbol
    have hne : start ≠ i := by
      intro heq
      subst heq
      exact (link_eq_ok h).2.2.1 symbol hsymbol hkind
    rw [targets_link h, if_neg hne]
    exact hw.finish_targets hsymbol hkind

theorem wellFormed_hang (h : tree.hang tail kind label = .ok (tree', id))
    (hw : tree.WellFormed args) (hdeclared : Symbol.Declared args ⟨kind, label⟩) :
    tree'.WellFormed args := by
  obtain ⟨mid, hadd, hlink⟩ := hang_eq_ok h
  exact wellFormed_link hlink (wellFormed_add hadd hw hdeclared)

theorem flagsLeadToValues_add (h : tree.add kind label = .ok (tree', id))
    (hf : tree.FlagsLeadToValues) (hflag : ¬ Symbol.IsFlag ⟨kind, label⟩) :
    tree'.FlagsLeadToValues := by
  intro i arg name hsymbol
  rw [symbol?_add h] at hsymbol
  split at hsymbol
  · cases hsymbol
    exact absurd ⟨_, rfl⟩ hflag
  · obtain ⟨value, htargets, hvalue⟩ := hf hsymbol
    exact ⟨value, by rw [targets_add h, htargets], (extends_add h).symbol?_eq_some hvalue⟩

theorem flagsLeadToValues_link (h : tree.link start join isLoop = .ok tree')
    (hf : tree.FlagsLeadToValues) (hstart : tree.IsTail start) : tree'.FlagsLeadToValues := by
  intro i arg name hsymbol
  rw [symbol?_link h] at hsymbol
  obtain ⟨value, htargets, hvalue⟩ := hf hsymbol
  refine ⟨value, ?_, by rw [symbol?_link h, hvalue]⟩
  rw [targets_link h, if_neg (hstart.ne_of_flag hsymbol), htargets]

/-- A flag and its value are hung into a tree together, so that none is seen without the other. -/
theorem flagsLeadToValues_hang_hang {arg : ArgId} {name : String} {flag : NodeId}
    (hflag : tree.hang tail (.flag arg) name = .ok (tree', flag))
    (hvalue : tree'.hang flag (.freeForm arg) name = .ok (tree'', stop))
    (hf : tree.FlagsLeadToValues) (htail : tree.IsTail tail) : tree''.FlagsLeadToValues := by
  obtain rfl := id_hang hflag
  have hlt := htail.lt_size
  have hsize := size_hang hflag
  intro i arg' name' hsymbol
  rw [symbol?_hang hvalue, symbol?_hang hflag] at hsymbol
  rw [targets_hang hvalue, targets_hang hflag, hsize]
  by_cases hi : i = tree.size
  · -- The new flag has no edge but the one to its value, which is the next node.
    rw [if_neg (by lia), if_pos hi] at hsymbol
    cases hsymbol
    subst hi
    refine ⟨tree.size + 1, ?_, by rw [symbol?_hang hvalue, if_pos hsize.symm]⟩
    rw [if_pos rfl, if_neg (Nat.ne_of_lt hlt), targets_eq_nil (Nat.le_refl _), List.nil_append]
  · rw [if_neg hi] at hsymbol
    split at hsymbol
    · cases hsymbol
    · obtain ⟨value, htargets, hchild⟩ := hf hsymbol
      refine ⟨value, ?_, ?_⟩
      · rw [if_neg (Ne.symm hi), if_neg (htail.ne_of_flag hsymbol), htargets]
      · exact (extends_hang hvalue).symbol?_eq_some ((extends_hang hflag).symbol?_eq_some hchild)

/-! ### What a rule adds -/

/-- What holds between two steps of building a tree, if the next rule is hung off `tail`. -/
structure Growing (args : ArgumentSet) (tree : Tree) (tail : NodeId) : Prop where
  wellFormed : tree.WellFormed args
  flags : tree.FlagsLeadToValues
  isTail : tree.IsTail tail

/-- A step has led from `tree` to an extension of it in which rules can go on from `stop`. -/
structure Grows (args : ArgumentSet) (tree tree' : Tree) (stop : NodeId) : Prop
    extends Growing args tree' stop where
  ext : tree.Extends tree'

theorem Growing.grows_refl (hg : Growing args tree tail) : Grows args tree tree tail :=
  ⟨hg, .refl _⟩

theorem Grows.trans (h : Grows args tree tree' stop) (h' : Grows args tree' tree'' last) :
    Grows args tree tree'' last :=
  ⟨h'.toGrowing, h.ext.trans h'.ext⟩

/-- What rules are hung off can be chosen anew. -/
theorem Growing.of_isTail (hg : Growing args tree tail) (hlast : tree.IsTail last) :
    Growing args tree last :=
  ⟨hg.wellFormed, hg.flags, hlast⟩

theorem grows_add (h : tree.add kind label = .ok (tree', id)) (hg : Growing args tree tail)
    (hdeclared : Symbol.Declared args ⟨kind, label⟩) (hflag : ¬ Symbol.IsFlag ⟨kind, label⟩) :
    Grows args tree tree' id where
  wellFormed := wellFormed_add h hg.wellFormed hdeclared
  flags := flagsLeadToValues_add h hg.flags hflag
  isTail := ⟨_, by rw [symbol?_add h, if_pos (add_eq_ok h).1], hflag⟩
  ext := extends_add h

theorem grows_link (h : tree.link tail join isLoop = .ok tree') (hg : Growing args tree tail)
    (hlast : tree.IsTail last) : Grows args tree tree' last where
  wellFormed := wellFormed_link h hg.wellFormed
  flags := flagsLeadToValues_link h hg.flags hg.isTail
  isTail := hlast.mono (extends_link h)
  ext := extends_link h

theorem grows_hang (h : tree.hang tail kind label = .ok (tree', id)) (hg : Growing args tree tail)
    (hdeclared : Symbol.Declared args ⟨kind, label⟩) (hflag : ¬ Symbol.IsFlag ⟨kind, label⟩) :
    Grows args tree tree' id := by
  obtain ⟨mid, hadd, hlink⟩ := hang_eq_ok h
  have hmid := grows_add hadd hg hdeclared hflag
  exact hmid.trans (grows_link hlink (hmid.of_isTail (hg.isTail.mono hmid.ext)) hmid.isTail)

/-- All joints of a group can have rules hung off them. -/
theorem grows_openGroup (h : tree.openGroup tail op = .ok (tree', bracket))
    (hg : Growing args tree tail) :
    Grows args tree tree' bracket.start ∧ tree'.IsTail bracket.join ∧
      tree'.IsTail bracket.stop := by
  obtain ⟨opened, joined, hstart, hjoin, hstop⟩ := openGroup_eq_ok h
  have hflag (kind : NodeKind) (label : String) (hkind : kind.isStructural = true) :
      ¬ Symbol.IsFlag ⟨kind, label⟩ := by
    rintro ⟨id, rfl⟩
    contradiction
  have hopened := grows_hang hstart hg trivial (hflag _ _ rfl)
  split at hjoin
  · have hjoined := grows_add hjoin hopened.toGrowing trivial (hflag _ _ rfl)
    have hstopped := grows_add hstop hjoined.toGrowing trivial (hflag _ _ rfl)
    have hall := hopened.trans (hjoined.trans hstopped)
    refine ⟨⟨hall.of_isTail ?_, hall.ext⟩, hjoined.isTail.mono hstopped.ext, hall.isTail⟩
    exact hopened.isTail.mono (hjoined.trans hstopped).ext
  · obtain ⟨rfl, hjoin⟩ := hjoin
    have hstopped := grows_add hstop hopened.toGrowing trivial (hflag _ _ rfl)
    have hall := hopened.trans hstopped
    refine ⟨⟨hall.of_isTail ?_, hall.ext⟩, hjoin ▸ hall.isTail, hall.isTail⟩
    exact hopened.isTail.mono hstopped.ext

theorem grows_closeGroup (h : tree.closeGroup bracket op = .ok tree')
    (hg : Growing args tree bracket.start) (hjoin : tree.IsTail bracket.join)
    (hlast : tree.IsTail last) : Grows args tree tree' last := by
  obtain ⟨passed, looped, hloop, hskip⟩ := closeGroup_eq_ok h
  have hlooped : Grows args tree looped last := by
    split at hloop
    · have hpassed := grows_link hloop.1 (hg.of_isTail hjoin) hlast
      have hback := grows_link hloop.2 (hpassed.of_isTail (hjoin.mono hpassed.ext)) hpassed.isTail
      exact hpassed.trans hback
    · rw [hloop]
      exact (hg.of_isTail hlast).grows_refl
  split at hskip
  · have hstart := hlooped.of_isTail (hg.isTail.mono hlooped.ext)
    exact hlooped.trans (grows_link hskip hstart hlooped.isTail)
  · rwa [hskip]

theorem grows_chain_of_forall
    (ih : ∀ rule ∈ rules, ∀ {tree tail tree' stop},
      attach args tree tail rule true = .ok (tree', stop) → Growing args tree tail →
        Grows args tree tree' stop)
    (h : chain args tree tail rules = .ok (tree', last)) (hg : Growing args tree tail) :
    Grows args tree tree' last := by
  induction rules generalizing tree tail with
  | nil =>
    cases h
    exact hg.grows_refl
  | cons rule rules ihr =>
    obtain ⟨mid, stop, hattach, h⟩ := chain_cons_eq_ok h
    have hmid := ih rule List.mem_cons_self hattach hg
    exact hmid.trans
      (ihr (fun rule hmem => ih rule (List.mem_cons_of_mem _ hmem)) h hmid.toGrowing)

theorem grows_branch_of_forall {alternative : List Rule}
    (ih : ∀ rule ∈ alternative, ∀ {tree tail tree' stop},
      attach args tree tail rule true = .ok (tree', stop) → Growing args tree tail →
        Grows args tree tree' stop)
    (h : branch args start join tree alternative = .ok tree') (hg : Growing args tree start) :
    Grows args tree tree' start := by
  obtain ⟨mid, last, hchain, hlink⟩ := branch_eq_ok h
  have hmid := grows_chain_of_forall ih hchain hg
  exact hmid.trans (grows_link hlink hmid.toGrowing (hg.isTail.mono hmid.ext))

theorem grows_branches_of_forall
    (ih : ∀ alternative ∈ alternatives, ∀ rule ∈ alternative, ∀ {tree tail tree' stop},
      attach args tree tail rule true = .ok (tree', stop) → Growing args tree tail →
        Grows args tree tree' stop)
    (h : alternatives.foldlM (branch args start join) tree = .ok tree')
    (hg : Growing args tree start) : Grows args tree tree' start := by
  induction alternatives generalizing tree with
  | nil =>
    cases h
    exact hg.grows_refl
  | cons alternative alternatives iha =>
    rw [List.foldlM_cons] at h
    obtain ⟨closed, hbranch, h⟩ := bind_eq_ok_iff.mp h
    have hclosed := grows_branch_of_forall (ih alternative List.mem_cons_self) hbranch hg
    exact hclosed.trans (iha (fun alternative hmem => ih alternative (List.mem_cons_of_mem _ hmem))
      h hclosed.toGrowing)

/-- A rule that is hung into a well-formed tree leads to a well-formed extension of it. -/
theorem attach_grows (h : attach args tree tail rule nested = .ok (tree', stop))
    (hg : Growing args tree tail) : Grows args tree tree' stop := by
  induction rule using Rule.induction generalizing tree tail nested tree' stop with
  | single rule hrule =>
    rw [attach_of_not_isFilledGroup hrule] at h
    rcases attachLeaf_eq_ok h with
      ⟨-, -, h⟩ | ⟨symbol, hsymbol, h⟩ | ⟨id, mid, flag, -, hid, hflag, hvalue⟩
    · exact grows_hang h hg trivial (by simp [Symbol.IsFlag])
    · have hdeclared := Rule.declared_of_symbol? hsymbol
      exact grows_hang h hg hdeclared.1 hdeclared.2
    · -- In between, the flag is there without its value, so both steps are taken at once.
      have htail : tree'.IsTail stop := by
        refine ⟨⟨.freeForm id, rule.lookupName⟩, ?_, by simp [Symbol.IsFlag]⟩
        rw [symbol?_hang hvalue, if_pos (id_hang hvalue)]
      exact
        { wellFormed := wellFormed_hang hvalue (wellFormed_hang hflag hg.wellFormed hid) hid
          flags := flagsLeadToValues_hang_hang hflag hvalue hg.flags hg.isTail
          isTail := htail
          ext := (extends_hang hflag).trans (extends_hang hvalue) }
  | group op position rules span hrules ih =>
    obtain ⟨opened, bracket, filled, hopen, hfill, hclose, rfl⟩ := attach_group_eq_ok hrules h
    obtain ⟨hopened, hjoin, hstop⟩ := grows_openGroup hopen hg
    have hfilled := grows_branches_of_forall
      (fun alternative halternative rule hrule => ih alternative halternative rule hrule) hfill
      hopened.toGrowing
    have hclosed := grows_closeGroup hclose hfilled.toGrowing (hjoin.mono hfilled.ext)
      (hstop.mono hfilled.ext)
    exact (hopened.trans hfilled).trans hclosed

theorem grows_chain (h : chain args tree tail rules = .ok (tree', last))
    (hg : Growing args tree tail) : Grows args tree tree' last :=
  grows_chain_of_forall (fun _ _ => attach_grows) h hg

theorem grows_branch {alternative : List Rule}
    (h : branch args start join tree alternative = .ok tree') (hg : Growing args tree start) :
    Grows args tree tree' start :=
  grows_branch_of_forall (fun _ _ => attach_grows) h hg

theorem grows_branches (h : alternatives.foldlM (branch args start join) tree = .ok tree')
    (hg : Growing args tree start) : Grows args tree tree' start :=
  grows_branches_of_forall (fun _ _ _ _ => attach_grows) h hg

/-! ### Whole trees -/

theorem children_initial : initial.children i = [] := by
  cases i with
  | zero => rfl
  | succ i => exact children_eq_nil (Nat.le_add_left 1 i)

theorem targets_initial : initial.targets i = [] := by
  rw [targets, children_initial, List.map_nil]

theorem symbol?_initial_root : initial.symbol? root = some ⟨.start, Sentinel.start.label⟩ := rfl

/-- The root is the only node before any rule is built. -/
theorem eq_of_symbol?_initial (h : initial.symbol? i = some symbol) :
    symbol = ⟨.start, Sentinel.start.label⟩ := by
  have hlt : i < 1 := lt_size_of_symbol? h
  obtain rfl : i = root := Nat.lt_one_iff.mp hlt
  exact Option.some.inj (h.symm.trans symbol?_initial_root)

theorem wellFormed_initial : initial.WellFormed args where
  target_lt hmem := by
    rw [targets_initial] at hmem
    exact absurd hmem List.not_mem_nil
  declared hsymbol := by
    rw [eq_of_symbol?_initial hsymbol]
    trivial
  finish_targets _ _ := targets_initial

theorem flagsLeadToValues_initial : initial.FlagsLeadToValues := by
  intro i id name hsymbol
  cases eq_of_symbol?_initial hsymbol

/-- The first rule is hung off the root. -/
theorem growing_initial : Growing args initial root :=
  ⟨wellFormed_initial, flagsLeadToValues_initial, _, symbol?_initial_root, by simp [Symbol.IsFlag]⟩

theorem buildFrom_grows {ended : Bool} (h : buildFrom args tree tail ended rules = .ok tree')
    (hg : Growing args tree tail) : ∃ last, Grows args tree tree' last := by
  induction rules generalizing tree tail ended with
  | nil =>
    cases h
    exact ⟨tail, hg.grows_refl⟩
  | cons rule rules ih =>
    obtain ⟨-, mid, stop, hattach, h⟩ := buildFrom_cons_eq_ok h
    have hmid := attach_grows hattach hg
    obtain ⟨last, hlast⟩ := ih h hmid.toGrowing
    exact ⟨last, hmid.trans hlast⟩

/-- The tree of a rule list is a well-formed extension of the tree that holds its root alone. -/
theorem build_grows (h : build args rules = .ok tree) : ∃ last, Grows args initial tree last :=
  buildFrom_grows h growing_initial

end Tree

end CommandShell
