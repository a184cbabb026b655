import CommandShell.Proofs.Tree.Growth

/-!
# The symbols of a tree

Building a rule list adds sentinels, the joints of its groups, and otherwise only nodes that one of
its rules calls for, inside of any number of groups.

## Main definitions

* `Rule.Gives` — the rule calls for a node of a symbol
* `Tree.SymbolsSatisfy` — a property of the symbols of all nodes in the tree

## Main results

* `Tree.SymbolsSatisfy.attach` — a rule adds only what it, or a rule nested in it, calls for
* `Tree.exists_gives_of_build` — where the symbols of a tree come from
-/

namespace CommandShell

/-- The rule calls for a node of the symbol: for its own, or for a flag and the value behind it. -/
inductive Rule.Gives (args : ArgumentSet) (rule : Rule) : Symbol → Prop
  | own {symbol : Symbol} (hsymbol : rule.symbol? args = some symbol) : Gives args rule symbol
  | flag {id : ArgId} (hkind : rule.kind = .named) (hid : args.idOf? rule.lookupName = some id) :
      Gives args rule ⟨.flag id, rule.lookupName⟩
  | value {id : ArgId} (hkind : rule.kind = .named) (hid : args.idOf? rule.lookupName = some id) :
      Gives args rule ⟨.freeForm id, rule.lookupName⟩

/-- A node has the name of the rule that calls for it, which is no group and does not end the
line. -/
theorem Rule.lookupName_of_gives {args : ArgumentSet} {rule : Rule} {symbol : Symbol}
    (h : rule.Gives args symbol) :
    rule.lookupName = symbol.label ∧ rule.kind.isGroup = false ∧ rule.kind ≠ .finish := by
  cases h with
  | own hsymbol =>
    unfold symbol? at hsymbol
    split at hsymbol <;> rename_i hkind
    · obtain ⟨id, -, rfl⟩ := Option.map_eq_some_iff.mp hsymbol
      exact ⟨rfl, by rw [hkind]; rfl, by simp [hkind]⟩
    · obtain ⟨id, -, rfl⟩ := Option.map_eq_some_iff.mp hsymbol
      exact ⟨rfl, by rw [hkind]; rfl, by simp [hkind]⟩
    · cases hsymbol
      exact ⟨rfl, by rw [hkind]; rfl, by simp [hkind]⟩
    all_goals cases hsymbol
  | flag hkind => exact ⟨rfl, by rw [hkind]; rfl, by simp [hkind]⟩
  | value hkind => exact ⟨rfl, by rw [hkind]; rfl, by simp [hkind]⟩

/-- Only named rules call for flags. -/
theorem Rule.kind_of_gives_flag {args : ArgumentSet} {rule : Rule} {id : ArgId} {label : String}
    (h : rule.Gives args ⟨.flag id, label⟩) : rule.kind = .named := by
  cases h with
  | own hsymbol => exact absurd ⟨id, rfl⟩ (Rule.declared_of_symbol? hsymbol).2
  | flag hkind => exact hkind

/-- Only constant rules call for constants. -/
theorem Rule.kind_of_gives_constant {args : ArgumentSet} {rule : Rule} {literal label : String}
    {arg? : Option ArgId} (h : rule.Gives args ⟨.constant literal arg?, label⟩) :
    rule.kind = .constant ∧ rule.lookupName = literal := by
  cases h with
  | own hsymbol =>
    unfold symbol? at hsymbol
    split at hsymbol
    · obtain ⟨id, -, hsymbol⟩ := Option.map_eq_some_iff.mp hsymbol
      cases hsymbol
    · obtain ⟨id, -, hsymbol⟩ := Option.map_eq_some_iff.mp hsymbol
      cases hsymbol
    · rename_i hkind
      cases hsymbol
      exact ⟨hkind, rfl⟩
    all_goals cases hsymbol

namespace Tree

variable {args : ArgumentSet} {tree tree' : Tree} {tail last stop start join id : NodeId}
  {nested : Bool} {rule : Rule} {rules alternative : List Rule} {alternatives : List (List Rule)}
  {bracket : Bracket} {op : GroupOp} {kind : NodeKind} {label : String} {symbol : Symbol}
  {q : Symbol → Prop}

/-- The symbols of all nodes in the tree have a property. -/
def SymbolsSatisfy (q : Symbol → Prop) (tree : Tree) : Prop :=
  ∀ id symbol, tree.symbol? id = some symbol → q symbol

namespace SymbolsSatisfy

/-! ### Single nodes and edges -/

theorem congr (h : tree.SymbolsSatisfy q) (heq : ∀ id, tree'.symbol? id = tree.symbol? id) :
    tree'.SymbolsSatisfy q := by
  intro id symbol hsymbol
  exact h id symbol ((heq id).symm.trans hsymbol)

theorem add (h : tree.SymbolsSatisfy q) (hadd : tree.add kind label = .ok (tree', id))
    (hnew : q ⟨kind, label⟩) : tree'.SymbolsSatisfy q := by
  intro node symbol hsymbol
  rw [symbol?_add hadd] at hsymbol
  split at hsymbol
  · cases hsymbol
    exact hnew
  · exact h node symbol hsymbol

theorem hang (h : tree.SymbolsSatisfy q) (hhang : tree.hang tail kind label = .ok (tree', id))
    (hnew : q ⟨kind, label⟩) : tree'.SymbolsSatisfy q := by
  obtain ⟨mid, hadd, hlink⟩ := hang_eq_ok hhang
  exact (h.add hadd hnew).congr fun _ => symbol?_link hlink

variable (hstructural : ∀ kind label, kind.isStructural = true → q ⟨kind, label⟩)
include hstructural

/-- The joints of a group are structural. -/
theorem openGroup (h : tree.SymbolsSatisfy q)
    (hopen : tree.openGroup tail op = .ok (tree', bracket)) : tree'.SymbolsSatisfy q := by
  obtain ⟨opened, joined, hstart, hjoin, hstop⟩ := openGroup_eq_ok hopen
  have hopened : opened.SymbolsSatisfy q := h.hang hstart (hstructural _ _ rfl)
  have hjoined : joined.SymbolsSatisfy q := by
    split at hjoin
    · exact hopened.add hjoin (hstructural _ _ rfl)
    · rw [hjoin.1]
      exact hopened
  exact hjoined.add hstop (hstructural _ _ rfl)

/-! ### Rules -/

theorem attachLeaf (h : tree.SymbolsSatisfy q)
    (hattach : attachLeaf args tree tail rule nested = .ok (tree', stop))
    (hrule : ∀ symbol, rule.Gives args symbol → q symbol) : tree'.SymbolsSatisfy q := by
  rcases attachLeaf_eq_ok hattach with
    ⟨-, -, hhang⟩ | ⟨symbol, hsymbol, hhang⟩ | ⟨id, mid, flag, hkind, hid, hflag, hvalue⟩
  · exact h.hang hhang (hstructural _ _ rfl)
  · exact h.hang hhang (hrule symbol (.own hsymbol))
  · exact (h.hang hflag (hrule _ (.flag hkind hid))).hang hvalue (hrule _ (.value hkind hid))

omit hstructural in
theorem chain_of_forall (h : tree.SymbolsSatisfy q)
    (ih : ∀ rule ∈ rules, ∀ {tree tail tree' stop}, tree.SymbolsSatisfy q →
      attach args tree tail rule true = .ok (tree', stop) → tree'.SymbolsSatisfy q)
    (hchain : chain args tree tail rules = .ok (tree', last)) : tree'.SymbolsSatisfy q := by
  induction rules generalizing tree tail with
  | nil =>
    cases hchain
    exact h
  | cons rule rules ihr =>
    obtain ⟨mid, stop, hattach, hchain⟩ := chain_cons_eq_ok hchain
    exact ihr (ih rule List.mem_cons_self h hattach)
      (fun rule hmem => ih rule (List.mem_cons_of_mem _ hmem)) hchain

omit hstructural in
theorem branches_of_forall (h : tree.SymbolsSatisfy q)
    (ih : ∀ alternative ∈ alternatives, ∀ rule ∈ alternative, ∀ {tree tail tree' stop},
      tree.SymbolsSatisfy q → attach args tree tail rule true = .ok (tree', stop) →
        tree'.SymbolsSatisfy q)
    (hfold : alternatives.foldlM (branch args start join) tree = .ok tree') :
    tree'.SymbolsSatisfy q := by
  induction alternatives generalizing tree with
  | nil =>
    cases hfold
    exact h
  | cons alternative alternatives iha =>
    rw [List.foldlM_cons] at hfold
    obtain ⟨closed, hbranch, hfold⟩ := bind_eq_ok_iff.mp hfold
    obtain ⟨mid, last, hchain, hlink⟩ := branch_eq_ok hbranch
    have hmid := h.chain_of_forall (ih alternative List.mem_cons_self) hchain
    exact iha (hmid.congr fun _ => symbol?_link hlink)
      (fun alternative hmem => ih alternative (List.mem_cons_of_mem _ hmem)) hfold

/-- A rule adds only what it, or a rule nested in it, calls for. -/
theorem attach (h : tree.SymbolsSatisfy q)
    (hattach : attach args tree tail rule nested = .ok (tree', stop))
    (hrule : ∀ sub ∈ rule.subrules, ∀ symbol, sub.Gives args symbol → q symbol) :
    tree'.SymbolsSatisfy q := by
  induction rule using Rule.induction generalizing tree tail nested tree' stop with
  | single rule hsingle =>
    rw [attach_of_not_isFilledGroup hsingle] at hattach
    exact h.attachLeaf hstructural hattach (hrule rule rule.self_mem_subrules)
  | group op position rules span hrules ih =>
    -- Opening and closing a group adds joints only; the rest comes from its alternatives.
    obtain ⟨opened, bracket, filled, hopen, hfill, hclose, -⟩ := attach_group_eq_ok hrules hattach
    have hfilled : filled.SymbolsSatisfy q := by
      refine (h.openGroup hstructural hopen).branches_of_forall
        (fun alternative halternative rule hmem _ _ _ _ hq hattach => ?_) hfill
      exact ih alternative halternative rule hmem hq hattach fun sub hsub =>
        hrule sub (Rule.subrules_subset_of_mem_alternatives halternative hmem hsub)
    exact hfilled.congr fun _ => symbol?_closeGroup hclose

theorem buildFrom {ended : Bool} (h : tree.SymbolsSatisfy q)
    (hbuild : buildFrom args tree tail ended rules = .ok tree')
    (hrules : ∀ sub ∈ Rule.subrulesAll rules, ∀ symbol, sub.Gives args symbol → q symbol) :
    tree'.SymbolsSatisfy q := by
  induction rules generalizing tree tail ended with
  | nil =>
    cases hbuild
    exact h
  | cons rule rules ih =>
    obtain ⟨-, mid, stop, hattach, hbuild⟩ := buildFrom_cons_eq_ok hbuild
    rw [Rule.subrulesAll, List.forall_mem_append] at hrules
    exact ih (h.attach hstructural hattach hrules.1) hbuild hrules.2

end SymbolsSatisfy

/-- Any node of a tree that takes a token is there because a rule calls for it. -/
theorem exists_gives_of_build (h : build args rules = .ok tree)
    (hsymbol : tree.symbol? id = some symbol) :
    symbol.kind.isStructural = true ∨ ∃ sub ∈ Rule.subrulesAll rules, sub.Gives args symbol := by
  have hinitial : initial.SymbolsSatisfy fun symbol =>
      symbol.kind.isStructural = true ∨ ∃ sub ∈ Rule.subrulesAll rules, sub.Gives args symbol := by
    intro id symbol hsymbol
    rw [eq_of_symbol?_initial hsymbol]
    exact .inl rfl
  refine hinitial.buildFrom (fun kind label hkind => .inl hkind) h ?_ id symbol hsymbol
  intro sub hsub symbol hgives
  exact .inr ⟨sub, hsub, hgives⟩

end Tree

end CommandShell
