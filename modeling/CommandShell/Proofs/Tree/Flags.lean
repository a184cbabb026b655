import CommandShell.Proofs.Tree.Growth

/-!
# The flags of a tree

Building a rule list adds a flag to the tree for every named rule in it, inside of any number of
groups, and no other flags.

## Main definitions

* `Tree.HasFlag` — a flag of that name stands in the tree

## Main results

* `Tree.hasFlag_attach_iff` — the flags that a rule adds are its own
* `Tree.hasFlag_build_iff` — the flags of a tree are those of its rules
-/

namespace CommandShell.Tree

variable {args : ArgumentSet} {tree tree' : Tree} {tail last stop start join id : NodeId}
  {nested : Bool} {rule : Rule} {rules alternative : List Rule} {alternatives : List (List Rule)}
  {bracket : Bracket} {op : GroupOp} {kind : NodeKind} {label name : String}

/-- A flag of the name stands in the tree. -/
def HasFlag (tree : Tree) (name : String) : Prop :=
  ∃ id arg, tree.symbol? id = some ⟨.flag arg, name⟩

/-- The node would be a flag of the name. -/
def IsFlagOf (kind : NodeKind) (label name : String) : Prop :=
  (∃ arg, kind = .flag arg) ∧ label = name

theorem not_isFlagOf_of_isStructural (h : kind.isStructural = true) :
    ¬ IsFlagOf kind label name := by
  rintro ⟨⟨arg, rfl⟩, -⟩
  cases h

/-! ### Single nodes and edges -/

theorem hasFlag_congr (h : ∀ id, tree'.symbol? id = tree.symbol? id) :
    tree'.HasFlag name ↔ tree.HasFlag name := by
  simp only [HasFlag, h]

theorem hasFlag_add_iff (h : tree.add kind label = .ok (tree', id)) :
    tree'.HasFlag name ↔ tree.HasFlag name ∨ IsFlagOf kind label name := by
  constructor
  · rintro ⟨node, arg, hsymbol⟩
    rw [symbol?_add h] at hsymbol
    split at hsymbol
    · cases hsymbol
      exact .inr ⟨⟨arg, rfl⟩, rfl⟩
    · exact .inl ⟨node, arg, hsymbol⟩
  · rintro (⟨node, arg, hsymbol⟩ | ⟨⟨arg, rfl⟩, rfl⟩)
    · refine ⟨node, arg, ?_⟩
      rw [symbol?_add h, if_neg (Nat.ne_of_lt (lt_size_of_symbol? hsymbol)), hsymbol]
    · exact ⟨tree.size, arg, by rw [symbol?_add h, if_pos rfl]⟩

theorem hasFlag_hang_iff (h : tree.hang tail kind label = .ok (tree', id)) :
    tree'.HasFlag name ↔ tree.HasFlag name ∨ IsFlagOf kind label name := by
  obtain ⟨mid, hadd, hlink⟩ := hang_eq_ok h
  rw [hasFlag_congr fun _ => symbol?_link hlink, hasFlag_add_iff hadd]

/-- The joints of a group are no flags. -/
theorem hasFlag_openGroup_iff (h : tree.openGroup tail op = .ok (tree', bracket)) :
    tree'.HasFlag name ↔ tree.HasFlag name := by
  obtain ⟨opened, joined, hstart, hjoin, hstop⟩ := openGroup_eq_ok h
  have hopened : opened.HasFlag name ↔ tree.HasFlag name := by
    rw [hasFlag_hang_iff hstart, or_iff_left (not_isFlagOf_of_isStructural rfl)]
  rw [hasFlag_add_iff hstop, or_iff_left (not_isFlagOf_of_isStructural rfl), ← hopened]
  split at hjoin
  · rw [hasFlag_add_iff hjoin, or_iff_left (not_isFlagOf_of_isStructural rfl)]
  · rw [hjoin.1]

/-! ### Rules -/

theorem hasFlag_attachLeaf_iff (h : attachLeaf args tree tail rule nested = .ok (tree', stop)) :
    tree'.HasFlag name ↔
      tree.HasFlag name ∨ rule.kind = .named ∧ rule.lookupName = name := by
  rcases attachLeaf_eq_ok h with
    ⟨hkind, -, h⟩ | ⟨symbol, hsymbol, h⟩ | ⟨id, mid, flag, hkind, -, hflag, hvalue⟩
  · rw [hasFlag_hang_iff h, hkind]
    simp [IsFlagOf]
  · rw [hasFlag_hang_iff h]
    unfold Rule.symbol? at hsymbol
    split at hsymbol <;> rename_i hkind
    · obtain ⟨id, -, rfl⟩ := Option.map_eq_some_iff.mp hsymbol
      simp [IsFlagOf, hkind]
    · obtain ⟨id, -, rfl⟩ := Option.map_eq_some_iff.mp hsymbol
      simp [IsFlagOf, hkind]
    · cases hsymbol
      simp [IsFlagOf, hkind]
    all_goals cases hsymbol
  · rw [hasFlag_hang_iff hvalue, hasFlag_hang_iff hflag]
    simp [IsFlagOf, hkind]

theorem hasFlag_chain_iff_of_forall
    (ih : ∀ rule ∈ rules, ∀ {tree tail tree' stop},
      attach args tree tail rule true = .ok (tree', stop) →
        (tree'.HasFlag name ↔ tree.HasFlag name ∨ rule.HasFlag name))
    (h : chain args tree tail rules = .ok (tree', last)) :
    tree'.HasFlag name ↔ tree.HasFlag name ∨ ∃ rule ∈ rules, rule.HasFlag name := by
  induction rules generalizing tree tail with
  | nil =>
    cases h
    simp
  | cons rule rules ihr =>
    obtain ⟨mid, stop, hattach, h⟩ := chain_cons_eq_ok h
    rw [ihr (fun rule hmem => ih rule (List.mem_cons_of_mem _ hmem)) h,
      ih rule List.mem_cons_self hattach]
    simp only [List.mem_cons, exists_eq_or_imp, or_assoc]

theorem hasFlag_branches_iff_of_forall
    (ih : ∀ alternative ∈ alternatives, ∀ rule ∈ alternative, ∀ {tree tail tree' stop},
      attach args tree tail rule true = .ok (tree', stop) →
        (tree'.HasFlag name ↔ tree.HasFlag name ∨ rule.HasFlag name))
    (h : alternatives.foldlM (branch args start join) tree = .ok tree') :
    tree'.HasFlag name ↔ tree.HasFlag name ∨
      ∃ alternative ∈ alternatives, ∃ rule ∈ alternative, rule.HasFlag name := by
  induction alternatives generalizing tree with
  | nil =>
    cases h
    simp
  | cons alternative alternatives iha =>
    rw [List.foldlM_cons] at h
    obtain ⟨closed, hbranch, h⟩ := bind_eq_ok_iff.mp h
    obtain ⟨mid, last, hchain, hlink⟩ := branch_eq_ok hbranch
    rw [iha (fun alternative hmem => ih alternative (List.mem_cons_of_mem _ hmem)) h,
      hasFlag_congr fun _ => symbol?_link hlink,
      hasFlag_chain_iff_of_forall (ih alternative List.mem_cons_self) hchain]
    simp only [List.mem_cons, exists_eq_or_imp, or_assoc]

/-- The flags that a rule adds are its own. -/
theorem hasFlag_attach_iff (h : attach args tree tail rule nested = .ok (tree', stop)) :
    tree'.HasFlag name ↔ tree.HasFlag name ∨ rule.HasFlag name := by
  induction rule using Rule.induction generalizing tree tail nested tree' stop with
  | single rule hrule =>
    rw [attach_of_not_isFilledGroup hrule] at h
    rw [hasFlag_attachLeaf_iff h, Rule.hasFlag_iff_of_not_isFilledGroup hrule]
  | group op position rules span hrules ih =>
    obtain ⟨opened, bracket, filled, hopen, hfill, hclose, -⟩ := attach_group_eq_ok hrules h
    rw [hasFlag_congr fun _ => symbol?_closeGroup hclose,
      hasFlag_branches_iff_of_forall
        (fun alternative halternative rule hrule => ih alternative halternative rule hrule) hfill,
      hasFlag_openGroup_iff hopen, Rule.hasFlag_group_iff]

theorem hasFlag_buildFrom_iff {ended : Bool}
    (h : buildFrom args tree tail ended rules = .ok tree') :
    tree'.HasFlag name ↔ tree.HasFlag name ∨ ∃ rule ∈ rules, rule.HasFlag name := by
  induction rules generalizing tree tail ended with
  | nil =>
    cases h
    simp
  | cons rule rules ih =>
    obtain ⟨-, mid, stop, hattach, h⟩ := buildFrom_cons_eq_ok h
    rw [ih h, hasFlag_attach_iff hattach]
    simp only [List.mem_cons, exists_eq_or_imp, or_assoc]

/-- The flags of a tree are those of its rules. -/
theorem hasFlag_build_iff (h : build args rules = .ok tree) :
    tree.HasFlag name ↔ ∃ rule ∈ rules, rule.HasFlag name := by
  rw [hasFlag_buildFrom_iff h]
  refine or_iff_right ?_
  rintro ⟨id, arg, hsymbol⟩
  cases eq_of_symbol?_initial hsymbol

end CommandShell.Tree
