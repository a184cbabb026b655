import CommandShell.Proofs.Rule.Nesting
import CommandShell.Proofs.Tree.Growth
import CommandShell.Proofs.Tree.Walk
import Mathlib.Data.List.Flatten
import Mathlib.Data.List.Nodup
import Mathlib.Data.List.Pairwise

/-!
# The symbols of a tree in order

A rule calls for nodes of its own, and building a rule list adds these and joints and sentinels,
which take no token. The nodes come in the order of the rules, no matter how those are nested. So
where the rules call for no symbol twice, no two nodes have the same symbol, and the symbol tells
the node.

## Main definitions

* `Tree.spoken` — the symbols of the nodes that take a token, in the order of the nodes
* `Rule.spoken` — the symbols of the nodes that a rule calls for

## Main results

* `Tree.spoken_build` — a tree has no symbols but those that its rules call for, in their order
* `Tree.eq_of_symbol?_eq` — where no symbol comes twice, no two nodes have the same one
-/

namespace CommandShell

open scoped List

/-- The symbols of the nodes that the rule itself calls for. -/
def Rule.spoken (args : ArgumentSet) (rule : Rule) : List Symbol :=
  match rule.kind with
  | .named =>
    (args.idOf? rule.lookupName).toList.flatMap fun id =>
      [⟨.flag id, rule.lookupName⟩, ⟨.freeForm id, rule.lookupName⟩]
  | .required | .constant | .freeForm | .group _ | .finish => (rule.symbol? args).toList

theorem Rule.spoken_eq_nil {args : ArgumentSet} {rule : Rule}
    (h : rule.kind = .finish ∨ rule.kind.isGroup = true) : rule.spoken args = [] := by
  unfold spoken symbol?
  cases hkind : rule.kind <;> simp_all [RuleKind.isGroup, RuleKind.op?]

theorem Rule.spoken_of_symbol? {args : ArgumentSet} {rule : Rule} {symbol : Symbol}
    (h : rule.symbol? args = some symbol) : rule.spoken args = [symbol] := by
  unfold spoken
  rw [h]
  unfold symbol? at h
  cases hkind : rule.kind <;> simp_all

theorem Rule.spoken_of_named {args : ArgumentSet} {rule : Rule} {id : ArgId}
    (hkind : rule.kind = .named) (hid : args.idOf? rule.lookupName = some id) :
    rule.spoken args = [⟨.flag id, rule.lookupName⟩, ⟨.freeForm id, rule.lookupName⟩] := by
  simp [spoken, hkind, hid]

namespace Tree

variable {args : ArgumentSet} {tree tree' : Tree} {tail last stop start join a b id : NodeId}
  {nested isLoop : Bool} {rule : Rule} {rules : List Rule} {alternatives : List (List Rule)}
  {bracket : Bracket} {op : GroupOp} {kind : NodeKind} {label : String} {symbol : Symbol}

/-- What the node adds to the symbols of the tree. -/
def spokenAt (tree : Tree) (id : NodeId) : List Symbol :=
  ((tree.symbol? id).map Symbol.spoken).getD []

/-- The symbols of the nodes that take a token, in the order of the nodes. -/
def spoken (tree : Tree) : List Symbol := (List.range tree.size).flatMap tree.spokenAt

theorem mem_spokenAt (hsymbol : tree.symbol? id = some symbol)
    (hkind : symbol.kind.isBrowsable = true) : symbol ∈ tree.spokenAt id := by
  simp [spokenAt, hsymbol, Symbol.spoken_of_isBrowsable hkind]

/-- Where no symbol comes twice, no two nodes have the same one. -/
theorem eq_of_symbol?_eq (h : tree.spoken.Nodup) (ha : tree.symbol? a = some symbol)
    (hb : tree.symbol? b = some symbol) (hkind : symbol.kind.isBrowsable = true) : a = b := by
  by_contra hne
  have hdisjoint := (List.nodup_flatMap.mp h).2
  have : Std.Symm (Function.onFun List.Disjoint tree.spokenAt) := ⟨fun _ _ h => h.symm⟩
  exact hdisjoint.forall (List.mem_range.mpr (lt_size_of_symbol? ha))
    (List.mem_range.mpr (lt_size_of_symbol? hb)) hne (mem_spokenAt ha hkind)
    (mem_spokenAt hb hkind)

/-! ### Single nodes and edges -/

theorem spoken_congr (hsize : tree'.size = tree.size)
    (h : ∀ id, tree'.symbol? id = tree.symbol? id) : tree'.spoken = tree.spoken := by
  have hat : tree'.spokenAt = tree.spokenAt := by
    funext id
    rw [spokenAt, spokenAt, h]
  rw [spoken, spoken, hsize, hat]

theorem spoken_add (h : tree.add kind label = .ok (tree', id)) :
    tree'.spoken = tree.spoken ++ Symbol.spoken ⟨kind, label⟩ := by
  rw [spoken, size_add h, List.range_succ, List.flatMap_append, List.flatMap_singleton]
  congr 1
  · refine List.flatMap_congr fun id hid => ?_
    rw [spokenAt, spokenAt, symbol?_add h, if_neg (Nat.ne_of_lt (List.mem_range.mp hid))]
  · rw [spokenAt, symbol?_add h, if_pos rfl]
    rfl

theorem spoken_link (h : tree.link start stop isLoop = .ok tree') : tree'.spoken = tree.spoken :=
  spoken_congr (size_link h) fun _ => symbol?_link h

theorem spoken_hang (h : tree.hang tail kind label = .ok (tree', id)) :
    tree'.spoken = tree.spoken ++ Symbol.spoken ⟨kind, label⟩ := by
  obtain ⟨mid, hadd, hlink⟩ := hang_eq_ok h
  rw [spoken_link hlink, spoken_add hadd]

/-- The joints of a group take no token. -/
theorem spoken_openGroup (h : tree.openGroup tail op = .ok (tree', bracket)) :
    tree'.spoken = tree.spoken := by
  obtain ⟨opened, joined, hstart, hjoin, hstop⟩ := openGroup_eq_ok h
  have hopened : opened.spoken = tree.spoken := by
    rw [spoken_hang hstart, Symbol.spoken_of_isStructural rfl, List.append_nil]
  have hjoined : joined.spoken = opened.spoken := by
    split at hjoin
    · rw [spoken_add hjoin, Symbol.spoken_of_isStructural rfl, List.append_nil]
    · rw [hjoin.1]
  rw [spoken_add hstop, Symbol.spoken_of_isStructural rfl, List.append_nil, hjoined, hopened]

theorem spoken_closeGroup (h : tree.closeGroup bracket op = .ok tree') :
    tree'.spoken = tree.spoken :=
  spoken_congr (size_closeGroup h) fun _ => symbol?_closeGroup h

/-! ### Rules -/

theorem spoken_attachLeaf (h : attachLeaf args tree tail rule nested = .ok (tree', stop)) :
    tree'.spoken = tree.spoken ++ rule.spoken args := by
  rcases attachLeaf_eq_ok h with
    ⟨hkind, -, hhang⟩ | ⟨symbol, hsymbol, hhang⟩ | ⟨id, mid, flag, hkind, hid, hflag, hvalue⟩
  · rw [spoken_hang hhang, Symbol.spoken_of_isStructural rfl, Rule.spoken_eq_nil (.inl hkind)]
  · rw [spoken_hang hhang, Symbol.spoken_of_isBrowsable (Rule.isBrowsable_of_symbol? hsymbol),
      Rule.spoken_of_symbol? hsymbol]
  · rw [spoken_hang hvalue, spoken_hang hflag, Rule.spoken_of_named hkind hid, List.append_assoc]
    rfl

/-- Of two steps the second adds its symbols behind those of the first. -/
theorem spoken_sublist_trans {first rest : List Symbol} {mid : Tree}
    (h : mid.spoken <+ tree.spoken ++ first) (h' : tree'.spoken <+ mid.spoken ++ rest) :
    tree'.spoken <+ tree.spoken ++ (first ++ rest) := by
  rw [← List.append_assoc]
  exact h'.trans (h.append (.refl rest))

theorem spoken_chain_of_forall
    (ih : ∀ rule ∈ rules, ∀ {tree tail tree' stop},
      attach args tree tail rule true = .ok (tree', stop) →
        tree'.spoken <+ tree.spoken ++ rule.subrules.flatMap (Rule.spoken args))
    (h : chain args tree tail rules = .ok (tree', last)) :
    tree'.spoken <+ tree.spoken ++ (Rule.subrulesAll rules).flatMap (Rule.spoken args) := by
  induction rules generalizing tree tail with
  | nil =>
    cases h
    exact List.sublist_append_left _ _
  | cons rule rules ihr =>
    obtain ⟨mid, stop, hattach, h⟩ := chain_cons_eq_ok h
    rw [Rule.subrulesAll, List.flatMap_append]
    exact spoken_sublist_trans (ih rule List.mem_cons_self hattach)
      (ihr (fun rule hmem => ih rule (List.mem_cons_of_mem _ hmem)) h)

theorem spoken_branches_of_forall
    (ih : ∀ alternative ∈ alternatives, ∀ rule ∈ alternative, ∀ {tree tail tree' stop},
      attach args tree tail rule true = .ok (tree', stop) →
        tree'.spoken <+ tree.spoken ++ rule.subrules.flatMap (Rule.spoken args))
    (h : alternatives.foldlM (branch args start join) tree = .ok tree') :
    tree'.spoken <+
      tree.spoken ++ (Rule.subrulesAll alternatives.flatten).flatMap (Rule.spoken args) := by
  induction alternatives generalizing tree with
  | nil =>
    cases h
    exact List.sublist_append_left _ _
  | cons alternative alternatives iha =>
    rw [List.foldlM_cons] at h
    obtain ⟨closed, hbranch, h⟩ := bind_eq_ok_iff.mp h
    obtain ⟨mid, last, hchain, hlink⟩ := branch_eq_ok hbranch
    have hclosed := spoken_chain_of_forall (ih alternative List.mem_cons_self) hchain
    rw [← spoken_link hlink] at hclosed
    rw [List.flatten_cons, Rule.subrulesAll_append, List.flatMap_append]
    exact spoken_sublist_trans hclosed
      (iha (fun alternative hmem => ih alternative (List.mem_cons_of_mem _ hmem)) h)

/-- A rule adds no symbols but those that it and the rules nested in it call for. -/
theorem spoken_attach (h : attach args tree tail rule nested = .ok (tree', stop)) :
    tree'.spoken <+ tree.spoken ++ rule.subrules.flatMap (Rule.spoken args) := by
  induction rule using Rule.induction generalizing tree tail nested tree' stop with
  | single rule hsingle =>
    rw [attach_of_not_isFilledGroup hsingle] at h
    rw [spoken_attachLeaf h]
    have hself := List.singleton_sublist.mpr rule.self_mem_subrules
    rw [← List.flatMap_singleton (Rule.spoken args) rule]
    exact (List.Sublist.refl _).append (hself.flatMap _)
  | group op position rules span hrules ih =>
    obtain ⟨opened, bracket, filled, hopen, hfill, hclose, -⟩ := attach_group_eq_ok hrules h
    have hfilled := spoken_branches_of_forall
      (fun alternative halternative rule hmem _ _ _ _ hattach =>
        ih alternative halternative rule hmem hattach) hfill
    rw [Rule.flatten_alternatives, spoken_openGroup hopen] at hfilled
    rwa [spoken_closeGroup hclose, Rule.subrules, List.flatMap_cons, Rule.spoken_eq_nil (.inr rfl),
      List.nil_append]

theorem spoken_buildFrom {ended : Bool}
    (h : buildFrom args tree tail ended rules = .ok tree') :
    tree'.spoken <+ tree.spoken ++ (Rule.subrulesAll rules).flatMap (Rule.spoken args) := by
  induction rules generalizing tree tail ended with
  | nil =>
    cases h
    exact List.sublist_append_left _ _
  | cons rule rules ih =>
    obtain ⟨-, mid, stop, hattach, h⟩ := buildFrom_cons_eq_ok h
    rw [Rule.subrulesAll, List.flatMap_append]
    exact spoken_sublist_trans (spoken_attach hattach) (ih h)

/-- A tree has no symbols but those that its rules and the rules nested in them call for. -/
theorem spoken_build (h : build args rules = .ok tree) :
    tree.spoken <+ (Rule.subrulesAll rules).flatMap (Rule.spoken args) :=
  spoken_buildFrom h

end Tree

end CommandShell
