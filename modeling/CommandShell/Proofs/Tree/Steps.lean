import CommandShell.Proofs.Tree.Growth
import CommandShell.Tree.Shape

/-!
# Steps of building a tree

However a tree is built, it is built by adding nodes and edges one at a time. So what single nodes
and edges preserve holds of every tree that is built: edges stay where they are, the start and the
end remain the only ones of their kind, and paths stay open. An edge to a node that no edge leaves
closes no cycle.

## Main definitions

* `Tree.StepsTo` — a tree is made of another one by adding nodes and edges

## Main results

* `StepsTo.children_prefix` — edges are added behind those that are there
* `StepsTo.kindAt_start_iff`, `StepsTo.finish?_of_kindAt` — the start and the end
* `PlainPath.mono`, `acyclic_link` — what edges do to paths and cycles
-/

namespace CommandShell.Tree

variable {tree mid tree' : Tree} {kind : NodeKind} {label : String}
  {id parent child tail a b i : NodeId} {isLoop : Bool} {bracket : Bracket} {op : GroupOp}
  {symbol : Symbol}

/-! ### Kinds of nodes -/

theorem kindAt_iff : tree.KindAt id kind ↔ ∃ label, tree.symbol? id = some ⟨kind, label⟩ := by
  rw [KindAt, symbol?]
  cases tree.node? id with
  | none => simp
  | some node => simp [Node.symbol]

theorem KindAt.unique {kind' : NodeKind} (h : tree.KindAt id kind) (h' : tree.KindAt id kind') :
    kind = kind' :=
  Option.some.inj (h.symm.trans h')

theorem KindAt.eq_of_symbol? (h : tree.KindAt id kind) (hsymbol : tree.symbol? id = some symbol) :
    symbol.kind = kind := by
  obtain ⟨label, hlabel⟩ := kindAt_iff.mp h
  rw [hsymbol] at hlabel
  rw [Option.some.inj hlabel]

theorem KindAt.lt_size (h : tree.KindAt id kind) : id < tree.size := by
  obtain ⟨label, hlabel⟩ := kindAt_iff.mp h
  exact lt_size_of_symbol? hlabel

theorem KindAt.mono (h : tree.KindAt id kind) (hext : tree.Extends tree') :
    tree'.KindAt id kind := by
  obtain ⟨label, hlabel⟩ := kindAt_iff.mp h
  exact kindAt_iff.mpr ⟨label, hext.symbol?_eq_some hlabel⟩

/-- The nodes of a tree have the same kinds in its extensions. -/
theorem Extends.kindAt_iff (hext : tree.Extends tree') (hid : id < tree.size) :
    tree'.KindAt id kind ↔ tree.KindAt id kind := by
  rw [Tree.kindAt_iff, Tree.kindAt_iff, hext.symbol?_eq hid]

theorem kindAt_link_iff (h : tree.link parent child isLoop = .ok tree') :
    tree'.KindAt id kind ↔ tree.KindAt id kind := by
  rw [kindAt_iff, kindAt_iff, symbol?_link h]

theorem kindAt_closeGroup_iff (h : tree.closeGroup bracket op = .ok tree') :
    tree'.KindAt id kind ↔ tree.KindAt id kind := by
  rw [kindAt_iff, kindAt_iff, symbol?_closeGroup h]

/-- The tree notes an end that is added to it, and there is room for one end only. -/
theorem finish?_add (h : tree.add kind label = .ok (tree', id)) :
    tree'.finish? = (if kind = .finish then some id else tree.finish?) ∧
      (kind = .finish → tree.finish? = none) := by
  cases kind <;> cases hfinish : tree.finish? <;> simp only [add, hfinish] at h <;> cases h <;> simp

/-! ### Steps -/

/-- The tree is made into another one by adding nodes and edges. -/
inductive StepsTo (tree : Tree) : Tree → Prop
  | refl : StepsTo tree tree
  | add {mid tree' : Tree} {kind : NodeKind} {label : String} {id : NodeId} (h : StepsTo tree mid)
    (hadd : mid.add kind label = .ok (tree', id)) : StepsTo tree tree'
  | link {mid tree' : Tree} {parent child : NodeId} {isLoop : Bool} (h : StepsTo tree mid)
    (hlink : mid.link parent child isLoop = .ok tree') : StepsTo tree tree'

namespace StepsTo

theorem trans (h : tree.StepsTo mid) (h' : mid.StepsTo tree') : tree.StepsTo tree' := by
  induction h' with
  | refl => exact h
  | add _ hadd ih => exact .add ih hadd
  | link _ hlink ih => exact .link ih hlink

theorem hang (h : tree.StepsTo mid) (hhang : mid.hang tail kind label = .ok (tree', id)) :
    tree.StepsTo tree' := by
  obtain ⟨added, hadd, hlink⟩ := hang_eq_ok hhang
  exact .link (.add h hadd) hlink

theorem openGroup (h : tree.StepsTo mid) (hopen : mid.openGroup tail op = .ok (tree', bracket)) :
    tree.StepsTo tree' := by
  obtain ⟨opened, joined, hstart, hjoin, hstop⟩ := openGroup_eq_ok hopen
  have hopened := h.hang hstart
  split at hjoin
  · exact .add (.add hopened hjoin) hstop
  · obtain ⟨rfl, -⟩ := hjoin
    exact .add hopened hstop

theorem closeGroup (h : tree.StepsTo mid) (hclose : mid.closeGroup bracket op = .ok tree') :
    tree.StepsTo tree' := by
  obtain ⟨passed, looped, hloop, hskip⟩ := closeGroup_eq_ok hclose
  have hlooped : tree.StepsTo looped := by
    split at hloop
    · exact .link (.link h hloop.1) hloop.2
    · rwa [hloop]
  split at hskip
  · exact .link hlooped hskip
  · rwa [hskip]

/-- Steps only add. -/
theorem toExtends (h : tree.StepsTo tree') : tree.Extends tree' := by
  induction h with
  | refl => exact .refl tree
  | add _ hadd ih => exact ih.trans (extends_add hadd)
  | link _ hlink ih => exact ih.trans (extends_link hlink)

/-- New edges come behind those that are there. -/
theorem children_prefix (h : tree.StepsTo tree') (i : NodeId) :
    tree.children i <+: tree'.children i := by
  induction h with
  | refl => exact List.prefix_rfl
  | add _ hadd ih => rwa [children_add hadd]
  | link _ hlink ih =>
    rw [children_link hlink]
    split
    · exact ih.trans (List.prefix_append _ _)
    · exact ih

/-! ### The start and the end -/

/-- No step adds a start. -/
theorem kindAt_start_iff (h : initial.StepsTo tree) : tree.KindAt id .start ↔ id = root := by
  constructor
  · intro hkind
    induction h with
    | refl => exact Nat.lt_one_iff.mp hkind.lt_size
    | add _ hadd ih =>
      obtain ⟨name, hsymbol⟩ := kindAt_iff.mp hkind
      rw [symbol?_add hadd] at hsymbol
      split at hsymbol
      · obtain ⟨rfl, rfl⟩ := Symbol.mk.inj (Option.some.inj hsymbol)
        cases hadd
      · exact ih (kindAt_iff.mpr ⟨name, hsymbol⟩)
    | link _ hlink ih => exact ih ((kindAt_link_iff hlink).mp hkind)
  · rintro rfl
    exact KindAt.mono (rfl : initial.KindAt root .start) h.toExtends

/-- The tree notes which node is its end. -/
theorem finish?_of_kindAt (h : initial.StepsTo tree) (hkind : tree.KindAt id .finish) :
    tree.finish? = some id := by
  induction h with
  | refl =>
    obtain ⟨label, hlabel⟩ := kindAt_iff.mp hkind
    cases eq_of_symbol?_initial hlabel
  | @add mid tree' kind label new _ hadd ih =>
    obtain ⟨hfinish, hnone⟩ := finish?_add hadd
    obtain ⟨name, hsymbol⟩ := kindAt_iff.mp hkind
    rw [symbol?_add hadd] at hsymbol
    split at hsymbol
    · obtain ⟨rfl, rfl⟩ := Symbol.mk.inj (Option.some.inj hsymbol)
      rw [hfinish, if_pos rfl, (add_eq_ok hadd).1, ‹id = mid.size›]
    · have hmid := ih (kindAt_iff.mpr ⟨name, hsymbol⟩)
      have hne : kind ≠ .finish := fun heq => nomatch (hnone heq).symm.trans hmid
      rw [hfinish, if_neg hne, hmid]
  | link _ hlink ih =>
    have hmid := ih ((kindAt_link_iff hlink).mp hkind)
    obtain ⟨-, -, -, rfl⟩ := link_eq_ok hlink
    exact hmid

end StepsTo

/-! ### Paths -/

theorem plainEdge_iff : tree.PlainEdge a b ↔ ⟨b, false⟩ ∈ tree.children a := by
  simp only [PlainEdge, plainTargets, List.mem_map, List.mem_filter, Bool.not_eq_true']
  constructor
  · rintro ⟨⟨target, isLoop⟩, ⟨hmem, rfl⟩, rfl⟩
    exact hmem
  · intro hmem
    exact ⟨_, ⟨hmem, rfl⟩, rfl⟩

theorem PlainPath.mono (h : tree.PlainPath a b) (hsteps : tree.StepsTo tree') :
    tree'.PlainPath a b :=
  Relation.ReflTransGen.mono (fun i _ hedge => plainEdge_iff.mpr
    ((hsteps.children_prefix i).subset (plainEdge_iff.mp hedge))) _ _ h

theorem PlainPath.trans {c : NodeId} (h : tree.PlainPath a b) (h' : tree.PlainPath b c) :
    tree.PlainPath a c :=
  Relation.ReflTransGen.trans h h'

theorem plainPath_of_mem_children (h : ⟨b, false⟩ ∈ tree.children a) : tree.PlainPath a b :=
  .single (plainEdge_iff.mpr h)

/-! ### Cycles -/

theorem acyclic_congr (h : ∀ a b, tree'.PlainEdge a b ↔ tree.PlainEdge a b) :
    tree'.Acyclic ↔ tree.Acyclic := by
  have heq : tree'.PlainEdge = tree.PlainEdge := by
    funext a b
    exact propext (h a b)
  rw [Acyclic, Acyclic, heq]

theorem acyclic_add (h : tree.add kind label = .ok (tree', id)) (hacyclic : tree.Acyclic) :
    tree'.Acyclic :=
  (acyclic_congr fun a b => by rw [plainEdge_iff, plainEdge_iff, children_add h]).mpr hacyclic

/-- An edge that leads back is on no plain path. -/
theorem acyclic_link_back (h : tree.link parent child true = .ok tree') (hacyclic : tree.Acyclic) :
    tree'.Acyclic := by
  refine (acyclic_congr fun a b => ?_).mpr hacyclic
  rw [plainEdge_iff, plainEdge_iff, children_link h]
  split <;> simp

/-- An edge to another node, which no edge leaves, closes no cycle. -/
theorem acyclic_link (h : tree.link parent child false = .ok tree') (hne : parent ≠ child)
    (hchild : tree.children child = []) (hacyclic : tree.Acyclic) : tree'.Acyclic := by
  have hedge {a b : NodeId} :
      tree'.PlainEdge a b ↔ tree.PlainEdge a b ∨ parent = a ∧ b = child := by
    rw [plainEdge_iff, plainEdge_iff, children_link h]
    split <;> simp_all
  have hstuck {b : NodeId} : ¬ tree'.PlainEdge child b := by
    rw [hedge, plainEdge_iff, hchild]
    simp [hne]
  -- The new edge can only be the last one of a path.
  have hlast {a b : NodeId} (hpath : Relation.TransGen tree'.PlainEdge a b) :
      Relation.TransGen tree.PlainEdge a b ∨ b = child := by
    induction hpath with
    | single hstep => exact (hedge.mp hstep).imp .single And.right
    | tail _ hstep ih =>
      rcases ih with hpath | rfl
      · exact (hedge.mp hstep).imp hpath.tail And.right
      · exact absurd hstep hstuck
  intro id hcycle
  rcases hlast hcycle with hcycle | rfl
  · exact hacyclic id hcycle
  · obtain ⟨next, hstep, -⟩ := Relation.TransGen.head'_iff.mp hcycle
    exact hstuck hstep

theorem acyclic_initial : initial.Acyclic := by
  intro id hcycle
  obtain ⟨next, hstep, -⟩ := Relation.TransGen.head'_iff.mp hcycle
  rw [plainEdge_iff, children_initial] at hstep
  exact absurd hstep List.not_mem_nil

end CommandShell.Tree
