import CommandShell.Proofs.Tree.Walk

/-!
# The language of a tree

The tree of a rule list reads exactly what the rules spell. A rule that is hung off a node leads
from there to the node in which it ends, by walks that note what the rule spells. No other walks
come into being: every node can be labelled with a language, such that an edge loses nothing and
the root is labelled with what the rules spell.

## Main definitions

* `Tree.Covers` — each node is labelled with a language that all walks from it to the end are in

## Main results

* `attach_walk` — a rule leads by what it spells from the node it is hung off to the one it ends in
* `attach_carries` — the labels of a tree can be carried on to a rule that is hung into it
* `reads_build_iff` — the tree of a rule list reads what the rules spell
-/

namespace CommandShell.Tree

variable {args : ArgumentSet} {tree tree' : Tree} {tail last stop start join : NodeId}
  {nested : Bool} {rule : Rule} {rules : List Rule} {alternatives : List (List Rule)}
  {bracket : Bracket} {op : GroupOp} {symbol : Symbol} {symbols : List Symbol}

/-! ### Rules lead where they end -/

theorem chain_walk
    (ih : ∀ rule ∈ rules, ∀ {tree tail tree' stop symbols},
      attach args tree tail rule true = .ok (tree', stop) → Growing args tree tail →
        Rule.Spells args rule symbols → tree'.Walk tail symbols stop)
    (h : chain args tree tail rules = .ok (tree', last)) (hg : Growing args tree tail)
    (hs : Rule.SpellsAll args rules symbols) : tree'.Walk tail symbols last := by
  induction rules generalizing tree tail symbols with
  | nil =>
    cases h
    obtain rfl := Rule.spellsAll_nil_iff.mp hs
    exact .here _
  | cons rule rules ihr =>
    obtain ⟨mid, stop, hattach, h⟩ := chain_cons_eq_ok h
    obtain ⟨first, rest, rfl, hfirst, hrest⟩ := Rule.spellsAll_cons_iff.mp hs
    have hmid := attach_grows hattach hg
    have hall := grows_chain h hmid.toGrowing
    have hwalk := ih rule List.mem_cons_self hattach hg hfirst
    exact (hwalk.mono hall.ext).append
      (ihr (fun rule hmem => ih rule (List.mem_cons_of_mem _ hmem)) h hmid.toGrowing hrest)

theorem branches_walk
    (ih : ∀ alternative ∈ alternatives, ∀ rule ∈ alternative, ∀ {tree tail tree' stop symbols},
      attach args tree tail rule true = .ok (tree', stop) → Growing args tree tail →
        Rule.Spells args rule symbols → tree'.Walk tail symbols stop)
    (h : alternatives.foldlM (branch args start join) tree = .ok tree')
    (hg : Growing args tree start) (hjoin : tree.symbol? join = some symbol)
    (hkind : symbol.kind.isStructural = true) {alternative : List Rule}
    (hmem : alternative ∈ alternatives) (hs : Rule.SpellsAll args alternative symbols) :
    tree'.Walk start symbols join := by
  induction alternatives generalizing tree with
  | nil => exact absurd hmem List.not_mem_nil
  | cons first others iha =>
    rw [List.foldlM_cons] at h
    obtain ⟨closed, hbranch, h⟩ := bind_eq_ok_iff.mp h
    have hclosed := grows_branch hbranch hg
    have hall := grows_branches h hclosed.toGrowing
    rcases List.mem_cons.mp hmem with rfl | hmem
    · obtain ⟨mid, last, hchain, hlink⟩ := branch_eq_ok hbranch
      have hwalk := chain_walk (ih _ List.mem_cons_self) hchain hg hs
      have hend : closed.Walk last [] join := walk_nil_of_mem_targets
        ((mem_targets_link hlink).mpr (.inr ⟨rfl, rfl⟩)) (hclosed.ext.symbol?_eq_some hjoin) hkind
      rw [← List.append_nil symbols]
      exact ((hwalk.mono (extends_link hlink)).append hend).mono hall.ext
    · exact iha (fun alternative hmem => ih alternative (List.mem_cons_of_mem _ hmem)) h
        hclosed.toGrowing (hclosed.ext.symbol?_eq_some hjoin) hmem

/-- A closed group leads by what it spells from its start to its stop, if it leads by every round
from its start to its joint. -/
theorem walk_of_spells_group {position : Nat} {span : Span}
    (hround : ∀ symbols ∈ Rule.roundLanguage args rules,
      tree.Walk bracket.start symbols bracket.join)
    (hcloses : ∀ {i j}, bracket.Closes op i j → tree.Walk i [] j)
    (hjoin : op.isRepeatable = false → bracket.join = bracket.stop)
    (hs : Rule.Spells args (.nest (.group op) position rules span) symbols) :
    tree.Walk bracket.start symbols bracket.stop := by
  refine Rule.spells_group_induction (motive := fun symbols =>
    tree.Walk bracket.start symbols bracket.stop) ?skip ?once ?again hs rfl
  case skip => exact fun hop => hcloses (.inr ⟨hop, rfl, rfl⟩)
  case once =>
    intro round h
    have hon : tree.Walk bracket.join [] bracket.stop := by
      by_cases hop : op.isRepeatable = true
      · exact hcloses (.inl ⟨hop, rfl, .inl rfl⟩)
      · rw [hjoin (Bool.eq_false_iff.mpr hop)]
        exact .here _
    rw [← List.append_nil round]
    exact (hround round h).append hon
  case again =>
    intro hop first h rest ih
    have hback : tree.Walk bracket.join [] bracket.start := hcloses (.inl ⟨hop, rfl, .inr rfl⟩)
    exact (hround first h).append (hback.append ih)

/-- A rule leads by what it spells from the node it is hung off to the node it ends in. -/
theorem attach_walk (h : attach args tree tail rule nested = .ok (tree', stop))
    (hg : Growing args tree tail) (hs : Rule.Spells args rule symbols) :
    tree'.Walk tail symbols stop := by
  induction rule using Rule.induction generalizing tree tail nested tree' stop symbols with
  | single rule hrule =>
    rw [attach_of_not_isFilledGroup hrule] at h
    rcases attachLeaf_eq_ok h with
      ⟨hkind, -, h⟩ | ⟨symbol, hsymbol, h⟩ | ⟨id, mid, flag, hkind, hid, hflag, hvalue⟩
    · obtain rfl := (Rule.spells_finish_iff hkind).mp hs
      exact walk_hang h
    · obtain rfl := (Rule.spells_iff_of_symbol? hsymbol).mp hs
      rw [← Symbol.spoken_of_isBrowsable (Rule.isBrowsable_of_symbol? hsymbol)]
      exact walk_hang h
    · obtain rfl := (Rule.spells_named_iff hkind hid).mp hs
      exact ((walk_hang hflag).mono (extends_hang hvalue)).append (walk_hang hvalue)
  | group op position rules span hrules ih =>
    obtain ⟨opened, bracket, filled, hopen, hfill, hclose, rfl⟩ := attach_group_eq_ok hrules h
    obtain ⟨hopened, hjoin, hstop⟩ := grows_openGroup hopen hg
    have hfilled := grows_branches hfill hopened.toGrowing
    have hext := hfilled.ext.trans (extends_closeGroup hclose)
    obtain ⟨-, -, hjoinstop, -, -⟩ := openGroup_bounds hopen
    have hstart : opened.symbol? bracket.start = some ⟨.hook, "hook"⟩ := by
      simp [symbol?_openGroup hopen]
    have hstop : opened.symbol? bracket.stop = some ⟨.hook, "hook"⟩ := by
      simp [symbol?_openGroup hopen]
    have henter : opened.Walk tail [] bracket.start :=
      walk_nil_of_mem_targets (by simp [targets_openGroup hopen]) hstart rfl
    refine (henter.mono hext).append (walk_of_spells_group ?_ ?_ ?_ hs)
    · rintro round ⟨alternative, hmem, hround⟩
      refine Walk.mono ?_ (extends_closeGroup hclose)
      exact branches_walk (fun alternative hmem rule hrule => ih alternative hmem rule hrule) hfill
        hopened.toGrowing (symbol?_join hopen) (isStructural_joinSymbol op) hmem hround
    · intro i j hij
      have hedge : j ∈ tree'.targets i := (mem_targets_closeGroup hclose).mpr (.inr hij)
      rcases hij with ⟨-, -, rfl | rfl⟩ | ⟨-, -, rfl⟩
      · exact walk_nil_of_mem_targets hedge (hext.symbol?_eq_some hstop) rfl
      · exact walk_nil_of_mem_targets hedge (hext.symbol?_eq_some hstart) rfl
      · exact walk_nil_of_mem_targets hedge (hext.symbol?_eq_some hstop) rfl
    · intro hop
      rw [hjoinstop, if_neg (Bool.eq_false_iff.mp hop)]

/-- Rules that end in the end of the line lead there by what they spell. -/
theorem buildFrom_walk {ended : Bool} (h : buildFrom args tree tail ended rules = .ok tree')
    (hg : Growing args tree tail) (hlast : rules.getLast?.map Rule.kind = some .finish)
    (hs : Rule.SpellsAll args rules symbols) :
    ∃ stop, tree'.IsFinishAt stop ∧ tree'.Walk tail symbols stop := by
  induction rules generalizing tree tail ended symbols with
  | nil => cases hlast
  | cons rule rules ih =>
    obtain ⟨-, mid, stop, hattach, h⟩ := buildFrom_cons_eq_ok h
    obtain ⟨first, rest, rfl, hfirst, hrest⟩ := Rule.spellsAll_cons_iff.mp hs
    have hmid := attach_grows hattach hg
    have hwalk := attach_walk hattach hg hfirst
    cases rules with
    | nil =>
      cases h
      obtain rfl := Rule.spellsAll_nil_iff.mp hrest
      rw [List.append_nil]
      have hhang := hang_of_attach_finish (by simpa using hlast) hattach
      exact ⟨stop, ⟨_, by rw [symbol?_hang hhang, if_pos (id_hang hhang)], rfl⟩, hwalk⟩
    | cons next rules =>
      obtain ⟨last, hall⟩ := buildFrom_grows h hmid.toGrowing
      obtain ⟨stop', hstop', hwalk'⟩ := ih h hmid.toGrowing (by simpa using hlast) hrest
      exact ⟨stop', hstop', (hwalk.mono hall.ext).append hwalk'⟩

/-! ### Labels -/

/-- The labels lose nothing: what an edge adds to a word of its target is a word of its source, and
the end of the line has the empty word. -/
structure Covers (tree : Tree) (labels : NodeId → Language Symbol) : Prop where
  step : ∀ {a b : NodeId} {symbol : Symbol} {symbols : List Symbol}, b ∈ tree.targets a →
    tree.symbol? b = some symbol → symbols ∈ labels b → symbol.spoken ++ symbols ∈ labels a
  finish : ∀ {a : NodeId}, tree.IsFinishAt a → [] ∈ labels a

/-- The labels of a tree have been carried on to a tree that it has grown into. -/
structure Carries (tree : Tree) (labels : NodeId → Language Symbol) (tree' : Tree)
    (labels' : NodeId → Language Symbol) : Prop where
  agree : ∀ {i : NodeId}, i < tree.size → labels' i = labels i
  covers : tree'.Covers labels'

variable {tree'' : Tree} {labels labels' labels'' : NodeId → Language Symbol}
  {kind : NodeKind} {label : String} {isLoop : Bool} {id : NodeId}

theorem Covers.mem_of_walk (hc : tree.Covers labels) (h : tree.Walk start symbols stop)
    (hstop : [] ∈ labels stop) : symbols ∈ labels start := by
  induction h with
  | here a => exact hstop
  | step h hsymbol _ ih => exact hc.step h hsymbol (ih hstop)

theorem Covers.carries_refl (hc : tree.Covers labels) : Carries tree labels tree labels :=
  ⟨fun _ => rfl, hc⟩

theorem Carries.trans (h : Carries tree labels tree' labels')
    (h' : Carries tree' labels' tree'' labels'') (hsize : tree.size ≤ tree'.size) :
    Carries tree labels tree'' labels'' :=
  ⟨fun hi => (h'.agree (Nat.lt_of_lt_of_le hi hsize)).trans (h.agree hi), h'.covers⟩

/-- A new node can be labelled at will, unless it ends the line. -/
theorem carries_add (h : tree.add kind label = .ok (tree', id)) (hw : tree.WellFormed args)
    (hc : tree.Covers labels) (after : Language Symbol) (hend : kind = .finish → [] ∈ after) :
    Carries tree labels tree' (Function.update labels id after) := by
  obtain ⟨hid, -⟩ := add_eq_ok h
  refine ⟨fun hi => Function.update_of_ne (by lia) _ _, ?_, ?_⟩
  · intro a b symbol symbols hedge hsymbol hmem
    rw [targets_add h] at hedge
    have hb : b ≠ id := Nat.ne_of_lt (hid ▸ hw.target_lt hedge)
    have ha : a ≠ id := by
      intro heq
      subst heq
      rw [targets_eq_nil hid.ge] at hedge
      exact absurd hedge List.not_mem_nil
    rw [symbol?_add h, if_neg (hid ▸ hb)] at hsymbol
    rw [Function.update_of_ne hb] at hmem
    rw [Function.update_of_ne ha]
    exact hc.step hedge hsymbol hmem
  · rintro a ⟨symbol, hsymbol, hkind⟩
    rw [symbol?_add h] at hsymbol
    by_cases ha : a = tree.size
    · rw [if_pos ha] at hsymbol
      cases hsymbol
      rw [ha, ← hid, Function.update_self]
      exact hend hkind
    · rw [if_neg ha] at hsymbol
      rw [Function.update_of_ne (hid ▸ ha)]
      exact hc.finish ⟨symbol, hsymbol, hkind⟩

/-- An edge can be added where it loses nothing. -/
theorem covers_link (h : tree.link start stop isLoop = .ok tree') (hc : tree.Covers labels)
    (hsymbol : tree.symbol? stop = some symbol)
    (hedge : ∀ symbols ∈ labels stop, symbol.spoken ++ symbols ∈ labels start) :
    tree'.Covers labels where
  step {a b other symbols} hmem hother hsymbols := by
    rw [symbol?_link h] at hother
    rcases (mem_targets_link h).mp hmem with hmem | ⟨rfl, rfl⟩
    · exact hc.step hmem hother hsymbols
    · cases hother.symm.trans hsymbol
      exact hedge symbols hsymbols
  finish {a} hfinish := by
    obtain ⟨symbol, hsymbol, hkind⟩ := hfinish
    exact hc.finish ⟨symbol, symbol?_link h ▸ hsymbol, hkind⟩

/-- An edge to a joint can be added where the label of the joint is part of that of its source. -/
theorem covers_link_of_le (h : tree.link start stop isLoop = .ok tree') (hc : tree.Covers labels)
    (hsymbol : tree.symbol? stop = some symbol) (hkind : symbol.kind.isStructural = true)
    (hle : labels stop ≤ labels start) : tree'.Covers labels := by
  refine covers_link h hc hsymbol fun symbols hmem => ?_
  rw [Symbol.spoken_of_isStructural hkind]
  exact hle hmem

theorem carries_hang (h : tree.hang tail kind label = .ok (tree', stop))
    (hw : tree.WellFormed args) (htail : tail < tree.size) (hc : tree.Covers labels)
    (after : Language Symbol)
    (hafter : ∀ symbols ∈ after, Symbol.spoken ⟨kind, label⟩ ++ symbols ∈ labels tail)
    (hend : kind = .finish → [] ∈ after) :
    Carries tree labels tree' (Function.update labels stop after) := by
  obtain ⟨mid, hadd, hlink⟩ := hang_eq_ok h
  have hmid := carries_add hadd hw hc after hend
  have hsymbol : mid.symbol? stop = some ⟨kind, label⟩ := by
    rw [symbol?_add hadd, if_pos (add_eq_ok hadd).1]
  refine ⟨hmid.agree, covers_link hlink hmid.covers hsymbol ?_⟩
  rw [Function.update_self, hmid.agree htail]
  exact hafter

/-- A group begins with what it spells before what comes after it, and goes on from its joint with
the same or with what comes after it. -/
theorem carries_openGroup (h : tree.openGroup tail op = .ok (tree', bracket))
    (hg : Growing args tree tail) (hc : tree.Covers labels) {whole : Language Symbol}
    (hwhole : whole ≤ labels tail) (after : Language Symbol) :
    ∃ labels', Carries tree labels tree' labels' ∧ labels' bracket.start = whole ∧
      labels' bracket.join = (if op.isRepeatable then after + whole else after) ∧
      labels' bracket.stop = after := by
  obtain ⟨opened, joined, hstart, hjoin, hstop⟩ := openGroup_eq_ok h
  have hid := id_hang hstart
  have hsize := size_hang hstart
  have hgrows := grows_hang hstart hg trivial (by simp [Symbol.IsFlag])
  have hopened := carries_hang hstart hg.wellFormed hg.isTail.lt_size hc whole
    (fun _ hmem => hwhole hmem) (by simp)
  have hlt : bracket.start < opened.size := by lia
  split at hjoin
  · have hjoinid := size_of_add hjoin
    have hstopid := size_of_add hstop
    have hw := wellFormed_add hjoin hgrows.wellFormed trivial
    have hjoined := carries_add hjoin hgrows.wellFormed hopened.covers (after + whole) (by simp)
    have hstopped := carries_add hstop hw hjoined.covers after (by simp)
    have hall := (hopened.trans hjoined hgrows.ext.size_le).trans hstopped (by lia)
    refine ⟨_, hall, ?_, ?_, Function.update_self ..⟩
    · rw [hstopped.agree (by lia), hjoined.agree hlt, Function.update_self]
    · rw [hstopped.agree (by lia), Function.update_self, if_pos ‹_›]
  · obtain ⟨rfl, hjoin⟩ := hjoin
    have hstopped := carries_add hstop hgrows.wellFormed hopened.covers after (by simp)
    refine ⟨_, hopened.trans hstopped hgrows.ext.size_le, ?_, ?_, Function.update_self ..⟩
    · rw [hstopped.agree hlt, Function.update_self]
    · rw [hjoin, Function.update_self, if_neg ‹_›]

theorem covers_closeGroup (h : tree.closeGroup bracket op = .ok tree') (hc : tree.Covers labels)
    (hstart : tree.symbol? bracket.start = some ⟨.hook, "hook"⟩)
    (hstop : tree.symbol? bracket.stop = some ⟨.hook, "hook"⟩)
    (hloop : op.isRepeatable = true →
      labels bracket.stop ≤ labels bracket.join ∧ labels bracket.start ≤ labels bracket.join)
    (hskip : op.isOptional = true → labels bracket.stop ≤ labels bracket.start) :
    tree'.Covers labels where
  step {a b symbol symbols} hmem hsymbol hsymbols := by
    rw [symbol?_closeGroup h] at hsymbol
    rcases (mem_targets_closeGroup h).mp hmem with
      hmem | ⟨hop, rfl, rfl | rfl⟩ | ⟨hop, rfl, rfl⟩
    · exact hc.step hmem hsymbol hsymbols
    · cases hstop.symm.trans hsymbol
      exact (hloop hop).1 hsymbols
    · cases hstart.symm.trans hsymbol
      exact (hloop hop).2 hsymbols
    · cases hstop.symm.trans hsymbol
      exact hskip hop hsymbols
  finish {a} hfinish := by
    obtain ⟨symbol, hsymbol, hkind⟩ := hfinish
    exact hc.finish ⟨symbol, symbol?_closeGroup h ▸ hsymbol, hkind⟩

/-! ### Rules lead nowhere else -/

theorem chain_carries
    (ih : ∀ rule ∈ rules, ∀ {tree tail tree' stop labels} {after : Language Symbol},
      attach args tree tail rule true = .ok (tree', stop) → Growing args tree tail →
        tree.Covers labels → Rule.language args rule * after ≤ labels tail →
        ∃ labels', Carries tree labels tree' labels' ∧ after ≤ labels' stop)
    (h : chain args tree tail rules = .ok (tree', last)) (hg : Growing args tree tail)
    (hc : tree.Covers labels) {after : Language Symbol}
    (hle : Rule.languageAll args rules * after ≤ labels tail) :
    ∃ labels', Carries tree labels tree' labels' ∧ after ≤ labels' last := by
  induction rules generalizing tree tail labels with
  | nil =>
    cases h
    rw [Rule.languageAll_nil, one_mul] at hle
    exact ⟨labels, hc.carries_refl, hle⟩
  | cons rule rules ihr =>
    obtain ⟨mid, stop, hattach, h⟩ := chain_cons_eq_ok h
    have hmid := attach_grows hattach hg
    rw [Rule.languageAll_cons, mul_assoc] at hle
    obtain ⟨labels', hcarries, hstop⟩ := ih rule List.mem_cons_self hattach hg hc hle
    obtain ⟨labels'', hcarries', hlast⟩ :=
      ihr (fun rule hmem => ih rule (List.mem_cons_of_mem _ hmem)) h hmid.toGrowing
        hcarries.covers hstop
    exact ⟨labels'', hcarries.trans hcarries' hmid.ext.size_le, hlast⟩

theorem branches_carry
    (ih : ∀ alternative ∈ alternatives, ∀ rule ∈ alternative,
      ∀ {tree tail tree' stop labels} {after : Language Symbol},
      attach args tree tail rule true = .ok (tree', stop) → Growing args tree tail →
        tree.Covers labels → Rule.language args rule * after ≤ labels tail →
        ∃ labels', Carries tree labels tree' labels' ∧ after ≤ labels' stop)
    (h : alternatives.foldlM (branch args start join) tree = .ok tree')
    (hg : Growing args tree start) (hc : tree.Covers labels)
    (hjoin : tree.symbol? join = some symbol) (hkind : symbol.kind.isStructural = true)
    (hle : ∀ alternative ∈ alternatives,
      Rule.languageAll args alternative * labels join ≤ labels start) :
    ∃ labels', Carries tree labels tree' labels' := by
  induction alternatives generalizing tree labels with
  | nil =>
    cases h
    exact ⟨labels, hc.carries_refl⟩
  | cons alternative others iha =>
    rw [List.foldlM_cons] at h
    obtain ⟨closed, hbranch, h⟩ := bind_eq_ok_iff.mp h
    have hclosed := grows_branch hbranch hg
    obtain ⟨mid, last, hchain, hlink⟩ := branch_eq_ok hbranch
    have hmid := grows_chain hchain hg
    obtain ⟨labels', hcarries, hlast⟩ := chain_carries (ih _ List.mem_cons_self) hchain hg hc
      (hle _ List.mem_cons_self)
    -- The labels of the two joints stay as they are, for all alternatives alike.
    have hsame : labels' join = labels join := hcarries.agree (lt_size_of_symbol? hjoin)
    have hstart : labels' start = labels start := hcarries.agree hg.isTail.lt_size
    have hcovers := covers_link_of_le hlink hcarries.covers (hmid.ext.symbol?_eq_some hjoin) hkind
      (hsame ▸ hlast)
    obtain ⟨labels'', hcarries'⟩ := iha
      (fun alternative hmem => ih alternative (List.mem_cons_of_mem _ hmem)) h hclosed.toGrowing
      hcovers (hclosed.ext.symbol?_eq_some hjoin) (fun alternative hmem => by
        rw [hsame, hstart]
        exact hle alternative (List.mem_cons_of_mem _ hmem))
    have hcarried : Carries tree labels closed labels' := ⟨hcarries.agree, hcovers⟩
    exact ⟨labels'', hcarried.trans hcarries' hclosed.ext.size_le⟩

/-- The labels can be carried on to the nodes of a rule that is no group. -/
theorem attachLeaf_carries (h : attachLeaf args tree tail rule nested = .ok (tree', stop))
    (hg : Growing args tree tail) (hc : tree.Covers labels) {after : Language Symbol}
    (hle : Rule.language args rule * after ≤ labels tail)
    (hend : nested = false → rule.kind = .finish → [] ∈ after) :
    ∃ labels', Carries tree labels tree' labels' ∧ after ≤ labels' stop := by
  have htail := hg.isTail.lt_size
  have hword {word rest : List Symbol} (hword : Rule.Spells args rule word)
      (hrest : rest ∈ after) : word ++ rest ∈ labels tail :=
    hle (Language.append_mem_mul hword hrest)
  rcases attachLeaf_eq_ok h with
    ⟨hkind, hnested, h⟩ | ⟨symbol, hsymbol, h⟩ | ⟨id, mid, flag, hkind, hid, hflag, hvalue⟩
  · have hcarries := carries_hang h hg.wellFormed htail hc after
      (fun _ => hword (.finish hkind)) (fun _ => hend hnested hkind)
    exact ⟨_, hcarries, by rw [Function.update_self]⟩
  · have hbrowsable := Rule.isBrowsable_of_symbol? hsymbol
    have hspoken : ∀ rest ∈ after, symbol.spoken ++ rest ∈ labels tail := by
      intro rest hrest
      rw [Symbol.spoken_of_isBrowsable hbrowsable]
      exact hword ((Rule.spells_iff_of_symbol? hsymbol).mpr rfl) hrest
    have hcarries := carries_hang h hg.wellFormed htail hc after hspoken (fun hkind => by
      simp [hkind, NodeKind.isBrowsable, NodeKind.isStructural] at hbrowsable)
    exact ⟨_, hcarries, by rw [Function.update_self]⟩
  · -- Between the flag and its value, the value and what comes after it are still to be said.
    let value : Symbol := ⟨.freeForm id, rule.lookupName⟩
    let middle : Language Symbol := {w | ∃ rest ∈ after, w = value :: rest}
    have hcarries := carries_hang hflag hg.wellFormed htail hc middle (by
      rintro _ ⟨rest, hrest, rfl⟩
      have hmem := hword (.named hkind hid) hrest
      exact hmem) (by simp)
    have hw := wellFormed_hang hflag hg.wellFormed hid
    have hlt : flag < mid.size := by
      rw [id_hang hflag, size_hang hflag]
      exact Nat.lt_succ_self _
    have hcarries' := carries_hang hvalue hw hlt hcarries.covers after (fun rest hrest => by
      rw [Function.update_self]
      exact ⟨rest, hrest, rfl⟩) (by simp)
    exact ⟨_, hcarries.trans hcarries' (extends_hang hflag).size_le, by
      rw [Function.update_self]⟩

/-- The labels of a tree can be carried on to a rule that is hung into it: what the rule spells
leads from the label of the node it is hung off to the label of the node it ends in. -/
theorem attach_carries (h : attach args tree tail rule nested = .ok (tree', stop))
    (hg : Growing args tree tail) (hc : tree.Covers labels) {after : Language Symbol}
    (hle : Rule.language args rule * after ≤ labels tail)
    (hend : nested = false → rule.kind = .finish → [] ∈ after) :
    ∃ labels', Carries tree labels tree' labels' ∧ after ≤ labels' stop := by
  induction rule using Rule.induction
    generalizing tree tail nested tree' stop labels after with
  | single rule hrule =>
    rw [attach_of_not_isFilledGroup hrule] at h
    exact attachLeaf_carries h hg hc hle hend
  | group op position rules span hrules ih =>
    obtain ⟨opened, bracket, filled, hopen, hfill, hclose, rfl⟩ := attach_group_eq_ok hrules h
    obtain ⟨hopened, hjoin, hstop⟩ := grows_openGroup hopen hg
    obtain ⟨labels₁, hcarries₁, hstart₁, hjoin₁, hstop₁⟩ := carries_openGroup hopen hg hc hle after
    have hround (alternative : List Rule) (hmem : alternative ∈ Rule.alternatives rules) :
        Rule.languageAll args alternative * labels₁ bracket.join ≤ labels₁ bracket.start := by
      rw [hstart₁, hjoin₁]
      refine le_trans (mul_le_mul_left ?_ _) (Rule.roundLanguage_mul_after_le after)
      exact fun w hw => ⟨alternative, hmem, hw⟩
    -- No rule of an alternative may end the line, so what comes after it need not have an end.
    obtain ⟨labels₂, hcarries₂⟩ := branches_carry
      (fun alternative hmem rule hrule _ _ _ _ _ _ h hg hc hle =>
        ih alternative hmem rule hrule h hg hc hle (fun hnested => by contradiction)) hfill
      hopened.toGrowing hcarries₁.covers (symbol?_join hopen) (isStructural_joinSymbol op) hround
    have hfilled := grows_branches hfill hopened.toGrowing
    have hstart₂ := hcarries₂.agree hopened.isTail.lt_size
    have hjoin₂ := hcarries₂.agree hjoin.lt_size
    have hstop₂ := hcarries₂.agree hstop.lt_size
    refine ⟨labels₂, ⟨fun hi => ?_, ?_⟩, ?_⟩
    · rw [hcarries₂.agree (Nat.lt_of_lt_of_le hi hopened.ext.size_le), hcarries₁.agree hi]
    · apply covers_closeGroup hclose hcarries₂.covers
        (hfilled.ext.symbol?_eq_some (by simp [symbol?_openGroup hopen]))
        (hfilled.ext.symbol?_eq_some (by simp [symbol?_openGroup hopen]))
      · intro hop
        rw [hstop₂, hjoin₂, hstart₂, hstop₁, hjoin₁, hstart₁, if_pos hop]
        exact ⟨le_sup_left, le_sup_right⟩
      · intro hop
        rw [hstop₂, hstart₂, hstop₁, hstart₁]
        exact le_mul_of_one_le_left' (Rule.one_le_language hop)
    · rw [hstop₂, hstop₁]

/-! ### Whole trees -/

theorem buildFrom_carries {ended : Bool} (h : buildFrom args tree tail ended rules = .ok tree')
    (hg : Growing args tree tail) (hc : tree.Covers labels)
    (hle : Rule.languageAll args rules ≤ labels tail) :
    ∃ labels', Carries tree labels tree' labels' := by
  induction rules generalizing tree tail ended labels with
  | nil =>
    cases h
    exact ⟨labels, hc.carries_refl⟩
  | cons rule rules ih =>
    obtain ⟨-, mid, stop, hattach, h⟩ := buildFrom_cons_eq_ok h
    have hmid := attach_grows hattach hg
    rw [Rule.languageAll_cons] at hle
    have hend (hkind : rule.kind = .finish) : [] ∈ Rule.languageAll args rules := by
      cases rules with
      | nil => exact .nil
      | cons next rules =>
        have hended := (buildFrom_cons_eq_ok h).1
        simp [hkind] at hended
    obtain ⟨labels', hcarries, hstop⟩ := attach_carries hattach hg hc hle fun _ => hend
    obtain ⟨labels'', hcarries'⟩ := ih h hmid.toGrowing hcarries.covers hstop
    exact ⟨labels'', hcarries.trans hcarries' hmid.ext.size_le⟩

theorem not_isFinishAt_root (h : build args rules = .ok tree) : ¬ tree.IsFinishAt root := by
  obtain ⟨last, hgrows⟩ := build_grows h
  rintro ⟨symbol, hsymbol, hkind⟩
  cases (hgrows.ext.symbol?_eq_some symbol?_initial_root).symm.trans hsymbol
  cases hkind

/-- A tree reads nothing but what its rules spell. -/
theorem spellsAll_of_reads (h : build args rules = .ok tree) (hr : tree.Reads root symbols) :
    Rule.SpellsAll args rules symbols := by
  -- Without any edge, every labelling of the initial tree loses nothing.
  have hinitial : initial.Covers fun _ => Rule.languageAll args rules := by
    refine ⟨fun hmem => ?_, ?_⟩
    · rw [targets_initial] at hmem
      exact absurd hmem List.not_mem_nil
    · rintro i ⟨symbol, hsymbol, hkind⟩
      rw [eq_of_symbol?_initial hsymbol] at hkind
      cases hkind
  obtain ⟨labels, hcarries⟩ := buildFrom_carries h growing_initial hinitial le_rfl
  obtain ⟨stop, hstop, hwalk⟩ := walk_of_reads hr
  have hmem := hcarries.covers.mem_of_walk hwalk (hcarries.covers.finish hstop)
  have hroot : labels root = Rule.languageAll args rules := hcarries.agree Nat.zero_lt_one
  rwa [hroot] at hmem

/-- A tree reads all that its rules spell, if they end in the end of the line. -/
theorem reads_of_spellsAll (h : build args rules = .ok tree)
    (hlast : rules.getLast?.map Rule.kind = some .finish) (hs : Rule.SpellsAll args rules symbols) :
    tree.Reads root symbols := by
  obtain ⟨last, hgrows⟩ := build_grows h
  rw [reads_iff_exists_walk hgrows.wellFormed (not_isFinishAt_root h)]
  exact buildFrom_walk h growing_initial hlast hs

/-- The tree of a rule list that ends in the end of the line reads exactly what the rules spell. -/
theorem reads_build_iff (h : build args rules = .ok tree)
    (hlast : rules.getLast?.map Rule.kind = some .finish) :
    tree.Reads root symbols ↔ Rule.SpellsAll args rules symbols :=
  ⟨spellsAll_of_reads h, reads_of_spellsAll h hlast⟩

/-- Two rounds of `[<go> [fast]?]*`, of which the first has a flag. -/
theorem reads_build_rounds :
    let args : ArgumentSet := ⟨[⟨"fast", .str, some (.str ""), none⟩], by simp⟩
    let body : List Rule := [.leaf .constant 0 "go" ⟨1, 5⟩,
      .nest (.group .zeroOrOne) 1 [.leaf .named 0 "fast" ⟨7, 11⟩] ⟨6, 13⟩]
    let go : Symbol := ⟨.constant "go" none, "go"⟩
    ∃ tree, build args [.nest (.group .zeroOrMore) 0 body ⟨0, 15⟩, .finish 1 (.point 15)] =
        .ok tree ∧
      tree.Reads root [go, ⟨.flag 0, "fast"⟩, ⟨.freeForm 0, "fast"⟩, go] := by
  intro args body go
  obtain ⟨tree, hbuild⟩ : ∃ tree, build args
      [.nest (.group .zeroOrMore) 0 body ⟨0, 15⟩, .finish 1 (.point 15)] = .ok tree :=
    exists_eq_ok_of_isOk (by decide +kernel)
  refine ⟨tree, hbuild, (reads_build_iff hbuild rfl).mpr ?_⟩
  have hgo : Rule.Spells args (.leaf .constant 0 "go" ⟨1, 5⟩) [go] := .constant rfl
  have hfast : Rule.Spells args (.leaf .named 0 "fast" ⟨7, 11⟩)
      [⟨.flag 0, "fast"⟩, ⟨.freeForm 0, "fast"⟩] := .named rfl rfl
  have hwith : Rule.SpellsAll args body [go, ⟨.flag 0, "fast"⟩, ⟨.freeForm 0, "fast"⟩] :=
    .cons hgo (.cons (.once List.mem_cons_self (.cons hfast .nil)) .nil)
  have hwithout : Rule.SpellsAll args body [go] := .cons hgo (.cons (.skip rfl) .nil)
  exact .cons (.again rfl List.mem_cons_self hwith (.once List.mem_cons_self hwithout))
    (.cons (.finish rfl) .nil)

end CommandShell.Tree
