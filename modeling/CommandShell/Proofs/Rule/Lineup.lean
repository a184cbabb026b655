import CommandShell.Matching.Lineup
import CommandShell.Proofs.Grammar.Names
import CommandShell.Proofs.Rule.Spelling
import CommandShell.Proofs.Tree.Spoken

/-!
# The rules of a lineup

A lineup is written as one rule for each argument in front and one group for the argument at the
end. What these rules spell can be told place by place: a sentence has the symbol of the argument in
front at each of the first places, and the symbol of the argument at the end at all others.

## Main definitions

* `Lineup.Rules` — the rules of a lineup
* `Lineup.symbolAt?` — the symbol at a place of a sentence
* `Lineup.Admits` — symbols that a sentence can begin with

## Main results

* `Lineup.rules_of_unplacedAll` — the rules that a phrase for the lineup is read as
* `Lineup.Rules.spellsAll_iff` — what the rules spell
* `Lineup.Rules.labels_spoken` — the rules call for one node for each argument
-/

namespace CommandShell

namespace Lineup

open scoped Computability

variable {lineup : Lineup} {args : ArgumentSet} {name : String} {rest? : Option String}
  {front : List String} {rules : List Rule} {rule : Rule} {position place : Nat} {span : Span}
  {id : ArgId} {symbol : Symbol} {symbols before after : List Symbol}

/-! ### Rules -/

/-- The rules of a lineup, wherever they are written. -/
inductive Rules : Lineup → List Rule → Prop
  /-- Nothing is left. -/
  | finish {position : Nat} {span : Span} : Rules ⟨[], none⟩ [.finish position span]
  /-- One group for all tokens that are left over. -/
  | rest {position inner last : Nat} {name : String} {span innerSpan lastSpan : Span} :
      Rules ⟨[], some name⟩ [.nest (.group .freeForm) position
        [.leaf .freeForm inner name innerSpan] span, .finish last lastSpan]
  /-- A positional argument. -/
  | next {position : Nat} {name : String} {span : Span} {front : List String}
      {rest? : Option String} {rules : List Rule} (h : Rules ⟨front, rest?⟩ rules) :
      Rules ⟨name :: front, rest?⟩ (.leaf .required position name span :: rules)

theorem eq_leaf_of_unplaced {kind : RuleKind}
    (h : rule.unplaced = .leaf kind position name (.point 0)) :
    ∃ span, rule = .leaf kind position name span := by
  cases rule <;> rw [Rule.unplaced] at h <;> cases h
  exact ⟨_, rfl⟩

theorem eq_finish_of_unplaced (h : rule.unplaced = .finish position (.point 0)) :
    ∃ span, rule = .finish position span := by
  cases rule <;> rw [Rule.unplaced] at h <;> cases h
  exact ⟨_, rfl⟩

theorem eq_nest_of_unplaced {kind : RuleKind} {inner : List Rule}
    (h : rule.unplaced = .nest kind position inner (.point 0)) :
    ∃ rules span, rule = .nest kind position rules span ∧ rules.map Rule.unplaced = inner := by
  cases rule <;> rw [Rule.unplaced] at h <;> cases h
  exact ⟨_, _, rfl, (Rule.unplacedAll_eq_map _).symm⟩

/-- A phrase for the lineup is read as its rules. -/
theorem rules_of_unplacedAll {last : Nat}
    (h : Rule.unplacedAll rules = Clause.rulesFrom .required position lineup.clauses ++
      [.finish last (.point 0)]) : lineup.Rules rules := by
  obtain ⟨front, rest?⟩ := lineup
  rw [Rule.unplacedAll_eq_map] at h
  induction front generalizing rules position with
  | nil =>
    cases rest? with
    | none =>
      obtain ⟨rule, rfl, hrule⟩ := List.map_eq_singleton_iff.mp h
      obtain ⟨span, rfl⟩ := eq_finish_of_unplaced hrule
      exact .finish
    | some name =>
      obtain ⟨rule, others, rfl, hrule, hothers⟩ := List.map_eq_cons_iff.mp h
      obtain ⟨other, rfl, hother⟩ := List.map_eq_singleton_iff.mp hothers
      obtain ⟨span, rfl⟩ := eq_finish_of_unplaced hother
      obtain ⟨inner, span, rfl, hinner⟩ := eq_nest_of_unplaced hrule
      obtain ⟨leaf, rfl, hleaf⟩ := List.map_eq_singleton_iff.mp hinner
      obtain ⟨span, rfl⟩ := eq_leaf_of_unplaced hleaf
      exact .rest
  | cons name front ih =>
    obtain ⟨rule, others, rfl, hrule, hothers⟩ := List.map_eq_cons_iff.mp h
    obtain ⟨span, rfl⟩ := eq_leaf_of_unplaced hrule
    exact .next (ih hothers)

/-- The brackets of a lineup do not nest. -/
theorem depth_phrase_le (lineup : Lineup) {command : String} :
    (lineup.phrase command).depth ≤ 1 := by
  rw [Phrase.depth, phrase, Clause.depthOfAll_le_iff]
  intro clause hclause
  rcases List.mem_append.mp hclause with hword | hgroup
  · obtain ⟨name, -, rfl⟩ := List.mem_map.mp hword
    simp [Clause.depth]
  · obtain ⟨name, -, rfl⟩ := Option.map_eq_some_iff.mp (Option.mem_toList.mp hgroup)
    simp [Clause.depth, Clause.depthOfAlternatives, Clause.depthOfAll]

/-- The rules that are made up from the names of arguments are those of a lineup with all of them in
front. -/
theorem rules_positionalRules (position start : Nat) (names : List String) :
    Rules ⟨names, none⟩ (Grammar.positionalRules position start names) := by
  induction names generalizing position start with
  | nil => exact .finish
  | cons name names ih => exact .next (ih _ _)

/-- Each argument in front asks for a token, and the one at the end for none. -/
theorem Rules.minimumArguments_eq (h : lineup.Rules rules) :
    Rule.minimumArguments rules = lineup.front.length := by
  induction h with
  | finish => rfl
  | rest => rfl
  | next _ ih => exact (List.countP_cons_of_pos rfl).trans (congrArg (· + 1) ih)

theorem Rules.getLast?_eq (h : lineup.Rules rules) :
    rules.getLast?.map Rule.kind = some .finish := by
  induction h with
  | finish => rfl
  | rest => rfl
  | @next position name span front rest? rules _ ih =>
    obtain ⟨last, hlast, hkind⟩ := Option.map_eq_some_iff.mp ih
    rw [List.getLast?_cons, hlast]
    exact congrArg some hkind

/-! ### Sentences -/

/-- The symbol at a place of a sentence. -/
def symbolAt? (lineup : Lineup) (args : ArgumentSet) (place : Nat) : Option Symbol :=
  match lineup.front[place]? with
  | some name => (args.idOf? name).map (⟨.argument ·, name⟩)
  | none => lineup.rest?.bind fun name => (args.idOf? name).map (⟨.freeForm ·, name⟩)

theorem symbolAt?_of_front (h : lineup.front[place]? = some name)
    (hid : args.idOf? name = some id) :
    lineup.symbolAt? args place = some ⟨.argument id, name⟩ := by
  rw [symbolAt?, h]
  exact Option.map_eq_some_iff.mpr ⟨id, hid, rfl⟩

theorem symbolAt?_of_rest (hplace : lineup.front[place]? = none) (h : lineup.rest? = some name)
    (hid : args.idOf? name = some id) :
    lineup.symbolAt? args place = some ⟨.freeForm id, name⟩ := by
  rw [symbolAt?, hplace, h]
  exact Option.map_eq_some_iff.mpr ⟨id, hid, rfl⟩

/-- The symbols are those of the first places of a sentence. -/
def Admits (lineup : Lineup) (args : ArgumentSet) (symbols : List Symbol) : Prop :=
  ∀ place < symbols.length, lineup.symbolAt? args place = symbols[place]?

theorem admits_nil : lineup.Admits args [] := nofun

theorem Admits.of_append (h : lineup.Admits args (before ++ after)) :
    lineup.Admits args before := by
  intro place hplace
  rw [h place (by rw [List.length_append]; lia), List.getElem?_append_left hplace]

theorem admits_concat_iff :
    lineup.Admits args (before ++ [symbol]) ↔
      lineup.Admits args before ∧ lineup.symbolAt? args before.length = some symbol := by
  constructor
  · intro h
    refine ⟨h.of_append, ?_⟩
    rw [h before.length (by simp), List.getElem?_concat_length]
  · rintro ⟨h, hlast⟩ place hplace
    rw [List.length_append, List.length_singleton] at hplace
    rcases Nat.lt_succ_iff_lt_or_eq.mp hplace with hlt | rfl
    · rw [h place hlt, List.getElem?_append_left hlt]
    · rw [hlast, List.getElem?_concat_length]

theorem admits_cons_iff :
    Admits ⟨name :: front, rest?⟩ args (symbol :: symbols) ↔
      (args.idOf? name).map (⟨.argument ·, name⟩) = some symbol ∧
        Admits ⟨front, rest?⟩ args symbols := by
  constructor
  · intro h
    exact ⟨h 0 (Nat.succ_pos _), fun place hplace => h (place + 1) (Nat.succ_lt_succ hplace)⟩
  · rintro ⟨hfirst, hrest⟩ place hplace
    cases place with
    | zero => exact hfirst
    | succ place => exact hrest place (Nat.lt_of_succ_lt_succ hplace)

/-- What a sentence can begin with can be brought to its end. -/
theorem Admits.exists_append (hdeclared : ∀ name ∈ lineup.names, ∃ id, args.idOf? name = some id)
    (h : lineup.Admits args before) :
    ∃ after, lineup.front.length ≤ (before ++ after).length ∧
      lineup.Admits args (before ++ after) := by
  -- By induction on how many arguments in front are still missing.
  induction hmissing : lineup.front.length - before.length generalizing before with
  | zero => exact ⟨[], by rw [List.append_nil]; lia, by rwa [List.append_nil]⟩
  | succ missing ih =>
    have hlt : before.length < lineup.front.length := by lia
    obtain ⟨id, hid⟩ := hdeclared _ (List.mem_append_left _ (List.getElem_mem hlt))
    have hsymbol := symbolAt?_of_front (List.getElem?_eq_getElem hlt) hid
    obtain ⟨after, hafter⟩ := ih (admits_concat_iff.mpr ⟨h, hsymbol⟩)
      (by rw [List.length_append, List.length_singleton]; lia)
    exact ⟨_ :: after, by simpa using hafter⟩

/-- The iteration of one symbol. -/
theorem mem_kstar_singleton_iff :
    symbols ∈ ({[symbol]} : Language Symbol)∗ ↔ ∀ other ∈ symbols, other = symbol := by
  rw [Language.mem_kstar]
  constructor
  · rintro ⟨words, rfl, hwords⟩ other hother
    obtain ⟨word, hword, hother⟩ := List.mem_flatten.mp hother
    rw [hwords word hword] at hother
    exact List.mem_singleton.mp hother
  · intro h
    refine ⟨symbols.map fun other => [other], ?_, ?_⟩
    · rw [← List.flatMap_def, List.flatMap_singleton']
    · intro word hword
      obtain ⟨other, hother, rfl⟩ := List.mem_map.mp hword
      rw [h other hother]
      rfl

/-- All places of the argument at the end have one symbol. -/
theorem admits_rest_iff (name : String)
    (hid : (args.idOf? name).map (⟨.freeForm ·, name⟩) = some symbol) :
    Admits ⟨[], some name⟩ args symbols ↔ ∀ other ∈ symbols, other = symbol := by
  have hsymbolAt (place : Nat) : symbolAt? ⟨[], some name⟩ args place = some symbol := hid
  constructor
  · intro h other hother
    obtain ⟨place, hplace, rfl⟩ := List.mem_iff_getElem.mp hother
    have hat := h place hplace
    rw [hsymbolAt, List.getElem?_eq_getElem hplace] at hat
    exact (Option.some.inj hat).symm
  · intro h place hplace
    rw [hsymbolAt, List.getElem?_eq_getElem hplace, h _ (List.getElem_mem hplace)]

theorem spellsAll_finish_iff :
    Rule.SpellsAll args [.finish position span] symbols ↔ symbols = [] := by
  rw [Rule.spellsAll_cons_iff]
  constructor
  · rintro ⟨first, rest, rfl, hfirst, hrest⟩
    rw [(Rule.spells_finish_iff rfl).mp hfirst, Rule.spellsAll_nil_iff.mp hrest]
    rfl
  · rintro rfl
    exact ⟨[], [], rfl, .finish rfl, .nil⟩

/-- One round of a group with one word. -/
theorem roundLanguage_singleton (h : rule.symbol? args = some symbol) :
    Rule.roundLanguage args [rule] = {[symbol]} := by
  ext word
  constructor
  · rintro ⟨alternative, hmem, hspells⟩
    cases List.mem_singleton.mp hmem
    obtain ⟨first, rest, rfl, hfirst, hrest⟩ := Rule.spellsAll_cons_iff.mp hspells
    rw [(Rule.spells_iff_of_symbol? h).mp hfirst, Rule.spellsAll_nil_iff.mp hrest]
    rfl
  · rintro rfl
    exact ⟨[rule], List.mem_singleton_self _, .cons ((Rule.spells_iff_of_symbol? h).mpr rfl) .nil⟩

theorem exists_symbol?_required (position : Nat) (span : Span)
    (h : ∃ id, args.idOf? name = some id) :
    ∃ id, (Rule.leaf .required position name span).symbol? args = some ⟨.argument id, name⟩ :=
  h.imp fun id hid => Option.map_eq_some_iff.mpr ⟨id, hid, rfl⟩

theorem exists_symbol?_freeForm (position : Nat) (span : Span)
    (h : ∃ id, args.idOf? name = some id) :
    ∃ id, (Rule.leaf .freeForm position name span).symbol? args = some ⟨.freeForm id, name⟩ :=
  h.imp fun id hid => Option.map_eq_some_iff.mpr ⟨id, hid, rfl⟩

/-- A sentence of the rules has a symbol for each argument in front and for every further place. -/
theorem Rules.spellsAll_iff (h : lineup.Rules rules)
    (hdeclared : ∀ name ∈ lineup.names, ∃ id, args.idOf? name = some id) :
    Rule.SpellsAll args rules symbols ↔
      lineup.front.length ≤ symbols.length ∧ lineup.Admits args symbols := by
  induction h generalizing symbols with
  | finish =>
    rw [spellsAll_finish_iff]
    cases symbols with
    | nil => exact iff_of_true rfl ⟨Nat.le_refl _, admits_nil⟩
    | cons symbol symbols =>
      refine iff_of_false (List.cons_ne_nil _ _) ?_
      rintro ⟨-, h⟩
      cases h 0 (Nat.succ_pos _)
  | @rest position inner last name span innerSpan lastSpan =>
    obtain ⟨id, hsymbol⟩ := exists_symbol?_freeForm inner innerSpan
      (hdeclared name List.mem_cons_self)
    -- The group is read in rounds of one symbol, so it takes that symbol any number of times.
    have hgroup (word : List Symbol) : Rule.Spells args (.nest (.group .freeForm) position
        [.leaf .freeForm inner name innerSpan] span) word ↔
          Admits ⟨[], some name⟩ args word := by
      rw [admits_rest_iff name hsymbol, ← mem_kstar_singleton_iff,
        ← roundLanguage_singleton hsymbol, ← Rule.mem_language, Rule.language_group]
      rfl
    rw [Rule.spellsAll_cons_iff]
    simp only [spellsAll_finish_iff, hgroup]
    constructor
    · rintro ⟨first, _, rfl, hfirst, rfl⟩
      rw [List.append_nil]
      exact ⟨Nat.zero_le _, hfirst⟩
    · rintro ⟨-, h⟩
      exact ⟨symbols, [], (List.append_nil _).symm, h, rfl⟩
  | @next position name span front rest? rules h ih =>
    obtain ⟨id, hsymbol⟩ := exists_symbol?_required position span
      (hdeclared name List.mem_cons_self)
    have hrest {symbols : List Symbol} : Rule.SpellsAll args rules symbols ↔
        front.length ≤ symbols.length ∧ Admits ⟨front, rest?⟩ args symbols :=
      ih fun name hname => hdeclared name (List.mem_cons_of_mem _ hname)
    rw [Rule.spellsAll_cons_iff]
    simp only [Rule.spells_iff_of_symbol? hsymbol, hrest]
    constructor
    · rintro ⟨_, rest, rfl, rfl, hlength, hadmits⟩
      exact ⟨Nat.succ_le_succ hlength, admits_cons_iff.mpr ⟨hsymbol, hadmits⟩⟩
    · rintro ⟨hlength, hadmits⟩
      obtain ⟨symbol, symbols, rfl⟩ :=
        List.exists_cons_of_length_pos (Nat.lt_of_lt_of_le (Nat.succ_pos _) hlength)
      obtain ⟨hfirst, hrest⟩ := admits_cons_iff.mp hadmits
      cases hsymbol.symm.trans hfirst
      exact ⟨[_], symbols, rfl, rfl, Nat.le_of_succ_le_succ hlength, hrest⟩

/-- The rules call for one node for each argument. -/
theorem Rules.labels_spoken (h : lineup.Rules rules)
    (hdeclared : ∀ name ∈ lineup.names, ∃ id, args.idOf? name = some id) :
    ((Rule.subrulesAll rules).flatMap (Rule.spoken args)).map Symbol.label = lineup.names := by
  induction h with
  | finish => rfl
  | @rest position inner last name span innerSpan lastSpan =>
    obtain ⟨id, hsymbol⟩ := exists_symbol?_freeForm inner innerSpan
      (hdeclared name List.mem_cons_self)
    simp only [Rule.subrulesAll, Rule.subrules, Rule.finish, List.cons_append, List.nil_append,
      List.append_nil, List.flatMap_cons, Rule.spoken_of_symbol? hsymbol]
    rfl
  | @next position name span front rest? rules h ih =>
    obtain ⟨id, hsymbol⟩ := exists_symbol?_required position span
      (hdeclared name List.mem_cons_self)
    have hrest := ih fun name hname => hdeclared name (List.mem_cons_of_mem _ hname)
    simp only [Rule.subrulesAll, Rule.subrules, List.cons_append, List.nil_append,
      List.flatMap_cons, Rule.spoken_of_symbol? hsymbol, List.map_cons, hrest]
    rfl

end Lineup

end CommandShell
