import CommandShell.Grammar.Parser
import CommandShell.Proofs.Grammar.Clause
import CommandShell.Proofs.Outcome

/-!
# Brackets

While a bracket is open, its items say the alternatives read so far. Once its operator is known they
are arranged as rules, which are the rules of those alternatives, unless one of them is empty.

## Main definitions

* `Clause.Admitted` — the clause may stand inside of that many brackets
* `Grammar.Item.Says`, `Grammar.Collects` — the clause of an item, and the alternatives of items
* `Grammar.Place.within`, `Grammar.grouped` — the place in brackets, and the progress after a group
* `Grammar.Step` — what the parser does when it gets past a lexeme

## Main results

* `Clause.admitted_group_iff` — when a group may stand inside of brackets
* `Grammar.exists_arrange` — items are arranged as the rules of their alternatives
* `Grammar.step_opening_iff`, `Grammar.step_operator` — how a group begins and ends
* `Grammar.exists_step_item` — how any other item is read
* `Grammar.step_eq_ok_iff` — the parser gets past a lexeme in one of four ways
-/

namespace CommandShell

namespace Clause

variable {op : GroupOp} {alternatives : List (List Clause)} {limit level : Nat}

/-- The clause may stand where `level` brackets are open: its groups are sound, and brackets nest no
deeper than `limit` in it, where a limit of 0 is none. -/
def Admitted (limit level : Nat) (clause : Clause) : Prop :=
  clause.IsSound ∧ (limit = 0 ∨ clause.depth + level ≤ limit)

/-- A word or a constant may stand inside of all brackets that are open. -/
theorem admitted_of_not_isGroup {clause : Clause} (hgroup : clause.isGroup = false)
    (hlevel : limit = 0 ∨ level ≤ limit) : clause.Admitted limit level := by
  cases clause with
  | group op alternatives => cases hgroup
  | _ =>
    rw [Admitted, IsSound, depth, Nat.zero_add]
    exact ⟨trivial, hlevel⟩

/-- A group may stand where one more bracket may be opened, and its clauses may stand inside. -/
theorem admitted_group_iff :
    (group op alternatives).Admitted limit level ↔
      (limit = 0 ∨ level + 1 ≤ limit) ∧ alternatives ≠ [] ∧
        ∀ alternative ∈ alternatives,
          alternative ≠ [] ∧ ∀ clause ∈ alternative, clause.Admitted limit (level + 1) := by
  have hdepth : (limit = 0 ∨ (group op alternatives).depth + level ≤ limit) ↔
      (limit = 0 ∨ level + 1 ≤ limit) ∧
        ∀ alternative ∈ alternatives, ∀ clause ∈ alternative,
          limit = 0 ∨ clause.depth + (level + 1) ≤ limit := by
    by_cases hlimit : limit = 0
    · simp [hlimit]
    · simp only [hlimit, false_or]
      rw [depth]
      constructor
      · intro h
        refine ⟨by omega, fun alternative halternative clause hclause => ?_⟩
        have : clause.depth ≤ depthOfAlternatives alternatives :=
          depthOfAlternatives_le_iff.mp (Nat.le_refl _) alternative halternative clause hclause
        omega
      · rintro ⟨hlevel, h⟩
        have : depthOfAlternatives alternatives ≤ limit - (level + 1) :=
          depthOfAlternatives_le_iff.mpr fun alternative halternative clause hclause => by
            have := h alternative halternative clause hclause
            omega
        omega
  rw [Admitted, hdepth, IsSound, areSoundAlternatives_iff]
  constructor
  · rintro ⟨⟨hne, hsound⟩, hlevel, hfits⟩
    exact ⟨hlevel, hne, fun alternative halternative => ⟨(hsound alternative halternative).1,
      fun clause hclause => ⟨(hsound alternative halternative).2 clause hclause,
        hfits alternative halternative clause hclause⟩⟩⟩
  · rintro ⟨hlevel, hne, h⟩
    exact ⟨⟨hne, fun alternative halternative => ⟨(h alternative halternative).1,
      fun clause hclause => ((h alternative halternative).2 clause hclause).1⟩⟩, hlevel,
      fun alternative halternative clause hclause =>
        ((h alternative halternative).2 clause hclause).2⟩

end Clause

namespace Grammar

variable {limit : Nat} {op : GroupOp} {item : Item} {items : List Item} {clause : Clause}
  {finished : List (List Clause)} {current : List Clause} {rules inner : List Rule}
  {frame : Frame} {outer frames : List Frame} {kinds : List Lexeme.Kind} {lexeme : Lexeme}
  {lexemes : List Lexeme} {progress progress' : Progress}

/-! ### What the items of a bracket say -/

/-- The item of a bracket says the clause. -/
inductive Item.Says : Item → Clause → Prop
  | word (name : String) (span : Span) : Says (.word name span) (.word name)
  | constant (name : String) (span : Span) : Says (.constant name span) (.constant name)
  | group (op : GroupOp) (span : Span) {rules : List Rule} {alternatives : List (List Clause)}
    (h : Rule.unplacedAll rules = Clause.rulesOfAlternatives op.memberKind alternatives) :
    Says (.group op rules span) (.group op alternatives)

/-- The items of a bracket, last first, say these alternatives: the finished ones, each of which a
bar ends, and the current one. -/
inductive Collects : List Item → List (List Clause) → List Clause → Prop
  | empty : Collects [] [] []
  | item {items : List Item} {finished : List (List Clause)} {current : List Clause} {item : Item}
    {clause : Clause} (h : Collects items finished current) (hitem : item.Says clause) :
    Collects (item :: items) finished (current ++ [clause])
  | bar {items : List Item} {finished : List (List Clause)} {current : List Clause} (span : Span)
    (h : Collects items finished current) :
    Collects (.bar span :: items) (finished ++ [current]) []

/-- An item is arranged as the rule of its clause, in front of the rules after it. -/
theorem exists_arrange_cons (h : item.Says clause) (op : GroupOp) (position : Nat) :
    ∃ rule : Rule, rule.unplaced = clause.rule op.memberKind position ∧
      ∀ separator items, arrange op position separator (item :: items) =
        (arrange op (position + 1) separator items).map (rule :: ·) := by
  cases h with
  | word name span => exact ⟨_, by rw [Clause.rule]; rfl, fun _ _ => rfl⟩
  | constant name span => exact ⟨_, by rw [Clause.rule]; rfl, fun _ _ => rfl⟩
  | @group inner span rules alternatives h =>
    exact ⟨_, by rw [Clause.rule, ← h]; rfl, fun _ _ => rfl⟩

/-- Items are arranged as the rules of their alternatives, in front of the rules after them, unless
a finished alternative is empty. -/
theorem exists_arrange_append (h : Collects items finished current) (op : GroupOp)
    (separator : Span) :
    ∃ rules last,
      Rule.unplacedAll rules =
        Clause.rulesOfAlternatives op.memberKind (finished ++ [current]) ∧
      ∀ rest all, arrange op 0 separator (items.reverse ++ rest) = .ok all ↔
        (∀ alternative ∈ finished, alternative ≠ []) ∧
          ∃ more, arrange op current.length last rest = .ok more ∧ all = rules ++ more := by
  induction h with
  | empty => exact ⟨[], separator, rfl, by simp⟩
  | @item items finished current item clause h hitem ih =>
    obtain ⟨rules, last, hrules, harrange⟩ := ih
    obtain ⟨rule, hrule, hcons⟩ := exists_arrange_cons hitem op current.length
    refine ⟨rules ++ [rule], last, ?_, fun rest all => ?_⟩
    · rw [Clause.rulesOfAlternatives_append_singleton] at hrules ⊢
      rw [Clause.rulesFrom_append, ← List.append_assoc, ← hrules]
      simp [Rule.unplacedAll_eq_map, hrule, Clause.rulesFrom]
    · rw [List.reverse_cons, List.append_assoc, List.singleton_append, harrange, hcons,
        List.length_append, List.length_singleton]
      refine and_congr_right fun _ => ⟨?_, ?_⟩
      · rintro ⟨more, hmore, rfl⟩
        obtain ⟨tail, htail, rfl⟩ := map_eq_ok_iff.mp hmore
        exact ⟨tail, htail, by simp⟩
      · rintro ⟨tail, htail, rfl⟩
        exact ⟨rule :: tail, map_eq_ok_iff.mpr ⟨tail, htail, rfl⟩, by simp⟩
  | @bar items finished current span h ih =>
    obtain ⟨rules, last, hrules, harrange⟩ := ih
    refine ⟨rules, span, ?_, fun rest all => ?_⟩
    · rw [Clause.rulesOfAlternatives_append_singleton, hrules]
      simp [Clause.rulesFrom]
    · rw [List.reverse_cons, List.append_assoc, List.singleton_append, harrange, arrange,
        List.forall_mem_append, List.forall_mem_singleton, and_assoc]
      refine and_congr_right fun _ => ?_
      by_cases hcurrent : current = [] <;> simp [hcurrent]

/-- Items are arranged as the rules of their alternatives, unless one of those is empty. -/
theorem exists_arrange (h : Collects items finished current) (op : GroupOp) (separator : Span) :
    ∃ rules,
      Rule.unplacedAll rules =
        Clause.rulesOfAlternatives op.memberKind (finished ++ [current]) ∧
      ∀ all, arrange op 0 separator items.reverse = .ok all ↔
        (∀ alternative ∈ finished ++ [current], alternative ≠ []) ∧ all = rules := by
  obtain ⟨rules, last, hrules, harrange⟩ := exists_arrange_append h op separator
  refine ⟨rules, hrules, fun all => ?_⟩
  have hall := harrange [] all
  rw [List.append_nil, arrange] at hall
  rw [hall, List.forall_mem_append, List.forall_mem_singleton, and_assoc]
  refine and_congr_right fun _ => ?_
  by_cases hcurrent : current = [] <;> simp [hcurrent]

/-! ### Single lexemes -/

/-- The place inside of these brackets, innermost first. -/
def Place.within : List Frame → Place
  | [] => .outside
  | frame :: outer => .inside frame outer

/-- The progress when a group has been read inside of the brackets `outer`. -/
def grouped (rules : List Rule) (op : GroupOp) (inner : List Rule) (whole : Span) :
    List Frame → Progress
  | [] => ⟨.nest (.group op) rules.length inner whole :: rules, .outside⟩
  | parent :: outer => ⟨rules, .inside (parent.add (.group op inner whole)) outer⟩

theorem Place.within_or_closed (place : Place) :
    (∃ frames, place = .within frames) ∨
      ∃ frame outer closing, place = .closed frame outer closing := by
  cases place with
  | outside => exact .inl ⟨[], rfl⟩
  | inside frame outer => exact .inl ⟨frame :: outer, rfl⟩
  | closed frame outer closing => exact .inr ⟨frame, outer, closing, rfl⟩

theorem step_within (hkind : lexeme.kind = .opening) (limit : Nat) (rules : List Rule)
    (frames : List Frame) :
    step limit ⟨rules, .within frames⟩ lexeme =
      (openBracket limit frames lexeme.span).map fun place => ⟨rules, place⟩ := by
  cases frames <;> simp only [step, Place.within, hkind]

theorem step_opening (hkind : lexeme.kind = .opening) :
    step limit ⟨rules, .within frames⟩ lexeme = .ok progress ↔
      (limit = 0 ∨ frames.length + 1 ≤ limit) ∧
        progress = ⟨rules, .inside ⟨lexeme.span, []⟩ frames⟩ := by
  rw [step_within hkind, openBracket]
  split <;> rename_i hlimit
  · exact iff_of_false (fun h => by cases h) fun h => by omega
  · rw [eq_comm (a := progress)]
    refine ⟨fun h => ⟨by omega, Except.ok.inj h⟩, fun h => congrArg _ h.2⟩

/-- A bracket opens inside of those that are open, if the limit leaves room for it. -/
theorem step_opening_iff (hkind : lexeme.kind = .opening) :
    step limit progress lexeme = .ok progress' ↔
      ∃ frames, progress.place = .within frames ∧ (limit = 0 ∨ frames.length + 1 ≤ limit) ∧
        progress' = ⟨progress.rules, .inside ⟨lexeme.span, []⟩ frames⟩ := by
  obtain ⟨rules, place⟩ := progress
  constructor
  · intro h
    rcases place.within_or_closed with ⟨frames, rfl⟩ | ⟨frame, outer, closing, rfl⟩
    · exact ⟨frames, rfl, (step_opening hkind).mp h⟩
    · simp only [step, hkind] at h
      cases h
  · rintro ⟨frames, rfl, h⟩
    exact (step_opening hkind).mpr h

/-- A lexeme that is a clause by itself is the item of that clause. -/
theorem exists_step_item (hgroup : clause.isGroup = false)
    (hkind : clause.lexemes = [lexeme.kind]) :
    ∃ item : Item, item.Says clause ∧ ∀ limit rules frame outer,
      step limit ⟨rules, .inside frame outer⟩ lexeme =
        .ok ⟨rules, .inside (frame.add item) outer⟩ := by
  cases clause with
  | group op alternatives => cases hgroup
  | word name =>
    rw [Clause.lexemes, List.singleton_inj] at hkind
    exact ⟨_, .word name lexeme.span, fun _ _ _ _ => by simp only [step, ← hkind]⟩
  | constant name =>
    rw [Clause.lexemes, List.singleton_inj] at hkind
    exact ⟨_, .constant name lexeme.span, fun _ _ _ _ => by simp only [step, ← hkind]⟩

theorem step_operator (hkind : lexeme.kind = .operator op) (closing : Span) :
    step limit ⟨rules, .closed frame outer closing⟩ lexeme =
      (arrange op 0 frame.opened frame.items.reverse).map fun inner =>
        grouped rules op inner (frame.opened.join lexeme.span) outer := by
  cases outer <;> simp only [step, hkind, grouped]

/-- The lexeme is an item of a bracket by itself. -/
inductive Item.WrittenAs : Item → Lexeme → Prop
  | word (name : String) (span : Span) : WrittenAs (.word name span) ⟨.word name, span⟩
  | constant (name : String) (span : Span) :
    WrittenAs (.constant name span) ⟨.constant name, span⟩
  | bar (span : Span) : WrittenAs (.bar span) ⟨.bar, span⟩

/-- The parser gets past a lexeme, from the one progress to the other. -/
inductive Step (limit : Nat) : Progress → Lexeme → Progress → Prop
  /-- A bracket opens where the limit leaves room for it. -/
  | opening (rules : List Rule) {frames : List Frame} (span : Span)
    (hroom : limit = 0 ∨ frames.length + 1 ≤ limit) :
    Step limit ⟨rules, .within frames⟩ ⟨.opening, span⟩ ⟨rules, .inside ⟨span, []⟩ frames⟩
  /-- The innermost bracket gets one more item. -/
  | item (rules : List Rule) (frame : Frame) (outer : List Frame) {item : Item} {lexeme : Lexeme}
    (hitem : item.WrittenAs lexeme) :
    Step limit ⟨rules, .inside frame outer⟩ lexeme ⟨rules, .inside (frame.add item) outer⟩
  /-- The innermost bracket comes to its second half. -/
  | closing (rules : List Rule) (frame : Frame) (outer : List Frame) (span : Span) :
    Step limit ⟨rules, .inside frame outer⟩ ⟨.closing, span⟩ ⟨rules, .closed frame outer span⟩
  /-- The operator makes a group of the innermost bracket. -/
  | operator (rules : List Rule) (frame : Frame) (outer : List Frame) (closing span : Span)
    {op : GroupOp} {inner : List Rule}
    (harrange : arrange op 0 frame.opened frame.items.reverse = .ok inner) :
    Step limit ⟨rules, .closed frame outer closing⟩ ⟨.operator op, span⟩
      (grouped rules op inner (frame.opened.join span) outer)

/-- There is no other way to get past a lexeme. -/
theorem step_eq_ok_iff :
    step limit progress lexeme = .ok progress' ↔ Step limit progress lexeme progress' := by
  constructor
  · intro h
    obtain ⟨kind, span⟩ := lexeme
    by_cases hopening : kind = .opening
    · subst hopening
      obtain ⟨frames, hplace, hroom, rfl⟩ := (step_opening_iff rfl).mp h
      obtain ⟨rules, place⟩ := progress
      dsimp only at hplace
      subst hplace
      exact .opening rules span hroom
    · obtain ⟨rules, place⟩ := progress
      cases place with
      | outside =>
        cases kind with
        | opening => exact absurd rfl hopening
        | _ => cases h
      | inside frame outer =>
        cases kind with
        | opening => exact absurd rfl hopening
        | operator op => cases h
        | closing =>
          cases h
          exact .closing rules frame outer span
        | word name =>
          cases h
          exact .item rules frame outer (.word name span)
        | constant name =>
          cases h
          exact .item rules frame outer (.constant name span)
        | bar =>
          cases h
          exact .item rules frame outer (.bar span)
      | closed frame outer closing =>
        cases kind with
        | operator op =>
          rw [step_operator rfl] at h
          obtain ⟨inner, harrange, rfl⟩ := map_eq_ok_iff.mp h
          exact .operator rules frame outer closing span harrange
        | _ => cases h
  · intro h
    cases h with
    | opening rules span hroom => exact (step_opening rfl).mpr ⟨hroom, rfl⟩
    | item rules frame outer hitem => cases hitem <;> rfl
    | closing rules frame outer span => rfl
    | operator rules frame outer closing span harrange =>
      rw [step_operator rfl]
      exact map_eq_ok_iff.mpr ⟨_, harrange, rfl⟩

/-- There is one rule for each clause that has been read. -/
theorem length_eq_of_unplacedAll {clauses : List Clause}
    (h : Rule.unplacedAll rules.reverse = Clause.rulesFrom .required 0 clauses) :
    rules.length = clauses.length := by
  have hlength := congrArg List.length h
  rwa [Rule.unplacedAll_eq_map, List.length_map, List.length_reverse,
    Clause.length_rulesFrom] at hlength

/-- A group that is read outside of all brackets is the next rule. -/
theorem unplacedAll_grouped {clauses : List Clause} {alternatives : List (List Clause)}
    (hrules : Rule.unplacedAll rules.reverse = Clause.rulesFrom .required 0 clauses)
    (hinner : Rule.unplacedAll inner = Clause.rulesOfAlternatives op.memberKind alternatives)
    (whole : Span) :
    Rule.unplacedAll (Rule.nest (.group op) rules.length inner whole :: rules).reverse =
      Clause.rulesFrom .required 0 (clauses ++ [.group op alternatives]) := by
  have hlength := length_eq_of_unplacedAll hrules
  rw [List.reverse_cons, Rule.unplacedAll_eq_map, List.map_append, ← Rule.unplacedAll_eq_map,
    hrules, Clause.rulesFrom_append, hlength, Nat.zero_add, List.map_singleton, Rule.unplaced,
    hinner, Clause.rulesFrom, Clause.rule]
  rfl

end Grammar

end CommandShell
