import CommandShell.Proofs.Rule.Nesting
import CommandShell.Text.Name
import CommandShell.Tree.Language
import Mathlib.Computability.Language
import Mathlib.Order.CompletePartialOrder

/-!
# What rules spell

The sequences of symbols that a rule spells form a language. Rules that take one token spell one
symbol, a flag spells two, and groups combine the languages of their alternatives by the operations
that their operators stand for: union, iteration, and leaving out.

## Main definitions

* `Symbol.IsFlag`, `Symbol.IsAddressable` — the symbol of a flag, and one that a token can say
* `Rule.symbol?` — the symbol of a rule that takes one token
* `Rule.language`, `Rule.languageAll`, `Rule.roundLanguage` — what a rule, a rule list and one round
  of a group spell
* `GroupOp.iterate` — what a group makes of the language of one round

## Main results

* `Rule.spells_iff_of_symbol?`, `Rule.spells_named_iff` — what a rule that is no group spells
* `Rule.exists_named_of_spells` — the flags that a rule spells are the names of rules in it
* `Rule.exists_lookupName_of_spells` — symbols refer to the arguments that rules name
* `Rule.language_group` — a group spells what its operator makes of one round
-/

namespace CommandShell

open scoped Computability

/-- What a group makes of the language of one round. -/
def GroupOp.iterate (op : GroupOp) (round : Language Symbol) : Language Symbol :=
  match op with
  | .zeroOrOne => 1 + round
  | .zeroOrMore | .freeForm => round∗
  | .oneOrMore => round * round∗
  | .exactlyOneOf => round

/-- The symbol is that of a flag. -/
def Symbol.IsFlag (symbol : Symbol) : Prop := ∃ id, symbol.kind = .flag id

/-- The symbol can be said by a token: the name of a flag has to be an identifier. -/
def Symbol.IsAddressable (symbol : Symbol) : Prop :=
  symbol.IsFlag → Text.isIdentifier symbol.label.toList = true

/-- Only flags are addressed by their names. -/
theorem Symbol.isAddressable_of_not_isFlag {symbol : Symbol} (h : ¬ symbol.IsFlag) :
    symbol.IsAddressable := fun hflag => absurd hflag h

namespace Rule

variable {args : ArgumentSet} {rule : Rule} {rules : List Rule} {symbol : Symbol}
  {symbols first rest : List Symbol} {op : GroupOp} {position : Nat} {span : Span} {id : ArgId}

/-! ### Rules that take one or two tokens -/

/-- The symbol of a rule that takes one token. -/
def symbol? (args : ArgumentSet) (rule : Rule) : Option Symbol :=
  match rule.kind with
  | .required => (args.idOf? rule.lookupName).map (⟨.argument ·, rule.lookupName⟩)
  | .freeForm => (args.idOf? rule.lookupName).map (⟨.freeForm ·, rule.lookupName⟩)
  | .constant =>
    some ⟨.constant rule.lookupName (args.idOf? rule.lookupName), rule.lookupName⟩
  | .named | .group _ | .finish => none

/-- Such a rule takes a token. -/
theorem isBrowsable_of_symbol? (h : rule.symbol? args = some symbol) :
    symbol.kind.isBrowsable = true := by
  unfold symbol? at h
  split at h
  · obtain ⟨id, -, rfl⟩ := Option.map_eq_some_iff.mp h
    rfl
  · obtain ⟨id, -, rfl⟩ := Option.map_eq_some_iff.mp h
    rfl
  · cases h
    rfl
  all_goals contradiction

theorem spells_finish_iff (h : rule.kind = .finish) : Spells args rule symbols ↔ symbols = [] := by
  constructor
  · intro hs
    cases hs <;> simp_all [kind]
  · intro heq
    subst heq
    exact .finish h

theorem spells_iff_of_symbol? (h : rule.symbol? args = some symbol) :
    Spells args rule symbols ↔ symbols = [symbol] := by
  unfold symbol? at h
  constructor
  · intro hs
    cases hs <;> simp_all [kind]
  · intro heq
    subst heq
    split at h
    · obtain ⟨id, hid, rfl⟩ := Option.map_eq_some_iff.mp h
      exact .required ‹_› hid
    · obtain ⟨id, hid, rfl⟩ := Option.map_eq_some_iff.mp h
      exact .freeForm ‹_› hid
    · cases h
      exact .constant ‹_›
    all_goals contradiction

theorem spells_named_iff (h : rule.kind = .named) (hid : args.idOf? rule.lookupName = some id) :
    Spells args rule symbols ↔
      symbols = [⟨.flag id, rule.lookupName⟩, ⟨.freeForm id, rule.lookupName⟩] := by
  constructor
  · intro hs
    cases hs <;> simp_all [kind]
  · intro heq
    subst heq
    exact .named h hid

/-! ### Groups -/

/-- What a rule spells. -/
def language (args : ArgumentSet) (rule : Rule) : Language Symbol := {w | Spells args rule w}

/-- What a rule list spells. -/
def languageAll (args : ArgumentSet) (rules : List Rule) : Language Symbol :=
  {w | SpellsAll args rules w}

/-- What one round of a group with these rules spells. -/
def roundLanguage (args : ArgumentSet) (rules : List Rule) : Language Symbol :=
  {w | ∃ alternative ∈ alternatives rules, SpellsAll args alternative w}

theorem mem_language : symbols ∈ language args rule ↔ Spells args rule symbols := .rfl

theorem mem_languageAll : symbols ∈ languageAll args rules ↔ SpellsAll args rules symbols := .rfl

theorem languageAll_nil : languageAll args [] = 1 := by
  ext w
  rw [mem_languageAll, spellsAll_nil_iff, Language.mem_one]

theorem languageAll_cons :
    languageAll args (rule :: rules) = language args rule * languageAll args rules := by
  ext w
  rw [mem_languageAll, spellsAll_cons_iff, Language.mem_mul]
  constructor
  · rintro ⟨first, rest, rfl, hfirst, hrest⟩
    exact ⟨first, hfirst, rest, hrest, rfl⟩
  · rintro ⟨first, hfirst, rest, hrest, rfl⟩
    exact ⟨first, rest, rfl, hfirst, hrest⟩

/-- Induction on the rounds of a group. -/
theorem spells_group_induction {motive : List Symbol → Prop}
    (skip : op.isOptional = true → motive [])
    (once : ∀ symbols ∈ roundLanguage args rules, motive symbols)
    (again : op.isRepeatable = true → ∀ first ∈ roundLanguage args rules, ∀ rest, motive rest →
      motive (first ++ rest)) :
    ∀ {rule symbols}, Spells args rule symbols → rule = .nest (.group op) position rules span →
      motive symbols
  -- What a rule and a rule list spell is defined at once, which rules out `induction`.
  | _, _, .skip hop, rfl => skip hop
  | _, _, .once hmem h, rfl => once _ ⟨_, hmem, h⟩
  | _, _, .again hop hmem h rest, rfl =>
    again hop _ ⟨_, hmem, h⟩ _ (spells_group_induction skip once again rest rfl)
  | _, _, .finish h, heq => by simp [heq, kind] at h
  | _, _, .required h _, heq => by simp [heq, kind] at h
  | _, _, .freeForm h _, heq => by simp [heq, kind] at h
  | _, _, .named h _, heq => by simp [heq, kind] at h
  | _, _, .constant h, heq => by simp [heq, kind] at h

theorem one_le_language (hop : op.isOptional = true) :
    1 ≤ language args (.nest (.group op) position rules span) := by
  rintro w rfl
  exact .skip hop

theorem roundLanguage_le :
    roundLanguage args rules ≤ language args (.nest (.group op) position rules span) := by
  rintro w ⟨alternative, hmem, h⟩
  exact .once hmem h

theorem roundLanguage_mul_le (hop : op.isRepeatable = true) :
    roundLanguage args rules * language args (.nest (.group op) position rules span) ≤
      language args (.nest (.group op) position rules span) := by
  rintro _ ⟨first, ⟨alternative, hmem, h⟩, rest, hrest, rfl⟩
  exact .again hop hmem h hrest

/-- A round is followed by what comes after the group or, if it repeats, by the group again. -/
theorem roundLanguage_mul_after_le (after : Language Symbol) :
    roundLanguage args rules * (if op.isRepeatable then
        after + language args (.nest (.group op) position rules span) * after else after) ≤
      language args (.nest (.group op) position rules span) * after := by
  have honce : roundLanguage args rules * after ≤
      language args (.nest (.group op) position rules span) * after :=
    mul_le_mul_left roundLanguage_le after
  split
  · rename_i hop
    rw [mul_add, ← mul_assoc]
    exact sup_le honce (mul_le_mul_left (roundLanguage_mul_le hop) after)
  · exact honce

/-- A group spells what its operator makes of one round. -/
theorem language_group : language args (.nest (.group op) position rules span) =
    op.iterate (roundLanguage args rules) := by
  apply le_antisymm
  -- By induction on the rounds. The other half are the laws of the star.
  · have hround_le : roundLanguage args rules ≤ (roundLanguage args rules)∗ := le_kstar
    have hmul_le : roundLanguage args rules * (roundLanguage args rules)∗ ≤
        (roundLanguage args rules)∗ := mul_kstar_le_kstar
    intro w h
    refine spells_group_induction ?skip ?once ?again (mem_language.mp h) rfl
    case skip =>
      intro hop
      cases op with
      | zeroOrOne => exact .inl rfl
      | zeroOrMore | freeForm => exact Language.nil_mem_kstar _
      | oneOrMore | exactlyOneOf => simp [GroupOp.isOptional] at hop
    case once =>
      intro round hround
      cases op with
      | zeroOrOne => exact .inr hround
      | zeroOrMore | freeForm => exact hround_le hround
      | oneOrMore => exact ⟨_, hround, [], Language.nil_mem_kstar _, List.append_nil _⟩
      | exactlyOneOf => exact hround
    case again =>
      intro hop round hround rest ih
      cases op with
      | zeroOrMore | freeForm => exact hmul_le ⟨_, hround, _, ih, rfl⟩
      | oneOrMore => exact ⟨_, hround, _, hmul_le ih, rfl⟩
      | zeroOrOne | exactlyOneOf => simp [GroupOp.isRepeatable] at hop
  · cases op with
    | zeroOrOne => exact sup_le (one_le_language rfl) roundLanguage_le
    | zeroOrMore | freeForm =>
      exact kstar_le_of_mul_le_right (one_le_language rfl) (roundLanguage_mul_le rfl)
    | oneOrMore =>
      rw [GroupOp.iterate, ← Language.mul_self_kstar_comm]
      exact kstar_mul_le roundLanguage_le (roundLanguage_mul_le rfl)
    | exactlyOneOf => exact roundLanguage_le

/-! ### Flags -/

theorem exists_spells_of_mem (h : SpellsAll args rules symbols) (hmem : symbol ∈ symbols) :
    ∃ rule ∈ rules, ∃ word, Spells args rule word ∧ symbol ∈ word := by
  induction rules generalizing symbols with
  | nil =>
    obtain rfl := spellsAll_nil_iff.mp h
    exact absurd hmem List.not_mem_nil
  | cons rule rules ih =>
    obtain ⟨first, rest, rfl, hfirst, hrest⟩ := spellsAll_cons_iff.mp h
    rcases List.mem_append.mp hmem with hmem | hmem
    · exact ⟨rule, List.mem_cons_self, first, hfirst, hmem⟩
    · obtain ⟨rule', hrule', hword⟩ := ih hrest hmem
      exact ⟨rule', List.mem_cons_of_mem _ hrule', hword⟩

/-- Whatever a rule spells is spelled, symbol by symbol, by rules in it that are no groups. -/
theorem exists_single_of_spells (h : Spells args rule symbols) (hmem : symbol ∈ symbols) :
    ∃ sub ∈ subrules rule, sub.isFilledGroup = false ∧
      ∃ word, Spells args sub word ∧ symbol ∈ word := by
  induction rule using Rule.induction generalizing symbols with
  | single rule hrule => exact ⟨rule, self_mem_subrules rule, hrule, symbols, h, hmem⟩
  | group op position rules span hrules ih =>
    have hround {word : List Symbol} (hword : word ∈ roundLanguage args rules)
        (hmem : symbol ∈ word) : ∃ sub ∈ subrules (.nest (.group op) position rules span),
          sub.isFilledGroup = false ∧ ∃ word, Spells args sub word ∧ symbol ∈ word := by
      obtain ⟨alternative, halternative, hword⟩ := hword
      obtain ⟨rule, hrule, word', hword', hmem'⟩ := exists_spells_of_mem hword hmem
      obtain ⟨sub, hsub, hsingle⟩ := ih alternative halternative rule hrule hword' hmem'
      exact ⟨sub, subrules_subset_of_mem_alternatives halternative hrule hsub, hsingle⟩
    refine spells_group_induction (motive := fun symbols => symbol ∈ symbols → _) ?skip ?once
      ?again h rfl hmem
    case skip => exact fun _ hmem => absurd hmem List.not_mem_nil
    case once => exact fun word hword hmem => hround hword hmem
    case again =>
      intro _ first hfirst rest ihrest hmem
      rcases List.mem_append.mp hmem with hmem | hmem
      · exact hround hfirst hmem
      · exact ihrest hmem

/-- The flags that a rule spells are the names of rules in it. -/
theorem exists_named_of_spells (h : Spells args rule symbols) (hmem : symbol ∈ symbols)
    (hflag : symbol.IsFlag) :
    ∃ named ∈ subrules rule, named.kind = .named ∧ named.lookupName = symbol.label := by
  obtain ⟨flag, hflag⟩ := hflag
  obtain ⟨sub, hsub, hsingle, word, hword, hmem⟩ := exists_single_of_spells h hmem
  cases hword with
  | finish | skip => exact absurd hmem List.not_mem_nil
  | required | freeForm | constant =>
    obtain rfl := List.mem_singleton.mp hmem
    cases hflag
  | named hkind =>
    refine ⟨sub, hsub, hkind, ?_⟩
    rcases List.mem_cons.mp hmem with rfl | hmem
    · rfl
    · obtain rfl := List.mem_singleton.mp hmem
      rfl
  | once halternative | again _ halternative =>
    exact absurd halternative (not_mem_alternatives hsingle)

/-- The symbols that a rule spells are labelled with the names of rules in it, and refer to the
arguments of these names. -/
theorem exists_lookupName_of_spells (h : Spells args rule symbols) (hmem : symbol ∈ symbols) :
    ∃ sub ∈ subrules rule, sub.lookupName = symbol.label ∧
      ∀ id, symbol.kind.arg? = some id → args.idOf? symbol.label = some id := by
  obtain ⟨sub, hsub, hsingle, word, hword, hmem⟩ := exists_single_of_spells h hmem
  refine ⟨sub, hsub, ?_⟩
  cases hword with
  | finish | skip => exact absurd hmem List.not_mem_nil
  | required _ hid | freeForm _ hid =>
    obtain rfl := List.mem_singleton.mp hmem
    exact ⟨rfl, fun _ harg => hid.trans harg⟩
  | constant =>
    obtain rfl := List.mem_singleton.mp hmem
    exact ⟨rfl, fun _ harg => harg⟩
  | named _ hid =>
    rcases List.mem_cons.mp hmem with rfl | hmem
    · exact ⟨rfl, fun _ harg => hid.trans harg⟩
    · obtain rfl := List.mem_singleton.mp hmem
      exact ⟨rfl, fun _ harg => hid.trans harg⟩
  | once halternative | again _ halternative =>
    exact absurd halternative (not_mem_alternatives hsingle)

end Rule

end CommandShell
