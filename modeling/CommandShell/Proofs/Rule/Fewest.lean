import CommandShell.Proofs.Rule.Spelling

/-!
# The shortest sentence of a rule

How many tokens a rule takes at least. A flag is said together with its value, so only the symbols
that are no flags count. A group takes as many tokens as the shortest of its alternatives, or none
if it may be left out; a rule that no token can say has no such number.

## Main definitions

* `Symbol.tokens` — the tokens that symbols are said by, if flags are said with their values
* `Rule.fewest`, `Rule.fewestAll` — the fewest tokens of a rule and of a rule list

## Main results

* `Rule.exists_fewestAll_le` — what a rule list spells takes at least so many tokens
* `Rule.minimumArguments_le` — if no `+` group can be passed without a token, a rule list takes at
  least as many tokens as it has positional arguments and `+` groups
-/

namespace CommandShell

namespace Symbol

/-- The number of tokens that say the symbols, if every flag is said together with its value. -/
def tokens : List Symbol → Nat
  | [] => 0
  | ⟨.flag _, _⟩ :: symbols => tokens symbols
  | _ :: symbols => tokens symbols + 1

theorem tokens_append (first rest : List Symbol) :
    tokens (first ++ rest) = tokens first + tokens rest := by
  fun_induction tokens first with
  | case1 => simp
  | case2 id label symbols ih => exact ih
  | case3 symbol symbols hflag ih =>
    rw [List.cons_append, tokens, ih, Nat.add_right_comm]
    exact hflag

end Symbol

namespace Rule

/-- One count after the other. -/
def addCounts (count more : Option Nat) : Option Nat := count.bind fun m => more.map (m + ·)

/-- The least of some counts. -/
def leastCount (counts : List (Option Nat)) : Option Nat := (counts.filterMap id).min?

/-- The fewest tokens of a rule that is no group. -/
def fewestSingle (rule : Rule) : Option Nat :=
  match rule.kind with
  | .finish => some 0
  | .required | .freeForm | .constant => some 1
  -- Only an identifier can be told apart as the name of a flag.
  | .named => if Text.isIdentifier rule.lookupName.toList then some 1 else none
  | .group _ => none

mutual

/-- The fewest tokens that a rule takes. -/
def fewest : Rule → Option Nat
  | .nest (.group op) _ rules _ => if op.isOptional then some 0 else leastCount (tallies rules)
  | rule => fewestSingle rule

/-- The fewest tokens of each alternative of a rule list. -/
def tallies : List Rule → List (Option Nat)
  | [] => []
  | rule :: rest =>
    match tallies rest with
    | [] => [fewest rule]
    | first :: others =>
      if (rest.head?.map Rule.position) = some 0 then fewest rule :: first :: others
      else addCounts (fewest rule) first :: others

end

/-- The fewest tokens that the rules take, one after the other. -/
def fewestAll (rules : List Rule) : Option Nat := (rules.map fewest).foldr addCounts (some 0)

variable {args : ArgumentSet} {rule : Rule} {rules : List Rule} {symbols : List Symbol}
  {op : GroupOp} {position : Nat} {span : Span} {counts : List (Option Nat)}
  {count more : Option Nat} {m n : Nat}

/-! ### Counts -/

theorem addCounts_eq_some_iff :
    addCounts count more = some n ↔ ∃ a b, count = some a ∧ more = some b ∧ a + b = n := by
  cases count <;> cases more <;> simp [addCounts]

theorem addCounts_zero : addCounts count (some 0) = count := by
  cases count <;> simp [addCounts]

/-- The least of some counts is one of them. -/
theorem mem_of_leastCount (h : leastCount counts = some n) : some n ∈ counts := by
  have hmem := (List.min?_eq_some_iff.mp h).1
  simpa using hmem

theorem exists_leastCount_le (h : some n ∈ counts) : ∃ m ≤ n, leastCount counts = some m := by
  have hmem : n ∈ counts.filterMap id := by simpa using h
  cases hleast : leastCount counts with
  | none =>
    rw [leastCount, List.min?_eq_none_iff] at hleast
    rw [hleast] at hmem
    exact absurd hmem List.not_mem_nil
  | some m => exact ⟨m, (List.min?_eq_some_iff.mp hleast).2 n hmem, rfl⟩

/-! ### Counts of rules -/

theorem fewestAll_cons : fewestAll (rule :: rules) = addCounts (fewest rule) (fewestAll rules) := by
  rw [fewestAll, List.map_cons, List.foldr_cons, fewestAll]

theorem tallies_eq (rules : List Rule) : tallies rules = (alternatives rules).map fewestAll := by
  induction rules with
  | nil => rfl
  | cons rule rest ih =>
    rw [tallies, alternatives, ih]
    cases alternatives rest with
    | nil => simp [fewestAll, addCounts_zero]
    | cons first others =>
      simp only [List.map_cons]
      split <;> simp [fewestAll, addCounts_zero]

theorem fewest_group : fewest (.nest (.group op) position rules span) =
    if op.isOptional then some 0 else leastCount ((alternatives rules).map fewestAll) := by
  rw [fewest, tallies_eq]

theorem fewest_eq_fewestSingle (h : ∀ op, rule.kind ≠ .group op) :
    fewest rule = fewestSingle rule := by
  unfold fewest
  split
  · exact absurd rfl (h _)
  · rfl

/-! ### No sentence is shorter -/

theorem exists_fewestAll_le_of_forall
    (ih : ∀ rule ∈ rules, ∀ {symbols}, Spells args rule symbols →
      (∀ symbol ∈ symbols, symbol.IsAddressable) →
        ∃ n ≤ Symbol.tokens symbols, fewest rule = some n)
    (h : SpellsAll args rules symbols) (ha : ∀ symbol ∈ symbols, symbol.IsAddressable) :
    ∃ n ≤ Symbol.tokens symbols, fewestAll rules = some n := by
  induction rules generalizing symbols with
  | nil => exact ⟨0, Nat.zero_le _, rfl⟩
  | cons rule rules ihr =>
    obtain ⟨first, rest, rfl, hfirst, hrest⟩ := spellsAll_cons_iff.mp h
    rw [List.forall_mem_append] at ha
    obtain ⟨m, hm, hfewest⟩ := ih rule List.mem_cons_self hfirst ha.1
    obtain ⟨n, hn, hall⟩ :=
      ihr (fun rule hmem => ih rule (List.mem_cons_of_mem _ hmem)) hrest ha.2
    refine ⟨m + n, ?_, ?_⟩
    · rw [Symbol.tokens_append]
      omega
    · rw [fewestAll_cons]
      exact addCounts_eq_some_iff.mpr ⟨m, n, hfewest, hall, rfl⟩

/-- What a rule spells takes at least as many tokens as the rule. -/
theorem exists_fewest_le (h : Spells args rule symbols)
    (ha : ∀ symbol ∈ symbols, symbol.IsAddressable) :
    ∃ n ≤ Symbol.tokens symbols, fewest rule = some n := by
  induction rule using Rule.induction generalizing symbols with
  | single rule hrule =>
    cases h with
    | finish hkind =>
      rw [fewest_eq_fewestSingle (by simp [hkind]), fewestSingle, hkind]
      exact ⟨0, Nat.zero_le _, rfl⟩
    | required hkind | freeForm hkind | constant hkind =>
      rw [fewest_eq_fewestSingle (by simp [hkind]), fewestSingle, hkind]
      exact ⟨1, Nat.le_refl _, rfl⟩
    | named hkind =>
      have hname := ha _ List.mem_cons_self ⟨_, rfl⟩
      rw [fewest_eq_fewestSingle (by simp [hkind]), fewestSingle, hkind]
      dsimp only
      rw [if_pos hname]
      exact ⟨1, Nat.le_refl _, rfl⟩
    | skip hop =>
      rw [fewest_group, if_pos hop]
      exact ⟨0, Nat.zero_le _, rfl⟩
    | once halternative | again _ halternative =>
      exact absurd halternative (not_mem_alternatives hrule)
  | group op position rules span hrules ih =>
    rw [fewest_group]
    by_cases hop : op.isOptional = true
    · rw [if_pos hop]
      exact ⟨0, Nat.zero_le _, rfl⟩
    · rw [if_neg hop]
      have hround {word : List Symbol} (hword : word ∈ roundLanguage args rules)
          (ha : ∀ symbol ∈ word, symbol.IsAddressable) : ∃ n ≤ Symbol.tokens word,
            leastCount ((alternatives rules).map fewestAll) = some n := by
        obtain ⟨alternative, hmem, hword⟩ := hword
        obtain ⟨n, hn, hall⟩ := exists_fewestAll_le_of_forall (ih alternative hmem) hword ha
        have hcount : some n ∈ (alternatives rules).map fewestAll := by
          rw [← hall]
          exact List.mem_map_of_mem hmem
        obtain ⟨m, hm, hleast⟩ := exists_leastCount_le hcount
        exact ⟨m, Nat.le_trans hm hn, hleast⟩
      refine spells_group_induction (motive := fun symbols =>
        (∀ symbol ∈ symbols, symbol.IsAddressable) → ∃ n ≤ Symbol.tokens symbols, _ = some n) ?skip
        ?once ?again h rfl ha
      case skip => exact fun hskip => absurd hskip hop
      case once => exact fun word hword ha => hround hword ha
      case again =>
        -- The first round alone takes so many tokens, and further rounds can only add to them.
        intro _ first hfirst rest _ ha
        rw [List.forall_mem_append] at ha
        obtain ⟨n, hn, hleast⟩ := hround hfirst ha.1
        refine ⟨n, ?_, hleast⟩
        rw [Symbol.tokens_append]
        omega

/-- What a rule list spells takes at least as many tokens as the rules. -/
theorem exists_fewestAll_le (h : SpellsAll args rules symbols)
    (ha : ∀ symbol ∈ symbols, symbol.IsAddressable) :
    ∃ n ≤ Symbol.tokens symbols, fewestAll rules = some n :=
  exists_fewestAll_le_of_forall (fun _ _ => exists_fewest_le) h ha

/-! ### Positional arguments and `+` groups -/

/-- If no `+` group can be passed without a token, a rule list takes at least one token for each
positional argument and each `+` group. -/
theorem minimumArguments_le
    (h : ∀ rule ∈ rules, rule.kind = .group .oneOrMore → fewest rule ≠ some 0)
    (hall : fewestAll rules = some n) : minimumArguments rules ≤ n := by
  induction rules generalizing n with
  | nil => exact Nat.zero_le _
  | cons rule rules ih =>
    rw [fewestAll_cons] at hall
    obtain ⟨a, b, ha, hb, rfl⟩ := addCounts_eq_some_iff.mp hall
    have hrest := ih (fun rule hmem => h rule (List.mem_cons_of_mem _ hmem)) hb
    rw [minimumArguments, List.countP_cons]
    rw [minimumArguments] at hrest
    by_cases hneeds : rule.needsToken = true
    · have hpos : a ≠ 0 := by
        intro heq
        subst heq
        simp only [needsToken, Bool.or_eq_true, beq_iff_eq] at hneeds
        rcases hneeds with hkind | hkind
        · rw [fewest_eq_fewestSingle (by simp [hkind]), fewestSingle, hkind] at ha
          cases ha
        · exact h rule List.mem_cons_self hkind ha
      rw [if_pos hneeds]
      omega
    · rw [if_neg hneeds]
      omega

end Rule

end CommandShell
