import CommandShell.Matching.Completion
import CommandShell.Proofs.Grammar.Compiled
import CommandShell.Proofs.Grammar.Names
import CommandShell.Proofs.Matching.Verdict
import CommandShell.Proofs.Tree.Flags

/-!
# What completion offers

A node accepts what it offers, unless it is a flag whose name is no identifier. The names of a
grammar may begin with a digit, a dash or a dot, and identifiers may not. A flag with such a name is
offered, but nothing that can be typed addresses it.

## Main definitions

* `Text.IsUnaddressable` — the name begins with a digit, a dash or a dot

## Main results

* `Matcher.mem_candidates_iff` — candidates are offered by the nodes that can come next
* `Matcher.accepts_or_flag_of_offer?` — a node accepts what it offers, unless it is a flag
* `Signature.accepts_candidate_or_unaddressable` — what is offered is accepted, and every flag can
  be addressed, unless a name begins with a digit, a dash or a dot
-/

namespace CommandShell

/-! ### Names and identifiers -/

namespace Text

/-- The name begins with a digit, a dash or a dot, as no identifier does. -/
def IsUnaddressable : List Char → Prop
  | [] => False
  | c :: _ => c.isDigit = true ∨ c = '-' ∨ c = '.'

instance : (cs : List Char) → Decidable (IsUnaddressable cs)
  | [] => inferInstanceAs (Decidable False)
  | c :: _ => inferInstanceAs (Decidable (c.isDigit = true ∨ c = '-' ∨ c = '.'))

/-- No digit is a letter. -/
theorem not_isDigit_of_isAlpha {c : Char} (h : c.isAlpha = true) : c.isDigit = false := by
  refine Bool.eq_false_iff.mpr fun hdigit => ?_
  have hletter := isAlpha_iff.mp h
  have hrange := isDigit_iff.mp hdigit
  omega

/-- A name is an identifier unless it begins otherwise. -/
theorem isIdentifier_iff_of_isName {cs : List Char} (h : Lexeme.Kind.IsName cs) :
    isIdentifier cs = true ↔ ¬ IsUnaddressable cs := by
  obtain ⟨hne, hall⟩ := h
  cases cs with
  | nil => exact absurd rfl hne
  | cons c cs =>
    rw [List.all_cons, Bool.and_eq_true] at hall
    obtain ⟨hc, hcs⟩ := hall
    simp only [isNameChar, Char.isAlphanum, Bool.or_eq_true, beq_iff_eq] at hc
    -- A name character is a letter or `_`, or it is one of those that no identifier begins with.
    rcases hc with (((hletter | hdigit) | rfl) | rfl) | rfl
    · have hdash : c ≠ '-' ∧ c ≠ '.' := by
        constructor <;> (rintro rfl; revert hletter; decide)
      simp [isIdentifier, IsUnaddressable, hletter, hcs, not_isDigit_of_isAlpha hletter, hdash]
    · have hletter : c.isAlpha = false := Bool.eq_false_iff.mpr fun hletter => by
        rw [not_isDigit_of_isAlpha hletter] at hdigit
        cases hdigit
      have hline : c ≠ '_' := by
        rintro rfl
        revert hdigit
        decide
      simp [isIdentifier, IsUnaddressable, hletter, hline, hdigit]
    · simp [isIdentifier, IsUnaddressable]
    · simp [isIdentifier, IsUnaddressable, hcs]
    · simp [isIdentifier, IsUnaddressable]

end Text

namespace Matcher

variable {matcher : Matcher} {id : NodeId} {typed candidate help : String} {texts : List String}
  {context : CompletionContext} {tokens : List Token}

/-! ### Candidates -/

/-- Candidates are offered by the nodes that can come next. -/
theorem mem_candidates_iff :
    candidate ∈ (matcher.suggest tokens typed context).candidates ↔
      ∃ id ∈ (matcher.tree.frontier (matcher.walk tokens)).nodes, ∃ help texts,
        matcher.offer? context typed id = some (help, texts) ∧ candidate ∈ texts := by
  simp only [suggest, List.mem_eraseDups, List.mem_flatMap, List.mem_filterMap, Prod.exists]
  constructor
  · rintro ⟨help, texts, ⟨id, hid, hoffer⟩, hmem⟩
    exact ⟨id, hid, help, texts, hoffer, hmem⟩
  · rintro ⟨id, hid, help, texts, hoffer, hmem⟩
    exact ⟨help, texts, ⟨id, hid, hoffer⟩, hmem⟩

/-- A flag accepts its name behind a dash if the name is an identifier. -/
theorem accept?_flag_isSome (hm : matcher.IsBuilt) {arg : ArgId} {name : String}
    (h : matcher.tree.symbol? id = some ⟨.flag arg, name⟩)
    (hname : Text.isIdentifier name.toList = true) :
    (matcher.accept? id ("-" ++ name)).isSome = true := by
  obtain ⟨value, -, hvalue, -⟩ := exists_value_of_flag hm h
  rw [Option.isSome_iff_exists]
  exact ⟨_, (accept?_flag_eq_some_iff hm h hvalue).mpr ⟨hname, .inl ⟨rfl, rfl⟩⟩⟩

/-- A flag accepts no token at all if its name is no identifier. -/
theorem accept?_flag_eq_none (hm : matcher.IsBuilt) {arg : ArgId} {name : String}
    (h : matcher.tree.symbol? id = some ⟨.flag arg, name⟩)
    (hname : ¬ Text.isIdentifier name.toList = true) (token : String) :
    matcher.accept? id token = none := by
  obtain ⟨value, -, hvalue, -⟩ := exists_value_of_flag hm h
  rw [Option.eq_none_iff_forall_ne_some]
  exact fun step hstep => hname ((accept?_flag_eq_some_iff hm h hvalue).mp hstep).1

/-- A node accepts what it offers, unless it is a flag. -/
theorem accepts_or_flag_of_offer? (hm : matcher.IsBuilt)
    (hoffer : matcher.offer? context typed id = some (help, texts)) (hmem : candidate ∈ texts) :
    (matcher.accept? id candidate).isSome = true ∨
      ∃ arg name, matcher.tree.symbol? id = some ⟨.flag arg, name⟩ ∧ candidate = "-" ++ name := by
  obtain ⟨node, hnode, hoffer⟩ := Option.bind_eq_some_iff.mp hoffer
  have hsymbol : matcher.tree.symbol? id = some node.symbol := by
    rw [Tree.symbol?_eq_some_iff]
    exact ⟨node, hnode, rfl⟩
  obtain ⟨kind, label, parents, children⟩ := node
  cases kind with
  | start | finish | hook | loop => cases hoffer
  | flag arg =>
    cases hoffer
    obtain ⟨hcandidate, -⟩ := List.mem_filter.mp hmem
    exact .inr ⟨arg, label, hsymbol, List.mem_singleton.mp hcandidate⟩
  | constant literal arg? =>
    cases hoffer
    obtain ⟨hcandidate, -⟩ := List.mem_filter.mp hmem
    rw [accept?_constant hsymbol, if_pos (List.mem_singleton.mp hcandidate).symm]
    exact .inl rfl
  | argument arg =>
    rw [accept?_argument hm hsymbol]
    exact .inl rfl
  | freeForm arg =>
    rw [accept?_freeForm hsymbol]
    exact .inl rfl

end Matcher

namespace Signature

variable {signature : Signature} {source : String} {args : ArgumentSet} {limit : Nat}

/-- The names of the flags of a signature are words of its grammar. -/
theorem isName_of_hasFlag (h : ofSource source args limit = .ok signature) {name : String}
    (hflag : signature.tree.HasFlag name) : Lexeme.Kind.IsName name.toList := by
  obtain ⟨grammar, hparse, hsignature⟩ := bind_eq_ok_iff'.mp h
  obtain ⟨rule, hrule, hname⟩ := (Tree.hasFlag_build_iff signature.tree_eq).mp hflag
  rw [(ofGrammar_eq_ok hsignature).1] at hrule
  exact Grammar.isName_of_hasFlag hparse hrule hname

/-- What completion offers is accepted by a node that can come next, or it is the flag of a named
rule whose name begins with a digit, a dash or a dot. Every named rule has a flag. That accepts its
name behind a dash, unless the name begins so: then it accepts no token at all. -/
theorem accepts_candidate_or_unaddressable (h : ofSource source args limit = .ok signature) :
    (∀ tokens typed context, ∀ candidate ∈ (signature.suggest tokens typed context).candidates,
      signature.matcher.Accepts (signature.matcher.walk tokens) candidate ∨
        ∃ rule ∈ signature.grammar.rules, ∃ name, rule.HasFlag name ∧
          Text.IsUnaddressable name.toList ∧ candidate = "-" ++ name) ∧
    ∀ rule ∈ signature.grammar.rules, ∀ name, rule.HasFlag name →
      (∃ id arg, signature.tree.symbol? id = some ⟨.flag arg, name⟩) ∧
      ∀ id arg, signature.tree.symbol? id = some ⟨.flag arg, name⟩ →
        if Text.IsUnaddressable name.toList then
          ∀ token, signature.matcher.accept? id token = none
        else (signature.matcher.accept? id ("-" ++ name)).isSome = true := by
  have hm := signature.isBuilt_matcher
  have hbuild (name : String) : signature.tree.HasFlag name ↔
      ∃ rule ∈ signature.grammar.rules, rule.HasFlag name :=
    Tree.hasFlag_build_iff signature.tree_eq
  have hidentifier (id : NodeId) (arg : ArgId) (name : String)
      (hsymbol : signature.tree.symbol? id = some ⟨.flag arg, name⟩) :
      Text.isIdentifier name.toList = true ↔ ¬ Text.IsUnaddressable name.toList :=
    Text.isIdentifier_iff_of_isName (isName_of_hasFlag h ⟨id, arg, hsymbol⟩)
  constructor
  · intro tokens typed context candidate hcandidate
    obtain ⟨id, hid, help, texts, hoffer, hmem⟩ := Matcher.mem_candidates_iff.mp hcandidate
    rcases Matcher.accepts_or_flag_of_offer? hm hoffer hmem with
      haccepts | ⟨arg, name, hsymbol, rfl⟩
    · exact .inl ⟨id, hid, haccepts⟩
    · by_cases hname : Text.IsUnaddressable name.toList
      · obtain ⟨rule, hrule, hflag⟩ := (hbuild name).mp ⟨id, arg, hsymbol⟩
        exact .inr ⟨rule, hrule, name, hflag, hname, rfl⟩
      · have hname := (hidentifier id arg name hsymbol).mpr hname
        exact .inl ⟨id, hid, Matcher.accept?_flag_isSome hm hsymbol hname⟩
  · intro rule hrule name hflag
    refine ⟨(hbuild name).mpr ⟨rule, hrule, hflag⟩, fun id arg hsymbol => ?_⟩
    have hiff := hidentifier id arg name hsymbol
    split
    · rename_i hname
      exact Matcher.accept?_flag_eq_none hm hsymbol fun h => hiff.mp h hname
    · rename_i hname
      exact Matcher.accept?_flag_isSome hm hsymbol (hiff.mpr hname)

/-! ### A word that begins with a digit -/

/-- The signature of `cmd [1a|_b]*`, where both arguments have defaults. -/
def numbered : Signature where
  grammar := {
    command := "cmd"
    rules := [.nest (.group .zeroOrMore) 0
        [.leaf .named 0 "1a" ⟨5, 7⟩, .leaf .named 0 "_b" ⟨8, 10⟩] ⟨4, 12⟩,
      .finish 1 (.point 12)]
    source := "cmd [1a|_b]*" }
  args := ⟨[⟨"1a", .str, some (.str ""), none⟩, ⟨"_b", .str, some (.str ""), none⟩], by simp⟩
  tree := {
    nodes := #[
      { kind := .start, label := "start", children := [⟨1, false⟩] },
      { kind := .hook, label := "hook", parents := [0, 2],
        children := [⟨4, false⟩, ⟨6, false⟩, ⟨3, false⟩] },
      { kind := .loop, label := "loop", parents := [5, 7], children := [⟨3, false⟩, ⟨1, true⟩] },
      { kind := .hook, label := "hook", parents := [2, 1], children := [⟨8, false⟩] },
      { kind := .flag 0, label := "1a", parents := [1], children := [⟨5, false⟩] },
      { kind := .freeForm 0, label := "1a", parents := [4], children := [⟨2, false⟩] },
      { kind := .flag 1, label := "_b", parents := [1], children := [⟨7, false⟩] },
      { kind := .freeForm 1, label := "_b", parents := [6], children := [⟨2, false⟩] },
      { kind := .finish, label := "end", parents := [3] }]
    finish? := some 8 }
  tree_eq := by decide +kernel

theorem ofSource_numbered : ofSource "cmd [1a|_b]*" numbered.args 16 = .ok numbered := by
  refine bind_eq_ok_iff'.mpr ⟨numbered.grammar, ?_, ofGrammar_eq numbered.tree_eq⟩
  decide +kernel

/-- After `_b=x` completion offers `-1a` and `-_b`; the flag of `1a` accepts no token, and that of
`_b` accepts what is offered for it. -/
theorem unaddressable_numbered :
    ofSource "cmd [1a|_b]*" numbered.args 16 = .ok numbered ∧
      "-1a" ∈ (numbered.suggest [⟨"_b=x", ⟨0, 4⟩⟩] "" ⟨"", none⟩).candidates ∧
      (numbered.matcher.Accepts (numbered.matcher.walk [⟨"_b=x", ⟨0, 4⟩⟩]) "-1a" ∨
        ∃ rule ∈ numbered.grammar.rules, ∃ name, rule.HasFlag name ∧
          Text.IsUnaddressable name.toList ∧ "-1a" = "-" ++ name) ∧
      (∀ token, numbered.matcher.accept? 4 token = none) ∧
      (numbered.matcher.accept? 6 "-_b").isSome = true := by
  have hcandidate : "-1a" ∈ (numbered.suggest [⟨"_b=x", ⟨0, 4⟩⟩] "" ⟨"", none⟩).candidates := by
    decide +kernel
  obtain ⟨hcandidates, hflags⟩ := accepts_candidate_or_unaddressable ofSource_numbered
  have hdigit := (hflags _ List.mem_cons_self "1a"
    (.inside List.mem_cons_self (.named rfl))).2 4 0 (by decide +kernel)
  have hline := (hflags _ List.mem_cons_self "_b"
    (.inside (List.mem_cons_of_mem _ List.mem_cons_self) (.named rfl))).2 6 1 (by decide +kernel)
  rw [if_pos (by decide)] at hdigit
  rw [if_neg (by decide)] at hline
  exact ⟨ofSource_numbered, hcandidate, hcandidates _ _ _ _ hcandidate, hdigit, hline⟩

/-- Completion of the empty line of `cmd [1a|_b]*` offers `-1a`, which nothing accepts. -/
theorem not_accepts_candidate :
    ¬ ∀ source args limit signature, ofSource source args limit = .ok signature →
      ∀ tokens typed context, signature.matcher.AcceptsAll tokens →
        ∀ candidate ∈ (signature.suggest tokens typed context).candidates,
          signature.matcher.Accepts (signature.matcher.walk tokens) candidate := by
  intro h
  have hnone : numbered.matcher.AcceptsAll [] := by
    intro before token after heq
    exact absurd heq.symm (by simp)
  have haccepts := h _ _ _ _ ofSource_numbered [] "" ⟨"", none⟩ hnone "-1a" (by decide +kernel)
  rw [← Matcher.select?_isSome_iff] at haccepts
  exact absurd haccepts (by decide +kernel)

end Signature

end CommandShell
