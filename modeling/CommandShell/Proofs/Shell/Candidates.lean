import CommandShell.Demo
import CommandShell.Proofs.Matching.Completion
import CommandShell.Proofs.Shell.Registration
import CommandShell.Proofs.Tree.Symbols

/-!
# Candidates as tokens

A candidate takes the place of the token being typed as it is, without quotes. It is read back as
one token exactly if it is a bare word. What comes from the text of a grammar always is: the names
of commands that have a grammar, flags and constants. Names of commands without a grammar and the
offers of arguments are any texts, and so are the candidates that commands remember.

## Main results

* `Line.isPlain_of_isName` — names of grammars are plain
* `Matcher.candidate_cases` — a candidate is a flag, a constant, or an offer of an argument
* `Declaration.isBareWord_or_offered` — flags and constants are bare words
* `Shell.Tracks.isBareWord_or_foreign` — where the candidates of a shell come from
* `Shell.reads_candidate_iff` — which candidates are read back as one token
* `Shell.not_reads_candidate` — not every candidate is
-/

namespace CommandShell

/-! ### Names of grammars -/

namespace Line

/-- No character of a name is a blank or a mark of quoting. -/
theorem isSound_of_isNameChar {c : Char} (h : Text.isNameChar c = true) :
    (Piece.bare c).IsSound := by
  have hrange := Text.toNat_of_isNameChar h
  have hblank : Text.isBlank c = false := by
    rw [← Bool.not_eq_true]
    intro hblank
    rw [Text.isNameChar_of_isBlank hblank] at h
    cases h
  -- The quotes lie before the characters of names; the backslash lies among them.
  refine ⟨hblank, ?_, ?_, ?_⟩
  · rintro rfl
    exact absurd hrange.1 (by decide)
  · rintro rfl
    exact absurd hrange.1 (by decide)
  · rintro rfl
    exact absurd h (by decide)

theorem isPlain_of_isName {cs : List Char} (h : Lexeme.Kind.IsName cs) : IsPlain cs := by
  intro c hc
  exact isSound_of_isNameChar (List.all_eq_true.mp h.2 c hc)

/-- A flag for a name is a bare word. -/
theorem isBareWord_flag {name : String} (h : Lexeme.Kind.IsName name.toList) :
    IsBareWord ("-" ++ name).toList := by
  rw [String.toList_append]
  refine IsPlain.isBareWord (List.forall_mem_cons.mpr ⟨by decide, isPlain_of_isName h⟩) ?_
  exact List.cons_ne_nil _ _

end Line

namespace Grammar

/-- Names alone give neither flags nor constants. -/
theorem kind_of_mem_positionalRules {position start : Nat} {names : List String} {sub : Rule}
    (h : sub ∈ Rule.subrulesAll (positionalRules position start names)) :
    sub.kind = .required ∨ sub.kind = .finish := by
  induction names generalizing position start with
  | nil =>
    cases List.mem_singleton.mp h
    exact .inr rfl
  | cons name names ih =>
    rcases List.mem_cons.mp h with rfl | h
    · exact .inl rfl
    · exact ih h

end Grammar

/-! ### Signatures -/

namespace Matcher

variable {matcher : Matcher} {typed candidate : String} {context : CompletionContext}
  {tokens : List Token}

/-- A candidate is a flag, a constant, or an offer of an argument. -/
theorem candidate_cases (h : candidate ∈ (matcher.suggest tokens typed context).candidates) :
    (∃ name, matcher.tree.HasFlag name ∧ candidate = "-" ++ name) ∨
      (∃ id arg? label, matcher.tree.symbol? id = some ⟨.constant candidate arg?, label⟩) ∨
      ∃ argument ∈ matcher.args.toList, ∃ texts,
        argument.type.complete? context typed = some texts ∧ candidate ∈ texts := by
  obtain ⟨id, -, help, texts, hoffer, hmem⟩ := mem_candidates_iff.mp h
  obtain ⟨node, hnode, hoffer⟩ := Option.bind_eq_some_iff.mp hoffer
  have hsymbol : matcher.tree.symbol? id = some node.symbol := by
    rw [Tree.symbol?_eq_some_iff]
    exact ⟨node, hnode, rfl⟩
  obtain ⟨kind, label, parents, children⟩ := node
  cases kind with
  | flag arg =>
    cases hoffer
    obtain ⟨hcandidate, -⟩ := List.mem_filter.mp hmem
    exact .inl ⟨label, ⟨id, arg, hsymbol⟩, List.mem_singleton.mp hcandidate⟩
  | constant literal arg? =>
    cases hoffer
    obtain ⟨hcandidate, -⟩ := List.mem_filter.mp hmem
    cases List.mem_singleton.mp hcandidate
    exact .inr (.inl ⟨id, arg?, label, hsymbol⟩)
  | _ =>
    obtain ⟨argument, hget, heq⟩ := Option.map_eq_some_iff.mp hoffer
    obtain ⟨place, -, hget⟩ := Option.bind_eq_some_iff.mp hget
    cases heq
    refine .inr (.inr ⟨argument, List.mem_of_getElem? hget, ?_⟩)
    cases hcomplete : argument.type.complete? context typed with
    | none =>
      rw [hcomplete] at hmem
      exact absurd hmem List.not_mem_nil
    | some texts =>
      rw [hcomplete] at hmem
      exact ⟨texts, rfl, hmem⟩

end Matcher

namespace Declaration

variable {declaration : Declaration} {command : Command} {limit : Nat} {typed candidate : String}
  {context : CompletionContext} {tokens : List Token}

/-- The signature of a declared command is read from its grammar, or has a positional rule for each
of its arguments. -/
theorem signature_cases (h : declaration.command limit = .ok command) :
    (∃ source, Signature.ofSource source command.spec.signature.args limit =
        .ok command.spec.signature) ∨
      declaration.grammar = none ∧ ∃ position start, command.spec.signature.grammar.rules =
        Grammar.positionalRules position start command.spec.signature.args.names := by
  obtain ⟨signature, hsignature, rfl⟩ := map_eq_ok_iff.mp h
  obtain ⟨-, hgrammar⟩ := signature_eq_ok hsignature
  cases hsource : declaration.grammar with
  | some source =>
    rw [hsource] at hgrammar
    exact .inl ⟨source, hgrammar.1⟩
  | none =>
    rw [hsource] at hgrammar
    exact .inr ⟨rfl, 0, _, congrArg Grammar.rules hgrammar⟩

/-- The name of a command that has a grammar is a bare word. -/
theorem isBareWord_name (h : declaration.command limit = .ok command) :
    declaration.grammar = none ∨ Line.IsBareWord command.name.toList := by
  rcases signature_cases h with ⟨source, hsource⟩ | ⟨hnone, -⟩
  · obtain ⟨hname, -, -, hword⟩ := command_eq_ok h
    obtain ⟨grammar, hparse, hbuild⟩ := bind_eq_ok_iff'.mp hsource
    have hgrammar := Grammar.isName_command hparse
    rw [← (Signature.ofGrammar_eq_ok hbuild).1, hword, ← hname] at hgrammar
    exact .inr ((Line.isPlain_of_isName hgrammar).isBareWord hgrammar.1)
  · exact .inl hnone

/-- A command with any other rule than those of positional arguments has a grammar. -/
theorem exists_source_of_mem_subrulesAll {sub : Rule} (h : declaration.command limit = .ok command)
    (hsub : sub ∈ Rule.subrulesAll command.spec.signature.grammar.rules)
    (hkind : ¬ (sub.kind = .required ∨ sub.kind = .finish)) :
    ∃ source, Signature.ofSource source command.spec.signature.args limit =
      .ok command.spec.signature := by
  rcases signature_cases h with hsource | ⟨-, position, start, hrules⟩
  · exact hsource
  · rw [hrules] at hsub
    exact absurd (Grammar.kind_of_mem_positionalRules hsub) hkind

/-- The flags and constants that a command suggests are bare words. -/
theorem isBareWord_or_offered (h : declaration.command limit = .ok command)
    (hmem : candidate ∈ (command.spec.signature.suggest tokens typed context).candidates) :
    Line.IsBareWord candidate.toList ∨ ∃ argument ∈ command.spec.signature.args.toList,
      ∃ texts, argument.type.complete? context typed = some texts ∧ candidate ∈ texts := by
  have hbuild := command.spec.signature.tree_eq
  rcases Matcher.candidate_cases hmem with ⟨name, hflag, rfl⟩ | ⟨id, arg?, label, hsymbol⟩ | hoffer
  · obtain ⟨id, arg, hsymbol⟩ := hflag
    rcases Tree.exists_gives_of_build hbuild hsymbol with hstructural | ⟨sub, hsub, hgives⟩
    · cases hstructural
    obtain ⟨source, hsource⟩ := exists_source_of_mem_subrulesAll h hsub
      (by simp [Rule.kind_of_gives_flag hgives])
    exact .inl (Line.isBareWord_flag (Signature.isName_of_hasFlag hsource ⟨id, arg, hsymbol⟩))
  · rcases Tree.exists_gives_of_build hbuild hsymbol with hstructural | ⟨sub, hsub, hgives⟩
    · cases hstructural
    obtain ⟨hkind, rfl⟩ := Rule.kind_of_gives_constant hgives
    obtain ⟨source, hsource⟩ := exists_source_of_mem_subrulesAll h hsub (by simp [hkind])
    obtain ⟨grammar, hparse, hofGrammar⟩ := bind_eq_ok_iff'.mp hsource
    rw [← (Signature.ofGrammar_eq_ok hofGrammar).1] at hparse
    have hname := Grammar.isName_lookupName hparse hsub (by rw [hkind]; rfl) (by simp [hkind])
    exact .inl ((Line.isPlain_of_isName hname).isBareWord hname.1)
  · exact .inr hoffer

end Declaration

/-! ### Shells -/

namespace Shell

variable {config : ShellConfig} {shell : Shell} {commands : List Command} {line candidate : String}

/-- Where a candidate of a shell comes from: it is a bare word, or the name of a command without a
grammar, or an argument of a command offers it. -/
theorem Tracks.isBareWord_or_foreign (h : Tracks config shell commands)
    (hmem : candidate ∈ (shell.complete line).candidates) :
    Line.IsBareWord candidate.toList ∨
      (∃ declaration : Declaration, declaration.grammar = none ∧ declaration.name = candidate ∧
        ∃ command ∈ commands, declaration.command config.maxNestingDepth = .ok command) ∨
      ∃ command ∈ commands, ∃ argument ∈ command.spec.signature.args.toList, ∃ texts,
        argument.type.complete? ⟨line, some shell.cache.source⟩ (Line.splitPartial line).2 =
          some texts ∧ candidate ∈ texts := by
  unfold complete at hmem
  split at hmem
  rename_i tokens typed hsplit
  rw [hsplit]
  dsimp only at hmem
  split at hmem
  · obtain ⟨hname, -⟩ := List.mem_filter.mp hmem
    rw [h.holds.names_eq, List.mem_eraseDups] at hname
    obtain ⟨command, hcommand, rfl⟩ := List.mem_map.mp hname
    obtain ⟨declaration, hdeclared⟩ := h.declared command hcommand
    rcases Declaration.isBareWord_name hdeclared with hnone | hword
    · exact .inr (.inl ⟨declaration, hnone, (Declaration.command_eq_ok hdeclared).1.symm, command,
        hcommand, hdeclared⟩)
    · exact .inl hword
  · split at hmem
    · exact absurd hmem List.not_mem_nil
    · rename_i command hget
      obtain ⟨hcommand, -⟩ := h.holds.mem hget
      obtain ⟨declaration, hdeclared⟩ := h.declared command hcommand
      rcases Declaration.isBareWord_or_offered hdeclared hmem with hword | hoffer
      · exact .inl hword
      · exact .inr (.inr ⟨command, hcommand, hoffer⟩)

/-- A candidate that takes the place of the token being typed is read back, behind the finished
tokens, exactly if it is a bare word. Candidates that are none are names of commands without a
grammar, or offers of arguments. -/
theorem reads_candidate_iff (config : ShellConfig) :
    ∃ start, ofConfig config = .ok start ∧ ∀ (calls : List Call) (line : String),
      let shell := start.afterAll calls
      ∀ candidate ∈ (shell.complete line).candidates,
        ((∃ tokens, Line.tokens? (Line.replaceTyped line candidate) = .ok tokens ∧
            tokens.map Token.value =
              (Line.splitPartial line).1.map Token.value ++ [candidate]) ↔
          Line.IsBareWord candidate.toList) ∧
        (Line.IsBareWord candidate.toList ∨
          (∃ declaration : Declaration, declaration.grammar = none ∧
            declaration.name = candidate ∧
            ∃ command ∈ (bare config).addedAll (builtins.map .register ++ calls),
              declaration.command config.maxNestingDepth = .ok command) ∨
          ∃ command ∈ (bare config).addedAll (builtins.map .register ++ calls),
            ∃ argument ∈ command.spec.signature.args.toList, ∃ texts,
              argument.type.complete? ⟨line, some shell.cache.source⟩ (Line.splitPartial line).2 =
                some texts ∧ candidate ∈ texts) := by
  refine ⟨_, ofConfig_eq config, fun calls line => ?_⟩
  intro shell candidate hmem
  have htracks := (tracks_bare config).afterAll (builtins.map .register ++ calls)
  rw [List.nil_append, afterAll_append] at htracks
  exact ⟨Line.exists_tokens?_replaceTyped_iff line candidate, htracks.isBareWord_or_foreign hmem⟩

/-- The demonstration commands are registered, and a tenant is named whose name has a blank. -/
def blankTenantCalls : List Call :=
  Demo.commands.map .register ++ [.execute "tenant \"a b\""]

/-- A remembered name with a blank is offered for a tenant, and read back as two tokens. -/
theorem reads_candidate_tenant :
    ∃ start, ofConfig {} = .ok start ∧
      "a b" ∈ ((start.afterAll blankTenantCalls).complete "tenant a").candidates ∧
      ¬ ∃ tokens, Line.tokens? (Line.replaceTyped "tenant a" "a b") = .ok tokens ∧
        tokens.map Token.value = (Line.splitPartial "tenant a").1.map Token.value ++ ["a b"] := by
  obtain ⟨start, hstart, hreads⟩ := reads_candidate_iff {}
  obtain rfl := Except.ok.inj ((ofConfig_eq {}).symm.trans hstart)
  have hmem : "a b" ∈ ((((bare {}).afterAll (builtins.map .register)).afterAll
      blankTenantCalls).complete "tenant a").candidates := by
    decide +kernel
  refine ⟨_, hstart, hmem, fun htokens => ?_⟩
  exact absurd ((hreads blankTenantCalls "tenant a" "a b" hmem).1.mp htokens) (by decide)

/-- Not every candidate is read back as one token. -/
theorem not_reads_candidate :
    ¬ ∀ config start, ofConfig config = .ok start → ∀ (calls : List Call) (line : String),
      ∀ candidate ∈ ((start.afterAll calls).complete line).candidates,
        ∃ tokens, Line.tokens? (Line.replaceTyped line candidate) = .ok tokens ∧
          tokens.map Token.value =
            (Line.splitPartial line).1.map Token.value ++ [candidate] := by
  intro h
  have htokens := h {} _ (ofConfig_eq {}) blankTenantCalls "tenant a" "a b" (by decide +kernel)
  rw [Line.exists_tokens?_replaceTyped_iff] at htokens
  exact absurd htokens (by decide)

end Shell

end CommandShell
