import CommandShell.Proofs.Matching.Sentence

/-!
# The leading argument

A command whose grammar begins with a positional argument binds it to what the first token gives it.
If no other rule has its name, nothing that comes later on the line changes that.

## Main results

* `Sentence.exists_symbol_of_given` — only arguments that are spelled are given something
* `Signature.exists_leading_of_bind` — the value of a leading argument
-/

namespace CommandShell

/-- Only arguments that symbols refer to are given something. -/
theorem Sentence.exists_symbol_of_given {symbols : List Symbol} {tokens : List String}
    {given : List (ArgId × String)} {pair : ArgId × String} (h : Says symbols tokens given)
    (hmem : pair ∈ given) : ∃ symbol ∈ symbols, symbol.kind.arg? = some pair.1 := by
  induction h with
  | nil => exact absurd hmem List.not_mem_nil
  | argument _ ih | freeForm _ ih =>
    rcases List.mem_cons.mp hmem with rfl | hmem
    · exact ⟨_, List.mem_cons_self, rfl⟩
    · obtain ⟨symbol, hsymbol, harg⟩ := ih hmem
      exact ⟨symbol, List.mem_cons_of_mem _ hsymbol, harg⟩
  | constant _ ih =>
    rcases List.mem_append.mp hmem with hmem | hmem
    · obtain ⟨id, rfl, rfl⟩ := Option.map_eq_some_iff.mp (Option.mem_toList.mp hmem)
      exact ⟨_, List.mem_cons_self, rfl⟩
    · obtain ⟨symbol, hsymbol, harg⟩ := ih hmem
      exact ⟨symbol, List.mem_cons_of_mem _ hsymbol, harg⟩
  | flag _ ih =>
    obtain ⟨symbol, hsymbol, harg⟩ := ih hmem
    exact ⟨symbol, List.mem_cons_of_mem _ hsymbol, harg⟩
  | assigned _ _ ih =>
    rcases List.mem_cons.mp hmem with rfl | hmem
    · exact ⟨_, List.mem_cons_self, rfl⟩
    · obtain ⟨symbol, hsymbol, harg⟩ := ih hmem
      exact ⟨symbol, List.mem_cons_of_mem _ (List.mem_cons_of_mem _ hsymbol), harg⟩

namespace Signature

variable {signature : Signature} {position : Nat} {name : String} {span : Span}
  {rules : List Rule} {id : ArgId} {tokens : List Token} {bindings : Bindings}

/-- A leading argument has the value of the first token, if no other rule has its name. -/
theorem exists_leading_of_bind
    (hrules : signature.grammar.rules = .leaf .required position name span :: rules)
    (hid : signature.args.idOf? name = some id)
    (hother : ∀ sub ∈ Rule.subrulesAll rules, sub.lookupName ≠ name)
    (h : signature.bind tokens = .ok bindings) :
    ∃ first rest value, tokens = first :: rest ∧
      signature.args.value? id (Sentence.ownText name first.value) = some value ∧
      bindings.get? name = some value := by
  have hm := signature.isBuilt_matcher
  obtain ⟨-, last, hrun, hend, -, rfl⟩ := Matcher.bind_tokens_eq_ok_iff.mp h
  obtain ⟨given, hpasses, hgiven⟩ := Matcher.passes_of_run hm hrun hend
  obtain ⟨symbols, hreads, -, hsaid⟩ := Matcher.exists_reads_of_passes hm hpasses
  have hspells := Tree.spellsAll_of_reads signature.tree_eq hreads
  rw [hrules] at hspells
  obtain ⟨word, more, rfl, hword, hmore⟩ := Rule.spellsAll_cons_iff.mp hspells
  have hsymbol : Rule.symbol? signature.args (.leaf .required position name span) =
      some ⟨.argument id, name⟩ := Option.map_eq_some_iff.mpr ⟨id, hid, rfl⟩
  obtain rfl := (Rule.spells_iff_of_symbol? hsymbol).mp hword
  generalize hvalues : tokens.map Token.value = values at hsaid
  cases hsaid with
  | @argument _ _ token _ values given hrest =>
    obtain ⟨first, rest, rfl, rfl, rfl⟩ := List.map_eq_cons_iff.mp hvalues
    obtain ⟨value, hvalue, hbind⟩ := Bindings.bindAll?_cons_eq_some_iff.mp hgiven
    have hlater : ∀ pair ∈ given, pair.1 ≠ id := by
      rintro pair hpair rfl
      obtain ⟨symbol, hsymbol, harg⟩ := Sentence.exists_symbol_of_given hrest hpair
      obtain ⟨rule, hrule, word, hword, hsymbol⟩ := Rule.exists_spells_of_mem hmore hsymbol
      obtain ⟨sub, hsub, hname, hlabel⟩ := Rule.exists_lookupName_of_spells hword hsymbol
      obtain ⟨argument, hget, hargument⟩ := ArgumentSet.get?_of_idOf?_eq_some (hlabel _ harg)
      obtain ⟨argument', hget', hargument'⟩ := ArgumentSet.get?_of_idOf?_eq_some hid
      cases hget.symm.trans hget'
      exact hother sub (Rule.subrules_subset_of_mem hrule hsub)
        (hname.trans (hargument.symm.trans hargument'))
    obtain ⟨argument, hget, -⟩ := ArgumentSet.get?_of_idOf?_eq_some hid
    have harguments : last.bindings.arguments = signature.args.toList := by
      rw [Bindings.arguments_bindAll? hgiven]
      exact Bindings.arguments_index signature.args
    refine ⟨first, rest, value, rfl, hvalue, ?_⟩
    rw [Bindings.get?_eq_value? harguments hid, Bindings.value?_bindAll?_of_forall_ne hbind hlater]
    exact Bindings.value?_index_bind hget

end Signature

end CommandShell
