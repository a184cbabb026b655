import CommandShell.Proofs.Grammar.Compiled
import CommandShell.Proofs.Grammar.Notation
import CommandShell.Proofs.Matching.Turns
import CommandShell.Proofs.Matching.Verdict

/-!
# Matching lineups

Where the arguments of a command stand in a row, its lines can be matched without a tree: the place
of a token tells which argument takes it, and the first thing that goes wrong tells the error. A
token whose text has no value goes wrong before the tokens behind it, a token that is too many goes
wrong when all before it have values, and an argument that is given nothing is missed at the end.

## Main definitions

* `Signature.HasLineup` — the signature is made from a text that writes the lineup, or from the
  names of its arguments

## Main results

* `Signature.LinesUp.holds` — what the arguments hold when all tokens are bound
* `Signature.LinesUp.close_eq_ok`, `Signature.LinesUp.close_eq_unbound` — how the line ends
* `Signature.bind_lineup` — what a line of any tokens is matched to
-/

namespace CommandShell

namespace Lineup

variable {lineup : Lineup} {args : ArgumentSet} {name : String} {place i : Nat} {id : ArgId}
  {value : Value} {values : List Value} {argument : Argument} {token : Token}
  {tokens : List Token}

/-! ### Distinct names -/

/-- Where the names are distinct, an argument in front takes the token at its place only. -/
theorem eq_of_takerAt? (hnames : lineup.names.Nodup) (hi : lineup.front[i]? = some name)
    (h : lineup.takerAt? place = some name) : place = i := by
  obtain ⟨hfront, -, hdisjoint⟩ := List.nodup_append.mp hnames
  rw [takerAt?, Option.or_eq_some_iff] at h
  rcases h with h | ⟨-, h⟩
  · obtain ⟨hlt, -⟩ := List.getElem?_eq_some_iff.mp h
    exact (List.getElem?_inj hlt hfront).mp (h.trans hi.symm)
  · exact absurd rfl (hdisjoint name (List.mem_of_getElem? hi) name (by simp [h]))

/-- Where the names are distinct, the argument at the end takes no token in front. -/
theorem le_of_takerAt? (hnames : lineup.names.Nodup) (hrest : lineup.rest? = some name)
    (h : lineup.takerAt? place = some name) : lineup.front.length ≤ place := by
  obtain ⟨-, -, hdisjoint⟩ := List.nodup_append.mp hnames
  rw [takerAt?, Option.or_eq_some_iff] at h
  rcases h with h | ⟨h, -⟩
  · exact absurd rfl (hdisjoint name (List.mem_of_getElem? h) name (by simp [hrest]))
  · exact List.getElem?_eq_none_iff.mp h

/-! ### What is bound to an argument -/

theorem bindsFrom_append (first rest : List Value) :
    lineup.bindsFrom args place (first ++ rest) =
      lineup.bindsFrom args place first ++ lineup.bindsFrom args (place + first.length) rest := by
  induction first generalizing place with
  | nil => rfl
  | cons value first ih =>
    rw [List.cons_append, bindsFrom, ih, bindsFrom, List.append_assoc, List.length_cons,
      Nat.add_right_comm, Nat.add_assoc]

theorem valuesFor_bindsFrom_eq_nil
    (h : ∀ other, place ≤ other → other < place + values.length →
      lineup.idAt? args other ≠ some id) :
    Bindings.valuesFor id (lineup.bindsFrom args place values) = [] := by
  induction values generalizing place with
  | nil => rfl
  | cons value values ih =>
    have hfirst := h place (Nat.le_refl _) (by rw [List.length_cons]; lia)
    have hrest : Bindings.valuesFor id (lineup.bindsFrom args (place + 1) values) = [] :=
      ih fun other hle hlt => h other (by lia) (by rw [List.length_cons]; lia)
    rw [bindsFrom, Bindings.valuesFor_append, hrest]
    cases hat : lineup.idAt? args place <;> simp_all [Bindings.valuesFor]

theorem valuesFor_bindsFrom_eq_self (h : ∀ other ≥ place, lineup.idAt? args other = some id) :
    Bindings.valuesFor id (lineup.bindsFrom args place values) = values := by
  induction values generalizing place with
  | nil => rfl
  | cons value values ih =>
    rw [bindsFrom, Bindings.valuesFor_append, ih fun other hle => h other (by lia),
      h place (Nat.le_refl _)]
    simp [Bindings.valuesFor]

/-! ### Values of tokens -/

theorem length_of_valuesFrom? (h : lineup.valuesFrom? args place tokens = some values) :
    values.length = tokens.length := by
  induction tokens generalizing place values with
  | nil => cases h; rfl
  | cons token tokens ih =>
    obtain ⟨value, rest, -, hrest, rfl⟩ := valuesFrom?_cons_eq_some_iff.mp h
    rw [List.length_cons, ih hrest, List.length_cons]

theorem exists_valueAt?_of_valuesFrom? (h : lineup.valuesFrom? args place tokens = some values)
    (hvalue : values[i]? = some value) :
    ∃ word, lineup.valueAt? args (place + i) word = some value := by
  induction tokens generalizing place values i with
  | nil =>
    cases h
    cases hvalue
  | cons token tokens ih =>
    obtain ⟨first, rest, hfirst, hrest, rfl⟩ := valuesFrom?_cons_eq_some_iff.mp h
    cases i with
    | zero =>
      cases hvalue
      exact ⟨token.value, hfirst⟩
    | succ i =>
      rw [Nat.add_comm i, ← Nat.add_assoc]
      exact ih hrest hvalue

/-- What an argument that merges maps is given are maps. -/
theorem exists_map_of_valuesFrom? (h : lineup.valuesFrom? args 0 tokens = some values)
    (hvalue : values[i]? = some value) (hargument : lineup.argumentAt? args i = some argument)
    (htype : argument.type = .map) : ∃ dict, Value.map dict = value := by
  obtain ⟨word, hword⟩ := exists_valueAt?_of_valuesFrom? h hvalue
  rw [Nat.zero_add, valueAt?, hargument, Option.bind_some, htype] at hword
  exact ArgType.exists_map_of_convert (toOption_eq_some_iff.mp hword)

/-- Without an argument at the end, there are no more values than arguments in front. -/
theorem length_le_of_valuesFrom? (h : lineup.valuesFrom? args 0 tokens = some values)
    (hrest : lineup.rest? = none) : tokens.length ≤ lineup.front.length := by
  by_contra hlt
  have hvalue : values[lineup.front.length]? ≠ none := by
    rw [Ne, List.getElem?_eq_none_iff, length_of_valuesFrom? h]
    lia
  obtain ⟨value, hvalue⟩ := Option.ne_none_iff_exists'.mp hvalue
  obtain ⟨word, hword⟩ := exists_valueAt?_of_valuesFrom? h hvalue
  simp [valueAt?, argumentAt?, takerAt?, hrest] at hword

/-- Without values for all tokens there is a first token without one. -/
theorem exists_split_of_valuesFrom?_eq_none (h : lineup.valuesFrom? args place tokens = none) :
    ∃ before token after, tokens = before ++ token :: after ∧
      (lineup.valuesFrom? args place before).isSome = true ∧
      lineup.valueAt? args (place + before.length) token.value = none := by
  induction tokens generalizing place with
  | nil => cases h
  | cons token tokens ih =>
    cases hvalue : lineup.valueAt? args place token.value with
    | none => exact ⟨[], token, tokens, rfl, rfl, hvalue⟩
    | some value =>
      rw [valuesFrom?, hvalue, Option.bind_some, Option.map_eq_none_iff] at h
      obtain ⟨before, other, after, rfl, hbefore, hother⟩ := ih h
      refine ⟨token :: before, other, after, rfl, ?_, ?_⟩
      · obtain ⟨rest, hrest⟩ := Option.isSome_iff_exists.mp hbefore
        simp [valuesFrom?, hvalue, hrest]
      · rwa [List.length_cons, Nat.add_comm before.length, ← Nat.add_assoc]

/-! ### The end of the line -/

variable {bindings : Bindings}

/-- Each argument has a value, but for the one at the end if it has no default and nothing is left
over for it. -/
theorem Holds.isSome_value? (h : lineup.Holds args values bindings)
    (hnames : lineup.names.Perm args.names) (hget : args.get? id = some argument)
    (hrest : lineup.rest? = some argument.name →
      values.drop lineup.front.length ≠ [] ∨ argument.default?.isSome = true) :
    (bindings.value? id).isSome = true := by
  have hid := args.idOf?_eq_some_of_get? hget
  have hfind := args.find?_eq_some_of_get? hget
  rw [← Bindings.get?_eq_value? h.arguments hid]
  have hmem : argument.name ∈ lineup.names :=
    hnames.mem_iff.mpr (List.mem_map_of_mem (List.mem_of_getElem? hget))
  rcases List.mem_append.mp hmem with hfront | hend
  · obtain ⟨place, hplace⟩ := List.mem_iff_getElem?.mp hfront
    obtain ⟨value, -, hgathers⟩ := h.front place _ argument hplace hfind
    exact hgathers.isSome_get?_iff.mpr (.inl (List.cons_ne_nil _ _))
  · have hname := Option.mem_toList.mp hend
    exact (h.rest _ argument hname hfind).isSome_get?_iff.mpr (hrest hname)

end Lineup

/-- A token is bare if it is neither `-name` nor `name=value`. -/
theorem Shape.of_eq_bare_iff {token : String} :
    Shape.of token = .bare ↔ ¬ Sentence.IsAddress token := by
  constructor
  · rintro h ⟨name, hname, rfl | ⟨value, rfl⟩⟩
    · cases h.symm.trans (Shape.of_eq_flag_iff.mpr ⟨rfl, hname⟩)
    · cases h.symm.trans (Shape.of_eq_assignment_iff.mpr ⟨rfl, hname⟩)
  · intro h
    cases hshape : Shape.of token with
    | bare => rfl
    | flag name =>
      obtain ⟨htoken, hname⟩ := Shape.of_eq_flag_iff.mp hshape
      exact absurd ⟨name, hname, .inl htoken⟩ h
    | assignment name value =>
      obtain ⟨htoken, hname⟩ := Shape.of_eq_assignment_iff.mp hshape
      exact absurd ⟨name, hname, .inr ⟨value, htoken⟩⟩ h

namespace Signature

variable {signature : Signature} {lineup : Lineup} {node : NodeId} {place : Nat} {name : String}
  {bindings : Bindings} {argument : Argument} {value : Value} {tokens : List Token}
  {values : List Value}

/-! ### What arguments hold -/

namespace LinesUp

variable {id : ArgId} {i : Nat} (h : signature.LinesUp lineup)

include h

theorem idAt?_of_front (hi : lineup.front[i]? = some name)
    (hid : signature.args.idOf? name = some id) :
    lineup.idAt? signature.args place = some id ↔ place = i := by
  constructor
  · intro hat
    obtain ⟨other, htaker, hother⟩ := Option.bind_eq_some_iff.mp hat
    rw [ArgumentSet.eq_of_idOf?_eq_some hother hid] at htaker
    exact Lineup.eq_of_takerAt? h.nodup hi htaker
  · rintro rfl
    exact Option.bind_eq_some_iff.mpr ⟨name, Lineup.takerAt?_of_front hi, hid⟩

theorem idAt?_of_rest (hrest : lineup.rest? = some name)
    (hid : signature.args.idOf? name = some id) :
    lineup.idAt? signature.args place = some id ↔ lineup.front.length ≤ place := by
  constructor
  · intro hat
    obtain ⟨other, htaker, hother⟩ := Option.bind_eq_some_iff.mp hat
    rw [ArgumentSet.eq_of_idOf?_eq_some hother hid] at htaker
    exact Lineup.le_of_takerAt? h.nodup hrest htaker
  · intro hle
    exact Option.bind_eq_some_iff.mpr ⟨name, (Lineup.takerAt?_of_le hle).trans hrest, hid⟩

/-- An argument in front is bound to the value at its place alone. -/
theorem valuesFor_of_front (hi : lineup.front[i]? = some name)
    (hid : signature.args.idOf? name = some id) (hvalue : values[i]? = some value) :
    Bindings.valuesFor id (lineup.bindsFrom signature.args 0 values) = [value] := by
  obtain ⟨hlt, rfl⟩ := List.getElem?_eq_some_iff.mp hvalue
  have hat (other : Nat) : lineup.idAt? signature.args other = some id ↔ other = i :=
    h.idAt?_of_front hi hid
  have hlength : (values.take i).length = i := List.length_take_of_le (Nat.le_of_lt hlt)
  have hbefore : Bindings.valuesFor id
      (lineup.bindsFrom signature.args 0 (values.take i)) = [] :=
    Lineup.valuesFor_bindsFrom_eq_nil fun other _ hother heq => by
      rw [(hat other).mp heq] at hother
      lia
  have hbehind : Bindings.valuesFor id
      (lineup.bindsFrom signature.args (i + 1) (values.drop (i + 1))) = [] :=
    Lineup.valuesFor_bindsFrom_eq_nil fun other hother _ heq => by
      rw [(hat other).mp heq] at hother
      lia
  conv_lhs => rw [← List.take_append_drop i values, List.drop_eq_getElem_cons hlt]
  rw [Lineup.bindsFrom_append, Bindings.valuesFor_append, hbefore, hlength, Nat.zero_add,
    Lineup.bindsFrom, Bindings.valuesFor_append, hbehind, (hat i).mpr rfl]
  simp [Bindings.valuesFor]

/-- The argument at the end is bound to the values that are left over. -/
theorem valuesFor_of_rest (hrest : lineup.rest? = some name)
    (hid : signature.args.idOf? name = some id) (hlength : lineup.front.length ≤ values.length) :
    Bindings.valuesFor id (lineup.bindsFrom signature.args 0 values) =
      values.drop lineup.front.length := by
  have hat (other : Nat) :
      lineup.idAt? signature.args other = some id ↔ lineup.front.length ≤ other :=
    h.idAt?_of_rest hrest hid
  have htake : (values.take lineup.front.length).length = lineup.front.length :=
    List.length_take_of_le hlength
  have hbefore : Bindings.valuesFor id
      (lineup.bindsFrom signature.args 0 (values.take lineup.front.length)) = [] :=
    Lineup.valuesFor_bindsFrom_eq_nil fun other _ hother heq => by
      have hle := (hat other).mp heq
      lia
  conv_lhs => rw [← List.take_append_drop lineup.front.length values]
  rw [Lineup.bindsFrom_append, Bindings.valuesFor_append, hbefore, htake, Nat.zero_add,
    Lineup.valuesFor_bindsFrom_eq_self fun other hother => (hat other).mpr hother,
    List.nil_append]

/-- Once all tokens are bound, the arguments hold their values. -/
theorem holds (hvalues : lineup.valuesFrom? signature.args 0 tokens = some values)
    (hlength : lineup.front.length ≤ values.length) :
    lineup.Holds signature.args values
      (signature.args.index.bindEach (lineup.bindsFrom signature.args 0 values)) where
  arguments := by rw [Bindings.arguments_bindEach, Bindings.arguments_index]
  front i name argument hi hfind := by
    have hlt := (List.getElem?_eq_some_iff.mp hi).1
    have hvalue : values[i]? = some values[i] := List.getElem?_eq_getElem (by lia)
    obtain ⟨id, hid, hget⟩ := ArgumentSet.find?_eq_some_iff.mp hfind
    have hargument : lineup.argumentAt? signature.args i = some argument :=
      Option.bind_eq_some_iff.mpr ⟨name, Lineup.takerAt?_of_front hi, hfind⟩
    refine ⟨_, hvalue, Bindings.gathers_bindEach hget (h.valuesFor_of_front hi hid hvalue) ?_⟩
    intro htype value hmem
    rw [List.mem_singleton.mp hmem]
    exact Lineup.exists_map_of_valuesFrom? hvalues hvalue hargument htype
  rest name argument hrest hfind := by
    obtain ⟨id, hid, hget⟩ := ArgumentSet.find?_eq_some_iff.mp hfind
    refine Bindings.gathers_bindEach hget (h.valuesFor_of_rest hrest hid hlength) ?_
    intro htype value hmem
    obtain ⟨i, hvalue⟩ := List.mem_iff_getElem?.mp hmem
    rw [List.getElem?_drop] at hvalue
    have hargument : lineup.argumentAt? signature.args (lineup.front.length + i) = some argument :=
      Option.bind_eq_some_iff.mpr
        ⟨name, (Lineup.takerAt?_of_le (Nat.le_add_right _ _)).trans hrest, hfind⟩
    exact Lineup.exists_map_of_valuesFrom? hvalues hvalue hargument htype

/-! ### The end of the line -/

/-- The line is closed with its bindings, if the argument at the end does not lack a value. -/
theorem close_eq_ok (hends : (signature.tree.frontier node).reachesFinish = true)
    (hholds : lineup.Holds signature.args values bindings)
    (hlacks : ∀ name, ¬ lineup.Lacks signature.args values.length name)
    (hlength : lineup.front.length ≤ values.length) :
    signature.matcher.close ⟨node, bindings⟩ = .ok bindings := by
  refine Matcher.close_eq_ok_iff.mpr ⟨hends, Bindings.firstUnbound?_eq_none fun id hid => ?_, rfl⟩
  have hsize : bindings.slots.length = signature.args.toList.length := by
    rw [← hholds.arguments, Bindings.arguments, List.length_map]
  obtain ⟨argument, hget⟩ : ∃ argument, signature.args.get? id = some argument :=
    ⟨_, List.getElem?_eq_getElem (hsize ▸ hid)⟩
  refine hholds.isSome_value? h.names hget fun hname => or_iff_not_imp_left.mpr fun hnil => ?_
  have hle := List.drop_eq_nil_iff.mp (not_ne_iff.mp hnil)
  by_contra hdefault
  exact hlacks argument.name ⟨hname, Nat.le_antisymm hle hlength, argument,
    signature.args.find?_eq_some_of_get? hget, Option.not_isSome_iff_eq_none.mp hdefault⟩

/-- Without a default and without a token, the argument at the end lacks a value. -/
theorem close_eq_unbound (hends : (signature.tree.frontier node).reachesFinish = true)
    (hholds : lineup.Holds signature.args values bindings)
    (hlacks : lineup.Lacks signature.args values.length name) :
    signature.matcher.close ⟨node, bindings⟩ = .error (.unbound name) := by
  obtain ⟨hname, hlength, argument, hfind, hdefault⟩ := hlacks
  obtain ⟨id, hid, hget⟩ := ArgumentSet.find?_eq_some_iff.mp hfind
  obtain ⟨found, hfound, rfl⟩ := ArgumentSet.get?_of_idOf?_eq_some hid
  cases hfound.symm.trans hget
  have hnone : bindings.value? id = none := by
    rw [← Bindings.get?_eq_value? hholds.arguments hid,
      (hholds.rest _ _ hname hfind).default (List.drop_eq_nil_of_le hlength.le), hdefault]
  -- Every other argument has a value, so this is the first without one wherever it is declared.
  have hunbound := Bindings.firstUnbound?_eq_some hholds.arguments hget hnone
    fun other hother hne => by
      obtain ⟨taker, htaker⟩ : ∃ taker, signature.args.get? other = some taker :=
        ⟨_, List.getElem?_eq_getElem hother⟩
      refine hholds.isSome_value? h.names htaker fun heq => absurd ?_ hne
      have hother := signature.args.idOf?_eq_some_of_get? htaker
      rw [Option.some.inj (heq.symm.trans hname), hid] at hother
      exact (Option.some.inj hother).symm
  have hend : (signature.matcher.tree.frontier node).reachesFinish = true := hends
  simp only [Matcher.close, hend, if_true, hunbound]

end LinesUp

/-! ### Whole lines -/

/-- The signature comes from a text that writes the lineup, or from the names of its arguments. -/
def HasLineup (signature : Signature) (lineup : Lineup) : Prop :=
  (∃ (command source : String) (text : WrittenLexemes) (limit : Nat),
    text.Writes (lineup.phrase command) ∧ source.toList = text.chars ∧
      ofSource source signature.args limit = .ok signature) ∨
  lineup = ⟨signature.args.names, none⟩ ∧
    ∃ command, positional command signature.args = .ok signature

theorem HasLineup.rules (h : signature.HasLineup lineup) :
    lineup.Rules signature.grammar.rules := by
  rcases h with ⟨command, source, text, limit, hwrites, hsource, h⟩ | ⟨rfl, command, h⟩
  · obtain ⟨grammar, hparse, h⟩ := bind_eq_ok_iff'.mp h
    have hdepth : limit = 0 ∨ (lineup.phrase command).depth ≤ limit :=
      limit.eq_zero_or_pos.imp_right lineup.depth_phrase_le.trans
    obtain ⟨other, hother, -, hrules⟩ :=
      Grammar.exists_parse_of_writes hwrites hsource hdepth
    cases hparse.symm.trans hother
    rw [(ofGrammar_eq_ok h).1]
    exact Lineup.rules_of_unplacedAll hrules
  · rw [(ofGrammar_eq_ok h).1]
    exact Lineup.rules_positionalRules 0 _ _

namespace LinesUp

variable {before after : List Token} {token : Token} {reason : ConversionError} {e : MatchError}
  (h : signature.LinesUp lineup)

include h

/-- Tokens with values are matched up to a node behind all of them. -/
theorem exists_run_initial (hvalues : lineup.valuesFrom? signature.args 0 tokens = some values) :
    ∃ last, signature.Stands lineup last tokens.length ∧
      signature.matcher.run signature.matcher.initial tokens = .ok
        ⟨last, signature.args.index.bindEach (lineup.bindsFrom signature.args 0 values)⟩ := by
  obtain ⟨last, hlast, hrun⟩ := stands_root.exists_run_eq_ok h hvalues
  rw [Nat.zero_add] at hlast
  exact ⟨last, hlast, hrun _⟩

/-- The error at a token behind tokens with values is that of the line. -/
theorem bind_eq_error_of_advance (hlength : lineup.front.length ≤ tokens.length)
    (htokens : tokens = before ++ token :: after)
    (hbefore : (lineup.valuesFrom? signature.args 0 before).isSome = true)
    (hadvance : ∀ node bindings, signature.Stands lineup node before.length →
      signature.matcher.advance ⟨node, bindings⟩ token = .error e) :
    signature.bind tokens = .error e := by
  obtain ⟨values, hvalues⟩ := Option.isSome_iff_exists.mp hbefore
  obtain ⟨mid, hmid, hrun⟩ := h.exists_run_initial hvalues
  rw [← h.rules.minimumArguments_eq] at hlength
  exact (Matcher.bind_eq_error_iff_of_le hlength).mpr
    (.inl (foldlM_eq_error_iff.mpr ⟨before, token, after, _, htokens, hrun, hadvance _ _ hmid⟩))

/-- A line with values for all its tokens is decided by what its end lacks. -/
theorem bind_eq_close (hvalues : lineup.valuesFrom? signature.args 0 tokens = some values)
    (hlength : lineup.front.length ≤ tokens.length) :
    ∃ node bindings, (signature.tree.frontier node).reachesFinish = true ∧
      lineup.Holds signature.args values bindings ∧
      signature.bind tokens = signature.matcher.close ⟨node, bindings⟩ := by
  obtain ⟨last, hlast, hrun⟩ := h.exists_run_initial hvalues
  have hsize := Lineup.length_of_valuesFrom? hvalues
  refine ⟨last, _, (hlast.reachesFinish_iff h).mpr hlength,
    h.holds hvalues (hsize.symm ▸ hlength), ?_⟩
  rw [← h.rules.minimumArguments_eq] at hlength
  rw [bind, Matcher.bind, hrun]
  exact if_neg (Nat.not_lt.mpr hlength)

/-- All arguments are declared, so where there is none it is nobody's turn. -/
theorem takerAt?_eq_none (hnone : lineup.argumentAt? signature.args place = none) :
    lineup.takerAt? place = none := by
  cases htaker : lineup.takerAt? place with
  | none => rfl
  | some name =>
    obtain ⟨id, hid⟩ := h.declared name (Lineup.mem_names_of_takerAt? htaker)
    obtain ⟨argument, hget, -⟩ := ArgumentSet.get?_of_idOf?_eq_some hid
    have hfind := ArgumentSet.find?_eq_some_iff.mpr ⟨id, hid, hget⟩
    simp [Lineup.argumentAt?, htaker, hfind] at hnone

/-- The first token without a value is a misfit, or there is no room for it. -/
theorem exists_fault_of_valuesFrom?_eq_none
    (hnone : lineup.valuesFrom? signature.args 0 tokens = none) :
    ∃ before token after, tokens = before ++ token :: after ∧
      (lineup.IsFull signature.args before ∨
        ∃ argument reason, lineup.Misfit signature.args before token argument reason) := by
  obtain ⟨before, token, after, htokens, hbefore, hvalue⟩ :=
    Lineup.exists_split_of_valuesFrom?_eq_none hnone
  refine ⟨before, token, after, htokens, ?_⟩
  rw [Nat.zero_add, Lineup.valueAt?] at hvalue
  cases hargument : lineup.argumentAt? signature.args before.length with
  | some argument =>
    rw [hargument, Option.bind_some] at hvalue
    obtain ⟨reason, hreason⟩ := toOption_eq_none_iff.mp hvalue
    exact .inr ⟨argument, reason, hbefore, hargument, hreason⟩
  | none =>
    have htaker := h.takerAt?_eq_none hargument
    obtain ⟨hfront, hrest⟩ := Option.or_eq_none_iff.mp htaker
    obtain ⟨values, hvalues⟩ := Option.isSome_iff_exists.mp hbefore
    exact .inl ⟨hbefore, hrest, Nat.le_antisymm (Lineup.length_le_of_valuesFrom? hvalues hrest)
      (List.getElem?_eq_none_iff.mp hfront)⟩

end LinesUp

/-- A line for a lineup with too few tokens is refused by their number. Otherwise the first token
that its argument has no value for is reported with the name of the argument, the text that it takes
of the token and the place of the token; a token with no room left for it is reported as one too
many, or as an unknown argument if it is `-name` or `name=value`; and if all tokens have values,
each argument holds those that are its own, unless the one at the end is given nothing and has no
default. One of these is the case for every line. -/
theorem bind_lineup (hlineup : signature.HasLineup lineup)
    (hnames : lineup.names.Perm signature.args.names) (tokens : List Token) :
    (tokens.length < lineup.front.length →
      signature.bind tokens = .error (.tooFewArguments lineup.front.length tokens.length)) ∧
    (lineup.front.length ≤ tokens.length →
      (∀ before token after argument reason, tokens = before ++ token :: after →
        lineup.Misfit signature.args before token argument reason →
        signature.bind tokens = .error (.conversion argument.name
          (lineup.textAt before.length token.value) reason token.span)) ∧
      (∀ before token after, tokens = before ++ token :: after →
        lineup.IsFull signature.args before →
        (¬ Sentence.IsAddress token.value →
          signature.bind tokens = .error (.tooManyArguments token)) ∧
        (Sentence.IsAddress token.value →
          signature.bind tokens = .error (.unknownArgument token))) ∧
      (∀ values, lineup.valuesFrom? signature.args 0 tokens = some values →
        ((∀ name, ¬ lineup.Lacks signature.args tokens.length name) →
          ∃ bindings, signature.bind tokens = .ok bindings ∧
            lineup.Holds signature.args values bindings) ∧
        ∀ name, lineup.Lacks signature.args tokens.length name →
          signature.bind tokens = .error (.unbound name)) ∧
      ((∃ values, lineup.valuesFrom? signature.args 0 tokens = some values) ∨
        ∃ before token after, tokens = before ++ token :: after ∧
          (lineup.IsFull signature.args before ∨
            ∃ argument reason, lineup.Misfit signature.args before token argument reason))) := by
  have h : signature.LinesUp lineup := ⟨hlineup.rules, hnames⟩
  refine ⟨fun hlength => ?_, fun hlength => ⟨?_, ?_, ?_, ?_⟩⟩
  · rw [← h.rules.minimumArguments_eq] at hlength ⊢
    exact if_pos hlength
  · intro before token after argument reason htokens hmisfit
    exact h.bind_eq_error_of_advance hlength htokens hmisfit.fits fun _ _ hstands =>
      hstands.advance_eq_conversion h hmisfit.taker hmisfit.refuses
  · -- Where there is no room left, the line may end, so a bare token is one too many.
    intro before token after htokens hfull
    have htaker : lineup.takerAt? before.length = none :=
      (Lineup.takerAt?_of_le hfull.length_eq.ge).trans hfull.rest
    have hreject := h.bind_eq_error_of_advance hlength htokens hfull.fits fun _ _ hstands =>
      hstands.advance_eq_reject h htaker
    rw [hreject]
    refine ⟨fun hbare => ?_, fun haddress => ?_⟩
    · rw [if_pos (Shape.of_eq_bare_iff.mpr hbare)]
    · rw [if_neg fun hbare => Shape.of_eq_bare_iff.mp hbare haddress]
  · intro values hvalues
    obtain ⟨node, bindings, hends, hholds, hbind⟩ := h.bind_eq_close hvalues hlength
    rw [hbind, ← Lineup.length_of_valuesFrom? hvalues] at *
    exact ⟨fun hlacks => ⟨bindings, h.close_eq_ok hends hholds hlacks hlength, hholds⟩,
      fun name => h.close_eq_unbound hends hholds⟩
  · cases hvalues : lineup.valuesFrom? signature.args 0 tokens with
    | some values => exact .inl ⟨values, rfl⟩
    | none => exact .inr (h.exists_fault_of_valuesFrom?_eq_none hvalues)

end Signature

/-- Lines of `load path [n]@`, whose arguments are declared in another order: the own name of `path`
is taken off, that of `n` is not, and `n` has no default. -/
theorem bind_lineup_load :
    let args : ArgumentSet := ⟨[⟨"n", .int, none, none⟩, ⟨"path", .str, none, none⟩], by simp⟩
    let lineup : Lineup := ⟨["path"], some "n"⟩
    ∃ signature : Signature, signature.HasLineup lineup ∧ signature.args = args ∧
      lineup.names.Perm args.names ∧
      (∃ bindings, signature.bind
          [⟨"path=a=b", ⟨5, 13⟩⟩, ⟨"1", ⟨14, 15⟩⟩, ⟨"2", ⟨16, 17⟩⟩] = .ok bindings ∧
        bindings.get? "path" = some (.str "a=b") ∧
        bindings.get? "n" = some (.list [.int 1, .int 2])) ∧
      signature.bind [⟨"a", ⟨5, 6⟩⟩, ⟨"1", ⟨7, 8⟩⟩, ⟨"n=2", ⟨9, 12⟩⟩] =
        .error (.conversion "n" "n=2" (.notNumber "n=2") ⟨9, 12⟩) ∧
      signature.bind [⟨"a", ⟨5, 6⟩⟩] = .error (.unbound "n") := by
  intro args lineup
  obtain ⟨signature, hsource⟩ : ∃ signature, Signature.ofSource "load path [n]@" args 16 =
      .ok signature := exists_eq_ok_of_isOk (by decide +kernel)
  obtain ⟨grammar, -, hgrammar⟩ := bind_eq_ok_iff'.mp hsource
  obtain ⟨-, hargs⟩ := Signature.ofGrammar_eq_ok hgrammar
  let text : WrittenLexemes := ⟨[], [(.word "load", [' ']), (.word "path", [' ']), (.opening, []),
    (.word "n", []), (.closing, []), (.operator .freeForm, [])]⟩
  have hlineup : signature.HasLineup lineup := by
    refine .inl
      ⟨"load", "load path [n]@", text, 16, ⟨?_, ?_, by decide⟩, by decide, hargs ▸ hsource⟩
    · simp [lineup, Lineup.phrase, Lineup.clauses, Phrase.IsSound, Clause.isGroup, Clause.AreSound,
        Clause.IsSound, Clause.AreSoundAlternatives]
    · refine ⟨by decide, ?_, ?_⟩
      · simp only [text, WrittenLexemes.IsSpaced]
        decide +kernel
      · simp [text, Lexeme.Kind.IsSound, Lexeme.Kind.IsName]
        decide +kernel
  have hnames : lineup.names.Perm signature.args.names := by
    rw [hargs]
    decide
  refine ⟨signature, hlineup, hargs, hargs ▸ hnames, ?_, ?_, ?_⟩
  · have hvalues : lineup.valuesFrom? signature.args 0
        [⟨"path=a=b", ⟨5, 13⟩⟩, ⟨"1", ⟨14, 15⟩⟩, ⟨"2", ⟨16, 17⟩⟩] =
          some [.str "a=b", .int 1, .int 2] := by
      rw [hargs]
      decide +kernel
    obtain ⟨-, hle⟩ := Signature.bind_lineup hlineup hnames
      [⟨"path=a=b", ⟨5, 13⟩⟩, ⟨"1", ⟨14, 15⟩⟩, ⟨"2", ⟨16, 17⟩⟩]
    obtain ⟨-, -, hdecided, -⟩ := hle (by decide)
    obtain ⟨bindings, hbind, hholds⟩ :=
      (hdecided _ hvalues).1 fun name hlacks => by cases hlacks.2.1
    refine ⟨bindings, hbind, ?_, ?_⟩
    · obtain ⟨value, hvalue, hgathers⟩ := hholds.front 0 "path" ⟨"path", .str, none, none⟩ rfl
        (by rw [hargs]; rfl)
      cases hvalue
      exact hgathers.single _ rfl
    · have hgathers := hholds.rest "n" ⟨"n", .int, none, none⟩ rfl (by rw [hargs]; rfl)
      exact hgathers.listed trivial (by decide)
  · have hmisfit : lineup.Misfit signature.args [⟨"a", ⟨5, 6⟩⟩, ⟨"1", ⟨7, 8⟩⟩] ⟨"n=2", ⟨9, 12⟩⟩
        ⟨"n", .int, none, none⟩ (.notNumber "n=2") := by
      have hnumber : Text.readInt? (Text.trim "n=2".toList) = none := by decide +kernel
      rw [hargs]
      refine ⟨by decide +kernel, rfl, ?_⟩
      change ArgType.int.convert "n=2" = _
      simp only [ArgType.convert, hnumber]
    obtain ⟨-, hle⟩ := Signature.bind_lineup hlineup hnames
      [⟨"a", ⟨5, 6⟩⟩, ⟨"1", ⟨7, 8⟩⟩, ⟨"n=2", ⟨9, 12⟩⟩]
    exact (hle (by decide)).1 _ _ [] _ _ rfl hmisfit
  · have hvalues : lineup.valuesFrom? signature.args 0 [⟨"a", ⟨5, 6⟩⟩] = some [.str "a"] := by
      rw [hargs]
      decide +kernel
    obtain ⟨-, hle⟩ := Signature.bind_lineup hlineup hnames [⟨"a", ⟨5, 6⟩⟩]
    obtain ⟨-, -, hdecided, -⟩ := hle (by decide)
    exact (hdecided _ hvalues).2 "n"
      ⟨rfl, rfl, ⟨"n", .int, none, none⟩, by rw [hargs]; rfl, rfl⟩

end CommandShell
