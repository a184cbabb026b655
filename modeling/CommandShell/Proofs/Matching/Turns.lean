import CommandShell.Proofs.Argument.Gathering
import CommandShell.Proofs.Matching.Sentence
import CommandShell.Proofs.Rule.Lineup
import CommandShell.Proofs.Tree.Residual

/-!
# Whose turn it is

The tokens of a line that a lineup takes are matched in a row. Behind as many tokens as there are in
front of a place, only the node of one argument can come next: the one whose turn it is. It takes
the token, whatever that is, and the turn passes on. Where it is nobody's turn, the token is one too
many.

## Main definitions

* `Lineup.idAt?`, `Lineup.bindsFrom` — what tokens in a row bind
* `Signature.LinesUp` — the signature is that of a lineup
* `Signature.Stands` — a node behind tokens in a row

## Main results

* `Stands.exists_next_iff`, `Stands.reachesFinish_iff` — what can come next, and where the line may
  end
* `Stands.advance_eq_ok`, `Stands.advance_eq_conversion`, `Stands.advance_eq_reject` — what one
  token does
* `Stands.exists_run_eq_ok` — tokens with values are bound in a row
-/

namespace CommandShell

namespace Lineup

variable {lineup : Lineup} {args : ArgumentSet} {name : String} {place : Nat}
  {values : List Value} {token : Token} {tokens : List Token}

/-! ### Places -/

theorem takerAt?_of_front (h : lineup.front[place]? = some name) :
    lineup.takerAt? place = some name := by
  rw [takerAt?, h, Option.some_or]

theorem takerAt?_of_le (h : lineup.front.length ≤ place) :
    lineup.takerAt? place = lineup.rest? := by
  rw [takerAt?, List.getElem?_eq_none h, Option.none_or]

theorem mem_names_of_takerAt? (h : lineup.takerAt? place = some name) : name ∈ lineup.names := by
  rw [takerAt?, Option.or_eq_some_iff] at h
  rcases h with h | ⟨-, h⟩
  · exact List.mem_append_left _ (List.mem_of_getElem? h)
  · exact List.mem_append_right _ (by simp [h])

/-! ### Binds -/

/-- The place, among all arguments, of the one that takes the token at a place. -/
def idAt? (lineup : Lineup) (args : ArgumentSet) (place : Nat) : Option ArgId :=
  (lineup.takerAt? place).bind args.idOf?

/-- The values of tokens, the first of which stands at `place`, with the arguments that take
them. -/
def bindsFrom (lineup : Lineup) (args : ArgumentSet) (place : Nat) :
    List Value → List (ArgId × Value)
  | [] => []
  | value :: values =>
    (lineup.idAt? args place).toList.map (·, value) ++ lineup.bindsFrom args (place + 1) values

theorem symbolAt?_eq_none (h : lineup.takerAt? place = none) :
    lineup.symbolAt? args place = none := by
  obtain ⟨hfront, hrest⟩ := Option.or_eq_none_iff.mp h
  rw [symbolAt?, hfront, hrest]
  rfl

/-! ### Values -/

theorem valuesFrom?_cons_eq_some_iff :
    lineup.valuesFrom? args place (token :: tokens) = some values ↔
      ∃ value rest, lineup.valueAt? args place token.value = some value ∧
        lineup.valuesFrom? args (place + 1) tokens = some rest ∧ values = value :: rest := by
  simp only [valuesFrom?, Option.bind_eq_some_iff, Option.map_eq_some_iff]
  constructor
  · rintro ⟨value, hvalue, rest, hrest, rfl⟩
    exact ⟨value, rest, hvalue, hrest, rfl⟩
  · rintro ⟨value, rest, hvalue, hrest, rfl⟩
    exact ⟨value, hvalue, rest, hrest, rfl⟩

end Lineup

/-! ### Signatures of lineups -/

/-- The grammar of the signature is that of the lineup, and the lineup names its arguments. -/
structure Signature.LinesUp (signature : Signature) (lineup : Lineup) : Prop where
  rules : lineup.Rules signature.grammar.rules
  names : lineup.names.Perm signature.args.names

namespace Signature

variable {signature : Signature} {lineup : Lineup} {node : NodeId} {place : Nat}
  {word name : String}
  {symbol : Symbol} {argument : Argument} {value : Value} {bindings : Bindings} {token : Token}
  {tokens : List Token} {values : List Value}

namespace LinesUp

variable (h : signature.LinesUp lineup)

include h

theorem declared : ∀ name ∈ lineup.names, ∃ id, signature.args.idOf? name = some id := by
  intro name hname
  refine Option.isSome_iff_exists.mp (Option.isSome_iff_ne_none.mpr fun hnone => ?_)
  exact ArgumentSet.idOf?_eq_none_iff.mp hnone (h.names.mem_iff.mp hname)

theorem nodup : lineup.names.Nodup := h.names.nodup_iff.mpr signature.args.nodup

/-- No two nodes of the tree have the same symbol, since they have different names. -/
theorem nodup_spoken : signature.tree.spoken.Nodup := by
  refine .sublist (Tree.spoken_build signature.tree_eq) (.of_map Symbol.label ?_)
  rw [h.rules.labels_spoken h.declared]
  exact h.nodup

end LinesUp

/-- As many tokens as `place` says have been taken in a row, and have led to the node. -/
def Stands (signature : Signature) (lineup : Lineup) (node : NodeId) (place : Nat) : Prop :=
  ∃ before : List Symbol, before.length = place ∧ lineup.Admits signature.args before ∧
    signature.tree.Follows Tree.root before node

theorem stands_root : signature.Stands lineup Tree.root 0 :=
  ⟨[], rfl, Lineup.admits_nil, .here _⟩

namespace Stands

variable (hl : signature.LinesUp lineup) (h : signature.Stands lineup node place)

include hl h

/-- The line may end where every argument in front has its token. -/
theorem reachesFinish_iff :
    (signature.tree.frontier node).reachesFinish = true ↔ lineup.front.length ≤ place := by
  obtain ⟨before, rfl, hadmits, hfollows⟩ := h
  rw [Tree.reachesFinish_iff signature.tree_eq hl.rules.getLast?_eq hl.nodup_spoken hfollows,
    hl.rules.spellsAll_iff hl.declared, and_iff_left hadmits]

/-- The symbol at the place is the one that can come next. -/
theorem exists_next_iff :
    (∃ next ∈ (signature.tree.frontier node).nodes, signature.tree.symbol? next = some symbol) ↔
      lineup.symbolAt? signature.args place = some symbol := by
  obtain ⟨before, rfl, hadmits, hfollows⟩ := h
  rw [Tree.exists_next_iff signature.tree_eq hl.rules.getLast?_eq hl.nodup_spoken hfollows]
  simp only [hl.rules.spellsAll_iff hl.declared]
  constructor
  · rintro ⟨after, -, hafter⟩
    rw [List.append_cons] at hafter
    exact (Lineup.admits_concat_iff.mp hafter.of_append).2
  · intro hsymbol
    obtain ⟨after, hafter⟩ := Lineup.Admits.exists_append hl.declared
      (Lineup.admits_concat_iff.mpr ⟨hadmits, hsymbol⟩)
    exact ⟨after, by rwa [List.append_cons]⟩

/-- Only one node can come next, if an argument takes the token. -/
theorem exists_select?_eq (hsymbol : lineup.symbolAt? signature.args place = some symbol) :
    ∃ next, signature.tree.symbol? next = some symbol ∧ signature.Stands lineup next (place + 1) ∧
      ∀ word, signature.matcher.select? (signature.tree.frontier node) word =
        signature.matcher.accept? next word := by
  obtain ⟨next, hmem, hnext⟩ := (h.exists_next_iff hl).mpr hsymbol
  -- All nodes that can come next have the one symbol of this place, and the symbol tells the node.
  have honly : ∀ other ∈ (signature.tree.frontier node).nodes, other = next := by
    intro other hother
    obtain ⟨-, found, hfound, hkind⟩ := Tree.mem_nodes_frontier_iff.mp hother
    have hat := (h.exists_next_iff hl).mp ⟨other, hother, Tree.symbol?_of_node? hfound⟩
    cases hat.symm.trans hsymbol
    exact Tree.eq_of_symbol?_eq hl.nodup_spoken (Tree.symbol?_of_node? hfound) hnext hkind
  refine ⟨next, hnext, ?_, fun word => Matcher.select?_of_forall_eq hmem honly⟩
  obtain ⟨before, rfl, hadmits, hfollows⟩ := h
  exact ⟨before ++ [symbol], by simp, Lineup.admits_concat_iff.mpr ⟨hadmits, hsymbol⟩,
    hfollows.concat hmem hnext⟩

/-- The argument whose turn it is takes the token, whatever that is. -/
theorem select?_eq_some (htaker : lineup.takerAt? place = some name) :
    ∃ id next, signature.args.idOf? name = some id ∧ signature.Stands lineup next (place + 1) ∧
      ∀ word, signature.matcher.select? (signature.tree.frontier node) word =
        some ⟨next, some (id, lineup.textAt place word)⟩ := by
  obtain ⟨id, hid⟩ := hl.declared name (Lineup.mem_names_of_takerAt? htaker)
  rw [Lineup.takerAt?, Option.or_eq_some_iff] at htaker
  rcases htaker with hfront | ⟨hfront, hrest⟩
  · obtain ⟨next, hnext, hstands, hselect⟩ :=
      h.exists_select?_eq hl (Lineup.symbolAt?_of_front hfront hid)
    refine ⟨id, next, hid, hstands, fun word => ?_⟩
    rw [hselect, Matcher.accept?_argument signature.isBuilt_matcher hnext, Lineup.textAt, hfront]
  · obtain ⟨next, hnext, hstands, hselect⟩ :=
      h.exists_select?_eq hl (Lineup.symbolAt?_of_rest hfront hrest hid)
    refine ⟨id, next, hid, hstands, fun word => ?_⟩
    rw [hselect, Matcher.accept?_freeForm hnext, Lineup.textAt, hfront]

/-- Nothing takes a token that is too many. -/
theorem select?_eq_none (htaker : lineup.takerAt? place = none) :
    signature.matcher.select? (signature.tree.frontier node) word = none := by
  refine List.findSome?_eq_none_iff.mpr fun next hmem => ?_
  obtain ⟨-, found, hfound, -⟩ := Tree.mem_nodes_frontier_iff.mp hmem
  have hat := (h.exists_next_iff hl).mp ⟨next, hmem, Tree.symbol?_of_node? hfound⟩
  cases (Lineup.symbolAt?_eq_none htaker).symm.trans hat

/-! ### Single tokens -/

/-- The token is converted and bound as its argument says. -/
theorem advance_eq (hargument : lineup.argumentAt? signature.args place = some argument) :
    ∃ id next, lineup.idAt? signature.args place = some id ∧
      signature.args.get? id = some argument ∧ signature.Stands lineup next (place + 1) ∧
      ∀ bindings token, signature.matcher.advance ⟨node, bindings⟩ token =
        (signature.matcher.convert id (lineup.textAt place token.value) token.span).map
          fun value => ⟨next, bindings.bind id value⟩ := by
  obtain ⟨name, htaker, hfind⟩ := Option.bind_eq_some_iff.mp hargument
  obtain ⟨id, hid, hget⟩ := ArgumentSet.find?_eq_some_iff.mp hfind
  obtain ⟨other, next, hother, hstands, hselect⟩ := h.select?_eq_some hl htaker
  cases hother.symm.trans hid
  refine ⟨id, next, Option.bind_eq_some_iff.mpr ⟨name, htaker, hid⟩, hget, hstands,
    fun bindings token => ?_⟩
  have hselected : signature.matcher.select? (signature.matcher.tree.frontier node) token.value =
      _ := hselect token.value
  simp only [Matcher.advance, hselected, Matcher.record]
  cases signature.matcher.convert id (lineup.textAt place token.value) token.span <;> rfl

/-- A text with a value is bound to the argument whose turn it is. -/
theorem advance_eq_ok (hvalue : lineup.valueAt? signature.args place token.value = some value) :
    ∃ id next, lineup.idAt? signature.args place = some id ∧
      signature.Stands lineup next (place + 1) ∧ ∀ bindings,
        signature.matcher.advance ⟨node, bindings⟩ token = .ok ⟨next, bindings.bind id value⟩ := by
  obtain ⟨argument, hargument, hvalue⟩ := Option.bind_eq_some_iff.mp hvalue
  obtain ⟨id, next, hid, hget, hstands, hadvance⟩ := h.advance_eq hl hargument
  refine ⟨id, next, hid, hstands, fun bindings => ?_⟩
  rw [hadvance, (Matcher.convert_eq_ok_iff hget).mpr]
  · rfl
  · rwa [ArgumentSet.value?, show signature.matcher.args.get? id = _ from hget]

/-- A text without a value is reported with its argument and the place of its token. -/
theorem advance_eq_conversion {reason : ConversionError}
    (hargument : lineup.argumentAt? signature.args place = some argument)
    (hreason : argument.type.convert (lineup.textAt place token.value) = .error reason) :
    signature.matcher.advance ⟨node, bindings⟩ token =
      .error (.conversion argument.name (lineup.textAt place token.value) reason token.span) := by
  obtain ⟨id, next, -, hget, -, hadvance⟩ := h.advance_eq hl hargument
  rw [hadvance, Matcher.convert, show signature.matcher.args.get? id = _ from hget]
  simp only [hreason]
  rfl

/-- A token that is too many is reported by how it presents itself. -/
theorem advance_eq_reject (htaker : lineup.takerAt? place = none) :
    signature.matcher.advance ⟨node, bindings⟩ token =
      .error (if Shape.of token.value = .bare then .tooManyArguments token
        else .unknownArgument token) := by
  have hend := (h.reachesFinish_iff hl).mpr
    (List.getElem?_eq_none_iff.mp (Option.or_eq_none_iff.mp htaker).1)
  have hselected : signature.matcher.select? (signature.matcher.tree.frontier node) token.value =
      none := h.select?_eq_none hl htaker
  have hend' : (signature.matcher.tree.frontier node).reachesFinish = true := hend
  simp only [Matcher.advance, hselected, Matcher.reject, hend', true_and]

/-! ### Runs -/

/-- Tokens with values are bound in a row. -/
theorem exists_run_eq_ok (hvalues : lineup.valuesFrom? signature.args place tokens = some values) :
    ∃ last, signature.Stands lineup last (place + tokens.length) ∧ ∀ bindings,
      signature.matcher.run ⟨node, bindings⟩ tokens =
        .ok ⟨last, bindings.bindEach (lineup.bindsFrom signature.args place values)⟩ := by
  induction tokens generalizing node place values with
  | nil =>
    cases hvalues
    exact ⟨node, h, fun bindings => rfl⟩
  | cons token tokens ih =>
    obtain ⟨value, rest, hvalue, hrest, rfl⟩ := Lineup.valuesFrom?_cons_eq_some_iff.mp hvalues
    obtain ⟨id, next, hid, hstands, hadvance⟩ := h.advance_eq_ok hl hvalue
    obtain ⟨last, hlast, hrun⟩ := ih hstands hrest
    refine ⟨last, ?_, fun bindings => ?_⟩
    · rwa [List.length_cons, Nat.add_comm tokens.length, ← Nat.add_assoc]
    · rw [Matcher.run, List.foldlM_cons, hadvance]
      refine (hrun _).trans ?_
      rw [Lineup.bindsFrom, hid]
      rfl

end Stands

end Signature

end CommandShell
