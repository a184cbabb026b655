import CommandShell.Matching.Lineup
import CommandShell.Proofs.Argument.Accumulation
import Mathlib.Data.Set.List

/-!
# What arguments hold in the end

The values of a line are bound one after the other, each to its own argument. What an argument holds
in the end depends only on the values that were bound to it, so this is stated for those alone.

## Main results

* `Bindings.gathers_bindEach` — an argument gathers the values that were bound to it
* `Bindings.Gathers.isSome_get?_iff` — it has a value if it was given one or has a default
* `Bindings.firstUnbound?_eq_some` — the only argument without a value is the one that is missed
-/

namespace CommandShell

/-! ### Arguments -/

/-- The argument with a name is the one at the place of the name. -/
theorem ArgumentSet.find?_eq_some_iff {args : ArgumentSet} {name : String} {argument : Argument} :
    args.find? name = some argument ↔
      ∃ id, args.idOf? name = some id ∧ args.get? id = some argument := by
  rw [find?, List.find?_eq_bind_findIdx?_getElem?]
  exact Option.bind_eq_some_iff

theorem ArgumentSet.find?_eq_some_of_get? (args : ArgumentSet) {id : ArgId} {argument : Argument}
    (h : args.get? id = some argument) : args.find? argument.name = some argument :=
  find?_eq_some_iff.mpr ⟨id, args.idOf?_eq_some_of_get? h, h⟩

/-- No two names have one place. -/
theorem ArgumentSet.eq_of_idOf?_eq_some {args : ArgumentSet} {name other : String} {id : ArgId}
    (h : args.idOf? name = some id) (h' : args.idOf? other = some id) : name = other := by
  obtain ⟨argument, hget, rfl⟩ := get?_of_idOf?_eq_some h
  obtain ⟨argument', hget', rfl⟩ := get?_of_idOf?_eq_some h'
  rw [Option.some.inj (hget.symm.trans hget')]

theorem ArgType.exists_map_of_convert {raw : String} {value : Value}
    (h : ArgType.map.convert raw = .ok value) : ∃ dict, Value.map dict = value := by
  unfold convert at h
  dsimp only at h
  split at h <;> cases h
  exact ⟨_, rfl⟩

namespace Bindings

variable {args : ArgumentSet} {bindings : Bindings} {id : ArgId} {argument : Argument}
  {given : List Value} {binds : List (ArgId × Value)}

theorem valuesFor_append (first rest : List (ArgId × Value)) :
    valuesFor id (first ++ rest) = valuesFor id first ++ valuesFor id rest := by
  simp [valuesFor]

/-- An argument gathers the values that are bound to it. -/
theorem gathers_bindEach (hget : args.get? id = some argument)
    (hgiven : valuesFor id binds = given)
    (hmaps : argument.type = .map → ∀ value ∈ given, ∃ dict, Value.map dict = value) :
    (args.index.bindEach binds).Gathers argument given := by
  have harguments : (args.index.bindEach binds).arguments = args.toList := by
    rw [arguments_bindEach, arguments_index]
  have hslot : (args.index.bindEach binds).slot? id =
      some ((Slot.fresh argument).bindEach given) := by
    rw [slot?_bindEach, slot?_index hget, hgiven]
    rfl
  have hvalue : (args.index.bindEach binds).get? argument.name =
      ((Slot.fresh argument).bindEach given).value := by
    rw [get?_eq_value? harguments (args.idOf?_eq_some_of_get? hget), value?, hslot,
      Option.bind_some]
  refine ⟨?_, ?_, ?_, ?_, ?_, ?_⟩
  · rw [matched_eq harguments hget hslot, (Slot.matched_bindEach _ _).1, Slot.fresh, Nat.zero_add]
  · rintro rfl
    exact hvalue
  · rintro value rfl
    exact hvalue.trans (Slot.value_bind_fresh argument value)
  · intro hne
    rw [hvalue]
    exact Slot.isSome_value_bindEach _ hne
  · intro htype hlength
    rw [hvalue, Slot.value_bindEach_fresh (ArgType.repeats_eq_append_iff.mpr htype),
      Value.gather_of_two_le hlength]
  · intro htype hne
    obtain ⟨maps, rfl⟩ : given ∈ Set.range (List.map Value.map) := by
      rw [Set.range_list_map]
      exact hmaps htype
    have hmode : argument.type.repeats = .merge := by rw [htype]; rfl
    obtain ⟨first, others, rfl⟩ := List.exists_cons_of_ne_nil fun hnil : maps = [] =>
      hne (by rw [hnil]; rfl)
    exact ⟨_, first.merge others, rfl, hvalue.trans (Slot.value_bindEach_fresh_map hmode ..),
      Dict.keys_merge first others, Dict.get?_merge first others⟩

/-- An argument has a value if one was given to it or if it has a default. -/
theorem Gathers.isSome_get?_iff (h : bindings.Gathers argument given) :
    (bindings.get? argument.name).isSome = true ↔ given ≠ [] ∨ argument.default?.isSome = true := by
  cases given with
  | nil => simp [h.default rfl]
  | cons first others =>
    exact iff_of_true (h.bound (List.cons_ne_nil _ _)) (.inl (List.cons_ne_nil _ _))

/-- The only argument without a value is the first one. -/
theorem firstUnbound?_eq_some (harguments : bindings.arguments = args.toList)
    (hget : args.get? id = some argument) (hnone : bindings.value? id = none)
    (hothers : ∀ other < args.size, other ≠ id → (bindings.value? other).isSome = true) :
    bindings.firstUnbound? = some argument := by
  obtain ⟨slot, hslot, hargument⟩ : ∃ slot, bindings.slot? id = some slot ∧
      slot.argument = argument := by
    rw [ArgumentSet.get?, ← harguments, arguments, List.getElem?_map] at hget
    exact Option.map_eq_some_iff.mp hget
  have hvalue : slot.value = none := by rwa [value?, hslot, Option.bind_some] at hnone
  have hsome : (bindings.slots.find? (·.value.isNone)).isSome = true :=
    List.find?_isSome.mpr ⟨slot, List.mem_of_getElem? hslot, by rw [hvalue]; rfl⟩
  obtain ⟨found, hfound⟩ := Option.isSome_iff_exists.mp hsome
  rw [firstUnbound?, hfound, Option.map_some]
  obtain ⟨other, hother⟩ := List.mem_iff_getElem?.mp (List.mem_of_find?_eq_some hfound)
  obtain ⟨hlt, -⟩ := List.getElem?_eq_some_iff.mp hother
  have hsize : bindings.slots.length = args.size := by
    rw [ArgumentSet.size, ← harguments, arguments, List.length_map]
  have hempty : bindings.value? other = none := by
    rw [value?, slot?, hother, Option.bind_some]
    simpa using List.find?_some hfound
  obtain rfl : other = id := by
    by_contra hne
    simpa [hempty] using hothers other (hsize ▸ hlt) hne
  rw [Option.some.inj (hother.symm.trans hslot), hargument]

end Bindings

end CommandShell
