import CommandShell.Argument.Bindings

/-!
# Binding raw texts

What is given to the arguments of a command is a list of raw texts, which are converted and bound
one after the other. Binding never takes a value away, so the arguments with a value in the end are
those with a default and those that something was given to.

## Main definitions

* `ArgumentSet.value?` — the value of a raw text for an argument
* `Bindings.bindAll?` — the bindings after a list of raw texts

## Main results

* `Bindings.exists_bindAll?` — raw texts that can be converted can be bound
* `Bindings.firstUnbound?_bindAll?_index` — which raw texts leave no argument without a value
* `Bindings.value?_bindAll?_of_forall_ne` — an argument that is given nothing keeps its value
* `Bindings.get?_eq_value?` — arguments by name and by place
-/

namespace CommandShell

/-- The name of an argument leads back to it, since no other has it. -/
theorem ArgumentSet.idOf?_eq_some_of_get? (args : ArgumentSet) {id : ArgId} {argument : Argument}
    (h : args.get? id = some argument) : args.idOf? argument.name = some id := by
  obtain ⟨hlt, rfl⟩ := List.getElem?_eq_some_iff.mp h
  rw [idOf?, List.findIdx?_eq_some_iff_getElem]
  refine ⟨hlt, by simp, fun other hother heq => ?_⟩
  have hlength : id < (args.toList.map Argument.name).length := by simpa using hlt
  have hne := List.pairwise_iff_getElem.mp args.nodup other id (Nat.lt_trans hother hlength)
    hlength hother
  exact hne (by simpa using heq)

/-- The value of a raw text for an argument. -/
def ArgumentSet.value? (args : ArgumentSet) (id : ArgId) (raw : String) : Option Value :=
  (args.get? id).bind fun arg => (arg.type.convert raw).toOption

namespace Bindings

variable {args : ArgumentSet} {bindings bindings' : Bindings} {id other : ArgId} {raw : String}
  {value : Value} {given : List (ArgId × String)}

/-- The bindings after the raw texts have been converted and bound, one after the other. -/
def bindAll? (args : ArgumentSet) (bindings : Bindings) (given : List (ArgId × String)) :
    Option Bindings :=
  given.foldlM (fun bindings (id, raw) => (args.value? id raw).map (bindings.bind id)) bindings

theorem bindAll?_cons_eq_some_iff :
    bindings.bindAll? args ((id, raw) :: given) = some bindings' ↔
      ∃ value, args.value? id raw = some value ∧
        (bindings.bind id value).bindAll? args given = some bindings' := by
  rw [bindAll?, List.foldlM_cons]
  cases hvalue : args.value? id raw <;> simp [bindAll?, hvalue]

/-- Raw texts that can be converted can be bound. -/
theorem exists_bindAll?
    (h : ∀ id raw, (id, raw) ∈ given → ∃ value, args.value? id raw = some value) :
    ∃ bindings', bindings.bindAll? args given = some bindings' := by
  induction given generalizing bindings with
  | nil => exact ⟨bindings, rfl⟩
  | cons pair given ih =>
    obtain ⟨id, raw⟩ := pair
    obtain ⟨value, hvalue⟩ := h id raw List.mem_cons_self
    obtain ⟨bindings', hbind⟩ := ih fun id raw hmem => h id raw (List.mem_cons_of_mem _ hmem)
    exact ⟨bindings', bindAll?_cons_eq_some_iff.mpr ⟨value, hvalue, hbind⟩⟩

/-! ### Which arguments have a value -/

theorem size_bind : (bindings.bind id value).slots.length = bindings.slots.length := by
  rw [bind, List.length_modify]

theorem isSome_value?_bind_self (h : id < bindings.slots.length) :
    ((bindings.bind id value).value? id).isSome = true := by
  rw [value?, slot?_bind_self, slot?, List.getElem?_eq_getElem h]
  rfl

/-- Binding takes no value away. -/
theorem isSome_value?_bind (h : (bindings.value? other).isSome = true) :
    ((bindings.bind id value).value? other).isSome = true := by
  by_cases hid : other = id
  · subst hid
    obtain ⟨slot, hslot, -⟩ := Option.bind_eq_some_iff.mp (Option.eq_some_of_isSome h)
    exact isSome_value?_bind_self (List.getElem?_eq_some_iff.mp hslot).1
  · rwa [value?, slot?_bind_of_ne bindings value hid]

theorem size_bindAll? (h : bindings.bindAll? args given = some bindings') :
    bindings'.slots.length = bindings.slots.length := by
  induction given generalizing bindings with
  | nil =>
    cases h
    rfl
  | cons pair given ih =>
    obtain ⟨id, raw⟩ := pair
    obtain ⟨value, -, h⟩ := bindAll?_cons_eq_some_iff.mp h
    rw [ih h, size_bind]

theorem isSome_value?_bindAll? (h : bindings.bindAll? args given = some bindings')
    (hvalue : (bindings.value? id).isSome = true) : (bindings'.value? id).isSome = true := by
  induction given generalizing bindings with
  | nil =>
    cases h
    exact hvalue
  | cons pair given ih =>
    obtain ⟨other, raw⟩ := pair
    obtain ⟨value, -, h⟩ := bindAll?_cons_eq_some_iff.mp h
    exact ih h (isSome_value?_bind hvalue)

/-- An argument that a raw text is given to has a value in the end. -/
theorem isSome_value?_bindAll?_of_mem (h : bindings.bindAll? args given = some bindings')
    (hid : id < bindings.slots.length) (hmem : (id, raw) ∈ given) :
    (bindings'.value? id).isSome = true := by
  induction given generalizing bindings with
  | nil => exact absurd hmem List.not_mem_nil
  | cons pair given ih =>
    obtain ⟨other, raw'⟩ := pair
    obtain ⟨value, -, hrest⟩ := bindAll?_cons_eq_some_iff.mp h
    rcases List.mem_cons.mp hmem with heq | hmem
    · cases heq
      exact isSome_value?_bindAll? hrest (isSome_value?_bind_self hid)
    · refine ih hrest ?_ hmem
      rwa [size_bind]

theorem firstUnbound?_eq_none
    (h : ∀ id < bindings.slots.length, (bindings.value? id).isSome = true) :
    bindings.firstUnbound? = none := by
  rw [firstUnbound?, Option.map_eq_none_iff, List.find?_eq_none]
  intro slot hmem
  obtain ⟨id, hid, rfl⟩ := List.mem_iff_getElem.mp hmem
  have hvalue := h id hid
  rw [value?, slot?, List.getElem?_eq_getElem hid, Option.bind_some] at hvalue
  simp [Option.isSome_iff_ne_none.mp hvalue]

/-- If all arguments without a default are given something, none is without a value in the end. -/
theorem firstUnbound?_bindAll?_index (h : args.index.bindAll? args given = some bindings)
    (hgiven : ∀ id argument, args.get? id = some argument → argument.default? = none →
      ∃ raw, (id, raw) ∈ given) : bindings.firstUnbound? = none := by
  apply firstUnbound?_eq_none
  intro id hid
  rw [size_bindAll? h] at hid
  have hlt : id < args.toList.length := by simpa [ArgumentSet.index] using hid
  have hget : args.get? id = some args.toList[id] := List.getElem?_eq_getElem hlt
  cases hdefault : args.toList[id].default? with
  | none =>
    obtain ⟨raw, hmem⟩ := hgiven id _ hget hdefault
    exact isSome_value?_bindAll?_of_mem h hid hmem
  | some value =>
    -- The default is bound from the start, and stays or makes way for another value.
    apply isSome_value?_bindAll? h
    simp [value?, slot?, ArgumentSet.index, hlt, Slot.fresh, hdefault]

/-! ### Values of single arguments -/

theorem arguments_bindAll? (h : bindings.bindAll? args given = some bindings') :
    bindings'.arguments = bindings.arguments := by
  induction given generalizing bindings with
  | nil =>
    cases h
    rfl
  | cons pair given ih =>
    obtain ⟨id, raw⟩ := pair
    obtain ⟨value, -, h⟩ := bindAll?_cons_eq_some_iff.mp h
    rw [ih h, arguments_bind]

/-- An argument that is given nothing keeps its value. -/
theorem value?_bindAll?_of_forall_ne (h : bindings.bindAll? args given = some bindings')
    (hother : ∀ pair ∈ given, pair.1 ≠ id) : bindings'.value? id = bindings.value? id := by
  induction given generalizing bindings with
  | nil =>
    cases h
    rfl
  | cons pair given ih =>
    obtain ⟨first, raw⟩ := pair
    obtain ⟨hfirst, hother⟩ := List.forall_mem_cons.mp hother
    obtain ⟨value, -, h⟩ := bindAll?_cons_eq_some_iff.mp h
    rw [ih h hother, value?, value?, slot?_bind_of_ne bindings value (Ne.symm hfirst)]

/-- The first match of an argument takes the place of its default. -/
theorem value?_index_bind {argument : Argument} (h : args.get? id = some argument) :
    (args.index.bind id value).value? id = some value := by
  have hslot : args.index.slot? id = some (.fresh argument) := by
    rw [slot?, ArgumentSet.index, List.getElem?_map]
    exact congrArg (Option.map Slot.fresh) h
  rw [value?, slot?_bind_self, hslot, Option.map_some, Option.bind_some, Slot.bind, Slot.fresh]
  cases argument.default? <;> rfl

/-- An argument is found by its name where it stands. -/
theorem find?_eq_slot? {name : String} (harguments : bindings.arguments = args.toList)
    (hid : args.idOf? name = some id) : bindings.find? name = bindings.slot? id := by
  have hplace : bindings.slots.findIdx? (·.argument.name == name) = some id := by
    rw [← hid, ArgumentSet.idOf?, ← harguments, arguments, List.findIdx?_map]
    rfl
  rw [find?, List.find?_eq_bind_findIdx?_getElem?, hplace]
  rfl

/-- The value under a name is that of the argument of the name. -/
theorem get?_eq_value? {name : String} (harguments : bindings.arguments = args.toList)
    (hid : args.idOf? name = some id) : bindings.get? name = bindings.value? id := by
  rw [get?, find?_eq_slot? harguments hid, value?]

end Bindings

end CommandShell
