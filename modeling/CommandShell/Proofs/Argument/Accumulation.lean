import CommandShell.Proofs.Argument.Bindings
import CommandShell.Proofs.Distinct
import Mathlib.Data.List.Induction

/-!
# What repeated matches add up to

However the matches of several arguments alternate, each argument ends with what was matched for it
alone. For most types that is the list of all its values, or the value itself if there is only one,
and for maps it is one map with the entries of all of them. The default stands only where nothing
was matched.

## Main definitions

* `Bindings.bindEach` — the bindings after values have been bound one after the other
* `Bindings.valuesFor` — the values that were bound to one argument
* `Value.gather` — what an argument has that lists its values

## Main results

* `Dict.keys_putAll`, `Dict.get?_putAll_entries` — the keys and the values of entries put together
* `Bindings.slot?_bindEach` — an argument ends with what was bound to it alone
* `Slot.value_bindEach_fresh`, `Slot.value_bindEach_fresh_map` — values that are listed, and maps
  that are merged
* `Bindings.value?_of_binds` — the value and the number of matches of every argument
-/

namespace CommandShell

/-! ### Maps put together -/

namespace Dict

variable {α : Type} {dict : Dict α} {key : String}

theorem putAll_append (dict : Dict α) (entries others : List (String × α)) :
    dict.putAll (entries ++ others) = (dict.putAll entries).putAll others := List.foldl_append

/-- New keys follow those that are there, each where it first appears. -/
theorem keys_putAll (dict : Dict α) (entries : List (String × α)) :
    (dict.putAll entries).keys = (dict.keys ++ entries.map Prod.fst).eraseDups := by
  induction entries using List.reverseRecOn with
  | nil => rw [List.map_nil, List.append_nil, eraseDups_eq_self nodup_keys]; rfl
  | append_singleton entries entry ih =>
    have hput : (dict.putAll (entries ++ [entry])).keys =
        ((dict.putAll entries).put entry.1 entry.2).keys := by
      rw [putAll_append]
      rfl
    rw [hput, keys_put, ih, List.map_append, List.map_singleton, ← List.append_assoc,
      eraseDups_concat]
    simp only [List.mem_eraseDups]

/-- Entries with distinct keys take the place of those that are there. -/
theorem get?_putAll {entries : List (String × α)} (h : (entries.map Prod.fst).Nodup) :
    (dict.putAll entries).get? key = (entries.lookup key).or (dict.get? key) := by
  induction entries generalizing dict with
  | nil => rfl
  | cons entry entries ih =>
    obtain ⟨hfirst, hrest⟩ := List.nodup_cons.mp h
    have hput : (dict.putAll (entry :: entries)).get? key =
        ((dict.put entry.1 entry.2).putAll entries).get? key := rfl
    rw [hput, ih hrest, get?_put, lookup_cons_eq_ite]
    by_cases hkey : key = entry.1
    · have hnone : entries.lookup key = none := by
        rw [List.lookup_eq_none_iff]
        intro other hother
        have hne : key ≠ other.1 := by
          intro heq
          exact hfirst (hkey ▸ heq ▸ List.mem_map_of_mem hother)
        simpa using hne
      rw [if_pos hkey, if_pos hkey, hnone]
      rfl
    · rw [if_neg hkey, if_neg hkey]

theorem get?_putAll_entries (dict other : Dict α) (key : String) :
    (dict.putAll other.entries).get? key = (other.get? key).or (dict.get? key) :=
  get?_putAll other.nodup

/-- Dictionaries that are put into one another, the first of them `dict`. -/
def merge (dict : Dict α) (dicts : List (Dict α)) : Dict α :=
  dicts.foldl (fun dict other => dict.putAll other.entries) dict

theorem merge_eq (dict : Dict α) (dicts : List (Dict α)) :
    dict.merge dicts = dict.putAll (dicts.flatMap Dict.entries) := by
  induction dicts generalizing dict with
  | nil => rfl
  | cons other dicts ih =>
    rw [List.flatMap_cons, putAll_append, ← ih]
    rfl

theorem merge_concat (dict : Dict α) (dicts : List (Dict α)) (other : Dict α) :
    dict.merge (dicts ++ [other]) = (dict.merge dicts).putAll other.entries := by
  rw [merge, List.foldl_append]
  rfl

/-- The keys of all of them, each where it first appears. -/
theorem keys_merge (dict : Dict α) (dicts : List (Dict α)) :
    (dict.merge dicts).keys = ((dict :: dicts).flatMap Dict.keys).eraseDups := by
  rw [merge_eq, keys_putAll, List.map_flatMap, List.flatMap_cons]
  rfl

/-- Under each key the value of the last that has it. -/
theorem get?_merge (dict : Dict α) (dicts : List (Dict α)) (key : String) :
    (dict.merge dicts).get? key = (dict :: dicts).reverse.findSome? (·.get? key) := by
  induction dicts using List.reverseRecOn with
  | nil =>
    simp [merge]
  | append_singleton dicts other ih =>
    rw [merge_concat, get?_putAll_entries, ih, ← List.cons_append, List.reverse_concat,
      List.findSome?_cons]
    cases other.get? key <;> rfl

end Dict

/-! ### Values of one argument -/

/-- What an argument has that lists its values: the default if there is none, and the value itself
if there is only one. -/
def Value.gather (default? : Option Value) : List Value → Option Value
  | [] => default?
  | [value] => some value
  | values => some (.list values)

namespace Value

variable {default? : Option Value} {values : List Value}

theorem gather_of_two_le (h : 2 ≤ values.length) :
    gather default? values = some (.list values) := by
  cases values with
  | nil => cases h
  | cons first others =>
    cases others with
    | nil => simp at h
    | cons second rest => rfl

/-- If none of the values is a list, they can be told from what they amount to. -/
theorem items_gather (hne : values ≠ []) (hplain : ∀ value ∈ values, value.list? = none) :
    (gather default? values).map items = some values := by
  cases values with
  | nil => exact absurd rfl hne
  | cons first others =>
    cases others with
    | nil => cases first <;> simp_all [gather, items, list?]
    | cons second rest => rfl

end Value

namespace Slot

variable {argument : Argument} {slot : Slot} {values : List Value} {value next current : Value}

/-- The slot after values have been bound to it one after the other. -/
def bindEach (slot : Slot) (values : List Value) : Slot := values.foldl Slot.bind slot

theorem bindEach_concat (slot : Slot) (values : List Value) (value : Value) :
    slot.bindEach (values ++ [value]) = (slot.bindEach values).bind value := by
  rw [bindEach, List.foldl_append]
  rfl

/-- No value is lost, and the argument stays the same. -/
theorem matched_bindEach (slot : Slot) (values : List Value) :
    (slot.bindEach values).matched = slot.matched + values.length ∧
      (slot.bindEach values).argument = slot.argument := by
  induction values generalizing slot with
  | nil => exact ⟨rfl, rfl⟩
  | cons value values ih =>
    obtain ⟨hmatched, hargument⟩ := ih (slot.bind value)
    refine ⟨hmatched.trans ?_, hargument⟩
    rw [List.length_cons, Nat.add_comm values.length, ← Nat.add_assoc]
    rfl

theorem value_bind_of_matched (hvalue : slot.value = some current) (hmatched : 0 < slot.matched) :
    (slot.bind next).value =
      some (current.accumulate next slot.matched slot.argument.type.repeats) := by
  simp [bind, hvalue, hmatched]

/-- A first match takes the place of the default. -/
theorem value_bind_fresh (argument : Argument) (value : Value) :
    ((fresh argument).bind value).value = some value := by
  unfold bind fresh
  cases argument.default? <;> rfl

/-- Whatever is bound to an argument, it has a value from then on. -/
theorem isSome_value_bindEach (slot : Slot) (hne : values ≠ []) :
    (slot.bindEach values).value.isSome = true := by
  induction values using List.reverseRecOn with
  | nil => exact absurd rfl hne
  | append_singleton values value _ =>
    rw [bindEach_concat]
    rfl

/-- The values of an argument that lists them. A value that is a list counts as one of them. -/
theorem value_bindEach_fresh (h : argument.type.repeats = .append) (values : List Value) :
    ((fresh argument).bindEach values).value =
      Value.gather argument.default? values := by
  induction values using List.reverseRecOn with
  | nil => rfl
  | append_singleton values value ih =>
    obtain ⟨hmatched, hargument⟩ := matched_bindEach (fresh argument) values
    have hcount : ((fresh argument).bindEach values).matched = values.length := by
      rw [hmatched, fresh, Nat.zero_add]
    have hmode : ((fresh argument).bindEach values).argument.type.repeats = .append := by
      rw [hargument]
      exact h
    rw [bindEach_concat]
    cases values with
    | nil => exact value_bind_fresh argument value
    | cons first others =>
      have hpos : 0 < ((fresh argument).bindEach (first :: others)).matched := by
        rw [hcount]
        exact Nat.succ_pos _
      cases others with
      | nil =>
        rw [value_bind_of_matched ih hpos, hcount, hmode]
        cases first <;> rfl
      | cons second rest =>
        rw [value_bind_of_matched ih hpos, hcount, hmode]
        rfl

/-- The maps of an argument that merges them. -/
theorem value_bindEach_fresh_map (h : argument.type.repeats = .merge) (first : Dict String)
    (others : List (Dict String)) :
    ((fresh argument).bindEach ((first :: others).map .map)).value =
      some (.map (first.merge others)) := by
  induction others using List.reverseRecOn with
  | nil => exact value_bind_fresh argument (.map first)
  | append_singleton others other ih =>
    obtain ⟨hmatched, hargument⟩ :=
      matched_bindEach (fresh argument) ((first :: others).map Value.map)
    have hpos : 0 < ((fresh argument).bindEach ((first :: others).map Value.map)).matched := by
      rw [hmatched, List.map_cons, List.length_cons]
      lia
    rw [← List.cons_append, List.map_append, List.map_singleton, bindEach_concat,
      value_bind_of_matched ih hpos, hargument, Dict.merge_concat]
    simp only [fresh, h]
    rfl

end Slot

/-! ### Values of several arguments -/

namespace Bindings

variable {args : ArgumentSet} {bindings : Bindings} {id : ArgId} {argument : Argument}

/-- The bindings after values have been bound to arguments, one after the other. -/
def bindEach (bindings : Bindings) (binds : List (ArgId × Value)) : Bindings :=
  binds.foldl (fun bindings bound => bindings.bind bound.1 bound.2) bindings

/-- The values that were bound to one argument. -/
def valuesFor (id : ArgId) (binds : List (ArgId × Value)) : List Value :=
  (binds.filter (·.1 = id)).map Prod.snd

theorem valuesFor_cons_self (id : ArgId) (value : Value) (binds : List (ArgId × Value)) :
    valuesFor id ((id, value) :: binds) = value :: valuesFor id binds := by
  simp [valuesFor]

theorem valuesFor_cons_of_ne {other : ArgId} (h : other ≠ id) (value : Value)
    (binds : List (ArgId × Value)) :
    valuesFor id ((other, value) :: binds) = valuesFor id binds := by
  simp [valuesFor, h]

/-- An argument ends with what was bound to it alone. -/
theorem slot?_bindEach (bindings : Bindings) (binds : List (ArgId × Value)) (id : ArgId) :
    (bindings.bindEach binds).slot? id =
      (bindings.slot? id).map (·.bindEach (valuesFor id binds)) := by
  induction binds generalizing bindings with
  | nil =>
    cases hslot : bindings.slot? id <;> simp [bindEach, valuesFor, Slot.bindEach, hslot]
  | cons bound binds ih =>
    obtain ⟨other, value⟩ := bound
    have hstep : (bindings.bindEach ((other, value) :: binds)).slot? id =
        ((bindings.bind other value).bindEach binds).slot? id := rfl
    rw [hstep, ih]
    by_cases hother : other = id
    · subst hother
      rw [slot?_bind_self, Option.map_map, valuesFor_cons_self]
      rfl
    · rw [slot?_bind_of_ne bindings value (Ne.symm hother), valuesFor_cons_of_ne hother]

/-! ### Fresh bindings -/

theorem slot?_index (h : args.get? id = some argument) :
    args.index.slot? id = some (.fresh argument) := by
  rw [slot?, ArgumentSet.index, List.getElem?_map]
  exact congrArg (Option.map Slot.fresh) h

theorem arguments_bindEach (bindings : Bindings) (binds : List (ArgId × Value)) :
    (bindings.bindEach binds).arguments = bindings.arguments := by
  induction binds generalizing bindings with
  | nil => rfl
  | cons bound binds ih => exact (ih _).trans (arguments_bind ..)

/-- The match count under a name is that of the argument of the name. -/
theorem matched_eq {slot : Slot} (harguments : bindings.arguments = args.toList)
    (hget : args.get? id = some argument) (hslot : bindings.slot? id = some slot) :
    bindings.matched argument.name = slot.matched := by
  rw [matched, find?_eq_slot? harguments (args.idOf?_eq_some_of_get? hget), hslot]
  rfl

/-- Binding to arguments that do not exist has no effect. -/
theorem bindEach_filter (args : ArgumentSet) (binds : List (ArgId × Value)) :
    args.index.bindEach (binds.filter (·.1 < args.size)) = args.index.bindEach binds := by
  -- No bind changes how many slots there are, so the induction is over all such bindings.
  suffices hall : ∀ bindings : Bindings, bindings.slots.length = args.size →
      bindings.bindEach (binds.filter (·.1 < args.size)) = bindings.bindEach binds from
    hall _ (by simp [ArgumentSet.index, ArgumentSet.size])
  induction binds with
  | nil => exact fun _ _ => rfl
  | cons bound binds ih =>
    intro bindings hsize
    have hnext : (bindings.bind bound.1 bound.2).slots.length = args.size := size_bind.trans hsize
    by_cases hid : bound.1 < args.size
    · rw [List.filter_cons_of_pos (by simpa using hid)]
      exact ih _ hnext
    · have hsame : bindings.bind bound.1 bound.2 = bindings := by
        rw [bind, List.modify_eq_self (by lia)]
      rw [List.filter_cons_of_neg (by simpa using hid), ih bindings hsize]
      exact congrArg (·.bindEach binds) hsame.symm

/-- After any values have been bound to fresh bindings, an argument was matched as often as a value
was bound to it, and no other value matters to it. Without any, it has its default. If its type
lists values, it has the only one of them or the list of all, whatever kinds of values they are; if
it merges maps, it has the keys of all of them in the order in which they first appear, with the
value that was given last for each. Values for arguments that do not exist are dropped. -/
theorem value?_of_binds (args : ArgumentSet) (binds : List (ArgId × Value)) :
    let bindings := args.index.bindEach binds
    bindings.arguments = args.toList ∧
    args.index.bindEach (binds.filter (·.1 < args.size)) = bindings ∧
    (∀ id other value, id ≠ other → (bindings.bind other value).slot? id = bindings.slot? id) ∧
    ∀ id argument, args.get? id = some argument →
      let values := valuesFor id binds
      bindings.matched argument.name = values.length ∧
      (values = [] → bindings.value? id = argument.default?) ∧
      (argument.type.Lists →
        (∀ value, values = [value] → bindings.value? id = some value) ∧
        (2 ≤ values.length → bindings.value? id = some (.list values)) ∧
        (values ≠ [] → (∀ value ∈ values, value.list? = none) →
          (bindings.value? id).map Value.items = some values)) ∧
      (¬ argument.type.Lists → ∀ maps : List (Dict String), maps ≠ [] → values = maps.map .map →
        ∃ merged, bindings.value? id = some (.map merged) ∧
          merged.keys = (maps.flatMap Dict.keys).eraseDups ∧
          ∀ key, merged.get? key = maps.reverse.findSome? (·.get? key)) := by
  intro bindings
  have harguments : bindings.arguments = args.toList := by
    rw [arguments_bindEach, arguments_index]
  refine ⟨harguments, bindEach_filter args binds,
    fun id other value => slot?_bind_of_ne bindings value, fun id argument hget => ?_⟩
  intro values
  have hslot : bindings.slot? id = some ((Slot.fresh argument).bindEach values) := by
    rw [slot?_bindEach, slot?_index hget]
    rfl
  have hvalue : bindings.value? id = ((Slot.fresh argument).bindEach values).value := by
    rw [value?, hslot, Option.bind_some]
  refine ⟨?_, ?_, ?_, ?_⟩
  · rw [matched_eq harguments hget hslot, (Slot.matched_bindEach _ _).1, Slot.fresh, Nat.zero_add]
  · intro hnil
    rw [hvalue, hnil]
    rfl
  · intro htype
    rw [hvalue, Slot.value_bindEach_fresh (ArgType.repeats_eq_append_iff.mpr htype)]
    refine ⟨?_, ?_, ?_⟩
    · rintro value hone
      rw [hone]
      rfl
    · exact Value.gather_of_two_le
    · exact Value.items_gather
  · rintro htype maps hne hmaps
    have hmode : argument.type.repeats = .merge := by
      rw [← ArgType.repeats_eq_append_iff] at htype
      cases hrepeats : argument.type.repeats with
      | append => exact absurd hrepeats htype
      | merge => rfl
    obtain ⟨first, others, rfl⟩ := List.exists_cons_of_ne_nil hne
    refine ⟨first.merge others, ?_, Dict.keys_merge first others, Dict.get?_merge first others⟩
    rw [hvalue, hmaps, Slot.value_bindEach_fresh_map hmode]

/-- Two tags, of which the first is a list, and two maps, bound in turn with a value for no
argument. -/
theorem value?_of_binds_tags :
    let args : ArgumentSet := ⟨[⟨"tag", .str, some (.str "none"), none⟩,
      ⟨"env", .map, some (.map (.ofList [("a", "0")])), none⟩], by simp⟩
    let bindings := args.index.bindEach [(1, .map (.ofList [("k", "1")])), (0, .list [.str "x"]),
      (7, .int 5), (1, .map (.ofList [("j", "2"), ("k", "3")])), (0, .str "y")]
    bindings.matched "tag" = 2 ∧ bindings.value? 0 = some (.list [.list [.str "x"], .str "y"]) ∧
      ∃ merged, bindings.value? 1 = some (.map merged) ∧ merged.keys = ["k", "j"] ∧
        merged.get? "k" = some "3" := by
  intro args bindings
  obtain ⟨-, -, -, hvalues⟩ := value?_of_binds args [(1, .map (.ofList [("k", "1")])),
    (0, .list [.str "x"]), (7, .int 5), (1, .map (.ofList [("j", "2"), ("k", "3")])),
    (0, .str "y")]
  obtain ⟨hmatched, -, hlisted, -⟩ := hvalues 0 _ rfl
  obtain ⟨-, -, -, hmerged⟩ := hvalues 1 _ rfl
  obtain ⟨merged, hvalue, hkeys, hget⟩ := hmerged not_false
    [.ofList [("k", "1")], .ofList [("j", "2"), ("k", "3")]] (by simp) rfl
  exact ⟨hmatched, (hlisted trivial).2.1 (by decide), merged, hvalue, hkeys.trans (by decide),
    (hget "k").trans (by decide)⟩

end Bindings

end CommandShell
