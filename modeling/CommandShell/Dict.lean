/-!
# Ordered dictionaries

A dictionary from texts to values that remembers the order in which its keys were first put.
Putting a key again replaces its value in place.

## Main definitions

* `Dict` — entries with distinct keys, in order
* `Dict.get?`, `Dict.put`, `Dict.erase` — look-up, insertion and removal
* `Dict.ofList` — the entries of a list put one after the other

## Main results

* `Dict.get?_put` — a key that is put is found with its value, and no other key changes
* `Dict.keys_put` — putting a key appends it unless it is there
* `Dict.get?_erase` — an erased key is gone, and no other key changes
* `Dict.contains_iff` — the keys are those that have a value
-/

namespace CommandShell

/-- Entries with distinct keys, in the order in which the keys were first put. -/
structure Dict (α : Type) where
  entries : List (String × α)
  nodup : (entries.map Prod.fst).Nodup

namespace Dict

variable {α : Type} {dict : Dict α} {key other : String} {value : α}

def empty : Dict α := ⟨[], by simp⟩

instance : EmptyCollection (Dict α) := ⟨empty⟩

instance : Inhabited (Dict α) := ⟨∅⟩

instance [DecidableEq α] : DecidableEq (Dict α) := fun a b =>
  decidable_of_iff (a.entries = b.entries) (by cases a; cases b; simp)

def keys (dict : Dict α) : List String := dict.entries.map Prod.fst

def values (dict : Dict α) : List α := dict.entries.map Prod.snd

def size (dict : Dict α) : Nat := dict.entries.length

def isEmpty (dict : Dict α) : Bool := dict.entries.isEmpty

/-- The value under a key. -/
def get? (dict : Dict α) (key : String) : Option α := dict.entries.lookup key

def contains (dict : Dict α) (key : String) : Bool := (dict.get? key).isSome

/-- The entries with the value under `key` replaced, or with a new entry at the end. -/
def putEntry (key : String) (value : α) : List (String × α) → List (String × α)
  | [] => [(key, value)]
  | entry :: entries =>
    if key = entry.1 then (key, value) :: entries else entry :: putEntry key value entries

theorem map_fst_putEntry (entries : List (String × α)) :
    (putEntry key value entries).map Prod.fst =
      if key ∈ entries.map Prod.fst then entries.map Prod.fst
      else entries.map Prod.fst ++ [key] := by
  induction entries with
  | nil => simp [putEntry]
  | cons entry entries ih =>
    rw [putEntry]
    split
    · simp_all
    · rename_i h
      rw [List.map_cons, ih]
      simp only [List.map_cons, List.mem_cons, h, false_or]
      split <;> simp

theorem lookup_cons_eq_ite (entry : String × α) (entries : List (String × α)) :
    (entry :: entries).lookup key = if key = entry.1 then some entry.2 else entries.lookup key := by
  obtain ⟨k, v⟩ := entry
  by_cases h : key = k
  · simp [h]
  · simp [List.lookup_cons, beq_eq_false_iff_ne.2 h, h]

theorem lookup_putEntry (entries : List (String × α)) :
    (putEntry key value entries).lookup other =
      if other = key then some value else entries.lookup other := by
  induction entries with
  | nil => simp [putEntry, lookup_cons_eq_ite]
  | cons entry entries ih =>
    rw [putEntry]
    split
    · rename_i h
      subst h
      simp only [lookup_cons_eq_ite]
      split <;> rfl
    · rename_i h
      simp only [lookup_cons_eq_ite, ih]
      split <;> split <;> simp_all

/-- The dictionary with `value` under `key`: in place if the key is there, else at the end. -/
def put (dict : Dict α) (key : String) (value : α) : Dict α where
  entries := putEntry key value dict.entries
  nodup := by
    rw [map_fst_putEntry]
    have hnodup := dict.nodup
    split
    · exact hnodup
    · rename_i h
      rw [List.nodup_append]
      exact ⟨hnodup, by simp, by rintro a ha b hb rfl; exact h (List.mem_singleton.1 hb ▸ ha)⟩

def erase (dict : Dict α) (key : String) : Dict α where
  entries := dict.entries.filter (·.1 ≠ key)
  nodup := dict.nodup.sublist (List.filter_sublist.map Prod.fst)

def map {β : Type} (f : α → β) (dict : Dict α) : Dict β where
  entries := dict.entries.map fun entry => (entry.1, f entry.2)
  nodup := by simpa [Function.comp_def] using dict.nodup

/-- The dictionary with the entries of a list put one after the other. -/
def putAll (dict : Dict α) (entries : List (String × α)) : Dict α :=
  entries.foldl (fun dict entry => dict.put entry.1 entry.2) dict

/-- The entries of a list put one after the other. -/
def ofList (entries : List (String × α)) : Dict α := (∅ : Dict α).putAll entries

theorem get?_put :
    (dict.put key value).get? other = if other = key then some value else dict.get? other :=
  lookup_putEntry dict.entries

theorem keys_put :
    (dict.put key value).keys = if key ∈ dict.keys then dict.keys else dict.keys ++ [key] :=
  map_fst_putEntry dict.entries

theorem nodup_keys : dict.keys.Nodup := dict.nodup

theorem get?_erase :
    (dict.erase key).get? other = if other = key then none else dict.get? other := by
  simp only [get?, erase]
  generalize dict.entries = entries
  induction entries with
  | nil => simp
  | cons entry entries ih =>
    rw [List.filter_cons]
    split
    · rename_i h
      rw [lookup_cons_eq_ite, lookup_cons_eq_ite, ih]
      split <;> split <;> simp_all
    · rename_i h
      rw [ih, lookup_cons_eq_ite]
      split <;> simp_all

theorem get?_eq_none_iff : dict.get? key = none ↔ key ∉ dict.keys := by
  simp only [get?, keys]
  generalize dict.entries = entries
  induction entries with
  | nil => simp
  | cons entry entries ih =>
    rw [lookup_cons_eq_ite, List.map_cons, List.mem_cons]
    by_cases h : key = entry.1
    · simp [h]
    · rw [if_neg h, ih]
      simp only [h, false_or]

theorem contains_iff : dict.contains key = true ↔ key ∈ dict.keys := by
  rw [contains, Option.isSome_iff_ne_none, Ne, get?_eq_none_iff, Classical.not_not]

end Dict

end CommandShell
