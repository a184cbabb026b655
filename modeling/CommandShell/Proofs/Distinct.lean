import Mathlib.Data.List.Induction

/-!
# Lists without repetitions

Appending what is not there yet, item by item, gives the items of a list each once, in the order in
which they first appear.

## Main results

* `eraseDups_concat` — one more item at the end, which is left out if it is there
* `nodup_eraseDups` — no item comes twice
* `eraseDups_eq_self` — a list without repetitions stays as it is
* `filter_eraseDups` — items can be left out before or after
-/

namespace CommandShell

variable {α : Type} [DecidableEq α] {items : List α} {item : α}

/-- One more item at the end is left out if it is there. -/
theorem eraseDups_concat (items : List α) (item : α) :
    (items ++ [item]).eraseDups =
      if item ∈ items then items.eraseDups else items.eraseDups ++ [item] := by
  rw [List.eraseDups_append]
  by_cases h : item ∈ items <;> simp [List.removeAll, h, List.eraseDups_cons]

/-- No item comes twice. -/
theorem nodup_eraseDups (items : List α) : items.eraseDups.Nodup := by
  induction items using List.reverseRecOn with
  | nil => exact List.nodup_nil
  | append_singleton items item ih =>
    rw [eraseDups_concat]
    split
    · exact ih
    · rename_i hitem
      refine List.nodup_append.mpr ⟨ih, by simp, fun other hother last hlast heq => hitem ?_⟩
      rw [← List.mem_singleton.mp hlast, ← heq]
      exact List.mem_eraseDups.mp hother

/-- A list without repetitions stays as it is. -/
theorem eraseDups_eq_self (h : items.Nodup) : items.eraseDups = items := by
  induction items with
  | nil => rfl
  | cons item items ih =>
    obtain ⟨hitem, hitems⟩ := List.nodup_cons.mp h
    have hfilter : items.filter (fun other => !other == item) = items := by
      refine List.filter_eq_self.mpr fun other hother => ?_
      have hne : other ≠ item := fun heq => hitem (heq ▸ hother)
      simp [hne]
    rw [List.eraseDups_cons, hfilter, ih hitems]

/-- Items can be left out of a list before or after those that come again are. -/
theorem filter_eraseDups (p : α → Bool) (items : List α) :
    (items.filter p).eraseDups = items.eraseDups.filter p := by
  induction items using List.reverseRecOn with
  | nil => rfl
  | append_singleton items item ih =>
    rw [List.filter_append, eraseDups_concat]
    cases hp : p item with
    | false =>
      rw [List.filter_cons_of_neg (by simp [hp]), List.filter_nil, List.append_nil, ih]
      split
      · rfl
      · simp [hp]
    | true =>
      rw [List.filter_cons_of_pos hp, List.filter_nil, eraseDups_concat, ih]
      by_cases hitem : item ∈ items <;> simp [hitem, hp]

end CommandShell
