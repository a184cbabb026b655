/-!
# Steps that can fail

A chain of steps that can fail has succeeded exactly when each of its steps has, and has failed
where the first of them did. The lemmas here take such a chain apart.

## Main results

* `bind_eq_ok_iff`, `bind_eq_ok_iff'`, `map_eq_ok_iff` — one step and what comes after it
* `mapError_eq_ok_iff` — a step whose faults are given another name
* `bind_eq_error_iff`, `map_eq_error_iff` — which of the two fails
* `foldlM_eq_error_iff` — where a chain of steps fails
* `exists_of_mem_mapM` — where a result of many steps comes from
* `run_ofExcept` — a step among changes in place
-/

namespace CommandShell

variable {ε α β : Type} {x : Except ε α} {f : α → Except ε β} {g : α → β} {b : β} {e : ε}

theorem bind_eq_ok_iff : x >>= f = .ok b ↔ ∃ a, x = .ok a ∧ f a = .ok b := by
  cases x <;> simp [bind, Except.bind]

theorem bind_eq_ok_iff' : x.bind f = .ok b ↔ ∃ a, x = .ok a ∧ f a = .ok b := bind_eq_ok_iff

theorem map_eq_ok_iff : x.map g = .ok b ↔ ∃ a, x = .ok a ∧ g a = b := by
  cases x <;> simp [Except.map]

theorem mapError_eq_ok_iff {ε' : Type} {rename : ε → ε'} {a : α} :
    x.mapError rename = .ok a ↔ x = .ok a := by
  cases x with
  | error e => exact ⟨nofun, nofun⟩
  | ok b =>
    constructor <;>
    · intro h
      exact congrArg Except.ok (Except.ok.inj h)

theorem bind_eq_error_iff :
    x >>= f = .error e ↔ x = .error e ∨ ∃ a, x = .ok a ∧ f a = .error e := by
  cases x <;> simp [bind, Except.bind]

theorem map_eq_error_iff : x.map g = .error e ↔ x = .error e := by
  cases x <;> simp [Except.map]

theorem toOption_eq_some_iff {a : α} : x.toOption = some a ↔ x = .ok a := by
  cases x <;> simp [Except.toOption]

theorem toOption_eq_none_iff : x.toOption = none ↔ ∃ e, x = .error e := by
  cases x <;> simp [Except.toOption]

/-- A chain of steps fails at the first step that does. -/
theorem foldlM_eq_error_iff {step : α → β → Except ε α} {a : α} {list : List β} :
    list.foldlM step a = .error e ↔
      ∃ before b after mid, list = before ++ b :: after ∧ before.foldlM step a = .ok mid ∧
        step mid b = .error e := by
  induction list generalizing a with
  | nil => simp [pure, Except.pure]
  | cons b list ih =>
    rw [List.foldlM_cons, bind_eq_error_iff]
    constructor
    · rintro (h | ⟨next, hnext, h⟩)
      · exact ⟨[], b, list, a, rfl, rfl, h⟩
      · obtain ⟨before, other, after, mid, rfl, hmid, h⟩ := ih.mp h
        refine ⟨b :: before, other, after, mid, rfl, ?_, h⟩
        rw [List.foldlM_cons]
        exact bind_eq_ok_iff.mpr ⟨next, hnext, hmid⟩
    · rintro ⟨before, other, after, mid, hlist, hmid, h⟩
      cases before with
      | nil =>
        cases hlist
        cases hmid
        exact .inl h
      | cons first before =>
        cases hlist
        rw [List.foldlM_cons] at hmid
        obtain ⟨next, hnext, hmid⟩ := bind_eq_ok_iff.mp hmid
        exact .inr ⟨next, hnext, ih.mpr ⟨before, other, after, mid, rfl, hmid, h⟩⟩

/-- What a function gives for a list it gives for members of the list. -/
theorem exists_of_mem_mapM {list : List α} {results : List β} (h : list.mapM f = .ok results)
    (hmem : b ∈ results) : ∃ a ∈ list, f a = .ok b := by
  induction list generalizing results with
  | nil =>
    cases h
    exact absurd hmem List.not_mem_nil
  | cons a list ih =>
    rw [List.mapM_cons] at h
    obtain ⟨first, hfirst, h⟩ := bind_eq_ok_iff.mp h
    obtain ⟨rest, hrest, h⟩ := bind_eq_ok_iff.mp h
    cases h
    rcases List.mem_cons.mp hmem with rfl | hmem
    · exact ⟨a, List.mem_cons_self, hfirst⟩
    · obtain ⟨other, hother, h⟩ := ih hrest hmem
      exact ⟨other, List.mem_cons_of_mem _ hother, h⟩

/-- Among changes in place, a step that changes nothing. -/
theorem run_ofExcept {σ : Type} (x : Except ε α) (s : σ) :
    (ofExcept x : EStateM ε σ α).run s =
      match x with
      | .ok a => .ok a s
      | .error e => .error e s := by
  cases x <;> rfl

theorem exists_eq_ok_of_isOk (h : x.isOk = true) : ∃ a, x = .ok a := by
  cases x with
  | ok a => exact ⟨a, rfl⟩
  | error e => cases h

end CommandShell
