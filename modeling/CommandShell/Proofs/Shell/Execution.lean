import CommandShell.Proofs.Distinct
import CommandShell.Shell.Basic

/-!
# Lines that do not influence one another

A line leads to a command and to what that command is given, whatever stands in the candidate cache.
If commands answer from that alone, and all they do to the candidate cache is to add candidates,
then no line changes the outcome of another, and the order of lines decides only the order in which
candidates are listed.

## Main definitions

* `CandidateCache.addAll`, `CandidateCache.under` — candidates added one after the other, and those
  among them that belong to one key
* `Shell.withCache`, `Shell.executeAll` — a shell with another candidate cache, and after many lines
* `Shell.Steady` — what lines answer does not depend on the candidate cache, to which they only add

## Main results

* `CandidateCache.list_addAll` — added candidates follow those that are there, each once
* `Shell.execute_cases` — what a line does
* `Shell.Steady.executeAll_eq` — the candidate cache after many lines
* `Shell.Steady.execute_executeAll` — the outcome of a line after many others
* `Shell.Steady.mem_list_executeAll_iff_of_perm` — lines in another order leave the same candidates
-/

namespace CommandShell

/-! ### Adding candidates -/

namespace CandidateCache

variable {cache : CandidateCache} {key item : String} {notes : List (String × String)}

/-- The cache with candidates added one after the other, each under its key. -/
def addAll (cache : CandidateCache) (notes : List (String × String)) : CandidateCache :=
  notes.foldl (fun cache note => cache.add note.1 note.2) cache

/-- The candidates that belong to a key. -/
def under (key : String) (notes : List (String × String)) : List String :=
  (notes.filter (·.1 = key)).map Prod.snd

theorem addAll_append (cache : CandidateCache) (notes others : List (String × String)) :
    cache.addAll (notes ++ others) = (cache.addAll notes).addAll others := List.foldl_append

theorem mem_under_iff : item ∈ under key notes ↔ (key, item) ∈ notes := by
  simp [under]

/-- Adding under a key that is there adds no key. -/
theorem keys_add (h : key ∈ cache.keys) : (cache.add key item).keys = cache.keys := by
  rw [add, Dict.keys_put, if_pos h]

theorem list_add_self :
    (cache.add key item).list key =
      if item ∈ cache.list key then cache.list key else cache.list key ++ [item] := by
  rw [list, add, Dict.get?_put, if_pos rfl, Option.getD_some]

theorem list_add_of_ne {other : String} (h : other ≠ key) :
    (cache.add key item).list other = cache.list other := by
  rw [list, get?_add_of_ne h, list]

/-- Adding under keys that are there adds no key. -/
theorem keys_addAll (h : ∀ note ∈ notes, note.1 ∈ cache.keys) :
    (cache.addAll notes).keys = cache.keys := by
  induction notes generalizing cache with
  | nil => rfl
  | cons note notes ih =>
    obtain ⟨hnote, hnotes⟩ := List.forall_mem_cons.mp h
    have hkeys : (cache.add note.1 note.2).keys = cache.keys := keys_add hnote
    rw [← hkeys]
    apply ih
    rw [hkeys]
    exact hnotes

/-- Added candidates follow those that are there, each once. -/
theorem list_addAll (cache : CandidateCache) (notes : List (String × String)) (key : String) :
    (cache.addAll notes).list key =
      cache.list key ++ ((under key notes).filter (· ∉ cache.list key)).eraseDups := by
  induction notes generalizing cache with
  | nil => exact (List.append_nil _).symm
  | cons note notes ih =>
    obtain ⟨noted, item⟩ := note
    have hstep : (cache.addAll ((noted, item) :: notes)).list key =
        ((cache.add noted item).addAll notes).list key := rfl
    rw [hstep, ih]
    by_cases hkey : noted = key
    · subst hkey
      have hunder : under noted ((noted, item) :: notes) = item :: under noted notes := by
        simp [under]
      rw [hunder, list_add_self]
      by_cases hitem : item ∈ cache.list noted
      · rw [if_pos hitem, List.filter_cons_of_neg (by simpa using hitem)]
      · rw [if_neg hitem, List.filter_cons_of_pos (by simpa using hitem), List.eraseDups_cons,
          List.filter_filter, List.append_assoc, List.singleton_append]
        congr 3
        apply List.filter_congr
        intro other _
        by_cases hother : other = item <;> simp [hother, hitem]
    · have hunder : under key ((noted, item) :: notes) = under key notes := by
        simp [under, hkey]
      rw [hunder, list_add_of_ne (Ne.symm hkey)]

end CandidateCache

/-! ### What a line does -/

namespace Shell

variable {shell : Shell} {notes : String → List (String × String)} {line : String}
  {lines lines' : List String}

/-- The shell with another candidate cache. -/
def withCache (shell : Shell) (cache : CandidateCache) : Shell := { shell with cache }

/-- The shell after lines, one after the other. -/
def executeAll (shell : Shell) (lines : List String) : Shell :=
  lines.foldl (fun shell line => (shell.execute line).2) shell

/-- What a line does, whatever stands in the candidate cache: nothing if it has no tokens, or it
fails, or the handler of the command it names is given what the line binds. -/
theorem execute_cases (shell : Shell) (line : String) :
    (Line.tokens? line = .ok [] ∧
      ∀ cache, (shell.withCache cache).execute line = (.ok .silent, shell.withCache cache)) ∨
    (∃ e, ∀ cache, (shell.withCache cache).execute line = (.error e, shell.withCache cache)) ∨
    ∃ head rest command inv, Line.tokens? line = .ok (head :: rest) ∧
      shell.registry.get? head.value = some command ∧
      command.spec.signature.bind rest = .ok inv.bindings ∧
      ∀ cache, (shell.withCache cache).execute line =
        ((command.handler inv cache).1, shell.withCache (command.handler inv cache).2) := by
  unfold execute
  cases htokens : Line.tokens? line with
  | error e => exact .inr (.inl ⟨.quoting e, fun _ => rfl⟩)
  | ok tokens =>
    cases tokens with
    | nil => exact .inl ⟨rfl, fun _ => rfl⟩
    | cons head rest =>
      simp only [withCache]
      cases hget : shell.registry.get? head.value with
      | none => exact .inr (.inl ⟨.unknownCommand head.value, fun _ => rfl⟩)
      | some command =>
        cases hbind : command.spec.signature.bind rest with
        | error e => exact .inr (.inl ⟨.matching e, fun _ => by simp [hbind]⟩)
        | ok bindings =>
          let inv : Invocation := ⟨command.spec, bindings, shell.registry.catalogue, line⟩
          exact .inr (.inr ⟨head, rest, command, inv, rfl, hget, hbind, fun _ => by
            simp [hbind, inv]⟩)

/-! ### Lines that only add candidates -/

/-- What a line answers does not depend on the candidate cache, and all it does to that is to add
candidates; none if it fails. -/
structure Steady (shell : Shell) (notes : String → List (String × String)) : Prop where
  execute_eq : ∀ line cache, (shell.withCache cache).execute line =
    ((shell.execute line).1, shell.withCache (cache.addAll (notes line)))
  notes_of_error : ∀ line e, (shell.execute line).1 = .error e → notes line = []

namespace Steady

/-- After many lines the candidates of all of them have been added. -/
theorem executeAll_eq (h : shell.Steady notes) (lines : List String) :
    shell.executeAll lines = shell.withCache (shell.cache.addAll (lines.flatMap notes)) := by
  -- The induction is for any candidate cache, since every line goes on with that of the last.
  suffices hall : ∀ cache, (shell.withCache cache).executeAll lines =
      shell.withCache (cache.addAll (lines.flatMap notes)) from hall shell.cache
  induction lines with
  | nil => exact fun cache => rfl
  | cons line lines ih =>
    intro cache
    have hstep : (shell.withCache cache).executeAll (line :: lines) =
        ((shell.withCache cache).execute line).2.executeAll lines := rfl
    rw [hstep, h.execute_eq, ih, List.flatMap_cons, CandidateCache.addAll_append]

/-- The outcome of a line is the same after any other lines. -/
theorem execute_executeAll (h : shell.Steady notes) (lines : List String) (line : String) :
    ((shell.executeAll lines).execute line).1 = (shell.execute line).1 := by
  rw [h.executeAll_eq, h.execute_eq]

/-- The candidates under a key after many lines: those that were there, then those that are added,
each once. -/
theorem list_executeAll (h : shell.Steady notes) (lines : List String) (key : String) :
    (shell.executeAll lines).cache.list key = shell.cache.list key ++
      ((CandidateCache.under key (lines.flatMap notes)).filter
        (· ∉ shell.cache.list key)).eraseDups := by
  rw [h.executeAll_eq]
  exact CandidateCache.list_addAll shell.cache (lines.flatMap notes) key

/-- A candidate is there after many lines if it was there before, or one of them adds it. -/
theorem mem_list_executeAll_iff (h : shell.Steady notes) {key item : String} :
    item ∈ (shell.executeAll lines).cache.list key ↔
      item ∈ shell.cache.list key ∨ ∃ line ∈ lines, (key, item) ∈ notes line := by
  rw [h.list_executeAll, List.mem_append, List.mem_eraseDups, List.mem_filter,
    CandidateCache.mem_under_iff, List.mem_flatMap]
  by_cases hitem : item ∈ shell.cache.list key <;> simp [hitem]

/-- Lines in another order leave the same candidates. -/
theorem mem_list_executeAll_iff_of_perm (h : shell.Steady notes) (hperm : lines.Perm lines')
    {key item : String} :
    item ∈ (shell.executeAll lines).cache.list key ↔
      item ∈ (shell.executeAll lines').cache.list key := by
  rw [h.mem_list_executeAll_iff, h.mem_list_executeAll_iff]
  simp only [hperm.mem_iff]

/-- Lines that add candidates under keys that are there add no key. -/
theorem keys_executeAll (h : shell.Steady notes)
    (hkeys : ∀ line ∈ lines, ∀ note ∈ notes line, note.1 ∈ shell.cache.keys) :
    (shell.executeAll lines).cache.keys = shell.cache.keys := by
  rw [h.executeAll_eq]
  apply CandidateCache.keys_addAll
  intro note hnote
  obtain ⟨line, hline, hnote⟩ := List.mem_flatMap.mp hnote
  exact hkeys line hline note hnote

end Steady

end Shell

end CommandShell
