import CommandShell.Argument.Type

/-!
# The candidate cache

Lists of completion candidates under keys. Commands write them, completion reads them.

## Main definitions

* `CandidateCache` — the lists, by key
* `CandidateCache.add` — one more candidate under a key, unless it is there
* `CandidateCache.sortedKeys` — the keys in the order of their code points

## Main results

* `CandidateCache.mem_add` — a candidate that is added is in its list
* `CandidateCache.get?_add_of_ne` — adding under one key changes no other list
-/

namespace CommandShell

/-- Lists of completion candidates under keys. -/
abbrev CandidateCache := Dict (List String)

namespace CandidateCache

variable {cache : CandidateCache} {key other item : String}

/-- The candidates under a key, none if there is no list. -/
def list (cache : CandidateCache) (key : String) : List String := (cache.get? key).getD []

/-- The cache with one more candidate at the end of the list under `key`, unless it is there. -/
def add (cache : CandidateCache) (key item : String) : CandidateCache :=
  let items := cache.list key
  cache.put key (if item ∈ items then items else items ++ [item])

/-- The keys in the order of their code points. -/
def sortedKeys (cache : CandidateCache) : List String := cache.keys.mergeSort (· ≤ ·)

/-- The cache as a source of candidates. -/
def source (cache : CandidateCache) : CandidateSource := cache.get?

theorem mem_add : item ∈ (cache.add key item).list key := by
  by_cases h : item ∈ (cache.get? key).getD [] <;> simp [add, list, Dict.get?_put, h]

theorem get?_add_of_ne (h : other ≠ key) : (cache.add key item).get? other = cache.get? other := by
  simp [add, Dict.get?_put, h]

end CandidateCache

end CommandShell
