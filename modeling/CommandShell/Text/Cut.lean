/-!
# Cutting texts

Taking a text apart at a byte offset, at a separator, at an opening or at a closing. Offsets
count bytes of the UTF-8 encoding; a cut inside a character does not exist.

## Main definitions

* `Text.byteLength` — the number of bytes of a text
* `Text.cutAt?` — the two parts of a text at a byte offset
* `Text.cutFirst?` — the parts before and after the first separator
* `Text.dropOpening?`, `Text.dropClosing?` — a text without a given opening or closing
* `Text.begins` — a text begins with another one

## Main results

* `cutAt?_append` — cutting at the length of an initial part gives that part back
* `cutFirst?_eq_some` — nothing before the separator is a separator
-/

namespace CommandShell.Text

/-- The number of bytes of the UTF-8 encoding of a text. -/
def byteLength : List Char → Nat
  | [] => 0
  | c :: cs => c.utf8Size + byteLength cs

@[simp] theorem byteLength_nil : byteLength [] = 0 := rfl

@[simp] theorem byteLength_cons (c : Char) (cs : List Char) :
    byteLength (c :: cs) = c.utf8Size + byteLength cs := rfl

@[simp] theorem byteLength_append (cs ds : List Char) :
    byteLength (cs ++ ds) = byteLength cs + byteLength ds := by
  induction cs with
  | nil => simp
  | cons c cs ih => rw [List.cons_append, byteLength_cons, byteLength_cons, ih, Nat.add_assoc]

/-- The two parts of a text at a byte offset, if the offset lies between two of its characters
or at one of its ends. -/
def cutAt? : Nat → List Char → Option (List Char × List Char)
  | 0, cs => some ([], cs)
  | _ + 1, [] => none
  | n + 1, c :: cs =>
    if c.utf8Size ≤ n + 1 then
      (cutAt? (n + 1 - c.utf8Size) cs).map fun (before, after) => (c :: before, after)
    else none

@[simp] theorem cutAt?_zero (cs : List Char) : cutAt? 0 cs = some ([], cs) := by
  cases cs <;> rfl

theorem cutAt?_append (cs ds : List Char) : cutAt? (byteLength cs) (cs ++ ds) = some (cs, ds) := by
  induction cs with
  | nil => simp
  | cons c cs ih =>
    obtain ⟨n, hn⟩ : ∃ n, c.utf8Size = n + 1 :=
      ⟨c.utf8Size - 1, by have := c.utf8Size_pos; omega⟩
    have hadd : byteLength (c :: cs) = (n + byteLength cs) + 1 := by simp [hn]; omega
    rw [hadd, List.cons_append, cutAt?, hn, if_pos (by omega)]
    rw [show n + byteLength cs + 1 - (n + 1) = byteLength cs by omega, ih]
    rfl

/-- The parts of a text before and after its first `separator`, if it has one. -/
def cutFirst? (separator : Char) : List Char → Option (List Char × List Char)
  | [] => none
  | c :: cs =>
    if c = separator then some ([], cs)
    else (cutFirst? separator cs).map fun (before, after) => (c :: before, after)

theorem cutFirst?_eq_some {separator : Char} {cs before after : List Char}
    (h : cutFirst? separator cs = some (before, after)) :
    cs = before ++ separator :: after ∧ separator ∉ before := by
  induction cs generalizing before with
  | nil => simp [cutFirst?] at h
  | cons c cs ih =>
    rw [cutFirst?] at h
    split at h
    · simp_all
    · rename_i hc
      simp only [Option.map_eq_some_iff, Prod.mk.injEq, Prod.exists] at h
      obtain ⟨b, a, hcut, rfl, rfl⟩ := h
      obtain ⟨rfl, hmem⟩ := ih hcut
      exact ⟨rfl, by simpa [hmem] using fun h => hc h.symm⟩

/-- The text after `opening`, if it begins with it. -/
def dropOpening? : (opening : List Char) → List Char → Option (List Char)
  | [], cs => some cs
  | _ :: _, [] => none
  | o :: os, c :: cs => if c = o then dropOpening? os cs else none

theorem dropOpening?_eq_some_iff {opening cs rest : List Char} :
    dropOpening? opening cs = some rest ↔ cs = opening ++ rest := by
  induction opening generalizing cs with
  | nil => simp [dropOpening?]
  | cons o os ih =>
    cases cs with
    | nil => simp [dropOpening?]
    | cons c cs => by_cases h : c = o <;> simp [dropOpening?, h, ih]

/-- The text before `closing`, if it ends with it. -/
def dropClosing? (closing cs : List Char) : Option (List Char) :=
  (dropOpening? closing.reverse cs.reverse).map List.reverse

/-- The text `s` begins with the text `opening`. -/
def begins (opening s : String) : Bool := opening.toList.isPrefixOf s.toList

theorem begins_iff {opening s : String} :
    begins opening s = true ↔ opening.toList <+: s.toList := by
  simp [begins]

end CommandShell.Text
