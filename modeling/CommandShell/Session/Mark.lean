import CommandShell.Text.Cut

/-!
# Reading painted text

What a terminal makes of a painted text: characters to show, and control sequences that begin and
end a colour. An escape character that begins neither of the two is shown like any other.

## Main definitions

* `Mark` — a character that is shown, or a control sequence
* `Mark.readAll` — the marks of a text
* `Mark.shown` — what is left of a text without its control sequences
* `Mark.ClosesInks` — every colour ends on the line on which it begins
-/

namespace CommandShell

/-- What a terminal reads off a painted text. -/
inductive Mark
  | char (c : Char)
  /-- A colour begins: the escape character, `[38;5;`, a number and `m`. -/
  | ink
  /-- The colour ends: the escape character and `[0m`. -/
  | reset
  deriving DecidableEq, Repr

namespace Mark

/-- The control sequence at the beginning of a text, with the text after it. -/
def control? (cs : List Char) : Option (Mark × List Char) :=
  match Text.dropOpening? ['\x1b', '[', '0', 'm'] cs with
  | some rest => some (reset, rest)
  | none =>
    (Text.dropOpening? ['\x1b', '[', '3', '8', ';', '5', ';'] cs).bind fun number =>
      if number.takeWhile Char.isDigit = [] then none
      else (Text.dropOpening? ['m'] (number.dropWhile Char.isDigit)).map (ink, ·)

theorem length_lt_of_control? {cs rest : List Char} {mark : Mark}
    (h : control? cs = some (mark, rest)) : rest.length < cs.length := by
  unfold control? at h
  split at h
  · rename_i rest' hreset
    cases h
    rw [Text.dropOpening?_eq_some_iff.mp hreset, List.length_append]
    exact Nat.lt_add_of_pos_left (by decide)
  · obtain ⟨number, hnumber, h⟩ := Option.bind_eq_some_iff.mp h
    split at h
    · cases h
    · obtain ⟨rest', hrest, heq⟩ := Option.map_eq_some_iff.mp h
      cases heq
      have hle : (number.dropWhile Char.isDigit).length ≤ number.length :=
        (List.dropWhile_sublist _).length_le
      rw [Text.dropOpening?_eq_some_iff.mp hrest] at hle
      rw [Text.dropOpening?_eq_some_iff.mp hnumber]
      simp only [List.length_append, List.length_cons, List.length_nil] at hle ⊢
      omega

/-- The marks of a text. -/
def readAll (cs : List Char) : List Mark :=
  match _h : control? cs with
  | some (mark, rest) => mark :: readAll rest
  | none =>
    match cs with
    | [] => []
    | c :: cs => char c :: readAll cs
termination_by cs.length
decreasing_by
  · exact length_lt_of_control? _h
  · exact Nat.lt_succ_self _

/-- The character that is shown. -/
def char? : Mark → Option Char
  | char c => some c
  | ink | reset => none

/-- What marks show. -/
def shown (marks : List Mark) : List Char := marks.filterMap char?

/-- Every colour that begins ends on the same line, before another one begins. -/
def ClosesInks (marks : List Mark) : Prop :=
  ∀ before after, marks = before ++ ink :: after →
    ∃ (cs : List Char) (rest : List Mark), after = cs.map char ++ reset :: rest ∧ '\n' ∉ cs

end Mark

end CommandShell
