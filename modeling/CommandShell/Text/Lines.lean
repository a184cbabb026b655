/-!
# The lines of a text

A line ends at a line feed, and a carriage return right before the line feed belongs to the line
break. A text that ends in a line feed has no empty line after it.

## Main definitions

* `Text.lines` — the lines of a text, without their line breaks
* `Text.firstLine` — the first of them, empty if there is none

## Main results

* `Text.intercalate_lines` — a text is its lines with line feeds between them
-/

namespace CommandShell.Text

/-- A line whose characters are given last first, without the carriage return of its break. -/
def closeLine : List Char → List Char
  | '\r' :: cs => cs.reverse
  | cs => cs.reverse

/-- The lines of a text whose open line has the characters `line` so far, last first. -/
def linesFrom (line : List Char) : List Char → List (List Char)
  | [] => if line.isEmpty then [] else [line.reverse]
  | '\n' :: cs => closeLine line :: linesFrom [] cs
  | c :: cs => linesFrom (c :: line) cs

/-- The lines of a text, without their line breaks. -/
def lines (cs : List Char) : List (List Char) := linesFrom [] cs

/-- The first line of a text, empty if the text is. -/
def firstLine (cs : List Char) : List Char := (lines cs).headD []

theorem linesFrom_of_not_mem {line cs : List Char} (h : '\n' ∉ cs) :
    linesFrom line cs = if (line.reverse ++ cs).isEmpty then [] else [line.reverse ++ cs] := by
  induction cs generalizing line with
  | nil => simp [linesFrom]
  | cons c cs ih =>
    have hc : c ≠ '\n' := fun hc => h (by simp [hc])
    rw [linesFrom, ih fun hcs => h (by simp [hcs])]
    · simp
    · exact hc

/-- A text without line feed is its own first line. -/
theorem firstLine_of_not_mem {cs : List Char} (h : '\n' ∉ cs) : firstLine cs = cs := by
  rw [firstLine, lines, linesFrom_of_not_mem h]
  cases cs <;> simp

theorem closeLine_of_not_mem {line : List Char} (h : '\r' ∉ line) :
    closeLine line = line.reverse := by
  unfold closeLine
  split
  · exact absurd List.mem_cons_self h
  · rfl

theorem mem_of_mem_closeLine {line : List Char} {c : Char} (h : c ∈ closeLine line) : c ∈ line := by
  unfold closeLine at h
  split at h
  · exact List.mem_cons_of_mem _ (List.mem_reverse.mp h)
  · exact List.mem_reverse.mp h

theorem mem_of_mem_linesFrom {line cs l : List Char} {c : Char} (hl : l ∈ linesFrom line cs)
    (hc : c ∈ l) : c ∈ line ∨ c ∈ cs ∧ c ≠ '\n' := by
  fun_induction linesFrom line cs with
  | case1 line hline => cases hl
  | case2 line hline =>
    rw [List.mem_singleton.mp hl] at hc
    exact .inl (List.mem_reverse.mp hc)
  | case3 line cs ih =>
    rcases List.mem_cons.mp hl with rfl | hl
    · exact .inl (mem_of_mem_closeLine hc)
    · rcases ih hl with hc | ⟨hc, hne⟩
      · cases hc
      · exact .inr ⟨List.mem_cons_of_mem _ hc, hne⟩
  | case4 line first cs hfirst ih =>
    rcases ih hl with hc | ⟨hc, hne⟩
    · rcases List.mem_cons.mp hc with rfl | hc
      · exact .inr ⟨List.mem_cons_self, hfirst⟩
      · exact .inl hc
    · exact .inr ⟨List.mem_cons_of_mem _ hc, hne⟩

/-- The lines of a text hold its characters, but for the line feeds. -/
theorem mem_of_mem_lines {cs l : List Char} {c : Char} (hl : l ∈ lines cs) (hc : c ∈ l) :
    c ∈ cs ∧ c ≠ '\n' :=
  (mem_of_mem_linesFrom hl hc).resolve_left List.not_mem_nil

theorem intercalate_linesFrom {line cs : List Char} (hline : '\r' ∉ line) (hcs : '\r' ∉ cs)
    (hlast : cs.getLast? ≠ some '\n') :
    ['\n'].intercalate (linesFrom line cs) = line.reverse ++ cs := by
  fun_induction linesFrom line cs with
  | case1 line hempty => simp [List.isEmpty_iff.mp hempty]
  | case2 line hempty => simp
  | case3 line cs ih =>
    have hne : cs ≠ [] := by
      rintro rfl
      exact hlast rfl
    rw [List.getLast?_cons_of_ne_nil hne] at hlast
    have hrest := ih List.not_mem_nil (fun h => hcs (List.mem_cons_of_mem _ h)) hlast
    have hlines : linesFrom [] cs ≠ [] := by
      intro hnil
      rw [hnil] at hrest
      exact hne hrest.symm
    rw [List.intercalate_cons_of_ne_nil hlines, hrest, closeLine_of_not_mem hline]
    simp
  | case4 line c cs hc ih =>
    have hne : '\r' ≠ c := fun h => hcs (h ▸ List.mem_cons_self)
    have hrest : cs.getLast? ≠ some '\n' := by
      intro h
      apply hlast
      rw [List.getLast?_cons, h]
      rfl
    rw [ih (by simp [hne, hline]) (fun h => hcs (List.mem_cons_of_mem _ h)) hrest,
      List.reverse_cons, List.append_assoc, List.singleton_append]

/-- A text without carriage returns that does not end in a line feed is its lines with a line feed
between any two. -/
theorem intercalate_lines {cs : List Char} (hreturn : '\r' ∉ cs) (hlast : cs.getLast? ≠ some '\n') :
    ['\n'].intercalate (lines cs) = cs :=
  intercalate_linesFrom List.not_mem_nil hreturn hlast

end CommandShell.Text
