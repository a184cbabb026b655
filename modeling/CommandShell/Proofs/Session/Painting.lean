import CommandShell.Session.Mark
import CommandShell.Session.Style

/-!
# Painting keeps the text

A painted diagnostic shows the diagnostic as it was, whatever its lines look like: a line is cut
into an opening and a rest, and the rest of a caret line into blanks and what is behind them, and
each piece is either left alone or put between the two control sequences of a colour. So every
colour ends on the line on which it begins.

## Main definitions

* `Mark.Shows` — a painted text shows a plain one, whatever comes behind it

## Main results

* `Mark.shows_paintChars` — a text in a colour shows the text
* `Style.shows_diagnosticLine` — so does a painted line of a diagnostic
* `Style.diagnostic_keeps_text` — so does a painted diagnostic
-/

namespace CommandShell

namespace Mark

variable {cs rest painted plain painted' plain' : List Char} {marks marks' : List Mark} {c : Char}
  {style : Style}

/-! ### Reading control sequences -/

theorem control?_of_ne (h : c ≠ '\x1b') : control? (c :: cs) = none := by
  simp [control?, Text.dropOpening?, h]

theorem readAll_cons_of_ne (h : c ≠ '\x1b') : readAll (c :: cs) = char c :: readAll cs := by
  rw [readAll]
  split
  · rename_i heq
    cases (control?_of_ne h).symm.trans heq
  · rfl

theorem readAll_of_control? {mark : Mark} (h : control? cs = some (mark, rest)) :
    readAll cs = mark :: readAll rest := by
  rw [readAll]
  split
  · rename_i heq
    cases h.symm.trans heq
    rfl
  · rename_i heq
    cases h.symm.trans heq

theorem readAll_reset (rest : List Char) : readAll (Style.reset ++ rest) = reset :: readAll rest :=
  readAll_of_control? rfl

/-- Each colour of the palette has a number. -/
theorem readAll_start (color : Ink) (rest : List Char) :
    readAll (Style.start color ++ rest) = ink :: readAll rest := by
  apply readAll_of_control?
  cases color <;> rfl

/-- Characters other than the escape character are read one by one. -/
theorem readAll_append (h : '\x1b' ∉ cs) (rest : List Char) :
    readAll (cs ++ rest) = cs.map char ++ readAll rest := by
  induction cs with
  | nil => rfl
  | cons c cs ih =>
    have hc : c ≠ '\x1b' := fun heq => h (heq ▸ List.mem_cons_self)
    rw [List.cons_append, readAll_cons_of_ne hc, ih fun hmem => h (List.mem_cons_of_mem _ hmem)]
    rfl

/-! ### Closed colours -/

theorem shown_map_char (cs : List Char) : shown (cs.map char) = cs := by
  simp [shown, List.filterMap_map, Function.comp_def, char?]

theorem closesInks_of_not_mem (h : ink ∉ marks) : ClosesInks marks := by
  rintro before after rfl
  exact absurd (by simp) h

theorem ClosesInks.append (h : ClosesInks marks) (h' : ClosesInks marks') :
    ClosesInks (marks ++ marks') := by
  intro before after heq
  rcases List.append_eq_append_iff.mp heq with ⟨more, rfl, hmarks'⟩ | ⟨more, rfl, hmore⟩
  · exact h' more after hmarks'
  · cases more with
    | nil => exact h' [] after hmore.symm
    | cons mark more =>
      cases hmore
      obtain ⟨cs, rest, rfl, hcs⟩ := h before more rfl
      exact ⟨cs, rest ++ marks', by simp, hcs⟩

/-- A colour around characters of one line is closed. -/
theorem closesInks_painted (h : '\n' ∉ cs) : ClosesInks (ink :: (cs.map char ++ [reset])) := by
  intro before after heq
  rcases List.cons_eq_append_iff.mp heq with ⟨-, hafter⟩ | ⟨more, -, hmore⟩
  · cases hafter
    exact ⟨cs, [], rfl, h⟩
  · have hmem : ink ∈ cs.map char ++ [reset] := hmore ▸ List.mem_append_right _ List.mem_cons_self
    simp at hmem

/-! ### Painted texts -/

/-- Wherever a painted text stands, its control sequences are read as such, its colours are closed,
and it shows the plain text. -/
def Shows (painted plain : List Char) : Prop :=
  ∃ marks, (∀ rest, readAll (painted ++ rest) = marks ++ readAll rest) ∧ shown marks = plain ∧
    ClosesInks marks

theorem Shows.append (h : Shows painted plain) (h' : Shows painted' plain') :
    Shows (painted ++ painted') (plain ++ plain') := by
  obtain ⟨marks, hread, rfl, hcloses⟩ := h
  obtain ⟨marks', hread', rfl, hcloses'⟩ := h'
  refine ⟨marks ++ marks', fun rest => ?_, List.filterMap_append, hcloses.append hcloses'⟩
  rw [List.append_assoc, hread, hread', List.append_assoc]

/-- A text without escape characters shows itself. -/
theorem shows_self (h : '\x1b' ∉ cs) : Shows cs cs :=
  ⟨cs.map char, readAll_append h, shown_map_char cs, closesInks_of_not_mem (by simp)⟩

/-- A text in a colour shows the text. -/
theorem shows_paintChars (style : Style) (color : Ink) (h : '\x1b' ∉ cs) (hline : '\n' ∉ cs) :
    Shows (style.paintChars color cs) cs := by
  unfold Style.paintChars
  split
  · refine ⟨ink :: (cs.map char ++ [reset]), fun rest => ?_, ?_, closesInks_painted hline⟩
    · rw [List.append_assoc, List.append_assoc, readAll_start, readAll_append h, readAll_reset]
      simp
    · calc shown (ink :: (cs.map char ++ [reset]))
        _ = shown (cs.map char) ++ shown [reset] := List.filterMap_append
        _ = cs := by rw [shown_map_char, shown, List.filterMap_cons_none rfl]; simp
  · exact shows_self h

/-- Lines that are painted one by one show the text that they are cut from. -/
theorem shows_intercalate {paint : List Char → List Char} {lines : List (List Char)}
    (h : ∀ line ∈ lines, Shows (paint line) line) :
    Shows (['\n'].intercalate (lines.map paint)) (['\n'].intercalate lines) := by
  induction lines with
  | nil => exact shows_self List.not_mem_nil
  | cons line lines ih =>
    rw [List.forall_mem_cons] at h
    cases lines with
    | nil => simpa using h.1
    | cons next lines =>
      rw [List.map_cons, List.map_cons, List.intercalate_cons_cons, List.intercalate_cons_cons]
      exact (h.1.append (shows_self (by decide))).append (ih h.2)

/-- A text that shows another one is that text without its control sequences. -/
theorem Shows.readAll (h : Shows painted plain) :
    shown (readAll painted) = plain ∧ ClosesInks (readAll painted) := by
  obtain ⟨marks, hread, hshown, hcloses⟩ := h
  have hall : Mark.readAll painted = marks := by
    have hnil : Mark.readAll [] = [] := by
      rw [Mark.readAll]
      rfl
    simpa [hnil] using hread []
  exact hall ▸ ⟨hshown, hcloses⟩

end Mark

namespace Style

open Mark

variable {line rest : List Char}

/-- The rest of a caret line is cut where its blanks end. -/
theorem shows_gutterText (style : Style) (h : '\x1b' ∉ rest) (hline : '\n' ∉ rest) :
    Shows (style.gutterText rest) rest := by
  unfold gutterText
  extract_lets word
  split
  · have hcut : rest.takeWhile Text.isBlank ++ Text.trimLeft rest = rest :=
      List.takeWhile_append_dropWhile
    rw [← hcut, List.mem_append, not_or] at h hline
    have hshows := (shows_self h.1).append (shows_paintChars style .header h.2 hline.2)
    rwa [hcut] at hshows
  · exact shows_self h

/-- A painted line of a diagnostic shows that line. -/
theorem shows_diagnosticLine (style : Style) (h : '\x1b' ∉ line) (hline : '\n' ∉ line) :
    Shows (style.diagnosticLine line) line := by
  rw [diagnosticLine]
  generalize hfound : style.openings.findSome? _ = found
  cases found with
  | none => exact shows_self h
  | some painted =>
    obtain ⟨⟨opening, color, finish⟩, hmem, hpaint⟩ := List.exists_of_findSome?_eq_some hfound
    obtain ⟨rest, hrest, rfl⟩ := Option.map_eq_some_iff.mp hpaint
    rw [Text.dropOpening?_eq_some_iff] at hrest
    subst hrest
    rw [List.mem_append, not_or] at h hline
    have hfinish : Shows (finish rest) rest := by
      simp only [openings, List.mem_cons, List.not_mem_nil, or_false, Prod.mk.injEq] at hmem
      rcases hmem with ⟨-, -, rfl⟩ | ⟨-, -, rfl⟩ | ⟨-, -, rfl⟩
      · exact shows_self h.2
      · exact shows_self h.2
      · exact shows_gutterText style h.2 hline.2
    exact (shows_paintChars style color h.1 hline.1).append hfinish

/-- A diagnostic in colours is the diagnostic: without its control sequences it is the text that was
painted, and every colour ends on the line on which it begins, before another one begins. Without
colours it is the text in any case. -/
theorem diagnostic_keeps_text (text : String) (hescape : '\x1b' ∉ text.toList)
    (hreturn : '\r' ∉ text.toList) (hlast : text.toList.getLast? ≠ some '\n') :
    let painted := readAll ((Style.mk true).diagnostic text).toList
    shown painted = text.toList ∧ ClosesInks painted ∧ (Style.mk false).diagnostic text = text := by
  have hlines : ∀ line ∈ Text.lines text.toList,
      Shows ((Style.mk true).diagnosticLine line) line := by
    intro line hline
    exact shows_diagnosticLine _ (fun hmem => hescape (Text.mem_of_mem_lines hline hmem).1)
      fun hmem => (Text.mem_of_mem_lines hline hmem).2 rfl
  have hshows := shows_intercalate hlines
  rw [Text.intercalate_lines hreturn hlast] at hshows
  have hpainted : ((Style.mk true).diagnostic text).toList =
      ['\n'].intercalate ((Text.lines text.toList).map (Style.mk true).diagnosticLine) :=
    String.toList_ofList
  intro painted
  obtain ⟨hshown, hcloses⟩ := hshows.readAll
  exact ⟨by rw [← hshown, ← hpainted], by rwa [← hpainted] at hcloses, rfl⟩

/-- A diagnostic whose caret line has a wide blank in front of its carets and another one behind
them. Four pieces of it are painted. -/
theorem diagnostic_keeps_text_caret :
    let text := "error: error:\n  --> here\n   |\u2003^^ "
    let painted := ((Style.mk true).diagnostic text).toList
    '\x1b' ∉ text.toList ∧ '\r' ∉ text.toList ∧ text.toList.getLast? ≠ some '\n' ∧
      painted.count '\x1b' = 8 ∧ shown (readAll painted) = text.toList ∧
      ClosesInks (readAll painted) := by
  intro text painted
  have hescape : '\x1b' ∉ text.toList := by decide +kernel
  have hreturn : '\r' ∉ text.toList := by decide +kernel
  have hlast : text.toList.getLast? ≠ some '\n' := by decide +kernel
  obtain ⟨hshown, hcloses, -⟩ := diagnostic_keeps_text text hescape hreturn hlast
  exact ⟨hescape, hreturn, hlast, by decide +kernel, hshown, hcloses⟩

end Style

end CommandShell
