import CommandShell.Proofs.Line.OpenQuote

/-!
# Finished tokens are final

The finished tokens of a line still being typed are what the strict reading makes of the text in
front of the token being typed, and that token is what the lenient reading makes of the rest. The
cut between the two is never inside of a quote or an escape, so an open quote, an escaped blank at
the end and a backslash at the end belong to the token being typed.

## Main results

* `Line.Settles.tokens?_eq_ok` — the strict reading of a text that settles
* `Line.lenientTokens_typed` — the token being typed, read as a line of its own
* `Line.Settles.ne_bare_of_escape` — a text that ends in an escape does not settle
* `Line.exists_cut_splitPartial` — finished tokens are those of a strict reading, and the token
  being typed is that of a lenient one
-/

namespace CommandShell.Line

variable {c : Char} {before typed front : List Char} {tokens : List Token}

/-- The strict reading of a text that settles gives its tokens. -/
theorem Settles.tokens?_eq_ok (h : Settles 0 before tokens) :
    tokens? (.ofList before) = .ok tokens := by
  have hscan : scanLine (.ofList before) = ⟨tokens, none⟩ := by
    have happend := h.scan_append []
    rw [List.append_nil] at happend
    rw [scanLine, String.toList_ofList, happend]
    simp [scan, Scan.after, Scan.behind]
  rw [tokens?_eq_ok_iff, lenientTokens, hscan]
  exact ⟨rfl, rfl⟩

/-- A text that is read as one token further along a line is read as that token on its own. -/
theorem lenientTokens_typed {value : String} {pos : Nat} {unclosed : Option (Quote × Nat)}
    (h : scan .bare none pos typed =
      ⟨[⟨value, ⟨pos, pos + Text.byteLength typed⟩⟩], unclosed⟩) :
    lenientTokens (.ofList typed) = [⟨value, ⟨0, Text.byteLength typed⟩⟩] := by
  obtain ⟨_, halone, -⟩ := exists_scanLine_of_scan h
  rw [lenientTokens, halone, Nat.add_sub_cancel_left]

/-- A text that ends in a backslash does not settle. -/
theorem Settles.not_backslash (h : Settles 0 (front ++ ['\\']) tokens) : False := by
  have hblank := h.getLast?_isBlank '\\' (by simp)
  exact absurd hblank (by decide)

/-- A text that ends in an escape outside of quotes does not settle: the escaped character, blank or
not, is part of a token that goes on. -/
theorem Settles.ne_bare_of_escape (h : Settles 0 (front ++ ['\\', c]) tokens) :
    modeBehind front ≠ .bare := by
  intro hbare
  obtain ⟨read, draft, hfront⟩ := exists_stands front
  have hmode : modeBehind (front ++ ['\\']) = .escape := by
    rw [modeBehind_concat, hbare]
    rfl
  obtain ⟨draft', hslash⟩ := hfront.push (c := '\\') (fun hc => absurd hc.2 (by decide))
  obtain ⟨draft'', hescape⟩ := hslash.push (c := c) (fun hc => by simp [hmode] at hc)
  rw [List.append_assoc, List.singleton_append] at hescape
  exact Option.some_ne_none _ (h.eq_none hescape)

/-- Of a line taken apart in two ways, the one part in front is no longer than the other, or goes on
behind it. -/
theorem byteLength_le_or_exists_eq {back : List Char} (h : before ++ typed = front ++ back) :
    Text.byteLength before ≤ Text.byteLength front ∨
      ∃ c cs ds, back = c :: cs ++ ds ∧ before = front ++ c :: cs := by
  rcases List.append_eq_append_iff.mp h with ⟨middle, rfl, -⟩ | ⟨middle, rfl, rfl⟩
  · exact .inl (by simp)
  · cases middle with
    | nil => exact .inl (by simp)
    | cons c cs => exact .inr ⟨c, cs, typed, rfl, rfl⟩

/-- A line still being typed is cut where the token being typed begins. The finished tokens are
those of the strict reading of the text in front, which is empty or ends in a blank. Behind the cut is
nothing, or the one token that the lenient reading makes of the rest. An open quote, a backslash at
the end and an escape at the end are behind the cut. -/
theorem exists_cut_splitPartial (line : String) :
    ∃ before typed, Text.cutAt? (typedStart line) line.toList = some (before, typed) ∧
      tokens? (.ofList before) = .ok (splitPartial line).1 ∧
      (∀ c ∈ before.getLast?, Text.isBlank c = true) ∧
      (typedStart line = Text.byteLength line.toList ∧ (splitPartial line).2 = "" ∨
        lenientTokens (.ofList typed) =
          [⟨(splitPartial line).2, ⟨0, Text.byteLength line.toList - typedStart line⟩⟩]) ∧
      (∀ e, tokens? line = .error e → typedStart line ≤ e.span.start) ∧
      (∀ front, line.toList = front ++ ['\\'] → typedStart line ≤ Text.byteLength front) ∧
      ∀ front c, line.toList = front ++ ['\\', c] → modeBehind front = .bare →
        typedStart line ≤ Text.byteLength front := by
  obtain ⟨before, typed, hline, hstart, hsettles, htyped⟩ := exists_settles_typed line
  rw [hline, hstart, Text.cutAt?_append]
  refine ⟨before, typed, rfl, hsettles.tokens?_eq_ok, hsettles.getLast?_isBlank, ?_, ?_, ?_, ?_⟩
  · rcases htyped with ⟨rfl, hempty⟩ | ⟨unclosed, hscan⟩
    · exact .inl ⟨by simp, hempty⟩
    · rw [hline, Text.byteLength_append] at hscan
      rw [Text.byteLength_append, Nat.add_sub_cancel_left]
      exact .inr (lenientTokens_typed hscan)
  · intro e he
    have hopen := (tokens?_eq_error_iff.mp he).1
    rw [hline, modeBehind, Mode.behind_append, Nat.zero_add] at hopen
    rcases Mode.openQuote?_behind hopen with hbefore | hle
    · rw [← modeBehind, hsettles.modeBehind_eq] at hbefore
      cases hbefore
    · exact hle
  · intro front hback
    rcases byteLength_le_or_exists_eq hback with hle | ⟨c, cs, ds, hcs, rfl⟩
    · exact hle
    · obtain ⟨rfl, rfl, rfl⟩ : c = '\\' ∧ cs = [] ∧ ds = [] := by simpa [eq_comm] using hcs
      exact hsettles.not_backslash.elim
  · intro front c hback hbare
    rcases byteLength_le_or_exists_eq hback with hle | ⟨b, cs, ds, hcs, rfl⟩
    · exact hle
    -- The text in front would end in the backslash, or in the escape.
    cases cs with
    | nil =>
      cases hcs
      exact hsettles.not_backslash.elim
    | cons d cs =>
      obtain ⟨rfl, rfl, rfl, rfl⟩ : b = '\\' ∧ d = c ∧ cs = [] ∧ ds = [] := by
        simpa [eq_comm] using hcs
      exact absurd hbare hsettles.ne_bare_of_escape

/-- Quotes are undone in both parts; the escaped blank and the open quote are behind the cut. -/
example : splitPartial "x 'a b' c\\ \"d e" =
    ([⟨"x", ⟨0, 1⟩⟩, ⟨"a b", ⟨2, 7⟩⟩], "c d e") ∧
      typedStart "x 'a b' c\\ \"d e" = 8 := by
  decide

end CommandShell.Line
