import CommandShell.Proofs.Line.Standing

/-!
# Lines with an open quote

The strict and the lenient reading of a line differ only where a quote stays open. There the strict
reading refuses the line, and the lenient one ends the last token, which the quote is part of, with
the line. Closing the quote at the end of the line makes the two agree again, unless the mark would
be escaped.

## Main results

* `Line.tokens?_eq_error_iff` — what the strict reading reports of a line
* `Line.exists_scan_close` — closing an open quote ends the same token one byte later
* `Line.tokens?_lenientTokens` — how the strict and the lenient reading of a line agree
-/

namespace CommandShell.Line

variable {line : String} {e : OpenQuote} {quote : Quote} {opened : Nat} {cs : List Char}

/-- The quote left open is the one that the scanner is inside of at the end of the line. -/
theorem unclosed_scanLine (line : String) :
    (scanLine line).unclosed = (modeBehind line.toList).openQuote? := by
  obtain ⟨tokens, draft, hstands⟩ := exists_stands line.toList
  have hscan := hstands.scan_append []
  rw [List.append_nil] at hscan
  rw [scanLine, hscan, Scan.behind]
  cases modeBehind line.toList <;> rfl

/-- The strict reading reports the open quote, from its mark to the end of the line. -/
theorem tokens?_eq_error_iff :
    tokens? line = .error e ↔
      (modeBehind line.toList).openQuote? = some (e.quote, e.span.start) ∧
        e.span.stop = Text.byteLength line.toList := by
  obtain ⟨quote, start, stop⟩ := e
  rw [tokens?, ← unclosed_scanLine]
  cases (scanLine line).unclosed with
  | none => simp
  | some found =>
    simp only [Except.error.injEq, OpenQuote.mk.injEq, Span.mk.injEq, Option.some.injEq,
      Prod.ext_iff]
    rw [and_assoc, eq_comm (b := stop)]

/-- The quote that a line leaves open is part of its last token. -/
theorem exists_last_of_openQuote? (h : (modeBehind cs).openQuote? = some (quote, opened)) :
    ∃ front value start, (scan .bare none 0 cs).tokens =
      front ++ [⟨value, ⟨start, Text.byteLength cs⟩⟩] ∧ start ≤ opened := by
  obtain ⟨tokens, draft, hstands⟩ := exists_stands cs
  cases draft with
  | none => simp [hstands.bare_of_none rfl, Mode.openQuote?] at h
  | some inHand =>
    obtain ⟨value, hnil⟩ := exists_scan_nil (modeBehind cs) inHand (Text.byteLength cs)
    have hscan := hstands.scan_append []
    rw [List.append_nil, hnil] at hscan
    exact ⟨tokens, value, inHand.start, congrArg Scan.tokens hscan,
      hstands.start_le_opened inHand rfl quote opened h⟩

/-- The mark of the open quote at the end of a line closes it, unless it stands behind a backslash
in a double quote. The last token then ends behind the mark. -/
theorem exists_scan_close (h : (modeBehind cs).openQuote? = some (quote, opened))
    (hend : quote = .single ∨ cs.getLast? ≠ some '\\') :
    ∃ front value start,
      scan .bare none 0 (cs ++ [quote.mark]) =
        ⟨front ++ [⟨value, ⟨start, Text.byteLength cs + 1⟩⟩], none⟩ ∧
      (scan .bare none 0 cs).tokens = front ++ [⟨value, ⟨start, Text.byteLength cs⟩⟩] := by
  obtain ⟨tokens, draft, hstands⟩ := exists_stands cs
  have hclosed := hstands.scan_append [quote.mark]
  have hopen := hstands.scan_append []
  rw [List.append_nil] at hopen
  -- No escape is pending at the end, so the mark stands for itself.
  have hmode : modeBehind cs = .quoted quote opened := by
    cases hmode : modeBehind cs with
    | bare | escape => simp [hmode, Mode.openQuote?] at h
    | quoted => simpa [hmode, Mode.openQuote?] using h
    | quotedEscape start =>
      simp only [hmode, Mode.openQuote?, Option.some.injEq, Prod.mk.injEq] at h
      obtain ⟨rfl, rfl⟩ := h
      exact absurd (getLast?_of_quotedEscape hmode) (hend.resolve_left (by decide))
  cases draft with
  | none => cases hmode.symm.trans (hstands.bare_of_none rfl)
  | some inHand =>
    have hsize : quote.mark.utf8Size = 1 := by cases quote <;> decide
    rw [hmode] at hclosed hopen
    refine ⟨tokens, .ofList inHand.chars.reverse, inHand.start, ?_, ?_⟩
    · rw [hclosed, scan, if_pos rfl, hsize]
      rfl
    · rw [hopen]
      rfl

/-- The strict and the lenient reading of a line agree if the strict one succeeds. If it reports an
open quote, the lenient reading ends the last token, which holds the quote, with the line; and if
the quote is closed there, where no backslash escapes its mark, the strict reading succeeds with the
same tokens, the last of which ends one byte later. -/
theorem tokens?_lenientTokens (line : String) :
    (∀ tokens, tokens? line = .ok tokens → lenientTokens line = tokens) ∧
      ∀ e, tokens? line = .error e →
        (e.quote = .single ∨ line.toList.getLast? ≠ some '\\' →
          ∃ front value start stop,
            tokens? (line.push e.quote.mark) = .ok (front ++ [⟨value, ⟨start, stop + 1⟩⟩]) ∧
            lenientTokens line = front ++ [⟨value, ⟨start, stop⟩⟩]) ∧
        (∃ front last, lenientTokens line = front ++ [last] ∧
          last.span.start ≤ e.span.start ∧ e.span.start < last.span.stop ∧
          last.span.stop = Text.byteLength line.toList) ∧
        (∃ before after, line.toList = before ++ e.quote.mark :: after ∧
          e.span = ⟨Text.byteLength before, Text.byteLength line.toList⟩) := by
  refine ⟨fun tokens h => (tokens?_eq_ok_iff.mp h).2, fun e h => ?_⟩
  obtain ⟨hopen, hstop⟩ := tokens?_eq_error_iff.mp h
  obtain ⟨before, after, hline, hstart⟩ := exists_mark_of_openQuote? hopen
  refine ⟨fun hend => ?_, ?_, before, after, hline, ?_⟩
  · obtain ⟨front, value, start, hclosed, htokens⟩ := exists_scan_close hopen hend
    rw [← String.toList_push] at hclosed
    refine ⟨front, value, start, _, tokens?_eq_ok_iff.mpr ⟨?_, ?_⟩, htokens⟩
    · rw [scanLine, hclosed]
    · rw [lenientTokens, scanLine, hclosed]
  · obtain ⟨front, value, start, htokens, hle⟩ := exists_last_of_openQuote? hopen
    refine ⟨front, _, htokens, hle, ?_, rfl⟩
    have hsize := e.quote.mark.utf8Size_pos
    rw [← hstart]
    simp only [hline, Text.byteLength_append, Text.byteLength_cons]
    omega
  · rw [hstart, ← hstop]

/-- A double quote behind an escaped blank, with the mark of a single quote and a letter of two
bytes in it: `x a\ "b 'ä`. -/
theorem tokens?_lenientTokens_nested :
    tokens? "x a\\ \"b 'ä" = .error ⟨.double, ⟨5, 11⟩⟩ ∧
      ∃ front value start stop,
        tokens? ("x a\\ \"b 'ä".push '"') = .ok (front ++ [⟨value, ⟨start, stop + 1⟩⟩]) ∧
        lenientTokens "x a\\ \"b 'ä" = front ++ [⟨value, ⟨start, stop⟩⟩] := by
  have h : tokens? "x a\\ \"b 'ä" = .error ⟨.double, ⟨5, 11⟩⟩ := by decide
  exact ⟨h, ((tokens?_lenientTokens _).2 _ h).1 (.inr (by decide))⟩

end CommandShell.Line
