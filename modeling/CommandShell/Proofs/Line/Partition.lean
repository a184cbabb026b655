import CommandShell.Proofs.Line.Standing

/-!
# Spans part the line

The tokens of a line are written one after the other, with blanks between any two of them and
nothing but blanks around them. Their spans are therefore in order and cover all of the line but
blanks. What a span marks is the written form of its token, and is read as that token on its own.

## Main definitions

* `Line.Parts` — spans are in order in a text, and blanks keep them apart

## Main results

* `Line.Laid.exists_written` — every token is written somewhere in the text, and read there
* `Line.Laid.parts` — the spans of the tokens part the text
* `Line.exists_slice_eq`, `Line.tokens?_slice` — what the span of a token marks is read as that
  token
* `Line.parts_spans` — the spans of a strict and of a lenient reading part the line, and each marks
  the written form of its token
-/

namespace CommandShell.Line

variable {pos : Nat} {cs : List Char} {token : Token} {found : Scan}

/-- The spans of the tokens part the text. -/
structure Parts (cs : List Char) (tokens : List Token) : Prop where
  /-- A span marks characters of the text, the first of which is no blank. -/
  marked : ∀ token ∈ tokens, ∃ before c form after, cs = before ++ (c :: form ++ after) ∧
    Text.isBlank c = false ∧
    token.span = ⟨Text.byteLength before, Text.byteLength (before ++ c :: form)⟩
  /-- Spans are in order, and no two of them overlap or touch. -/
  ordered : tokens.Pairwise fun a b => a.span.stop < b.span.start
  /-- Between two spans that follow each other stand blanks, and at least one. -/
  apart : ∀ front a b back, tokens = front ++ a :: b :: back →
    ∃ before gap after, cs = before ++ (gap ++ after) ∧ gap ≠ [] ∧
      gap.all Text.isBlank = true ∧ a.span.stop = Text.byteLength before ∧
      b.span.start = Text.byteLength (before ++ gap)
  /-- Any character that no span covers is a blank. -/
  covered : ∀ before c after, cs = before ++ c :: after →
    Text.isBlank c = true ∨ ∃ token ∈ tokens, token.span.start ≤ Text.byteLength before ∧
      Text.byteLength (before ++ [c]) ≤ token.span.stop

namespace Laid

/-- Every token is written somewhere in the text, beginning with a character that is no blank, and
is read there on its own. Only where the text leaves a quote open may its written form do so. -/
theorem exists_written (h : Laid pos cs found) (hmem : token ∈ found.tokens) :
    ∃ before c form after unclosed, cs = before ++ (c :: form ++ after) ∧
      Text.isBlank c = false ∧
      token.span = ⟨pos + Text.byteLength before, pos + Text.byteLength (before ++ c :: form)⟩ ∧
      scan .bare none (pos + Text.byteLength before) (c :: form) = ⟨[token], unclosed⟩ ∧
      (found.unclosed = none → unclosed = none) := by
  induction h with
  | nil pos => exact absurd hmem List.not_mem_nil
  | @blank pos c cs found hc h ih =>
    obtain ⟨before, d, form, after, unclosed, rfl, hd, hspan, hread, hunclosed⟩ := ih hmem
    refine ⟨c :: before, d, form, after, unclosed, rfl, hd, ?_, ?_, hunclosed⟩
    · simpa only [List.cons_append, Text.byteLength_cons, Nat.add_assoc] using hspan
    · simpa only [Text.byteLength_cons, Nat.add_assoc] using hread
  | @last pos c cs value unclosed hc halone =>
    -- Only here may a quote stay open, and then the text leaves the same one open.
    cases List.mem_singleton.mp hmem
    exact ⟨[], c, cs, [], unclosed, (List.append_nil _).symm, hc, rfl, halone, id⟩
  | @word pos c cs blank after value found hc hblank halone hscan h ih =>
    rcases List.mem_cons.mp hmem with rfl | hmem
    · exact ⟨[], c, cs, blank :: after, none, rfl, hc, rfl, halone, fun _ => rfl⟩
    · obtain ⟨before, d, form, rest, unclosed, rfl, hd, hspan, hread, hunclosed⟩ := ih hmem
      have hstart : pos + Text.byteLength (c :: cs ++ [blank]) + Text.byteLength before =
          pos + Text.byteLength (c :: cs ++ blank :: before) := by
        simp only [Text.byteLength_append, Text.byteLength_cons, Text.byteLength_nil]
        omega
      refine ⟨c :: cs ++ blank :: before, d, form, rest, unclosed, by simp, hd, ?_, ?_, hunclosed⟩
      · rw [hspan, Text.byteLength_append before, ← Nat.add_assoc, hstart,
          Text.byteLength_append _ (d :: form), Nat.add_assoc]
      · rwa [← hstart]

/-- Every token begins where the text does or later. -/
theorem le_start (h : Laid pos cs found) (hmem : token ∈ found.tokens) :
    pos ≤ token.span.start := by
  obtain ⟨before, c, form, after, unclosed, -, -, hspan, -⟩ := h.exists_written hmem
  rw [hspan]
  exact Nat.le_add_right ..

theorem ordered (h : Laid pos cs found) :
    found.tokens.Pairwise fun a b => a.span.stop < b.span.start := by
  induction h with
  | nil pos => exact .nil
  | blank _ _ ih => exact ih
  | last _ _ => exact List.pairwise_singleton ..
  | @word pos c cs blank after value found hc hblank halone hscan h ih =>
    refine List.pairwise_cons.mpr ⟨fun token hmem => ?_, ih⟩
    have hle := h.le_start hmem
    have hsize := blank.utf8Size_pos
    simp only [Text.byteLength_append, Text.byteLength_cons, Text.byteLength_nil] at hle ⊢
    omega

/-- In front of the first token stand blanks. -/
theorem exists_lead (h : Laid pos cs found) (hhead : found.tokens.head? = some token) :
    ∃ gap after, cs = gap ++ after ∧ gap.all Text.isBlank = true ∧
      token.span.start = pos + Text.byteLength gap := by
  induction h with
  | nil pos => cases hhead
  | @blank pos c cs found hc h ih =>
    obtain ⟨gap, after, rfl, hgap, hstart⟩ := ih hhead
    refine ⟨c :: gap, after, rfl, by rw [List.all_cons, hc, hgap, Bool.and_self], ?_⟩
    rw [hstart, Text.byteLength_cons, Nat.add_assoc]
  | last _ _ =>
    cases hhead
    exact ⟨[], _, rfl, rfl, rfl⟩
  | word _ _ _ _ _ _ =>
    cases hhead
    exact ⟨[], _, rfl, rfl, rfl⟩

/-- Between two tokens that follow each other stand blanks, and at least one. -/
theorem exists_gap {front back : List Token} {a b : Token} (h : Laid pos cs found)
    (htokens : found.tokens = front ++ a :: b :: back) :
    ∃ before gap after, cs = before ++ (gap ++ after) ∧ gap ≠ [] ∧
      gap.all Text.isBlank = true ∧ a.span.stop = pos + Text.byteLength before ∧
      b.span.start = pos + Text.byteLength (before ++ gap) := by
  induction h generalizing front with
  | nil pos => simp at htokens
  | @blank pos c cs found hc h ih =>
    obtain ⟨before, gap, after, rfl, hne, hgap, hstop, hstart⟩ := ih htokens
    refine ⟨c :: before, gap, after, rfl, hne, hgap, ?_, ?_⟩
    · rw [hstop, Text.byteLength_cons, Nat.add_assoc]
    · rw [hstart, List.cons_append, Text.byteLength_cons, Nat.add_assoc]
  | last _ _ =>
    have hlength := congrArg List.length htokens
    simp only [List.length_append, List.length_cons, List.length_nil] at hlength
    omega
  | @word pos c cs blank after value found hc hblank halone hscan h ih =>
    cases front with
    | nil =>
      obtain ⟨rfl, hfound⟩ : _ ∧ found.tokens = b :: back := List.cons.inj htokens
      obtain ⟨gap, rest, rfl, hgap, hstart⟩ := h.exists_lead (congrArg List.head? hfound)
      refine ⟨c :: cs, blank :: gap, rest, rfl, List.cons_ne_nil _ _, ?_, rfl, ?_⟩
      · rw [List.all_cons, hblank, hgap, Bool.and_self]
      · simp only [hstart, Text.byteLength_append, Text.byteLength_cons, Text.byteLength_nil]
        omega
    | cons first front =>
      obtain ⟨before, gap, rest, rfl, hne, hgap, hstop, hstart⟩ :=
        ih (List.cons.inj htokens).2
      refine ⟨c :: cs ++ blank :: before, gap, rest, by simp, hne, hgap, ?_, ?_⟩
      · simp only [hstop, Text.byteLength_append, Text.byteLength_cons, Text.byteLength_nil]
        omega
      · simp only [hstart, Text.byteLength_append, Text.byteLength_cons, Text.byteLength_nil]
        omega

/-- Any character that is no blank stands inside of a token. -/
theorem covered {before after : List Char} {c : Char} (h : Laid pos cs found)
    (hcs : cs = before ++ c :: after) :
    Text.isBlank c = true ∨ ∃ token ∈ found.tokens,
      token.span.start ≤ pos + Text.byteLength before ∧
        pos + Text.byteLength (before ++ [c]) ≤ token.span.stop := by
  induction h generalizing before with
  | nil pos => simp at hcs
  | @blank pos b cs found hb h ih =>
    cases before with
    | nil =>
      cases hcs
      exact .inl hb
    | cons first before =>
      obtain ⟨rfl, rfl⟩ := List.cons.inj hcs
      simpa only [List.cons_append, Text.byteLength_cons, Nat.add_assoc] using ih rfl
  | @last pos b cs value unclosed hb halone =>
    refine .inr ⟨_, List.mem_singleton_self _, Nat.le_add_right .., ?_⟩
    simp only [hcs, Text.byteLength_append, Text.byteLength_cons, Text.byteLength_nil]
    omega
  | @word pos b cs blank rest value found hb hblank halone hscan h ih =>
    rcases List.append_eq_append_iff.mp hcs with ⟨more, rfl, hmore⟩ | ⟨more, hword, hmore⟩
    · cases more with
      | nil =>
        cases hmore
        exact .inl hblank
      | cons first more =>
        obtain ⟨rfl, rfl⟩ := List.cons.inj hmore
        refine (ih rfl).imp_right fun ⟨token, hmem, hstart, hstop⟩ =>
          ⟨token, List.mem_cons_of_mem _ hmem, ?_, ?_⟩
        · simp only [Text.byteLength_append, Text.byteLength_cons, Text.byteLength_nil] at hstart ⊢
          omega
        · simp only [Text.byteLength_append, Text.byteLength_cons, Text.byteLength_nil] at hstop ⊢
          omega
    · cases more with
      | nil =>
        cases hmore
        exact .inl hblank
      | cons first more =>
        obtain ⟨rfl, rfl⟩ := List.cons.inj hmore
        refine .inr ⟨_, List.mem_cons_self, Nat.le_add_right .., ?_⟩
        simp only [hword, Text.byteLength_append, Text.byteLength_cons, Text.byteLength_nil]
        omega

/-- The spans of the tokens part the text. -/
theorem parts (h : Laid 0 cs found) : Parts cs found.tokens where
  marked token hmem := by
    obtain ⟨before, c, form, after, unclosed, hcs, hc, hspan, -⟩ := h.exists_written hmem
    exact ⟨before, c, form, after, hcs, hc, by simpa only [Nat.zero_add] using hspan⟩
  ordered := h.ordered
  apart front a b back htokens := by
    simpa only [Nat.zero_add] using h.exists_gap htokens
  covered before c after hcs := by
    simpa only [Nat.zero_add] using h.covered hcs

end Laid

/-! ### Written forms -/

/-- The text that the span of a token marks begins where the token does, and no quote stays open in
it unless the line leaves one open. -/
theorem exists_slice_eq {line : String} (hmem : token ∈ lenientTokens line) :
    ∃ form unclosed, token.span.slice line = .ofList form ∧
      scan .bare none token.span.start form = ⟨[token], unclosed⟩ ∧
      ((scanLine line).unclosed = none → unclosed = none) := by
  obtain ⟨before, c, form, after, unclosed, hline, -, hspan, hread, hunclosed⟩ :=
    (laid_scan 0 line.toList).exists_written hmem
  rw [Nat.zero_add, Nat.zero_add] at hspan
  rw [Nat.zero_add] at hread
  refine ⟨c :: form, unclosed, ?_, ?_, hunclosed⟩
  · rw [Span.slice, hline, hspan, Span.sliceChars_append]
  · rwa [hspan]

/-- If no quote of the line stays open, none does in what the span of a token marks. -/
theorem tokens?_slice {line : String} {tokens : List Token} (hread : tokens? line = .ok tokens)
    (hmem : token ∈ tokens) :
    tokens? (token.span.slice line) = .ok [⟨token.value, ⟨0, token.span.length⟩⟩] := by
  obtain ⟨hclosed, rfl⟩ := tokens?_eq_ok_iff.mp hread
  obtain ⟨form, unclosed, hslice, hscan, hunclosed⟩ := exists_slice_eq hmem
  obtain ⟨_, halone, hsame⟩ := exists_scanLine_of_scan hscan
  rw [tokens?_eq_ok_iff, hslice, lenientTokens, halone]
  exact ⟨hsame (hunclosed hclosed), rfl⟩

/-- The spans of the tokens part the line, in a strict reading that succeeds as in a lenient one.
The text that a span marks is read in the same way as one token, which begins and ends with the
text. -/
theorem parts_spans (line : String) :
    (Parts line.toList (lenientTokens line) ∧
        ∀ token ∈ lenientTokens line,
          lenientTokens (token.span.slice line) = [⟨token.value, ⟨0, token.span.length⟩⟩]) ∧
      ∀ tokens, tokens? line = .ok tokens →
        Parts line.toList tokens ∧
          ∀ token ∈ tokens,
            tokens? (token.span.slice line) = .ok [⟨token.value, ⟨0, token.span.length⟩⟩] := by
  have hparts : Parts line.toList (lenientTokens line) := (laid_scan 0 line.toList).parts
  refine ⟨⟨hparts, fun token hmem => ?_⟩, fun tokens hread => ?_⟩
  · obtain ⟨form, unclosed, hslice, hscan, -⟩ := exists_slice_eq hmem
    obtain ⟨_, halone, -⟩ := exists_scanLine_of_scan hscan
    rw [hslice, lenientTokens, halone]
    rfl
  · refine ⟨?_, fun token hmem => tokens?_slice hread hmem⟩
    rwa [← (tokens?_eq_ok_iff.mp hread).2]

/-- A letter of two bytes, blanks in quotes and behind a backslash, and a blank of three bytes
between two words. -/
theorem parts_spans_wide :
    tokens? "ä \"b c\"\u3000d\\ e" =
        .ok [⟨"ä", ⟨0, 2⟩⟩, ⟨"b c", ⟨3, 8⟩⟩, ⟨"d e", ⟨11, 15⟩⟩] ∧
      Parts "ä \"b c\"\u3000d\\ e".toList
        [⟨"ä", ⟨0, 2⟩⟩, ⟨"b c", ⟨3, 8⟩⟩, ⟨"d e", ⟨11, 15⟩⟩] ∧
      tokens? (Span.slice ⟨11, 15⟩ "ä \"b c\"\u3000d\\ e") = .ok [⟨"d e", ⟨0, 4⟩⟩] := by
  have h : tokens? "ä \"b c\"\u3000d\\ e" =
      .ok [⟨"ä", ⟨0, 2⟩⟩, ⟨"b c", ⟨3, 8⟩⟩, ⟨"d e", ⟨11, 15⟩⟩] := by decide
  obtain ⟨hparts, halone⟩ := (parts_spans _).2 _ h
  exact ⟨h, hparts, halone ⟨"d e", ⟨11, 15⟩⟩ (by simp)⟩

end CommandShell.Line
