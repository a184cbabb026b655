import CommandShell.Proofs.Line.Typing
import Mathlib.Data.List.Induction

/-!
# Where the scanner stands

Behind every text the scanner is inside of something, or of nothing, and has a token in hand, or
none. What it is inside of depends on the text alone. From there on it reads what follows, so two
lines that begin with one text are read alike up to its end.

## Main definitions

* `Line.Mode.next`, `Line.modeBehind` — what the scanner is inside of behind a character, and behind
  a text
* `Line.Mode.openQuote?` — the quote that is open, and where it opened
* `Line.Stands` — the tokens that ended in a text, and the token in hand behind it
* `Line.Scan.shift` — what was read, further along the line

## Main results

* `Line.exists_stands` — the scanner stands somewhere behind every text
* `Line.exists_mark_of_openQuote?` — where a quote opened, its mark stands
* `Line.Settles.getLast?_isBlank` — a text that settles is empty or ends in a blank
* `Line.scan_shift` — further along a line a text is read in the same way
* `Line.exists_scanLine_of_scan` — what is read as one token there is read as that token on its own
-/

namespace CommandShell.Line

variable {c : Char} {mode : Mode} {draft : Option Draft} {pos opened : Nat} {quote : Quote}
  {before cs : List Char} {tokens : List Token}

/-! ### What the scanner is inside of -/

namespace Mode

/-- What the scanner is inside of behind a character at the offset `pos`. -/
def next (pos : Nat) (c : Char) : Mode → Mode
  | .bare =>
    if Text.isBlank c then .bare
    else if c = '"' then .quoted .double pos
    else if c = '\'' then .quoted .single pos
    else if c = '\\' then .escape
    else .bare
  | .escape => .bare
  | .quoted quote opened =>
    if c = quote.mark then .bare
    else if c = '\\' ∧ quote = .double then .quotedEscape opened
    else .quoted quote opened
  | .quotedEscape opened => .quoted .double opened

/-- What the scanner is inside of behind a text that begins at the offset `pos`. -/
def behind (mode : Mode) (pos : Nat) : List Char → Mode
  | [] => mode
  | c :: cs => (mode.next pos c).behind (pos + c.utf8Size) cs

/-- The quote that is open, and the offset where it opened. -/
def openQuote? : Mode → Option (Quote × Nat)
  | .bare | .escape => none
  | .quoted quote opened => some (quote, opened)
  | .quotedEscape opened => some (.double, opened)

theorem behind_append (mode : Mode) (pos : Nat) (cs ds : List Char) :
    mode.behind pos (cs ++ ds) = (mode.behind pos cs).behind (pos + Text.byteLength cs) ds := by
  induction cs generalizing mode pos with
  | nil => rfl
  | cons c cs ih => rw [List.cons_append, behind, ih, behind, Text.byteLength_cons, Nat.add_assoc]

/-- A quote that is open behind a character opened at it, or was open already. -/
theorem openQuote?_next (h : (mode.next pos c).openQuote? = some (quote, opened)) :
    (c = quote.mark ∧ opened = pos) ∨ mode.openQuote? = some (quote, opened) := by
  cases mode with
  | bare =>
    rw [next] at h
    split_ifs at h with hblank hdouble hsingle hslash
    · cases h
    · cases h; exact .inl ⟨hdouble, rfl⟩
    · cases h; exact .inl ⟨hsingle, rfl⟩
    · cases h
    · cases h
  | escape => cases h
  | quoted inside start =>
    rw [next] at h
    split_ifs at h with hmark hslash
    · cases h
    · cases h; exact .inr (by rw [openQuote?, hslash.2])
    · exact .inr h
  | quotedEscape start => exact .inr h

/-- A quote that is open behind a text was open in front of it or opened in it. -/
theorem openQuote?_behind {cs : List Char}
    (h : (mode.behind pos cs).openQuote? = some (quote, opened)) :
    mode.openQuote? = some (quote, opened) ∨ pos ≤ opened := by
  induction cs generalizing mode pos with
  | nil => exact .inl h
  | cons c cs ih =>
    rcases ih h with h | hle
    · exact (openQuote?_next h).symm.imp_right fun hnext => Nat.le_of_eq hnext.2.symm
    · exact .inr (Nat.le_trans (Nat.le_add_right ..) hle)

/-- Only a backslash leads to an escape inside of a double quote. -/
theorem eq_of_next_eq_quotedEscape (h : mode.next pos c = .quotedEscape opened) : c = '\\' := by
  cases mode with
  | bare =>
    rw [next] at h
    split_ifs at h
  | escape => cases h
  | quoted inside start =>
    rw [next] at h
    split_ifs at h with hmark hslash
    exact hslash.1
  | quotedEscape start => cases h

end Mode

/-- What the scanner is inside of behind a text at the beginning of a line. -/
def modeBehind (before : List Char) : Mode := Mode.bare.behind 0 before

theorem modeBehind_concat (before : List Char) (c : Char) :
    modeBehind (before ++ [c]) = (modeBehind before).next (Text.byteLength before) c := by
  rw [modeBehind, Mode.behind_append, Nat.zero_add]
  rfl

/-- Where the quote that is open behind a text opened, its mark stands. -/
theorem exists_mark_of_openQuote? (h : (modeBehind before).openQuote? = some (quote, opened)) :
    ∃ front back, before = front ++ quote.mark :: back ∧ Text.byteLength front = opened := by
  induction before using List.reverseRecOn with
  | nil => cases h
  | append_singleton before c ih =>
    rw [modeBehind_concat] at h
    rcases Mode.openQuote?_next h with ⟨rfl, rfl⟩ | h
    · exact ⟨before, [], rfl, rfl⟩
    · obtain ⟨front, back, rfl, hopened⟩ := ih h
      exact ⟨front, back ++ [c], by simp, hopened⟩

/-- The scanner is inside of an escape in a double quote only behind a backslash. -/
theorem getLast?_of_quotedEscape (h : modeBehind before = .quotedEscape opened) :
    before.getLast? = some '\\' := by
  rcases List.eq_nil_or_concat before with rfl | ⟨front, c, rfl⟩
  · cases h
  · rw [List.concat_eq_append, modeBehind_concat] at h
    rw [List.concat_eq_append, List.getLast?_concat, Mode.eq_of_next_eq_quotedEscape h]

/-! ### The token in hand -/

/-- Unless it is a blank outside of quotes, a character goes to the token in hand or begins one. -/
theorem exists_scan_cons_next (mode : Mode) (draft : Option Draft) (pos : Nat)
    (h : ¬ (mode = .bare ∧ Text.isBlank c = true)) :
    ∃ draft' : Draft, draft'.start = (Draft.orNew draft pos).start ∧ ∀ rest,
      scan mode draft pos (c :: rest) =
        scan (mode.next pos c) (some draft') (pos + c.utf8Size) rest := by
  cases mode with
  | bare =>
    have hblank : Text.isBlank c = false := by simpa using h
    simp only [scan, Mode.next, hblank, Bool.false_eq_true, if_false]
    repeat' split
    all_goals exact ⟨_, by rfl, fun _ => rfl⟩
  | escape => exact ⟨_, by rfl, fun _ => rfl⟩
  | quoted quote opened =>
    simp only [scan, Mode.next]
    repeat' split
    all_goals exact ⟨_, by rfl, fun _ => rfl⟩
  | quotedEscape opened =>
    simp only [scan, Mode.next]
    split <;> exact ⟨_, by rfl, fun _ => rfl⟩

/-- The scanner has read a text from the beginning of a line: it has left the tokens behind, and has
the draft in hand. -/
structure Stands (before : List Char) (tokens : List Token) (draft : Option Draft) : Prop where
  scan_append : ∀ rest, scan .bare none 0 (before ++ rest) =
    .behind tokens (scan (modeBehind before) draft (Text.byteLength before) rest)
  bare_of_none : draft = none → modeBehind before = .bare
  isBlank_of_none : draft = none → ∀ c ∈ before.getLast?, Text.isBlank c = true
  start_le : ∀ inHand ∈ draft, inHand.start ≤ Text.byteLength before
  start_le_opened : ∀ inHand ∈ draft, ∀ quote opened,
    (modeBehind before).openQuote? = some (quote, opened) → inHand.start ≤ opened

theorem stands_nil : Stands [] [] none where
  scan_append _ := rfl
  bare_of_none _ := rfl
  isBlank_of_none _ _ h := absurd h (by simp)
  start_le _ h := absurd h (by simp)
  start_le_opened _ h := absurd h (by simp)

/-- A blank outside of quotes ends the token in hand. -/
theorem Stands.blank (h : Stands before tokens draft) (hmode : modeBehind before = .bare)
    (hc : Text.isBlank c = true) :
    Stands (before ++ [c])
      (tokens ++ (draft.map (·.token (Text.byteLength before))).toList) none := by
  have hnext : modeBehind (before ++ [c]) = .bare := by
    rw [modeBehind_concat, hmode]
    simp [Mode.next, hc]
  refine ⟨fun rest => ?_, fun _ => hnext, fun _ => by simp [hc], by simp, by simp⟩
  rw [List.append_assoc, List.singleton_append, h.scan_append, hnext, hmode, scan]
  simp [hc, Scan.behind, Scan.after]

/-- Any other character goes to the token in hand or begins one. -/
theorem Stands.push (h : Stands before tokens draft)
    (hc : ¬ (modeBehind before = .bare ∧ Text.isBlank c = true)) :
    ∃ draft', Stands (before ++ [c]) tokens (some draft') := by
  obtain ⟨draft', hstart, hscan⟩ :=
    exists_scan_cons_next (modeBehind before) draft (Text.byteLength before) hc
  have hle : draft'.start ≤ Text.byteLength before := by
    rw [hstart]
    cases draft with
    | none => exact Nat.le_refl _
    | some inHand => exact h.start_le inHand rfl
  refine ⟨draft', ⟨fun rest => ?_, by simp, by simp, ?_, ?_⟩⟩
  · rw [List.append_assoc, List.singleton_append, h.scan_append, hscan, modeBehind_concat]
    simp
  · rintro _ ⟨rfl⟩
    simp only [Text.byteLength_append, Text.byteLength_cons]
    omega
  · rintro _ ⟨rfl⟩ quote opened hopen
    rw [modeBehind_concat] at hopen
    rcases Mode.openQuote?_next hopen with ⟨-, rfl⟩ | hopen
    · exact hle
    · cases draft with
      | none => simp [h.bare_of_none rfl, Mode.openQuote?] at hopen
      | some inHand => exact hstart ▸ h.start_le_opened inHand rfl quote opened hopen

theorem exists_stands (before : List Char) : ∃ tokens draft, Stands before tokens draft := by
  induction before using List.reverseRecOn with
  | nil => exact ⟨[], none, stands_nil⟩
  | append_singleton before c ih =>
    obtain ⟨tokens, draft, h⟩ := ih
    by_cases hc : modeBehind before = .bare ∧ Text.isBlank c = true
    · exact ⟨_, none, h.blank hc.1 hc.2⟩
    · obtain ⟨draft', h'⟩ := h.push hc
      exact ⟨tokens, some draft', h'⟩

/-- At the end of a line the token in hand ends, whatever the scanner is inside of. -/
theorem exists_scan_nil (mode : Mode) (inHand : Draft) (pos : Nat) :
    ∃ value, scan mode (some inHand) pos [] =
      ⟨[⟨value, ⟨inHand.start, pos⟩⟩], mode.openQuote?⟩ := by
  cases mode <;> exact ⟨_, rfl⟩

/-- Behind a text that settles, nothing is in hand. -/
theorem Settles.eq_none {settled : List Token} (h : Settles 0 before settled)
    (hstands : Stands before tokens draft) : draft = none := by
  cases draft with
  | none => rfl
  | some inHand =>
    obtain ⟨value, hnil⟩ :=
      exists_scan_nil (modeBehind before) inHand (Text.byteLength before)
    have hscan := (h.scan_append []).symm.trans (hstands.scan_append [])
    rw [hnil, Nat.zero_add] at hscan
    have htokens : settled = tokens ++ [⟨value, ⟨inHand.start, Text.byteLength before⟩⟩] := by
      simpa [Scan.behind, scan, Scan.after] using congrArg Scan.tokens hscan
    have hlt := h.stop_lt ⟨value, ⟨inHand.start, Text.byteLength before⟩⟩ (by simp [htokens])
    simp at hlt

/-- Behind a text that settles, the scanner is outside of quotes and escapes. -/
theorem Settles.modeBehind_eq {settled : List Token} (h : Settles 0 before settled) :
    modeBehind before = .bare := by
  obtain ⟨tokens, draft, hstands⟩ := exists_stands before
  exact hstands.bare_of_none (h.eq_none hstands)

/-- A text that settles is empty or ends in a blank. -/
theorem Settles.getLast?_isBlank {settled : List Token} (h : Settles 0 before settled) :
    ∀ c ∈ before.getLast?, Text.isBlank c = true := by
  obtain ⟨tokens, draft, hstands⟩ := exists_stands before
  exact hstands.isBlank_of_none (h.eq_none hstands)

/-! ### Reading further along a line -/

/-- The draft, `k` bytes further along. -/
def Draft.shift (k : Nat) (draft : Draft) : Draft := { draft with start := draft.start + k }

/-- The mode, `k` bytes further along. -/
def Mode.shift (k : Nat) : Mode → Mode
  | .bare => .bare
  | .escape => .escape
  | .quoted quote opened => .quoted quote (opened + k)
  | .quotedEscape opened => .quotedEscape (opened + k)

/-- The token, `k` bytes further along. -/
def shiftToken (k : Nat) (token : Token) : Token :=
  ⟨token.value, ⟨token.span.start + k, token.span.stop + k⟩⟩

/-- The scan, `k` bytes further along. -/
def Scan.shift (k : Nat) (found : Scan) : Scan :=
  ⟨found.tokens.map (shiftToken k), found.unclosed.map fun (quote, opened) => (quote, opened + k)⟩

theorem orNew_shift (k : Nat) (draft : Option Draft) (pos : Nat) :
    Draft.orNew (draft.map (Draft.shift k)) (pos + k) = (Draft.orNew draft pos).shift k := by
  cases draft <;> rfl

theorem after_shift (k : Nat) (draft : Option Draft) (stop : Nat) (rest : Scan) :
    Scan.after (draft.map (Draft.shift k)) (stop + k) (rest.shift k) =
      (rest.after draft stop).shift k := by
  cases draft <;> rfl

/-- Further along a line a text is read in the same way. -/
theorem scan_shift (k : Nat) (mode : Mode) (draft : Option Draft) (pos : Nat) (cs : List Char) :
    scan (mode.shift k) (draft.map (Draft.shift k)) (pos + k) cs =
      (scan mode draft pos cs).shift k := by
  induction cs generalizing mode draft pos with
  | nil => cases mode <;> cases draft <;> rfl
  | cons c cs ih =>
    have hstep : ∀ mode draft, scan (Mode.shift k mode) (Option.map (Draft.shift k) draft)
        (pos + k + c.utf8Size) cs = (scan mode draft (pos + c.utf8Size) cs).shift k := by
      intro mode draft
      rw [Nat.add_right_comm, ih]
    cases mode <;> simp only [scan, Mode.shift, orNew_shift] <;> repeat' split
    case bare.isTrue => exact (congrArg _ (hstep .bare none)).trans (after_shift ..)
    all_goals
      rw [← hstep]
      rfl

/-- A text that is read as one token further along a line is read as that token on its own, and then
leaves a quote open only if it does so there. -/
theorem exists_scanLine_of_scan {value : String} {stop : Nat} {unclosed : Option (Quote × Nat)}
    (h : scan .bare none pos cs = ⟨[⟨value, ⟨pos, stop⟩⟩], unclosed⟩) :
    ∃ unclosed', scanLine (.ofList cs) = ⟨[⟨value, ⟨0, stop - pos⟩⟩], unclosed'⟩ ∧
      (unclosed = none → unclosed' = none) := by
  have hshift := scan_shift pos .bare none 0 cs
  rw [Nat.zero_add] at hshift
  replace hshift := hshift.symm.trans h
  rw [scanLine, String.toList_ofList]
  -- Only one token has this value and, further along, this span.
  obtain ⟨⟨_, ⟨start, stop⟩⟩, hread, hmoved⟩ :=
    List.map_eq_singleton_iff.mp (congrArg Scan.tokens hshift)
  simp only [shiftToken, Token.mk.injEq, Span.mk.injEq] at hmoved
  obtain ⟨rfl, hstart, rfl⟩ := hmoved
  obtain rfl : start = 0 := by omega
  refine ⟨(scan .bare none 0 cs).unclosed, ?_, fun hclosed => ?_⟩
  · rw [Nat.add_sub_cancel, ← hread]
  · have hunclosed := congrArg Scan.unclosed hshift
    rw [hclosed] at hunclosed
    exact Option.map_eq_none_iff.mp hunclosed

end CommandShell.Line
