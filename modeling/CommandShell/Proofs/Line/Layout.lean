import CommandShell.Proofs.Line.Quoting

/-!
# The layout of a line

A line is made up of blanks and written words in turn. A word begins with a character that is no
blank, and the blank that ends it is the first one outside of quotes and escapes. So a word is read
in the same way alone and with a blank behind it, and the scan of a line is that of its words, one
after the other. Only the last word can leave a quote open.

## Main definitions

* `Line.Scan.behind` — the scan of a line with more tokens in front
* `Line.Laid` — a text is blanks and written words in turn, and this is its scan

## Main results

* `Line.scan_inHand` — the token in hand reaches to the end of the text or to a blank
* `Line.laid_scan` — every text is blanks and written words in turn
-/

namespace CommandShell.Line

variable {pos : Nat} {c : Char} {cs : List Char}

/-- The scan of a line with more tokens in front. -/
def Scan.behind (tokens : List Token) (rest : Scan) : Scan :=
  { rest with tokens := tokens ++ rest.tokens }

/-! ### The token in hand -/

/-- Unless it is a blank outside of quotes, a character goes to the token in hand, which still
begins where it did. -/
theorem exists_scan_cons (mode : Mode) (draft : Draft) (pos : Nat)
    (h : ¬ (mode = .bare ∧ Text.isBlank c = true)) :
    ∃ mode' draft', draft'.start = draft.start ∧ ∀ rest, scan mode (some draft) pos (c :: rest) =
      scan mode' (some draft') (pos + c.utf8Size) rest := by
  cases mode with
  | bare =>
    have hblank : Text.isBlank c = false := by simpa using h
    by_cases hdouble : c = '"'
    · subst hdouble
      exact ⟨.quoted .double pos, draft, rfl, fun _ => rfl⟩
    by_cases hsingle : c = '\''
    · subst hsingle
      exact ⟨.quoted .single pos, draft, rfl, fun _ => rfl⟩
    by_cases hslash : c = '\\'
    · subst hslash
      exact ⟨.escape, draft, rfl, fun _ => rfl⟩
    · exact ⟨.bare, draft.add c, rfl, fun _ => by
        simp [scan, hblank, hdouble, hsingle, hslash, Draft.orNew]⟩
  | escape => exact ⟨.bare, draft.add c, rfl, fun _ => rfl⟩
  | quoted quote opened =>
    by_cases hclose : c = quote.mark
    · exact ⟨.bare, draft, rfl, fun _ => by simp [scan, hclose, Draft.orNew]⟩
    by_cases hslash : c = '\\' ∧ quote = .double
    · obtain ⟨rfl, rfl⟩ := hslash
      exact ⟨.quotedEscape opened, draft, rfl, fun _ => rfl⟩
    · exact ⟨.quoted quote opened, draft.add c, rfl, fun _ => by
        simp [scan, hclose, hslash, Draft.orNew]⟩
  | quotedEscape opened =>
    by_cases hmark : c = '"' ∨ c = '\\'
    · exact ⟨.quoted .double opened, draft.add c, rfl, fun _ => by
        simp [scan, hmark, Draft.orNew]⟩
    · exact ⟨.quoted .double opened, (draft.add '\\').add c, rfl, fun _ => by
        simp [scan, hmark, Draft.orNew]⟩

/-- The token in hand reaches to the end of the text, or a blank ends it as the end of the text
would, and behind the blank the scanner begins anew. -/
theorem scan_inHand (mode : Mode) (draft : Draft) (pos : Nat) (cs : List Char) :
    (∃ value unclosed, scan mode (some draft) pos cs =
        ⟨[⟨value, ⟨draft.start, pos + Text.byteLength cs⟩⟩], unclosed⟩) ∨
      ∃ word blank after value, cs = word ++ blank :: after ∧ Text.isBlank blank = true ∧
        scan mode (some draft) pos word =
          ⟨[⟨value, ⟨draft.start, pos + Text.byteLength word⟩⟩], none⟩ ∧
        ∀ rest, scan mode (some draft) pos (word ++ blank :: rest) =
          .behind [⟨value, ⟨draft.start, pos + Text.byteLength word⟩⟩]
            (scan .bare none (pos + Text.byteLength (word ++ [blank])) rest) := by
  -- Until the blank comes, every character only changes the mode and the draft.
  induction cs generalizing mode draft pos with
  | nil => cases mode <;> exact .inl ⟨_, _, rfl⟩
  | cons c cs ih =>
    by_cases hblank : mode = .bare ∧ Text.isBlank c = true
    · obtain ⟨rfl, hblank⟩ := hblank
      refine .inr ⟨[], c, cs, .ofList draft.chars.reverse, rfl, hblank, rfl, fun rest => ?_⟩
      rw [List.nil_append, scan]
      simp only [hblank, if_true]
      rfl
    · obtain ⟨mode', draft', hstart, hstep⟩ := exists_scan_cons mode draft pos hblank
      rcases ih mode' draft' (pos + c.utf8Size) with
        ⟨value, unclosed, hscan⟩ | ⟨word, blank, after, value, rfl, hafter, halone, hscan⟩
      · refine .inl ⟨value, unclosed, ?_⟩
        rw [hstep, hscan, hstart, Text.byteLength_cons, Nat.add_assoc]
      · refine .inr ⟨c :: word, blank, after, value, rfl, hafter, ?_, fun rest => ?_⟩
        · rw [hstep, halone, hstart, Text.byteLength_cons, Nat.add_assoc]
        · rw [List.cons_append, hstep, hscan, hstart, List.cons_append, Text.byteLength_cons,
            Text.byteLength_cons, Nat.add_assoc, Nat.add_assoc]

/-- A character that is no blank begins a token. -/
theorem scan_none_cons (hc : Text.isBlank c = false) (pos : Nat) (cs : List Char) :
    scan .bare none pos (c :: cs) = scan .bare (some ⟨pos, []⟩) pos (c :: cs) := by
  simp [scan, hc, Draft.orNew]

/-! ### Blanks and words -/

/-- From the offset `pos` on, the text is blanks and written words in turn, and this is its scan. A
word begins with a character that is no blank. With a blank behind it, it leaves no quote open and
is read in the same way as it is alone. -/
inductive Laid : Nat → List Char → Scan → Prop
  | nil (pos : Nat) : Laid pos [] ⟨[], none⟩
  | blank {pos : Nat} {c : Char} {cs : List Char} {found : Scan} (hc : Text.isBlank c = true)
    (h : Laid (pos + c.utf8Size) cs found) : Laid pos (c :: cs) found
  | last {pos : Nat} {c : Char} {cs : List Char} {value : String} {unclosed : Option (Quote × Nat)}
    (hc : Text.isBlank c = false)
    (halone : scan .bare none pos (c :: cs) =
      ⟨[⟨value, ⟨pos, pos + Text.byteLength (c :: cs)⟩⟩], unclosed⟩) :
    Laid pos (c :: cs) ⟨[⟨value, ⟨pos, pos + Text.byteLength (c :: cs)⟩⟩], unclosed⟩
  | word {pos : Nat} {c : Char} {cs : List Char} {blank : Char} {after : List Char}
    {value : String} {found : Scan} (hc : Text.isBlank c = false)
    (hblank : Text.isBlank blank = true)
    (halone : scan .bare none pos (c :: cs) =
      ⟨[⟨value, ⟨pos, pos + Text.byteLength (c :: cs)⟩⟩], none⟩)
    (hscan : ∀ rest, scan .bare none pos (c :: cs ++ blank :: rest) =
      .behind [⟨value, ⟨pos, pos + Text.byteLength (c :: cs)⟩⟩]
        (scan .bare none (pos + Text.byteLength (c :: cs ++ [blank])) rest))
    (h : Laid (pos + Text.byteLength (c :: cs ++ [blank])) after found) :
    Laid pos (c :: cs ++ blank :: after)
      (.behind [⟨value, ⟨pos, pos + Text.byteLength (c :: cs)⟩⟩] found)

/-- Every text is blanks and written words in turn. -/
theorem laid_scan (pos : Nat) (cs : List Char) : Laid pos cs (scan .bare none pos cs) := by
  -- Behind a blank that ends a token the text is shorter, and nothing is in hand again.
  induction hlength : cs.length using Nat.strongRecOn generalizing pos cs with
  | _ n ih =>
    subst hlength
    cases cs with
    | nil => exact .nil pos
    | cons c cs =>
      by_cases hblank : Text.isBlank c = true
      · have hscan : scan .bare none pos (c :: cs) = scan .bare none (pos + c.utf8Size) cs := by
          rw [scan]
          simp only [hblank, if_true]
          rfl
        rw [hscan]
        exact .blank hblank (ih cs.length (Nat.lt_succ_self _) _ cs rfl)
      · have hc : Text.isBlank c = false := Bool.eq_false_iff.mpr hblank
        have hbegin := scan_none_cons hc pos
        rcases scan_inHand .bare ⟨pos, []⟩ pos (c :: cs) with
          ⟨value, unclosed, hscan⟩ | ⟨word, blank, after, value, hcs, hafter, halone, hscan⟩
        · rw [hbegin, hscan]
          exact .last hc ((hbegin cs).trans hscan)
        · cases word with
          | nil =>
            cases hcs
            exact absurd hafter hblank
          | cons first word =>
            obtain ⟨rfl, rfl⟩ := List.cons.inj hcs
            have hword (rest : List Char) := (hbegin (word ++ blank :: rest)).trans (hscan rest)
            rw [hcs, List.cons_append, hword]
            refine .word hc hafter ((hbegin word).trans halone) hword ?_
            exact ih after.length (by simp; omega) _ after rfl

end CommandShell.Line
