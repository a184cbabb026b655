import CommandShell.Proofs.Line.Layout

/-!
# The token being typed

The end of a line is where a token is being typed. In front of that token the scanner has nothing in
hand and is outside of quotes, so what stands there is read in the same way whatever follows it. A
text put in place of the token is therefore read on its own, and it is read as itself exactly if
quoting means nothing in it.

## Main definitions

* `Line.Settles` — a text is read as these tokens, whatever follows it
* `Line.typedStart`, `Line.replaceTyped` — where the token being typed begins, and the line with a
  text in its place
* `Line.IsPlain`, `Line.IsBareWord` — texts without blanks and marks of quoting, and texts that are
  read as themselves

## Main results

* `Line.exists_settles` — every text settles up to a token that reaches to its end
* `Line.exists_settles_typed` — the finished tokens of a line are those of the text that settles
* `Line.scanLine_replaceTyped` — a text in place of the token being typed is read on its own
* `Line.scan_reads_itself_iff` — a text is read as itself exactly if it is a bare word
* `Line.exists_tokens?_replaceTyped_iff` — the same for a text in place of the token being typed
* `Line.splitPartial_append` — plain text behind a text that settles is the token being typed
-/

namespace CommandShell.Line

variable {pos : Nat} {c : Char} {cs before typed word : List Char} {tokens : List Token}

/-! ### Texts that are read whatever follows them -/

/-- From the offset `pos` on, the text is read as the tokens, whatever follows it. No token touches
its end. -/
structure Settles (pos : Nat) (before : List Char) (tokens : List Token) : Prop where
  scan_append : ∀ rest, scan .bare none pos (before ++ rest) =
    .behind tokens (scan .bare none (pos + Text.byteLength before) rest)
  stop_lt : ∀ token ∈ tokens, token.span.stop < pos + Text.byteLength before

theorem settles_nil (pos : Nat) : Settles pos [] [] where
  scan_append _ := rfl
  stop_lt _ h := absurd h List.not_mem_nil

/-- A blank in front is skipped. -/
theorem Settles.cons_blank (hc : Text.isBlank c = true)
    (h : Settles (pos + c.utf8Size) before tokens) : Settles pos (c :: before) tokens where
  scan_append rest := by
    rw [List.cons_append, scan]
    simp only [hc, if_true, h.scan_append, Text.byteLength_cons, Nat.add_assoc]
    rfl
  stop_lt token htoken := by
    have hstop := h.stop_lt token htoken
    rw [Text.byteLength_cons]
    omega

/-- A word with a blank behind it settles as its token. -/
theorem Settles.word_blank {blank : Char} {value : String} {start : Nat}
    (hscan : ∀ rest, scan .bare none pos (word ++ blank :: rest) =
      .behind [⟨value, ⟨start, pos + Text.byteLength word⟩⟩]
        (scan .bare none (pos + Text.byteLength (word ++ [blank])) rest))
    (h : Settles (pos + Text.byteLength (word ++ [blank])) before tokens) :
    Settles pos (word ++ blank :: before)
      (⟨value, ⟨start, pos + Text.byteLength word⟩⟩ :: tokens) where
  scan_append rest := by
    rw [List.append_assoc, List.cons_append, hscan, h.scan_append]
    simp [Scan.behind, Nat.add_assoc]
  stop_lt token htoken := by
    have hsize := blank.utf8Size_pos
    rw [Text.byteLength_append, Text.byteLength_cons]
    rcases List.mem_cons.mp htoken with rfl | htoken
    · dsimp only
      omega
    · have hstop := h.stop_lt token htoken
      rw [Text.byteLength_append, Text.byteLength_cons, Text.byteLength_nil] at hstop
      omega

/-- Every text settles up to its end, or up to a token that reaches to its end. -/
theorem exists_settles (pos : Nat) (cs : List Char) :
    ∃ before typed tokens, cs = before ++ typed ∧ Settles pos before tokens ∧
      (typed = [] ∨ ∃ value unclosed,
        scan .bare none (pos + Text.byteLength before) typed =
          ⟨[⟨value, ⟨pos + Text.byteLength before, pos + Text.byteLength cs⟩⟩], unclosed⟩) := by
  have hlaid := laid_scan pos cs
  generalize scan .bare none pos cs = found at hlaid
  induction hlaid with
  | nil pos => exact ⟨[], [], [], rfl, settles_nil pos, .inl rfl⟩
  | @blank pos c cs found hc _ ih =>
    obtain ⟨before, typed, tokens, rfl, hsettles, htyped⟩ := ih
    refine ⟨c :: before, typed, tokens, rfl, hsettles.cons_blank hc, ?_⟩
    simpa only [List.cons_append, Text.byteLength_cons, Nat.add_assoc] using htyped
  | last _ halone => exact ⟨[], _, [], rfl, settles_nil _, .inr ⟨_, _, halone⟩⟩
  | word _ _ _ hscan _ ih =>
    obtain ⟨before, typed, tokens, rfl, hsettles, htyped⟩ := ih
    refine ⟨_, typed, _, by rw [← List.cons_append, ← List.append_assoc],
      .word_blank hscan hsettles, ?_⟩
    simpa only [List.append_assoc, List.cons_append, Text.byteLength_append, Text.byteLength_cons,
      Text.byteLength_nil, Nat.add_assoc, Nat.add_zero] using htyped

/-! ### Replacing the token being typed -/

/-- Where the token being typed begins: at the end of the line, unless a token touches that. -/
def typedStart (line : String) : Nat :=
  let stop := Text.byteLength line.toList
  match (lenientTokens line).getLast? with
  | some last => if last.span.stop = stop then last.span.start else stop
  | none => stop

/-- The line with a text in place of the token being typed. -/
def replaceTyped (line text : String) : String :=
  .ofList (Span.sliceChars ⟨0, typedStart line⟩ line.toList ++ text.toList)

theorem lenientTokens_of_settles {line : String} (hline : line.toList = before ++ typed)
    (h : Settles 0 before tokens) :
    lenientTokens line = tokens ++ (scan .bare none (Text.byteLength before) typed).tokens := by
  rw [lenientTokens, scanLine, hline, h.scan_append, Nat.zero_add]
  rfl

/-- On a line that settles to its end, nothing is being typed. -/
theorem splitPartial_of_settles_nil {line : String} (hline : line.toList = before)
    (h : Settles 0 before tokens) :
    splitPartial line = (tokens, "") ∧ typedStart line = Text.byteLength before := by
  have htokens : lenientTokens line = tokens ++ [] :=
    lenientTokens_of_settles (hline.trans (List.append_nil before).symm) h
  rw [List.append_nil] at htokens
  have hlast : ∀ last ∈ tokens.getLast?, last.span.stop ≠ Text.byteLength before := by
    intro last hmem
    have hstop := h.stop_lt last (List.mem_of_getLast? hmem)
    omega
  rw [splitPartial, typedStart, htokens, hline]
  cases hget : tokens.getLast? with
  | none => exact ⟨rfl, rfl⟩
  | some last => simp [hlast last hget]

/-- On a line that settles up to a token which reaches to its end, that token is being typed. -/
theorem splitPartial_of_settles {line value : String} {unclosed : Option (Quote × Nat)}
    (hline : line.toList = before ++ typed) (h : Settles 0 before tokens)
    (hscan : scan .bare none (Text.byteLength before) typed =
      ⟨[⟨value, ⟨Text.byteLength before, Text.byteLength line.toList⟩⟩], unclosed⟩) :
    splitPartial line = (tokens, value) ∧ typedStart line = Text.byteLength before := by
  rw [splitPartial, typedStart, lenientTokens_of_settles hline h, hscan]
  simp

/-- Every line settles up to the token being typed, and its finished tokens are those of the text in
front. -/
theorem exists_settles_typed (line : String) :
    ∃ before typed, line.toList = before ++ typed ∧ typedStart line = Text.byteLength before ∧
      Settles 0 before (splitPartial line).1 ∧
      (typed = [] ∧ (splitPartial line).2 = "" ∨ ∃ unclosed,
        scan .bare none (Text.byteLength before) typed =
          ⟨[⟨(splitPartial line).2, ⟨Text.byteLength before, Text.byteLength line.toList⟩⟩],
            unclosed⟩) := by
  obtain ⟨before, typed, tokens, hline, hsettles, htyped⟩ := exists_settles 0 line.toList
  refine ⟨before, typed, hline, ?_⟩
  rcases htyped with rfl | ⟨value, unclosed, hscan⟩
  · rw [List.append_nil] at hline
    obtain ⟨hsplit, hstart⟩ := splitPartial_of_settles_nil hline hsettles
    rw [hsplit]
    exact ⟨hstart, hsettles, .inl ⟨rfl, rfl⟩⟩
  · rw [Nat.zero_add, Nat.zero_add] at hscan
    obtain ⟨hsplit, hstart⟩ := splitPartial_of_settles hline hsettles hscan
    rw [hsplit]
    exact ⟨hstart, hsettles, .inr ⟨unclosed, hscan⟩⟩

/-- A text in place of the token being typed is read on its own, behind the finished tokens. -/
theorem scanLine_replaceTyped (line text : String) :
    scanLine (replaceTyped line text) =
      .behind (splitPartial line).1 (scan .bare none (typedStart line) text.toList) := by
  obtain ⟨before, typed, hline, hstart, hsettles, -⟩ := exists_settles_typed line
  have hslice := Span.sliceChars_append [] before typed
  rw [List.nil_append, List.nil_append, Text.byteLength_nil, ← hline, ← hstart] at hslice
  rw [replaceTyped, hslice, scanLine, String.toList_ofList, hsettles.scan_append, Nat.zero_add,
    hstart]

/-! ### Bare words -/

/-- Every character stands for itself outside of quotes. -/
def IsPlain (cs : List Char) : Prop := ∀ c ∈ cs, (Piece.bare c).IsSound

instance (cs : List Char) : Decidable (IsPlain cs) := List.decidableBAll _ cs

/-- The text is not empty, and every character stands for itself; the last one may be a backslash,
since nothing follows it. -/
def IsBareWord : List Char → Prop
  | [] => False
  | [c] => (Piece.bare c).IsSound ∨ c = '\\'
  | c :: cs => (Piece.bare c).IsSound ∧ IsBareWord cs

instance : (cs : List Char) → Decidable (IsBareWord cs)
  | [] => inferInstanceAs (Decidable False)
  | [c] => inferInstanceAs (Decidable ((Piece.bare c).IsSound ∨ c = '\\'))
  | c :: d :: cs =>
    have : Decidable (IsBareWord (d :: cs)) := instDecidableIsBareWord (d :: cs)
    inferInstanceAs (Decidable ((Piece.bare c).IsSound ∧ IsBareWord (d :: cs)))

theorem isBareWord_cons_iff :
    IsBareWord (c :: cs) ↔
      (Piece.bare c).IsSound ∧ (cs = [] ∨ IsBareWord cs) ∨ c = '\\' ∧ cs = [] := by
  cases cs <;> simp [IsBareWord]

/-- Plain text is a bare word. -/
theorem IsPlain.isBareWord (h : IsPlain cs) (hne : cs ≠ []) : IsBareWord cs := by
  induction cs with
  | nil => exact absurd rfl hne
  | cons c cs ih =>
    obtain ⟨hc, hcs⟩ := List.forall_mem_cons.mp h
    refine isBareWord_cons_iff.mpr (.inl ⟨hc, ?_⟩)
    by_cases hnil : cs = []
    · exact .inl hnil
    · exact .inr (ih hcs hnil)

/-- A character that stands for itself is added to the token in hand. -/
theorem scan_cons_of_isSound (hc : (Piece.bare c).IsSound) (draft : Draft) (pos : Nat)
    (cs : List Char) : scan .bare (some draft) pos (c :: cs) =
      scan .bare (some (draft.add c)) (pos + c.utf8Size) cs :=
  scan_written hc (some draft) pos cs

/-- A bare word is added to the token in hand as it is. -/
theorem scan_bareWord (h : cs = [] ∨ IsBareWord cs) (draft : Draft) (pos : Nat) :
    scan .bare (some draft) pos cs =
      ⟨[(draft.addAll cs).token (pos + Text.byteLength cs)], none⟩ := by
  induction cs generalizing draft pos with
  | nil => rfl
  | cons c cs ih =>
    rcases isBareWord_cons_iff.mp (h.resolve_left (List.cons_ne_nil _ _)) with
      ⟨hc, hcs⟩ | ⟨rfl, rfl⟩
    · rw [scan_cons_of_isSound hc, ih hcs, Draft.addAll_cons, Text.byteLength_cons, Nat.add_assoc]
    · rfl

/-- How many characters a token in hand has. -/
def Draft.size (draft : Option Draft) : Nat := (draft.map (·.chars.length)).getD 0

/-- How many characters the scanner has read that may still go to the token in hand. -/
def Mode.held : Mode → Nat
  | .escape | .quotedEscape _ => 1
  | .bare | .quoted _ _ => 0

/-- How many characters tokens have. -/
def charCount (tokens : List Token) : Nat := (tokens.flatMap (·.value.toList)).length

theorem charCount_after (draft : Option Draft) (stop : Nat) (rest : Scan) :
    charCount (Scan.after draft stop rest).tokens = Draft.size draft + charCount rest.tokens := by
  cases draft <;> simp [charCount, Scan.after, Draft.size, Draft.token]

theorem size_orNew (draft : Option Draft) (pos : Nat) :
    Draft.size (some (Draft.orNew draft pos)) = Draft.size draft := by
  cases draft <;> simp [Draft.size, Draft.orNew]

theorem size_add (draft : Draft) (c : Char) :
    Draft.size (some (draft.add c)) = Draft.size (some draft) + 1 := rfl

/-- Tokens have no more characters than were read: blanks, quotes and the backslashes of escapes are
left out. -/
theorem charCount_scan_le (mode : Mode) (draft : Option Draft) (pos : Nat) (cs : List Char) :
    charCount (scan mode draft pos cs).tokens ≤ Draft.size draft + mode.held + cs.length := by
  induction cs generalizing mode draft pos with
  | nil =>
    cases mode <;> simp only [scan, charCount_after, size_add, size_orNew, Mode.held] <;>
      simp [charCount]
  | cons c cs ih =>
    cases mode <;> simp only [scan, List.length_cons] <;> repeat' split
    case bare.isTrue =>
      have hrest := ih .bare none (pos + c.utf8Size)
      rw [charCount_after]
      simp only [Draft.size, Mode.held, Option.map_none, Option.getD_none] at hrest ⊢
      omega
    -- Otherwise the character goes to the token in hand, or is held, or is left out.
    all_goals
      refine Nat.le_trans (ih _ _ _) ?_
      simp only [size_add, size_orNew, Mode.held]
      omega

theorem isSound_bare_or (c : Char) :
    (Piece.bare c).IsSound ∨ Text.isBlank c = true ∨ c = '"' ∨ c = '\'' ∨ c = '\\' := by
  simp only [Piece.IsSound]
  grind

theorem charCount_of_values {text : List Char} (h : tokens.map Token.value = [.ofList text]) :
    charCount tokens = text.length := by
  have hchars : tokens.flatMap (·.value.toList) = (tokens.map Token.value).flatMap String.toList :=
    (List.flatMap_map ..).symm
  rw [charCount, hchars, h, List.flatMap_singleton, String.toList_ofList]

/-- A text that is added to the token in hand as it is has no character left out. -/
theorem isBareWord_of_values_scan {draft : Draft}
    (h : (scan .bare (some draft) pos cs).tokens.map Token.value =
      [.ofList (draft.chars.reverse ++ cs)]) : cs = [] ∨ IsBareWord cs := by
  induction cs generalizing draft pos with
  | nil => exact .inl rfl
  | cons c cs ih =>
    refine .inr (isBareWord_cons_iff.mpr ?_)
    have hsize := charCount_of_values h
    simp only [List.length_append, List.length_reverse, List.length_cons] at hsize
    rcases isSound_bare_or c with hc | hc | rfl | rfl | rfl
    · rw [scan_cons_of_isSound hc] at h
      refine .inl ⟨hc, ih (h.trans ?_)⟩
      simp [Draft.add]
    · rw [scan] at h
      simp only [hc, if_true, Scan.after, Option.map_some, Option.toList_some,
        List.singleton_append, List.map_cons, Draft.token, List.cons.injEq, String.ofList_inj] at h
      exact absurd (congrArg List.length h.1) (by simp)
    · have hle : charCount (scan .bare (some draft) pos ('"' :: cs)).tokens ≤
          draft.chars.length + 0 + cs.length :=
        charCount_scan_le (.quoted .double pos) (some draft) _ cs
      omega
    · have hle : charCount (scan .bare (some draft) pos ('\'' :: cs)).tokens ≤
          draft.chars.length + 0 + cs.length :=
        charCount_scan_le (.quoted .single pos) (some draft) _ cs
      omega
    · cases cs with
      | nil => exact .inr ⟨rfl, rfl⟩
      | cons d cs =>
        have hle : charCount (scan .bare (some draft) pos ('\\' :: d :: cs)).tokens ≤
            draft.chars.length + 1 + 0 + cs.length :=
          charCount_scan_le .bare (some (draft.add d)) _ cs
        rw [List.length_cons] at hsize
        omega

/-- A text is read as itself exactly if it is a bare word, and then no quote is left open. -/
theorem scan_reads_itself_iff (pos : Nat) :
    ((scan .bare none pos cs).unclosed = none ∧
      (scan .bare none pos cs).tokens.map Token.value = [.ofList cs]) ↔ IsBareWord cs := by
  cases cs with
  | nil => simp [scan, Scan.after, IsBareWord]
  | cons c cs =>
    by_cases hblank : Text.isBlank c = true
    · have hle : charCount (scan .bare none pos (c :: cs)).tokens ≤ cs.length := by
        have hrest := charCount_scan_le .bare none (pos + c.utf8Size) cs
        rw [scan]
        simpa [hblank, charCount_after, Draft.size, Mode.held] using hrest
      constructor
      · rintro ⟨-, hvalues⟩
        rw [charCount_of_values hvalues, List.length_cons] at hle
        omega
      · intro hword
        rcases isBareWord_cons_iff.mp hword with ⟨hc, -⟩ | ⟨rfl, -⟩
        · exact absurd hblank (by simp [hc.1])
        · exact absurd hblank (by decide)
    · rw [scan_none_cons (Bool.eq_false_iff.mpr hblank)]
      constructor
      · rintro ⟨-, hvalues⟩
        exact (isBareWord_of_values_scan hvalues).resolve_left (List.cons_ne_nil _ _)
      · intro hword
        rw [scan_bareWord (.inr hword), List.map_singleton, token_addAll]
        exact ⟨rfl, rfl⟩

/-- The line with a text in place of the token being typed is read as its finished tokens and that
text exactly if the text is a bare word. -/
theorem exists_tokens?_replaceTyped_iff (line text : String) :
    (∃ tokens, tokens? (replaceTyped line text) = .ok tokens ∧
      tokens.map Token.value = (splitPartial line).1.map Token.value ++ [text]) ↔
      IsBareWord text.toList := by
  rw [← scan_reads_itself_iff (typedStart line), String.ofList_toList]
  simp only [tokens?_eq_ok_iff, lenientTokens, scanLine_replaceTyped, Scan.behind]
  constructor
  · rintro ⟨_, ⟨hclosed, rfl⟩, hvalues⟩
    rw [List.map_append] at hvalues
    exact ⟨hclosed, List.append_cancel_left hvalues⟩
  · rintro ⟨hclosed, hvalues⟩
    exact ⟨_, ⟨hclosed, rfl⟩, by rw [List.map_append, hvalues]⟩

/-- Plain text behind a text that settles is the token being typed. -/
theorem splitPartial_append (h : Settles 0 before tokens) (htyped : IsPlain typed) :
    splitPartial (.ofList (before ++ typed)) = (tokens, .ofList typed) := by
  cases typed with
  | nil =>
    have hline : (String.ofList (before ++ [])).toList = before := by simp
    exact (splitPartial_of_settles_nil hline h).1
  | cons c cs =>
    have hblank : Text.isBlank c = false := (htyped c List.mem_cons_self).1
    have hword : IsBareWord (c :: cs) := htyped.isBareWord (List.cons_ne_nil _ _)
    have hscan : scan .bare none (Text.byteLength before) (c :: cs) =
        ⟨[⟨.ofList (c :: cs), ⟨Text.byteLength before,
          Text.byteLength (String.ofList (before ++ c :: cs)).toList⟩⟩], none⟩ := by
      rw [scan_none_cons hblank, scan_bareWord (.inr hword), token_addAll, String.toList_ofList,
        Text.byteLength_append]
    exact (splitPartial_of_settles (String.toList_ofList ..) h hscan).1

end CommandShell.Line
