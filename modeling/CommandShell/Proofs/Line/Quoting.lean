import CommandShell.Line.Written

/-!
# Quoting is undone

A line that is written word by word, each word in pieces and with blanks between the words, is read
back as those words. Every piece adds its text to the token in hand, and the blank behind a word
ends the token. All words can be written so, since any text can stand in double quotes.

## Main definitions

* `WrittenLine.Writes` — a line is a way to write the words

## Main results

* `Line.scan_word` — scanning a written word puts its text together
* `Line.scan_spaced` — scanning written words gives their tokens
* `WrittenLine.exists_writes` — any words can be written on a line
* `Line.tokens?_written` — the strict reading of a line gives its words, and where they are written
-/

namespace CommandShell

namespace WrittenWord

theorem chars_cons (piece : Piece) (word : WrittenWord) :
    chars (piece :: word) = piece.written ++ chars word := List.flatMap_cons

theorem text_cons (piece : Piece) (word : WrittenWord) :
    text (piece :: word) = piece.text ++ text word := List.flatMap_cons

end WrittenWord

namespace Line

variable {word : WrittenWord} {gap : List Char} {words : List (WrittenWord × List Char)}

/-! ### Words -/

theorem Draft.addAll_append (draft : Draft) (cs ds : List Char) :
    draft.addAll (cs ++ ds) = (draft.addAll cs).addAll ds := by
  simp [addAll]

/-- Scanning sound pieces adds their texts to the token in hand. -/
theorem scan_pieces (h : ∀ piece ∈ word, piece.IsSound) (draft : Draft) (pos : Nat)
    (rest : List Char) :
    scan .bare (some draft) pos (word.chars ++ rest) =
      scan .bare (some (draft.addAll word.text)) (pos + Text.byteLength word.chars) rest := by
  induction word generalizing draft pos with
  | nil => rfl
  | cons piece word ih =>
    rw [List.forall_mem_cons] at h
    rw [WrittenWord.chars_cons, WrittenWord.text_cons, List.append_assoc, scan_written h.1,
      ih h.2, Text.byteLength_append, Draft.addAll_append, Nat.add_assoc]
    rfl

/-- Scanning a written word puts its text together, from where the word begins. -/
theorem scan_word (h : word.IsSound) (pos : Nat) (rest : List Char) :
    scan .bare none pos (word.chars ++ rest) =
      scan .bare (some (Draft.addAll ⟨pos, []⟩ word.text)) (pos + Text.byteLength word.chars)
        rest := by
  obtain ⟨hne, hpieces⟩ := h
  cases word with
  | nil => exact absurd rfl hne
  | cons piece word =>
    rw [List.forall_mem_cons] at hpieces
    rw [WrittenWord.chars_cons, WrittenWord.text_cons, List.append_assoc,
      scan_written hpieces.1, scan_pieces hpieces.2, Text.byteLength_append,
      Draft.addAll_append, Nat.add_assoc]
    rfl

/-! ### Blanks -/

/-- Blanks in front of a word are skipped. -/
theorem scan_blanks (h : gap.all Text.isBlank = true) (pos : Nat) (rest : List Char) :
    scan .bare none pos (gap ++ rest) = scan .bare none (pos + Text.byteLength gap) rest := by
  induction gap generalizing pos with
  | nil => rfl
  | cons c gap ih =>
    rw [List.all_cons, Bool.and_eq_true] at h
    rw [List.cons_append, scan]
    simp only [h.1, if_true, ih h.2, Text.byteLength_cons, Nat.add_assoc]
    rfl

/-- Blanks behind a word end its token, as the end of the line does. -/
theorem scan_gap (h : gap.all Text.isBlank = true) (draft : Draft) (pos : Nat) {rest : List Char}
    (hgap : gap = [] → rest = []) :
    scan .bare (some draft) pos (gap ++ rest) =
      .after (some draft) pos (scan .bare none (pos + Text.byteLength gap) rest) := by
  cases gap with
  | nil =>
    rw [hgap rfl]
    rfl
  | cons c gap =>
    rw [List.all_cons, Bool.and_eq_true] at h
    rw [List.cons_append, scan]
    simp only [h.1, if_true, scan_blanks h.2, Text.byteLength_cons, Nat.add_assoc]

theorem token_addAll (start stop : Nat) (cs : List Char) :
    (Draft.addAll ⟨start, []⟩ cs).token stop = ⟨.ofList cs, ⟨start, stop⟩⟩ := by
  simp [Draft.addAll, Draft.token]

/-! ### Lines -/

/-- Scanning written words gives their tokens, and leaves no quote open. -/
theorem scan_spaced (hspaced : WrittenLine.IsSpaced words)
    (hsound : ∀ entry ∈ words, entry.1.IsSound) (pos : Nat) :
    scan .bare none pos (WrittenLine.charsOf words) = ⟨WrittenLine.tokensFrom pos words, none⟩ := by
  induction words generalizing pos with
  | nil => rfl
  | cons entry words ih =>
    obtain ⟨word, gap⟩ := entry
    rw [List.forall_mem_cons] at hsound
    have hchars : WrittenLine.charsOf ((word, gap) :: words) =
        word.chars ++ (gap ++ WrittenLine.charsOf words) := by
      simp [WrittenLine.charsOf]
    -- Only the last word may have nothing behind it, and then the line is at its end.
    obtain ⟨hblank, hgap, hrest⟩ : gap.all Text.isBlank = true ∧
        (gap = [] → WrittenLine.charsOf words = []) ∧ WrittenLine.IsSpaced words := by
      cases words with
      | nil => exact ⟨hspaced, fun _ => rfl, trivial⟩
      | cons => exact ⟨hspaced.1, fun hgap => absurd hgap hspaced.2.1, hspaced.2.2⟩
    rw [hchars, scan_word hsound.1, scan_gap hblank _ _ hgap, ih hrest hsound.2]
    simp [Scan.after, WrittenLine.tokensFrom, token_addAll]

end Line

namespace WrittenLine

variable {line : WrittenLine} {words : List String}

/-- The line is a way to write the words. -/
def Writes (line : WrittenLine) (words : List String) : Prop :=
  line.IsSound ∧ line.words.map (fun entry => String.ofList entry.1.text) = words

/-- The word in double quotes. -/
def inQuotes (word : String) : WrittenWord := [.quoted .double word.toList]

/-- Any words can be written: each in double quotes, with a blank behind it. -/
theorem exists_writes (words : List String) : ∃ line : WrittenLine, line.Writes words := by
  refine ⟨⟨[], words.map fun word => (inQuotes word, [' '])⟩, ⟨rfl, ?_, ?_⟩, ?_⟩
  · induction words with
    | nil => trivial
    | cons word words ih =>
      cases words with
      | nil => exact (by decide : [' '].all Text.isBlank = true)
      | cons => exact ⟨by decide, by simp, ih⟩
  · intro entry hmem
    obtain ⟨word, -, rfl⟩ := List.mem_map.mp hmem
    exact ⟨by simp [inQuotes], by simp [inQuotes, Piece.IsSound]⟩
  · simp [inQuotes, WrittenWord.text, Piece.text, Function.comp_def]

theorem value_tokensFrom (start : Nat) (words : List (WrittenWord × List Char)) :
    (tokensFrom start words).map Token.value =
      words.map fun entry => String.ofList entry.1.text := by
  induction words generalizing start with
  | nil => rfl
  | cons entry words ih => simp [tokensFrom, ih]

/-- A token is written behind everything that stands before its word. -/
theorem getElem?_tokensFrom (start : Nat) (before : List (WrittenWord × List Char))
    (word : WrittenWord) (gap : List Char) (after : List (WrittenWord × List Char)) :
    (tokensFrom start (before ++ (word, gap) :: after))[before.length]? =
      some ⟨.ofList word.text, ⟨start + Text.byteLength (charsOf before),
        start + Text.byteLength (charsOf before) + Text.byteLength word.chars⟩⟩ := by
  induction before generalizing start with
  | nil => rfl
  | cons entry before ih =>
    rw [List.cons_append, tokensFrom, List.length_cons, List.getElem?_cons_succ, ih]
    simp [charsOf, Nat.add_assoc]

end WrittenLine

/-- The strict reading of a line undoes its quoting: it gives the words that are written on the
line, each with the bytes of its written form. -/
theorem Line.tokens?_written {line : WrittenLine} {words : List String} (h : line.Writes words) :
    ∃ tokens, tokens? (.ofList line.chars) = .ok tokens ∧ tokens.map Token.value = words ∧
      ∀ before word gap after, line.words = before ++ (word, gap) :: after →
        tokens[before.length]? = some ⟨.ofList word.text,
          ⟨Text.byteLength (line.lead ++ WrittenLine.charsOf before),
            Text.byteLength (line.lead ++ WrittenLine.charsOf before ++ word.chars)⟩⟩ := by
  obtain ⟨⟨hlead, hspaced, hsound⟩, rfl⟩ := h
  have hscan : scanLine (.ofList line.chars) = ⟨line.tokens, none⟩ := by
    rw [scanLine, String.toList_ofList, WrittenLine.chars, scan_blanks hlead,
      scan_spaced hspaced hsound, WrittenLine.tokens, Nat.zero_add]
  refine ⟨line.tokens, ?_, WrittenLine.value_tokensFrom _ _, ?_⟩
  · rw [tokens?_eq_ok_iff, lenientTokens, hscan]
    exact ⟨rfl, rfl⟩
  · intro before word gap after hwords
    rw [WrittenLine.tokens, hwords, WrittenLine.getElem?_tokensFrom]
    simp only [Text.byteLength_append]

/-- A line with all ways of quoting: `  '' a\ "b\"" "ä'"\\c`. -/
def WrittenLine.motley : WrittenLine where
  lead := [' ', ' ']
  words :=
    [([.quoted .single []], [' ']),
      ([.bare 'a', .escaped ' ', .quoted .double ['b', '"']], ['\t', ' ']),
      ([.quoted .double ['ä', '\''], .escaped '\\', .bare 'c'], [])]

/-- An empty word, words with blanks, quotes and a backslash in them, and a letter of two bytes. -/
theorem Line.tokens?_written_motley :
    WrittenLine.motley.Writes ["", "a b\"", "ä'\\c"] ∧
      ∃ tokens, tokens? (.ofList WrittenLine.motley.chars) = .ok tokens ∧
        tokens.map Token.value = ["", "a b\"", "ä'\\c"] ∧
        tokens[1]? = some ⟨"a b\"", ⟨5, 13⟩⟩ ∧ tokens[2]? = some ⟨"ä'\\c", ⟨15, 23⟩⟩ := by
  have h : WrittenLine.motley.Writes ["", "a b\"", "ä'\\c"] := by
    refine ⟨⟨by decide, ⟨by decide, by decide, by decide, by decide, rfl⟩, ?_⟩, by decide⟩
    simp only [WrittenLine.motley, List.forall_mem_cons, WrittenWord.IsSound]
    decide
  obtain ⟨tokens, hread, hvalues, hplaces⟩ := Line.tokens?_written h
  refine ⟨h, tokens, hread, hvalues, ?_, ?_⟩
  · exact hplaces (WrittenLine.motley.words.take 1) _ _ _ rfl
  · exact hplaces (WrittenLine.motley.words.take 2) _ _ _ rfl

end CommandShell
