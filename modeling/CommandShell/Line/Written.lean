import CommandShell.Line.Scan

/-!
# Written words

The ways to write words on an input line. A written word is put together from pieces: characters
that stand for themselves, characters behind a backslash, and texts in quotes. Any text can be
written, since any text can stand in double quotes.

## Main definitions

* `Piece` — a piece of a written word, with its text and its written form
* `Piece.IsSound` — the text of a piece may be written in its way
* `WrittenWord`, `WrittenLine` — the pieces of a word, and the words and blanks of a line
* `WrittenLine.chars`, `WrittenLine.tokens` — how the line is written, and what it says

## Main results

* `Line.scan_written` — scanning a sound piece adds its text to the token in hand
-/

namespace CommandShell

/-- A piece of a written word. -/
inductive Piece
  /-- A character that stands for itself. -/
  | bare (c : Char)
  /-- A character behind a backslash. -/
  | escaped (c : Char)
  /-- A text in quotes. -/
  | quoted (quote : Quote) (cs : List Char)
  deriving DecidableEq, Repr

namespace Piece

def text : Piece → List Char
  | bare c | escaped c => [c]
  | quoted _ cs => cs

/-- A character in double quotes: a quote or a backslash has a backslash in front. -/
def guarded (c : Char) : List Char := if c = '"' ∨ c = '\\' then ['\\', c] else [c]

def written : Piece → List Char
  | bare c => [c]
  | escaped c => ['\\', c]
  | quoted .double cs => '"' :: (cs.flatMap guarded ++ ['"'])
  | quoted .single cs => '\'' :: (cs ++ ['\''])

/-- The text of the piece may be written in its way: a character that stands for itself is neither
a blank nor a mark of quoting, and a text in single quotes holds none of them. -/
def IsSound : Piece → Prop
  | bare c => Text.isBlank c = false ∧ c ≠ '"' ∧ c ≠ '\'' ∧ c ≠ '\\'
  | quoted .single cs => '\'' ∉ cs
  | escaped _ | quoted .double _ => True

instance : DecidablePred IsSound
  | bare c => inferInstanceAs (Decidable (Text.isBlank c = false ∧ c ≠ '"' ∧ c ≠ '\'' ∧ c ≠ '\\'))
  | quoted .single cs => inferInstanceAs (Decidable ('\'' ∉ cs))
  | escaped _ | quoted .double _ => isTrue trivial

end Piece

/-- The pieces of a written word. -/
abbrev WrittenWord := List Piece

namespace WrittenWord

def text (word : WrittenWord) : List Char := word.flatMap Piece.text

def chars (word : WrittenWord) : List Char := word.flatMap Piece.written

/-- The word has pieces, and all of them may be written in their way. -/
def IsSound (word : WrittenWord) : Prop := word ≠ [] ∧ ∀ piece ∈ word, piece.IsSound

end WrittenWord

/-- The blanks at the beginning of a line, and its words with the blanks after each. -/
structure WrittenLine where
  lead : List Char
  words : List (WrittenWord × List Char)
  deriving DecidableEq, Repr

namespace WrittenLine

/-- How words with the blanks after each are written. -/
def charsOf (words : List (WrittenWord × List Char)) : List Char :=
  words.flatMap fun (word, gap) => word.chars ++ gap

def chars (line : WrittenLine) : List Char := line.lead ++ charsOf line.words

/-- The tokens of words with the blanks after each, the first of which is written at `start`. -/
def tokensFrom (start : Nat) : List (WrittenWord × List Char) → List Token
  | [] => []
  | (word, gap) :: words =>
    let stop := start + Text.byteLength word.chars
    ⟨.ofList word.text, ⟨start, stop⟩⟩ :: tokensFrom (stop + Text.byteLength gap) words

/-- The tokens that the line says. -/
def tokens (line : WrittenLine) : List Token :=
  tokensFrom (Text.byteLength line.lead) line.words

/-- There is a blank between any two words, and nothing but blanks around them. -/
def IsSpaced : List (WrittenWord × List Char) → Prop
  | [] => True
  | [(_, gap)] => gap.all Text.isBlank
  | (_, gap) :: word :: words => gap.all Text.isBlank ∧ gap ≠ [] ∧ IsSpaced (word :: words)

/-- The words of the line may be written in their way, and blanks keep them apart. -/
def IsSound (line : WrittenLine) : Prop :=
  line.lead.all Text.isBlank ∧ IsSpaced line.words ∧ ∀ entry ∈ line.words, entry.1.IsSound

end WrittenLine

namespace Line

/-- The draft with more characters. -/
def Draft.addAll (draft : Draft) (cs : List Char) : Draft :=
  { draft with chars := cs.reverse ++ draft.chars }

@[simp] theorem Draft.addAll_nil (draft : Draft) : draft.addAll [] = draft := rfl

@[simp] theorem Draft.addAll_cons (draft : Draft) (c : Char) (cs : List Char) :
    draft.addAll (c :: cs) = (draft.add c).addAll cs := by
  simp [addAll, add]

theorem scan_guarded (draft : Draft) (opened pos : Nat) (c : Char) (rest : List Char) :
    scan (.quoted .double opened) (some draft) pos (Piece.guarded c ++ rest) =
      scan (.quoted .double opened) (some (draft.add c))
        (pos + Text.byteLength (Piece.guarded c)) rest := by
  by_cases h : c = '"' ∨ c = '\\'
  · rcases h with rfl | rfl <;>
      simp [Piece.guarded, scan, Quote.mark, Draft.orNew, Nat.add_assoc]
  · have hmark := not_or.1 h
    simp [Piece.guarded, scan, Quote.mark, hmark.1, hmark.2, Draft.orNew]

/-- Text in double quotes is read back up to the quote that closes it. -/
theorem scan_double (draft : Draft) (opened pos : Nat) (cs rest : List Char) :
    scan (.quoted .double opened) (some draft) pos (cs.flatMap Piece.guarded ++ '"' :: rest) =
      scan .bare (some (draft.addAll cs))
        (pos + Text.byteLength (cs.flatMap Piece.guarded ++ ['"'])) rest := by
  induction cs generalizing draft pos with
  | nil => simp [scan, Quote.mark, Draft.orNew]
  | cons c cs ih =>
    rw [List.flatMap_cons, List.append_assoc, scan_guarded, ih]
    simp [Nat.add_assoc]

/-- Text in single quotes is read back up to the quote that closes it. -/
theorem scan_single (draft : Draft) (opened pos : Nat) {cs : List Char} (h : '\'' ∉ cs)
    (rest : List Char) :
    scan (.quoted .single opened) (some draft) pos (cs ++ '\'' :: rest) =
      scan .bare (some (draft.addAll cs)) (pos + Text.byteLength (cs ++ ['\''])) rest := by
  induction cs generalizing draft pos with
  | nil => simp [scan, Quote.mark, Draft.orNew]
  | cons c cs ih =>
    rw [List.mem_cons, not_or] at h
    rw [List.cons_append, scan]
    simp [Quote.mark, Ne.symm h.1, ih _ _ h.2, Draft.orNew, Nat.add_assoc]

/-- Scanning a sound piece adds its text to the token in hand. -/
theorem scan_written {piece : Piece} (h : piece.IsSound) (draft : Option Draft) (pos : Nat)
    (rest : List Char) :
    scan .bare draft pos (piece.written ++ rest) =
      scan .bare (some ((Draft.orNew draft pos).addAll piece.text))
        (pos + Text.byteLength piece.written) rest := by
  match piece, h with
  | .bare c, ⟨hblank, hdouble, hsingle, hslash⟩ =>
    simp [Piece.written, Piece.text, scan, hblank, hdouble, hsingle, hslash]
  | .escaped c, _ =>
    have hblank : Text.isBlank '\\' = false := by decide
    simp [Piece.written, Piece.text, scan, hblank, Draft.orNew, Nat.add_assoc]
  | .quoted .double cs, _ =>
    have hblank : Text.isBlank '"' = false := by decide
    simp [Piece.written, Piece.text, scan, hblank, scan_double, Nat.add_assoc]
  | .quoted .single cs, h =>
    have hblank : Text.isBlank '\'' = false := by decide
    simp [Piece.written, Piece.text, scan, hblank, scan_single _ _ _ h, Nat.add_assoc]

end Line

end CommandShell
