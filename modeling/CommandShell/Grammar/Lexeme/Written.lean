import CommandShell.Grammar.Lexeme.Reader

/-!
# Written lexemes

The ways to write lexemes as a text: each lexeme has one written form, blanks may stand anywhere
between two lexemes, and have to stand between two words.

## Main definitions

* `Lexeme.Kind.written`, `Lexeme.Kind.IsSound` — the written form of a lexeme, and whether its name
  may be written
* `WrittenLexemes` — lexemes with the blanks around them
* `WrittenLexemes.chars`, `WrittenLexemes.lexemes` — how they are written, and what they say

## Main results

* `Lexeme.readFrom_written` — the written form of a lexeme is read back, unless a word goes on
-/

namespace CommandShell

namespace Lexeme

namespace Kind

def written : Kind → List Char
  | word name => name.toList
  | constant name => '<' :: (name.toList ++ ['>'])
  | opening => ['[']
  | closing => [']']
  | bar => ['|']
  | operator op => [op.char]

/-- The text is a name. -/
def IsName (cs : List Char) : Prop := cs ≠ [] ∧ cs.all Text.isNameChar = true

/-- If the lexeme has a name, it may be written. -/
def IsSound : Kind → Prop
  | word name | constant name => IsName name.toList
  | opening | closing | bar | operator _ => True

def isWord : Kind → Bool
  | word _ => true
  | constant _ | opening | closing | bar | operator _ => false

end Kind

end Lexeme

/-- The blanks at the beginning of a text, and its lexemes with the blanks after each. -/
structure WrittenLexemes where
  lead : List Char
  entries : List (Lexeme.Kind × List Char)
  deriving DecidableEq, Repr

namespace WrittenLexemes

/-- How lexemes with the blanks after each are written. -/
def charsOf (entries : List (Lexeme.Kind × List Char)) : List Char :=
  entries.flatMap fun (kind, gap) => kind.written ++ gap

def chars (text : WrittenLexemes) : List Char := text.lead ++ charsOf text.entries

/-- The lexemes with the blanks after each, the first of which is written at `start`. -/
def lexemesFrom (start : Nat) : List (Lexeme.Kind × List Char) → List Lexeme
  | [] => []
  | (kind, gap) :: entries =>
    let stop := start + Text.byteLength kind.written
    ⟨kind, ⟨start, stop⟩⟩ :: lexemesFrom (stop + Text.byteLength gap) entries

/-- The lexemes of the text, where they are written. -/
def lexemes (text : WrittenLexemes) : List Lexeme :=
  lexemesFrom (Text.byteLength text.lead) text.entries

def kinds (text : WrittenLexemes) : List Lexeme.Kind := text.entries.map Prod.fst

/-- Nothing but blanks stands after a lexeme, and at least one stands between two words. -/
def IsSpaced : List (Lexeme.Kind × List Char) → Prop
  | [] => True
  | [(_, gap)] => gap.all Text.isBlank
  | (kind, gap) :: (next, nextGap) :: entries =>
    gap.all Text.isBlank ∧ (kind.isWord → next.isWord → gap ≠ []) ∧
      IsSpaced ((next, nextGap) :: entries)

/-- The names of the text may be written, and blanks keep its words apart. -/
def IsSound (text : WrittenLexemes) : Prop :=
  text.lead.all Text.isBlank ∧ IsSpaced text.entries ∧ ∀ entry ∈ text.entries, entry.1.IsSound

end WrittenLexemes

namespace Lexeme

/-- A name goes on with name characters. -/
theorem readFrom_word (start pos : Nat) (name : List Char) {cs : List Char}
    (h : cs.all Text.isNameChar = true) (rest : List Char) :
    readFrom (.word start name) pos (cs ++ rest) =
      readFrom (.word start (cs.reverse ++ name)) (pos + Text.byteLength cs) rest := by
  induction cs generalizing name pos with
  | nil => simp
  | cons c cs ih =>
    rw [List.all_cons, Bool.and_eq_true] at h
    rw [List.cons_append, readFrom]
    simp [h.1, Pending.add, ih _ _ h.2, Nat.add_assoc]

/-- So does the name of a constant. -/
theorem readFrom_constant (start pos : Nat) (name : List Char) {cs : List Char}
    (h : cs.all Text.isNameChar = true) (rest : List Char) :
    readFrom (.constant start name) pos (cs ++ rest) =
      readFrom (.constant start (cs.reverse ++ name)) (pos + Text.byteLength cs) rest := by
  induction cs generalizing name pos with
  | nil => simp
  | cons c cs ih =>
    rw [List.all_cons, Bool.and_eq_true] at h
    rw [List.cons_append, readFrom]
    simp [h.1, Pending.add, ih _ _ h.2, Nat.add_assoc]

theorem map_self (result : Except GrammarError (List Lexeme)) :
    result.map (fun lexemes => lexemes) = result := by
  cases result <;> rfl

/-- A word ends where no name character follows. -/
theorem readFrom_word_of_end (start pos : Nat) (name : List Char) {rest : List Char}
    (h : rest.head?.all (fun c => !Text.isNameChar c) = true) :
    readFrom (.word start name) pos rest =
      (readFrom .nothing pos rest).map (⟨.word (.ofList name.reverse), ⟨start, pos⟩⟩ :: ·) := by
  cases rest with
  | nil => rfl
  | cons c cs =>
    have hc : Text.isNameChar c = false := by simpa using h
    rw [readFrom, readFrom]
    simp only [hc, Bool.false_eq_true, if_false, Pending.word?, Option.toList_some,
      Option.toList_none, List.nil_append, List.singleton_append]
    rw [map_self]

/-- A character that is a lexeme by itself is read back. -/
theorem readFrom_mark {c : Char} {kind : Kind} (hname : Text.isNameChar c = false)
    (hmark : Kind.ofMark? c = some kind) (pos : Nat) (rest : List Char) :
    readFrom .nothing pos (c :: rest) =
      (readFrom .nothing (pos + Text.byteLength [c]) rest).map
        (⟨kind, ⟨pos, pos + Text.byteLength [c]⟩⟩ :: ·) := by
  rw [readFrom]
  simp [hname, hmark, Pending.word?, map_self]

/-- The written form of a lexeme is read back; a word has to end there. -/
theorem readFrom_written {kind : Kind} (h : kind.IsSound) (pos : Nat) {rest : List Char}
    (hrest : kind.isWord = true → rest.head?.all (fun c => !Text.isNameChar c) = true) :
    readFrom .nothing pos (kind.written ++ rest) =
      (readFrom .nothing (pos + Text.byteLength kind.written) rest).map
        (⟨kind, ⟨pos, pos + Text.byteLength kind.written⟩⟩ :: ·) := by
  match kind, h, hrest with
  | .word name, ⟨hne, hall⟩, hrest =>
    obtain ⟨cs, rfl⟩ : ∃ cs, name = .ofList cs := ⟨name.toList, by simp⟩
    rw [String.toList_ofList] at hne hall
    cases cs with
    | nil => exact absurd rfl hne
    | cons c cs =>
      rw [List.all_cons, Bool.and_eq_true] at hall
      simp [Kind.written, readFrom, hall.1, Pending.add, readFrom_word _ _ _ hall.2,
        readFrom_word_of_end _ _ _ (hrest rfl), Nat.add_assoc]
  | .constant name, ⟨hne, hall⟩, _ =>
    obtain ⟨cs, rfl⟩ : ∃ cs, name = .ofList cs := ⟨name.toList, by simp⟩
    rw [String.toList_ofList] at hne hall
    have hopen : Text.isNameChar '<' = false := by decide
    have hclose : Text.isNameChar '>' = false := by decide
    have hmark : Kind.ofMark? '<' = none := by decide
    have hblank : Text.isBlank '<' = false := by decide
    simp [Kind.written, readFrom, hopen, hclose, hmark, hblank, Pending.word?, hne,
      readFrom_constant _ _ _ hall, map_self, Nat.add_assoc]
  | .opening, _, _ => exact readFrom_mark (by decide) rfl pos rest
  | .closing, _, _ => exact readFrom_mark (by decide) rfl pos rest
  | .bar, _, _ => exact readFrom_mark (by decide) rfl pos rest
  | .operator op, _, _ =>
    exact readFrom_mark (by cases op <;> decide) (by cases op <;> rfl) pos rest

end Lexeme

end CommandShell
