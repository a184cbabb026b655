import CommandShell.Grammar.Lexeme.Written
import CommandShell.Proofs.Outcome

/-!
# Lexemes are read as they are written

The reader of lexemes accepts a text exactly if it writes some lexemes with blanks between them, and
gives those lexemes, where they are written. A word would go on with a name character, which is why
a blank has to stand between two words and nowhere else.

## Main results

* `WrittenLexemes.ends_iff` — where a word may end before blanks and lexemes
* `Lexeme.readFrom_charsOf` — written lexemes are read
* `Lexeme.exists_written_of_readFrom` — what is read is written
* `Lexeme.read_eq_ok_iff` — a text is read as some lexemes exactly if it writes them
* `WrittenLexemes.exists_append_of_lexemesFrom` — lexemes in two parts are written in two parts
* `Lexeme.exists_split_of_read` — what is written before a lexeme is read on its own
* `Lexeme.read_append_opening` — an opening bracket parts what is read before it from what is read
  behind it
* `Lexeme.count_toList_of_read` — a lexeme of one character is read as often as it is written
-/

namespace CommandShell

/-! ### Where a word ends -/

namespace Text

/-- A range of code points, in natural numbers. -/
theorem inRange_iff (low high : UInt32) (c : Char) :
    low ≤ c.val ∧ c.val ≤ high ↔ low.toNat ≤ c.toNat ∧ c.toNat ≤ high.toNat := by
  rw [UInt32.le_iff_toNat_le, UInt32.le_iff_toNat_le]
  rfl

theorem isDigit_iff {c : Char} : c.isDigit = true ↔ 48 ≤ c.toNat ∧ c.toNat ≤ 57 := by
  have hrange : c.isDigit = (decide (48 ≤ c.val) && decide (c.val ≤ 57)) := rfl
  rw [hrange, Bool.and_eq_true, decide_eq_true_eq, decide_eq_true_eq]
  exact inRange_iff 48 57 c

theorem isAlpha_iff {c : Char} :
    c.isAlpha = true ↔
      (65 ≤ c.toNat ∧ c.toNat ≤ 90) ∨ (97 ≤ c.toNat ∧ c.toNat ≤ 122) := by
  have hrange : c.isAlpha = (decide (65 ≤ c.val ∧ c.val ≤ 90) ||
      (decide (97 ≤ c.val) && decide (c.val ≤ 122))) := rfl
  rw [hrange, Bool.or_eq_true, Bool.and_eq_true, decide_eq_true_eq, decide_eq_true_eq,
    decide_eq_true_eq]
  exact or_congr (inRange_iff 65 90 c) (inRange_iff 97 122 c)

/-- The characters of names lie between `-` and `z`. -/
theorem toNat_of_isNameChar {c : Char} (h : isNameChar c = true) :
    0x2D ≤ c.toNat ∧ c.toNat ≤ 0x7A := by
  simp only [isNameChar, Char.isAlphanum, Bool.or_eq_true, beq_iff_eq] at h
  rcases h with (((h | h) | rfl) | rfl) | rfl
  · have := isAlpha_iff.mp h
    omega
  · have := isDigit_iff.mp h
    omega
  all_goals decide

/-- No blank stands in a name. -/
theorem isNameChar_of_isBlank {c : Char} (h : isBlank c = true) : isNameChar c = false := by
  refine Bool.eq_false_iff.mpr fun hname => ?_
  have hrange := toNat_of_isNameChar hname
  simp only [isBlank, Bool.or_eq_true, Bool.and_eq_true, decide_eq_true_eq, beq_iff_eq] at h
  omega

/-- A word may end before the text: it does not go on with a name character. -/
def Ends (cs : List Char) : Prop := cs.head?.all (fun c => !isNameChar c) = true

theorem ends_nil : Ends [] := rfl

theorem ends_cons {c : Char} {cs : List Char} : Ends (c :: cs) ↔ isNameChar c = false := by
  simp [Ends]

theorem Ends.append {cs after : List Char} (h : Ends cs) (hafter : Ends after) :
    Ends (cs ++ after) := by
  cases cs with
  | nil => exact hafter
  | cons c cs => exact ends_cons.mpr (ends_cons.mp h)

/-- A word ends where the run of name characters does. -/
theorem ends_dropWhile (cs : List Char) : Ends (cs.dropWhile isNameChar) := by
  induction cs with
  | nil => exact ends_nil
  | cons c cs ih =>
    rw [List.dropWhile_cons]
    split
    · exact ih
    · rename_i hc
      exact ends_cons.mpr (Bool.eq_false_iff.mpr hc)

end Text

namespace Lexeme.Kind

variable {c : Char} {kind other : Kind}

/-- The character that is a lexeme by itself writes that lexeme. -/
theorem written_of_ofMark? (h : ofMark? c = some kind) :
    kind.written = [c] ∧ kind.isWord = false ∧ kind.IsSound := by
  unfold ofMark? at h
  split at h
  · cases h
    exact ⟨rfl, rfl, trivial⟩
  · cases h
    exact ⟨rfl, rfl, trivial⟩
  · cases h
    exact ⟨rfl, rfl, trivial⟩
  · obtain ⟨op, hop, rfl⟩ := Option.map_eq_some_iff.mp h
    exact ⟨congrArg (fun c => [c]) (GroupOp.ofChar?_eq_some_iff.mp hop).symm, rfl, trivial⟩

/-- No blank is a lexeme. -/
theorem ofMark?_of_isBlank (h : Text.isBlank c = true) : ofMark? c = none := by
  refine Option.eq_none_iff_forall_ne_some.mpr fun kind hkind => ?_
  have hwritten := (written_of_ofMark? hkind).1
  cases kind with
  | word name => cases (written_of_ofMark? hkind).2.1
  | constant name =>
    simp [written] at hwritten
  | operator op =>
    cases hwritten
    revert h
    cases op <;> decide
  | _ =>
    cases hwritten
    revert h
    decide

theorem written_ne_nil (h : kind.IsSound) : kind.written ≠ [] := by
  cases kind with
  | word name => exact h.1
  | _ => exact List.cons_ne_nil _ _

/-- A word may end before a lexeme unless that is a word. -/
theorem ends_written_append (h : kind.IsSound) (rest : List Char) :
    Text.Ends (kind.written ++ rest) ↔ kind.isWord = false := by
  cases kind with
  | word name =>
    obtain ⟨hne, hall⟩ := h
    obtain ⟨c, cs, hname⟩ := List.exists_cons_of_ne_nil hne
    rw [hname, List.all_cons, Bool.and_eq_true] at hall
    rw [written, hname, List.cons_append, Text.ends_cons, hall.1]
    simp [isWord]
  | constant name => exact iff_of_true (Text.ends_cons.mpr (by decide)) rfl
  | operator op => exact iff_of_true (Text.ends_cons.mpr (by cases op <;> decide)) rfl
  | _ => exact iff_of_true (Text.ends_cons.mpr (by decide)) rfl

/-- No name goes on with a lexeme of one character. -/
theorem isNameChar_of_ofMark? (h : ofMark? c = some kind) : Text.isNameChar c = false := by
  obtain ⟨hwritten, hword, hsound⟩ := written_of_ofMark? h
  have hends := (ends_written_append hsound []).mpr hword
  rwa [hwritten, List.singleton_append, Text.ends_cons] at hends

/-- A character that is a lexeme by itself is part of no other. -/
theorem eq_of_mem_written (h : ofMark? c = some kind) (hsound : other.IsSound)
    (hmem : c ∈ other.written) : other = kind := by
  have hname {cs : List Char} (hall : cs.all Text.isNameChar = true) : c ∉ cs := fun hmem => by
    have := List.all_eq_true.mp hall c hmem
    rw [isNameChar_of_ofMark? h] at this
    cases this
  cases other with
  | word name => exact absurd hmem (hname hsound.2)
  | constant name =>
    rw [written, List.mem_cons, List.mem_append, List.mem_singleton] at hmem
    rcases hmem with rfl | hmem | rfl
    · cases h
    · exact absurd hmem (hname hsound.2)
    · cases h
  | operator op =>
    rw [List.mem_singleton.mp hmem] at h
    cases op <;> exact Option.some.inj h
  | _ =>
    rw [List.mem_singleton.mp hmem] at h
    exact Option.some.inj h

/-- So it is written as often as its lexeme is. -/
theorem count_written (h : ofMark? c = some kind) (hsound : other.IsSound) :
    other.written.count c = [other].count kind := by
  by_cases hsame : other = kind
  · rw [hsame, (written_of_ofMark? h).1, List.count_singleton_self, List.count_singleton_self]
  · rw [List.count_eq_zero.mpr fun hmem => hsame (eq_of_mem_written h hsound hmem),
      List.count_eq_zero.mpr fun hmem => hsame (List.mem_singleton.mp hmem).symm]

end Lexeme.Kind

namespace WrittenLexemes

variable {c : Char} {kind : Lexeme.Kind} {gap : List Char}
  {entries : List (Lexeme.Kind × List Char)}

theorem isSpaced_cons :
    IsSpaced ((kind, gap) :: entries) ↔
      gap.all Text.isBlank = true ∧
        (kind.isWord = true → ∀ next ∈ entries.head?, next.1.isWord = true → gap ≠ []) ∧
        IsSpaced entries := by
  cases entries with
  | nil => simp [IsSpaced]
  | cons next entries =>
    rw [IsSpaced]
    simp only [List.head?_cons, Option.mem_def, Option.some.injEq, forall_eq']

theorem charsOf_cons :
    charsOf ((kind, gap) :: entries) = kind.written ++ (gap ++ charsOf entries) := by
  rw [charsOf, List.flatMap_cons, List.append_assoc]
  rfl

/-- A word may end before blanks and lexemes unless it would run into another word. -/
theorem ends_iff (hgap : gap.all Text.isBlank = true)
    (hsound : ∀ entry ∈ entries, entry.1.IsSound) :
    Text.Ends (gap ++ charsOf entries) ↔
      ∀ next ∈ entries.head?, next.1.isWord = true → gap ≠ [] := by
  cases gap with
  | cons c gap =>
    rw [List.all_cons, Bool.and_eq_true] at hgap
    rw [List.cons_append, Text.ends_cons]
    exact iff_of_true (Text.isNameChar_of_isBlank hgap.1) fun _ _ _ => List.cons_ne_nil _ _
  | nil =>
    cases entries with
    | nil => exact iff_of_true Text.ends_nil fun next hnext => by cases hnext
    | cons next entries =>
      obtain ⟨kind, gap⟩ := next
      rw [List.nil_append, charsOf_cons,
        Lexeme.Kind.ends_written_append (hsound _ List.mem_cons_self)]
      simp

theorem map_kind_lexemesFrom (start : Nat) :
    (lexemesFrom start entries).map Lexeme.kind = entries.map Prod.fst := by
  induction entries generalizing start with
  | nil => rfl
  | cons entry entries ih => rw [lexemesFrom, List.map_cons, ih, List.map_cons]

theorem map_kind_lexemes (text : WrittenLexemes) :
    text.lexemes.map Lexeme.kind = text.kinds := map_kind_lexemesFrom _

/-- The first lexemes of a text are spaced as they are before the others. -/
theorem IsSpaced.of_append {others : List (Lexeme.Kind × List Char)}
    (h : IsSpaced (entries ++ others)) : IsSpaced entries := by
  induction entries with
  | nil => trivial
  | cons entry entries ih =>
    obtain ⟨kind, gap⟩ := entry
    rw [List.cons_append, isSpaced_cons] at h
    obtain ⟨hgap, hwords, hspaced⟩ := h
    refine isSpaced_cons.mpr ⟨hgap, fun hword next hnext => hwords hword next ?_, ih hspaced⟩
    rw [List.head?_append, hnext]
    rfl

/-- So are the last ones. -/
theorem IsSpaced.of_append_right {others : List (Lexeme.Kind × List Char)}
    (h : IsSpaced (entries ++ others)) : IsSpaced others := by
  induction entries with
  | nil => exact h
  | cons entry entries ih =>
    rw [List.cons_append] at h
    exact ih (isSpaced_cons.mp h).2.2

/-- The first lexeme is written at the start, and the others behind it and its blanks. -/
theorem exists_cons_of_lexemesFrom {start : Nat} {span : Span} {back : List Lexeme}
    (h : lexemesFrom start entries = ⟨kind, span⟩ :: back) :
    ∃ gap others, entries = (kind, gap) :: others ∧
      span = ⟨start, start + Text.byteLength kind.written⟩ ∧
      lexemesFrom (start + Text.byteLength kind.written + Text.byteLength gap) others = back := by
  cases entries with
  | nil => cases h
  | cons entry others =>
    cases h
    exact ⟨entry.2, others, rfl, rfl, rfl⟩

/-- Lexemes are written behind all that is written before them. -/
theorem exists_append_of_lexemesFrom {start : Nat} {front back : List Lexeme}
    (h : lexemesFrom start entries = front ++ back) :
    ∃ first others, entries = first ++ others ∧ lexemesFrom start first = front ∧
      lexemesFrom (start + Text.byteLength (charsOf first)) others = back := by
  induction front generalizing start entries with
  | nil => exact ⟨[], entries, rfl, rfl, h⟩
  | cons lexeme front ih =>
    obtain ⟨kind, span⟩ := lexeme
    obtain ⟨gap, others, rfl, rfl, hrest⟩ := exists_cons_of_lexemesFrom h
    obtain ⟨first, last, rfl, hfirst, hlast⟩ := ih hrest
    refine ⟨(kind, gap) :: first, last, rfl, ?_, ?_⟩
    · rw [lexemesFrom, hfirst]
    · simpa only [charsOf_cons, Text.byteLength_append, Nat.add_assoc] using hlast

/-- So is a single lexeme. -/
theorem exists_split_lexemesFrom {start : Nat} {front back : List Lexeme} {lexeme : Lexeme}
    (h : lexemesFrom start entries = front ++ lexeme :: back) :
    ∃ first gap others, entries = first ++ (lexeme.kind, gap) :: others ∧
      front = lexemesFrom start first ∧
      lexeme.span = ⟨start + Text.byteLength (charsOf first),
        start + Text.byteLength (charsOf first ++ lexeme.kind.written)⟩ := by
  obtain ⟨kind, span⟩ := lexeme
  obtain ⟨first, last, rfl, hfront, hlast⟩ := exists_append_of_lexemesFrom h
  obtain ⟨gap, others, rfl, rfl, -⟩ := exists_cons_of_lexemesFrom hlast
  refine ⟨first, gap, others, rfl, hfront.symm, ?_⟩
  rw [Text.byteLength_append, Nat.add_assoc]

/-- Blanks are no lexemes. -/
theorem count_blanks (h : Lexeme.Kind.ofMark? c = some kind) (hgap : gap.all Text.isBlank = true) :
    gap.count c = 0 := by
  refine List.count_eq_zero.mpr fun hmem => ?_
  rw [Lexeme.Kind.ofMark?_of_isBlank (List.all_eq_true.mp hgap c hmem)] at h
  cases h

/-- A lexeme of one character is written as often as there is such a character. -/
theorem count_charsOf (h : Lexeme.Kind.ofMark? c = some kind) (hspaced : IsSpaced entries)
    (hsound : ∀ entry ∈ entries, entry.1.IsSound) :
    (charsOf entries).count c = (entries.map Prod.fst).count kind := by
  induction entries with
  | nil => rfl
  | cons entry entries ih =>
    obtain ⟨first, gap⟩ := entry
    obtain ⟨hgap, -, hspaced⟩ := isSpaced_cons.mp hspaced
    rw [List.forall_mem_cons] at hsound
    rw [charsOf_cons, List.count_append, List.count_append, Lexeme.Kind.count_written h hsound.1,
      count_blanks h hgap, ih hspaced hsound.2, Nat.zero_add, List.map_cons, ← List.count_append]
    rfl

end WrittenLexemes

namespace Lexeme

variable {pos : Nat} {c : Char} {cs : List Char} {kind : Kind} {source : String} {lexeme : Lexeme}
  {lexemes front back : List Lexeme}

/-! ### Written lexemes are read -/

/-- Blanks between lexemes are passed over. -/
theorem readFrom_blanks {gap : List Char} (h : gap.all Text.isBlank = true) (pos : Nat)
    (rest : List Char) :
    readFrom .nothing pos (gap ++ rest) = readFrom .nothing (pos + Text.byteLength gap) rest := by
  induction gap generalizing pos with
  | nil => rfl
  | cons c gap ih =>
    rw [List.all_cons, Bool.and_eq_true] at h
    rw [List.cons_append, readFrom]
    simp [Text.isNameChar_of_isBlank h.1, Kind.ofMark?_of_isBlank h.1, h.1, Pending.word?,
      map_self, ih h.2, Nat.add_assoc]

/-- Written lexemes are read, with where they are written. -/
theorem readFrom_charsOf {entries : List (Kind × List Char)}
    (hspaced : WrittenLexemes.IsSpaced entries) (hsound : ∀ entry ∈ entries, entry.1.IsSound)
    (pos : Nat) :
    readFrom .nothing pos (WrittenLexemes.charsOf entries) =
      .ok (WrittenLexemes.lexemesFrom pos entries) := by
  induction entries generalizing pos with
  | nil => rfl
  | cons entry entries ih =>
    obtain ⟨kind, gap⟩ := entry
    obtain ⟨hgap, hwords, hspaced⟩ := WrittenLexemes.isSpaced_cons.mp hspaced
    rw [List.forall_mem_cons] at hsound
    have hends (hword : kind.isWord = true) :
        Text.Ends (gap ++ WrittenLexemes.charsOf entries) :=
      (WrittenLexemes.ends_iff hgap hsound.2).mpr (hwords hword)
    rw [WrittenLexemes.charsOf_cons, readFrom_written hsound.1 pos hends, readFrom_blanks hgap,
      ih hspaced hsound.2]
    rfl

/-- A sound text is read as the lexemes that it writes. -/
theorem readFrom_chars {text : WrittenLexemes} (h : text.IsSound) :
    readFrom .nothing 0 text.chars = .ok text.lexemes := by
  obtain ⟨hlead, hspaced, hsound⟩ := h
  rw [WrittenLexemes.chars, readFrom_blanks hlead, readFrom_charsOf hspaced hsound, Nat.zero_add]
  rfl

/-! ### What is read is written -/

/-- A constant that is read ends with its bracket, behind a name. -/
theorem exists_closed_of_readFrom {start : Nat} {name : List Char}
    (h : readFrom (.constant start name) pos cs = .ok lexemes) :
    ∃ more rest, more.all Text.isNameChar = true ∧ more.reverse ++ name ≠ [] ∧
      cs = more ++ '>' :: rest := by
  induction cs generalizing name pos with
  | nil => cases h
  | cons c cs ih =>
    rw [readFrom] at h
    by_cases hc : Text.isNameChar c = true
    · rw [if_pos hc] at h
      obtain ⟨more, rest, hmore, hne, rfl⟩ := ih h
      exact ⟨c :: more, rest, by rw [List.all_cons, hc, hmore, Bool.and_self], by simp, rfl⟩
    · rw [if_neg hc] at h
      split at h
      · rename_i hclose
        obtain ⟨rfl, hne⟩ := hclose
        exact ⟨[], cs, rfl, by simpa using hne, rfl⟩
      · cases h

/-- A text at which the reader succeeds is empty, or begins with a blank or with the written form of
a lexeme, behind which a word ends. -/
inductive Front : List Char → Prop
  | empty : Front []
  | blank {c : Char} (h : Text.isBlank c = true) (rest : List Char) : Front (c :: rest)
  | lexeme (kind : Kind) (h : kind.IsSound) (rest : List Char)
    (hends : kind.isWord = true → Text.Ends rest) : Front (kind.written ++ rest)

theorem front_of_readFrom (h : readFrom .nothing pos cs = .ok lexemes) : Front cs := by
  cases cs with
  | nil => exact .empty
  | cons c cs =>
    by_cases hc : Text.isNameChar c = true
    · have hname : Kind.IsName (c :: cs.takeWhile Text.isNameChar) :=
        ⟨List.cons_ne_nil _ _, by simp [hc]⟩
      have hfront := Front.lexeme (.word (.ofList (c :: cs.takeWhile Text.isNameChar)))
        (by rwa [Kind.IsSound, String.toList_ofList]) _ fun _ => Text.ends_dropWhile cs
      rwa [Kind.written, String.toList_ofList, List.cons_append,
        List.takeWhile_append_dropWhile] at hfront
    · rw [readFrom, if_neg hc] at h
      obtain ⟨others, hothers, -⟩ := map_eq_ok_iff.mp h
      split at hothers
      · rename_i kind hkind
        obtain ⟨hwritten, hword, hsound⟩ := Kind.written_of_ofMark? hkind
        have hfront := Front.lexeme kind hsound cs fun h => by rw [hword] at h; cases h
        rwa [hwritten] at hfront
      · split at hothers
        · rename_i hblank
          exact .blank hblank cs
        · split at hothers
          · rename_i hopen
            subst hopen
            obtain ⟨name, rest, hname, hne, rfl⟩ := exists_closed_of_readFrom hothers
            have hsound : (Kind.constant (.ofList name)).IsSound := by
              rw [Kind.IsSound, String.toList_ofList]
              exact ⟨by simpa using hne, hname⟩
            have hfront := Front.lexeme _ hsound rest fun h => by cases h
            rwa [Kind.written, String.toList_ofList, List.cons_append, List.append_assoc] at hfront
          · cases hothers

/-- A text that is read writes some lexemes. -/
theorem exists_written_of_readFrom (h : readFrom .nothing pos cs = .ok lexemes) :
    ∃ text : WrittenLexemes, text.IsSound ∧ text.chars = cs := by
  -- A lexeme takes many characters at once, so the induction is on the length of the text.
  induction hlength : cs.length using Nat.strongRecOn generalizing cs pos lexemes with
  | ind length ih =>
    subst hlength
    cases front_of_readFrom h with
    | empty => exact ⟨⟨[], []⟩, ⟨rfl, trivial, by simp⟩, rfl⟩
    | @blank c hblank rest =>
      have hrest : readFrom .nothing (pos + Text.byteLength [c]) rest = .ok lexemes := by
        have hgap : [c].all Text.isBlank = true := by simpa using hblank
        rw [← h, ← readFrom_blanks hgap]
        rfl
      obtain ⟨⟨lead, entries⟩, ⟨hlead, hspaced, hsound⟩, rfl⟩ :=
        ih _ (by simp) hrest rfl
      exact ⟨⟨c :: lead, entries⟩, ⟨by simpa [hblank] using hlead, hspaced, hsound⟩, rfl⟩
    | lexeme kind hkind rest hends =>
      rw [readFrom_written hkind pos hends] at h
      obtain ⟨others, hrest, -⟩ := map_eq_ok_iff.mp h
      have hshorter : rest.length < (kind.written ++ rest).length := by
        have := List.length_pos_iff.mpr (Kind.written_ne_nil hkind)
        rw [List.length_append]
        omega
      obtain ⟨⟨lead, entries⟩, ⟨hlead, hspaced, hsound⟩, rfl⟩ := ih _ hshorter hrest rfl
      refine ⟨⟨[], (kind, lead) :: entries⟩, ⟨rfl, ?_, ?_⟩, ?_⟩
      · exact WrittenLexemes.isSpaced_cons.mpr
          ⟨hlead, fun hword => (WrittenLexemes.ends_iff hlead hsound).mp (hends hword), hspaced⟩
      · exact List.forall_mem_cons.mpr ⟨hkind, hsound⟩
      · exact WrittenLexemes.charsOf_cons

/-- A text is read as some lexemes exactly if it writes them. -/
theorem read_eq_ok_iff :
    read source = .ok lexemes ↔
      ∃ text : WrittenLexemes,
        text.IsSound ∧ source.toList = text.chars ∧ lexemes = text.lexemes := by
  constructor
  · intro h
    obtain ⟨text, hsound, hchars⟩ := exists_written_of_readFrom h
    refine ⟨text, hsound, hchars.symm, ?_⟩
    rw [read, ← hchars, readFrom_chars hsound] at h
    exact (Except.ok.inj h).symm
  · rintro ⟨text, hsound, hchars, rfl⟩
    rw [read, hchars, readFrom_chars hsound]

/-! ### Parts of a text -/

/-- What is read of a text that goes on with the lexeme, behind which the rest is read on its
own. -/
def goingOn (lexeme : Lexeme) (rest front : Except GrammarError (List Lexeme)) :
    Except GrammarError (List Lexeme) :=
  front.bind fun front => rest.map fun back => front ++ lexeme :: back

theorem map_goingOn (lexeme : Lexeme) (rest front : Except GrammarError (List Lexeme))
    (more : List Lexeme) :
    (goingOn lexeme rest front).map (more ++ ·) = goingOn lexeme rest (front.map (more ++ ·)) := by
  cases front with
  | error e => rfl
  | ok front =>
    cases rest with
    | error e => rfl
    | ok back => simp [goingOn, Except.bind, Except.map]

/-- An opening bracket is read behind whatever stands before it, and what follows is read on its
own. -/
theorem readFrom_append_opening (pending : Pending) (pos : Nat) (before after : List Char) :
    readFrom pending pos (before ++ '[' :: after) =
      goingOn ⟨.opening, ⟨pos + Text.byteLength before, pos + Text.byteLength before + 1⟩⟩
        (readFrom .nothing (pos + Text.byteLength before + 1) after)
        (readFrom pending pos before) := by
  induction before generalizing pending pos with
  | nil =>
    have hname : Text.isNameChar '[' = false := by decide
    cases pending with
    | constant start name =>
      simp only [List.nil_append, readFrom, hname]
      rfl
    | nothing => exact readFrom_mark hname rfl pos after
    | word start name =>
      rw [List.nil_append, readFrom_word_of_end _ _ _ (Text.ends_cons.mpr hname),
        readFrom_mark hname rfl pos after]
      exact map_goingOn _ _ (.ok []) [_]
  | cons c before ih =>
    have hrest (pending : Pending) := ih pending (pos + c.utf8Size)
    rw [Nat.add_assoc, ← Text.byteLength_cons] at hrest
    rw [List.cons_append, readFrom.eq_def, readFrom.eq_def pending pos (c :: before)]
    simp only [hrest]
    split
    · rfl
    · split
      · split
        · exact map_goingOn _ _ _ [_]
        · rfl
      all_goals
        rw [← map_goingOn]
        refine congrArg _ ?_
        split
        · exact map_goingOn _ _ _ [_]
        · split
          · rfl
          · split <;> rfl

/-- A lexeme of one character is read as often as there is such a character. -/
theorem count_toList_of_read (h : Kind.ofMark? c = some kind) (hread : read source = .ok lexemes) :
    source.toList.count c = (lexemes.map Lexeme.kind).count kind := by
  obtain ⟨text, ⟨hlead, hspaced, hsound⟩, hchars, rfl⟩ := read_eq_ok_iff.mp hread
  rw [hchars, WrittenLexemes.chars, List.count_append, WrittenLexemes.count_blanks h hlead,
    Nat.zero_add, WrittenLexemes.count_charsOf h hspaced hsound, text.map_kind_lexemes]
  rfl

/-- A lexeme is written where its span says, and what is written before it is read as the lexemes
before it. -/
theorem exists_split_of_read (h : read source = .ok (front ++ lexeme :: back)) :
    ∃ before after, source.toList = before ++ (lexeme.kind.written ++ after) ∧
      lexeme.span = ⟨Text.byteLength before, Text.byteLength (before ++ lexeme.kind.written)⟩ ∧
      read (.ofList before) = .ok front := by
  obtain ⟨⟨lead, entries⟩, ⟨hlead, hspaced, hsound⟩, hchars, hlexemes⟩ := read_eq_ok_iff.mp h
  obtain ⟨first, gap, others, rfl, rfl, hspan⟩ :=
    WrittenLexemes.exists_split_lexemesFrom hlexemes.symm
  have hfirst : (WrittenLexemes.mk lead first).IsSound :=
    ⟨hlead, hspaced.of_append, fun entry hmem => hsound entry (List.mem_append_left _ hmem)⟩
  refine ⟨lead ++ WrittenLexemes.charsOf first, gap ++ WrittenLexemes.charsOf others, ?_, ?_,
    read_eq_ok_iff.mpr ⟨_, hfirst, String.toList_ofList, rfl⟩⟩
  · rw [hchars, WrittenLexemes.chars, WrittenLexemes.charsOf, List.flatMap_append,
      List.flatMap_cons]
    simp only [List.append_assoc]
    rfl
  · rw [hspan]
    simp only [Text.byteLength_append, Nat.add_assoc]

/-- An opening bracket is read as one, behind what is read before it and before what is read
after it. -/
theorem read_append_opening (before after : List Char) :
    read (.ofList (before ++ '[' :: after)) =
      goingOn ⟨.opening, ⟨Text.byteLength before, Text.byteLength before + 1⟩⟩
        (readFrom .nothing (Text.byteLength before + 1) after) (read (.ofList before)) := by
  rw [read, read, String.toList_ofList, String.toList_ofList, readFrom_append_opening, Nat.zero_add]

end Lexeme

end CommandShell
