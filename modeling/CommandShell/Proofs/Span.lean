import CommandShell.Span

/-!
# Spans between characters

A diagnostic points at a fault only if the two ends of its span lie between characters of the text.
Ends within a character would lead the carets astray. The ends of the spans that are put together
from others are ends of those, so they lie between characters as well.

## Main definitions

* `Text.IsBoundary`, `Span.LiesIn` — an offset, and the two ends of a span, between characters
* `Span.picture` — how a diagnostic shows a stretch of a text
* `Span.PointsAt` — a diagnostic points at a stretch of a text

## Main results

* `Span.LiesIn.join`, `Span.liesIn_point` — spans that are put together
* `Span.slice_of_split` — the span of a stretch of a text marks that stretch
* `Span.LiesIn.exists_pointsAt` — a diagnostic points at what a span between characters marks
-/

namespace CommandShell

namespace Text

variable {offset : Nat} {cs : List Char}

/-- The offset lies between two characters of the text, or at one of its ends. -/
def IsBoundary (offset : Nat) (cs : List Char) : Prop :=
  ∃ before, before <+: cs ∧ byteLength before = offset

theorem isBoundary_append (before after : List Char) :
    IsBoundary (byteLength before) (before ++ after) :=
  ⟨before, List.prefix_append _ _, rfl⟩

theorem isBoundary_end (cs : List Char) : IsBoundary (byteLength cs) cs :=
  ⟨cs, List.prefix_rfl, rfl⟩

theorem IsBoundary.le (h : IsBoundary offset cs) : offset ≤ byteLength cs := by
  obtain ⟨before, ⟨after, rfl⟩, rfl⟩ := h
  rw [byteLength_append]
  exact Nat.le_add_right _ _

/-- Only the empty text has no bytes. -/
theorem eq_nil_of_byteLength (h : byteLength cs = 0) : cs = [] := by
  cases cs with
  | nil => rfl
  | cons c cs =>
    have := c.utf8Size_pos
    rw [byteLength_cons] at h
    omega

end Text

namespace Span

variable {span a b : Span} {offset : Nat} {cs before marked : List Char} {text message : String}

/-- The ends of the span lie between characters of the text and are in order. -/
structure LiesIn (span : Span) (cs : List Char) : Prop where
  ordered : span.start ≤ span.stop
  start : Text.IsBoundary span.start cs
  stop : Text.IsBoundary span.stop cs

theorem liesIn_point (h : Text.IsBoundary offset cs) : (point offset).LiesIn cs :=
  ⟨Nat.le_refl _, h, h⟩

theorem liesIn_append (before marked after : List Char) :
    LiesIn ⟨Text.byteLength before, Text.byteLength (before ++ marked)⟩
      (before ++ (marked ++ after)) where
  ordered := by
    rw [Text.byteLength_append]
    exact Nat.le_add_right _ _
  start := Text.isBoundary_append _ _
  stop := by
    rw [← List.append_assoc]
    exact Text.isBoundary_append _ _

theorem LiesIn.join (ha : a.LiesIn cs) (hb : b.LiesIn cs) : (a.join b).LiesIn cs where
  ordered := by
    have := ha.ordered
    simp only [Span.join]
    omega
  start := by
    simp only [Span.join]
    rcases Nat.le_total a.start b.start with h | h
    · rw [Nat.min_eq_left h]
      exact ha.start
    · rw [Nat.min_eq_right h]
      exact hb.start
  stop := by
    simp only [Span.join]
    rcases Nat.le_total a.stop b.stop with h | h
    · rw [Nat.max_eq_right h]
      exact hb.stop
    · rw [Nat.max_eq_left h]
      exact ha.stop

/-- Of two spans in order, the least one that covers both goes from the first to the second. -/
theorem join_of_le (hstart : a.start ≤ b.start) (hstop : a.stop ≤ b.stop) :
    a.join b = ⟨a.start, b.stop⟩ := by
  rw [Span.join, Nat.min_eq_left hstart, Nat.max_eq_right hstop]

/-- The span of a stretch of the text marks that stretch. -/
theorem slice_of_split {after : List Char} (h : text.toList = before ++ (marked ++ after)) :
    slice ⟨Text.byteLength before, Text.byteLength before + Text.byteLength marked⟩ text =
      .ofList marked := by
  rw [slice, h, ← Text.byteLength_append, sliceChars_append]

/-- The span marks a stretch of the text. -/
theorem LiesIn.exists_marked (h : span.LiesIn cs) :
    ∃ before marked after, cs = before ++ (marked ++ after) ∧
      span = ⟨Text.byteLength before, Text.byteLength (before ++ marked)⟩ := by
  obtain ⟨start, stop⟩ := span
  obtain ⟨hordered, ⟨before, hbefore, hstart⟩, ⟨upto, hupto, hstop⟩⟩ := h
  dsimp only at hordered hstart hstop
  subst hstart hstop
  obtain ⟨marked, rfl⟩ : before <+: upto := by
    rcases List.prefix_or_prefix_of_prefix hbefore hupto with h | ⟨more, rfl⟩
    · exact h
    · rw [Text.byteLength_append] at hordered
      have hmore : more = [] := Text.eq_nil_of_byteLength (by omega)
      exact ⟨[], by rw [hmore, List.append_nil, List.append_nil]⟩
  obtain ⟨after, rfl⟩ := hupto
  exact ⟨before, marked, after, List.append_assoc _ _ _, rfl⟩

/-! ### Diagnostics -/

/-- How a diagnostic shows a text of one line in which a fault is marked, behind `before`: the whole
text below the number of the column, and a caret under each marked character, at least one. -/
def picture (text message : String) (before marked : List Char) : String :=
  "error: " ++ message ++ "\n  --> column " ++ toString (before.length + 1) ++
    "\n   |\n   | " ++ text ++
    "\n   | " ++ String.ofList (List.replicate before.length ' ' ++
      List.replicate (max 1 marked.length) '^')

/-- The diagnostic of a fault with the span points at `marked`, behind `before`: both ends of the
span lie between characters of the text, and that is what it shows. -/
structure PointsAt (text message : String) (span : Span) (diagnostic? : Option String)
    (before marked : List Char) : Prop where
  bounds : span.start ≤ span.stop ∧ span.stop ≤ Text.byteLength text.toList
  split : ∃ after, text.toList = before ++ (marked ++ after)
  span_eq : span = ⟨Text.byteLength before, Text.byteLength (before ++ marked)⟩
  shown : diagnostic? = some (picture text message before marked)

/-- A diagnostic points at what a span between characters marks. -/
theorem LiesIn.exists_pointsAt (h : span.LiesIn text.toList) (htext : '\n' ∉ text.toList)
    (message : String) :
    ∃ before marked,
      PointsAt text message span (some (span.diagnostic text message)) before marked := by
  obtain ⟨before, marked, after, hsplit, rfl⟩ := h.exists_marked
  refine ⟨before, marked, ⟨h.ordered, h.stop.le⟩, ⟨after, hsplit⟩, rfl, ?_⟩
  -- Neither the column nor the carets fall back to what is shown for a span within characters.
  have hcolumn : column ⟨Text.byteLength before, Text.byteLength (before ++ marked)⟩ text =
      before.length := by
    have hmin : min (Text.byteLength before) (Text.byteLength text.toList) =
        Text.byteLength before := Nat.min_eq_left h.start.le
    rw [column, Text.firstLine_of_not_mem htext]
    simp only [hmin]
    rw [hsplit, Text.cutAt?_append]
  have hcarets : caretCount ⟨Text.byteLength before, Text.byteLength (before ++ marked)⟩ text =
      max 1 marked.length := by
    rw [caretCount, hsplit, sliceChars_append]
  rw [diagnostic, caretLine, hcolumn, hcarets, Text.firstLine_of_not_mem htext,
    String.ofList_toList, picture]

end Span

end CommandShell
