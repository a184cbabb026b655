import CommandShell.Text.Cut
import CommandShell.Text.Lines

/-!
# Spans and diagnostics

A span marks a stretch of a source text, a grammar or an input line, by the byte offsets of its
two ends. A diagnostic shows the first line of the source with carets under the span.

## Main definitions

* `Span` — a stretch of a text, with `Span.join` and `Span.slice`
* `Span.column`, `Span.caretCount` — where the carets go, counted in characters
* `Span.snippet` — the source with carets under the span
* `Span.diagnostic` — the snippet with a message, a column and a gutter
-/

namespace CommandShell

/-- A stretch of a text, from the byte offset `start` up to, not including, `stop`. -/
structure Span where
  start : Nat
  stop : Nat
  deriving DecidableEq, Repr, Inhabited

namespace Span

/-- The empty span at an offset. -/
def point (offset : Nat) : Span := ⟨offset, offset⟩

def length (span : Span) : Nat := span.stop - span.start

def isEmpty (span : Span) : Bool := span.start == span.stop

/-- The least span that covers both. -/
def join (a b : Span) : Span := ⟨min a.start b.start, max a.stop b.stop⟩

/-- The characters of `source` that the span marks: none if an end lies outside of the text or
inside a character, or if the ends are out of order. -/
def sliceChars (span : Span) (source : List Char) : List Char :=
  if span.start ≤ span.stop then
    match Text.cutAt? span.start source with
    | some (_, rest) => ((Text.cutAt? (span.stop - span.start) rest).map Prod.fst).getD []
    | none => []
  else []

/-- The text that the span marks in `source`. -/
def slice (span : Span) (source : String) : String := .ofList (span.sliceChars source.toList)

theorem sliceChars_append (before marked after : List Char) :
    sliceChars ⟨Text.byteLength before, Text.byteLength (before ++ marked)⟩
      (before ++ (marked ++ after)) = marked := by
  rw [sliceChars, if_pos (by simp)]
  simp only [Text.cutAt?_append]
  rw [show Text.byteLength (before ++ marked) - Text.byteLength before = Text.byteLength marked by
    simp]
  simp [Text.cutAt?_append]

/-- How many characters of the first line stand before the span: none if the span starts inside
a character, and all of the line if it starts behind it. -/
def column (span : Span) (source : String) : Nat :=
  let line := Text.firstLine source.toList
  -- Characters are counted, not bytes, so that carets stand under what they mark.
  match Text.cutAt? (min span.start (Text.byteLength line)) line with
  | some (before, _) => before.length
  | none => 0

/-- How many carets mark the span: one per character, and at least one. -/
def caretCount (span : Span) (source : String) : Nat :=
  max 1 (span.sliceChars source.toList).length

/-- The line of carets that marks the span below the first line of `source`. -/
def caretLine (span : Span) (source : String) : String :=
  .ofList (List.replicate (span.column source) ' ' ++ List.replicate (span.caretCount source) '^')

/-- The first line of `source` with carets under the span. -/
def snippet (span : Span) (source : String) : String :=
  String.ofList (Text.firstLine source.toList) ++ "\n" ++ span.caretLine source

/-- An error message over the first line of `source`, with the span's column and carets. -/
def diagnostic (span : Span) (source message : String) : String :=
  "error: " ++ message ++ "\n  --> column " ++ toString (span.column source + 1) ++
    "\n   |\n   | " ++ String.ofList (Text.firstLine source.toList) ++
    "\n   | " ++ span.caretLine source

end Span

end CommandShell
