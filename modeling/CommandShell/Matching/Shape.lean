import CommandShell.Text.Cut
import CommandShell.Text.Name

/-!
# Shapes of tokens

How a token presents itself to the matcher: as a flag `-name`, as an assignment `name=value`, or
as neither. The name has to be an identifier; the value is everything after the first `=`.

## Main definitions

* `Shape` — the shapes
* `Shape.of` — the shape of a token

## Main results

* `Shape.of_flag`, `Shape.of_assignment` — the written forms of the two shapes are read back
-/

namespace CommandShell

/-- How a token presents itself. -/
inductive Shape
  /-- `-name` -/
  | flag (name : String)
  /-- `name=value` -/
  | assignment (name value : String)
  /-- Any other token. -/
  | bare
  deriving DecidableEq, Repr

namespace Shape

/-- The name of a flag. -/
def flagName? (cs : List Char) : Option (List Char) :=
  (Text.dropOpening? ['-'] cs).filter Text.isIdentifier

/-- The name and the value of an assignment. -/
def assigned? (cs : List Char) : Option (List Char × List Char) :=
  (Text.cutFirst? '=' cs).filter fun parts => Text.isIdentifier parts.1

/-- The shape of a token. -/
def of (token : String) : Shape :=
  match flagName? token.toList, assigned? token.toList with
  | some name, _ => .flag (.ofList name)
  | none, some (name, value) => .assignment (.ofList name) (.ofList value)
  | none, none => .bare

theorem cutFirst?_identifier {name : List Char} (h : Text.isIdentifier name = true)
    (value : List Char) : Text.cutFirst? '=' (name ++ '=' :: value) = some (name, value) := by
  have hall := Text.all_isNameChar_of_isIdentifier h
  clear h
  induction name with
  | nil => simp [Text.cutFirst?]
  | cons c cs ih =>
    rw [List.all_cons, Bool.and_eq_true] at hall
    have hc : c ≠ '=' := by
      rintro rfl
      exact absurd hall.1 (by simp [Text.isNameChar_equals])
    simp [Text.cutFirst?, hc, ih hall.2]

/-- `-name` is read as the flag of an identifier. -/
theorem of_flag {name : List Char} (h : Text.isIdentifier name = true) :
    of (.ofList ('-' :: name)) = .flag (.ofList name) := by
  simp [of, flagName?, Text.dropOpening?, Option.filter_some, h]

/-- `name=value` is read as the assignment to an identifier. -/
theorem of_assignment {name : List Char} (h : Text.isIdentifier name = true) (value : List Char) :
    of (.ofList (name ++ '=' :: value)) = .assignment (.ofList name) (.ofList value) := by
  have hflag : flagName? (name ++ '=' :: value) = none := by
    cases name with
    | nil => simp [Text.isIdentifier] at h
    | cons c cs =>
      have hc : c ≠ '-' := by
        rintro rfl
        simp [Text.isIdentifier] at h
      simp [flagName?, Text.dropOpening?, hc]
  simp [of, hflag, assigned?, cutFirst?_identifier h, Option.filter_some, h]

end Shape

end CommandShell
