import CommandShell.Dict
import CommandShell.Json
import CommandShell.Text.Integer

/-!
# Argument values

What an argument is bound to: an integer, a text, a map of texts, or a list of values, which
appears once an argument is matched a second time.

## Main definitions

* `Value` — the values
* `Value.items` — the items of a list, or the value itself
* `Repeat`, `Value.accumulate` — how a further match of an argument joins the earlier ones
* `Value.text` — the text of a value
* `Value.toJson`, `Value.ofJson?` — values as JSON
-/

namespace CommandShell

/-- The value of an argument. -/
inductive Value
  | int (n : Int)
  | str (s : String)
  | map (entries : Dict String)
  | list (items : List Value)

instance : Inhabited Value := ⟨.int 0⟩

/-- How repeated matches of one argument combine. -/
inductive Repeat
  /-- The second match makes a list, which later ones extend. -/
  | append
  /-- Maps take over each other's entries, the later ones winning. -/
  | merge
  deriving DecidableEq, Repr

namespace Value

/-! ### Equality -/

mutual

def decideEq : (a b : Value) → Decidable (a = b)
  | int m, int n => decidable_of_iff (m = n) (by simp)
  | str s, str t => decidable_of_iff (s = t) (by simp)
  | map d, map e => decidable_of_iff (d = e) (by simp)
  | list xs, list ys =>
    match decideEqItems xs ys with
    | isTrue h => isTrue (by rw [h])
    | isFalse h => isFalse (by simpa using h)
  | int _, str _ | int _, map _ | int _, list _ | str _, int _ | str _, map _ | str _, list _
  | map _, int _ | map _, str _ | map _, list _ | list _, int _ | list _, str _ | list _, map _ =>
    isFalse (by simp)

def decideEqItems : (xs ys : List Value) → Decidable (xs = ys)
  | [], [] => isTrue rfl
  | [], _ :: _ | _ :: _, [] => isFalse (by simp)
  | x :: xs, y :: ys =>
    match decideEq x y, decideEqItems xs ys with
    | isTrue h, isTrue hs => isTrue (by rw [h, hs])
    | isFalse h, _ => isFalse (by simp [h])
    | _, isFalse hs => isFalse (by simp [hs])

end

instance : DecidableEq Value := decideEq

/-! ### Views -/

def int? : Value → Option Int
  | int n => some n
  | _ => none

def str? : Value → Option String
  | str s => some s
  | _ => none

def map? : Value → Option (Dict String)
  | map entries => some entries
  | _ => none

def list? : Value → Option (List Value)
  | list items => some items
  | _ => none

/-- The items of a list, or the value itself as the only item. -/
def items : Value → List Value
  | list items => items
  | value => [value]

/-! ### Repeated matches -/

/-- The value of an argument that was matched `matched` times, at least once, and is now matched
with `next`. A list counts as the list of earlier matches only from the second match on, so that
a first match which is itself a list stays one item. -/
def accumulate (current next : Value) (matched : Nat) (mode : Repeat) : Value :=
  match mode, current, next with
  | .merge, map entries, map incoming => map (entries.putAll incoming.entries)
  | _, list items, next => if matched > 1 then list (items ++ [next]) else list [current, next]
  | _, current, next => list [current, next]

/-! ### Texts -/

mutual

/-- The text of a value: a map shows as `{k=v, …}`, a list as `[v, …]`. -/
def text : Value → String
  | int n => toString n
  | str s => s
  | map entries =>
    "\x7b" ++ ", ".intercalate (entries.entries.map fun (key, value) => key ++ "=" ++ value) ++
      "\x7d"
  | list items => "[" ++ ", ".intercalate (texts items) ++ "]"

def texts : List Value → List String
  | [] => []
  | value :: values => text value :: texts values

end

/-! ### JSON -/

mutual

/-- The value as JSON: a map is an object, a list is an array. -/
def toJson : Value → Json
  | int n => .int n
  | str s => .str s
  | map entries => .obj (entries.entries.map fun (key, value) => (key, .str value))
  | list items => .arr (toJsonItems items)

def toJsonItems : List Value → List Json
  | [] => []
  | value :: values => toJson value :: toJsonItems values

end

/-- The text in a JSON string. -/
def textOfJson? : Json → Option String
  | .str s => some s
  | _ => none

mutual

/-- The value that a JSON value stands for, if it is an integer of 64 bits, a string, an object of
strings, or an array of such values. -/
def ofJson? : Json → Option Value
  | .int n => if Text.fitsWord n then some (int n) else none
  | .str s => some (str s)
  | .obj entries =>
    (entries.mapM fun entry => (textOfJson? entry.2).map (entry.1, ·)).map (map <| Dict.ofList ·)
  | .arr items => (ofJsonItems? items).map list
  | .null | .bool _ | .number _ => none

/-- The values that the items of a JSON array stand for. -/
def ofJsonItems? : List Json → Option (List Value)
  | [] => some []
  | item :: items => (ofJson? item).bind fun value => (ofJsonItems? items).map (value :: ·)

end

end Value

end CommandShell
