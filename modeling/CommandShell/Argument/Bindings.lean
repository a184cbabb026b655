import CommandShell.Argument.Basic

/-!
# Bindings

The values of a command's arguments during one match of a line. Every argument begins with its
default, its first match replaces that, and further matches combine as its type says.

## Main definitions

* `Slot` — an argument with its value and the number of its matches
* `Bindings` — the slots of a command's arguments, in order of declaration
* `ArgumentSet.index` — the bindings before the first match
* `Bindings.bind` — the bindings after one more match
* `Bindings.firstUnbound?` — the first argument still without a value

## Main results

* `Bindings.arguments_bind` — a match changes values, never arguments
* `Bindings.slot?_bind_of_ne` — a match of one argument changes no other
-/

namespace CommandShell

/-- An argument, its value if it has one, and how often it was matched. -/
structure Slot where
  argument : Argument
  value : Option Value
  matched : Nat

namespace Slot

/-- The slot before the first match, with the argument's default. -/
def fresh (argument : Argument) : Slot := ⟨argument, argument.default?, 0⟩

/-- The slot after one more match. -/
def bind (slot : Slot) (next : Value) : Slot :=
  let value :=
    match slot.value with
    | some current =>
      -- Before the first match, the value is the default.
      if slot.matched > 0 then current.accumulate next slot.matched slot.argument.type.repeats
      else next
    | none => next
  { slot with value := some value, matched := slot.matched + 1 }

/-- What the slot holds: its value and the number of its matches. -/
def content (slot : Slot) : Option Value × Nat := (slot.value, slot.matched)

end Slot

/-- The values of a command's arguments, in order of declaration. -/
structure Bindings where
  slots : List Slot

/-- The bindings before the first match. -/
def ArgumentSet.index (args : ArgumentSet) : Bindings := ⟨args.toList.map .fresh⟩

namespace Bindings

def slot? (bindings : Bindings) (id : ArgId) : Option Slot := bindings.slots[id]?

/-- The slot of the argument with a name. -/
def find? (bindings : Bindings) (name : String) : Option Slot :=
  bindings.slots.find? (·.argument.name == name)

/-- The bindings after one more match of an argument; an argument that does not exist changes
nothing. -/
def bind (bindings : Bindings) (id : ArgId) (value : Value) : Bindings :=
  ⟨bindings.slots.modify id (·.bind value)⟩

def get? (bindings : Bindings) (name : String) : Option Value :=
  (bindings.find? name).bind Slot.value

def value? (bindings : Bindings) (id : ArgId) : Option Value := (bindings.slot? id).bind Slot.value

/-- How often the argument with a name was matched. -/
def matched (bindings : Bindings) (name : String) : Nat :=
  ((bindings.find? name).map Slot.matched).getD 0

/-- The values bound to the argument with a name: the items of a list, or its only value. -/
def items (bindings : Bindings) (name : String) : List Value :=
  ((bindings.get? name).map Value.items).getD []

def arguments (bindings : Bindings) : List Argument := bindings.slots.map Slot.argument

/-- The names of the arguments with their values, in order of declaration. -/
def entries (bindings : Bindings) : List (String × Option Value) :=
  bindings.slots.map fun slot => (slot.argument.name, slot.value)

/-- The values, in order of declaration. -/
def values (bindings : Bindings) : List (Option Value) := bindings.slots.map Slot.value

/-- The first argument still without a value. -/
def firstUnbound? (bindings : Bindings) : Option Argument :=
  (bindings.slots.find? (·.value.isNone)).map Slot.argument

/-- The values that are there, by name. -/
def present (bindings : Bindings) : List (String × Value) :=
  bindings.entries.filterMap fun (name, value) => value.map (name, ·)

/-- The bindings as a JSON object, in order of declaration; an argument without a value is
`null`. -/
def toJson (bindings : Bindings) : Json :=
  .obj (bindings.entries.map fun (name, value) => (name, (value.map Value.toJson).getD .null))

/-- The same values and numbers of matches. -/
def sameContent (a b : Bindings) : Bool := a.slots.map Slot.content == b.slots.map Slot.content

@[simp] theorem arguments_index (args : ArgumentSet) : args.index.arguments = args.toList := by
  simp [arguments, ArgumentSet.index, Slot.fresh, Function.comp_def]

@[simp] theorem arguments_bind (bindings : Bindings) (id : ArgId) (value : Value) :
    (bindings.bind id value).arguments = bindings.arguments := by
  apply List.ext_getElem?
  intro i
  simp only [arguments, bind, List.getElem?_map, List.getElem?_modify]
  split <;> simp [Slot.bind, Function.comp_def]

theorem slot?_bind_self (bindings : Bindings) (id : ArgId) (value : Value) :
    (bindings.bind id value).slot? id = (bindings.slot? id).map (·.bind value) := by
  simp [slot?, bind]

theorem slot?_bind_of_ne (bindings : Bindings) {id other : ArgId} (value : Value)
    (h : other ≠ id) : (bindings.bind id value).slot? other = bindings.slot? other := by
  simp [slot?, bind, Ne.symm h]

end Bindings

end CommandShell
