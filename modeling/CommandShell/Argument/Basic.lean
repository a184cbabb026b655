import CommandShell.Argument.Type
import CommandShell.Grammar.Error

/-!
# Arguments

The arguments that a command declares: names with types, defaults and descriptions. The names of
one command's arguments are distinct, so an argument is referred to by its place in the list.

## Main definitions

* `Argument` — a declared argument
* `ArgId` — the place of an argument among the arguments of its command
* `ArgumentSet` — arguments with distinct names, with `ArgumentSet.push` and `ArgumentSet.idOf?`

## Main results

* `ArgumentSet.get?_of_idOf?_eq_some` — the place of a name holds the argument of that name
-/

namespace CommandShell

/-- A declared argument. Without a default it is mandatory; a description takes the place of the
type's own help. -/
structure Argument where
  name : String
  type : ArgType
  default? : Option Value := none
  description? : Option String := none

namespace Argument

/-- The argument needs a value from the line. -/
def isMandatory (arg : Argument) : Bool := arg.default?.isNone

/-- The help text of the argument while `typed` is typed. -/
def help (arg : Argument) (typed : String := "") : String :=
  arg.description?.getD (arg.type.help typed)

end Argument

/-- The place of an argument among the arguments of its command, from 0. -/
abbrev ArgId := Nat

/-- The arguments of a command, in order of declaration and with distinct names. -/
structure ArgumentSet where
  toList : List Argument
  nodup : (toList.map Argument.name).Nodup

namespace ArgumentSet

def empty : ArgumentSet := ⟨[], by simp⟩

instance : EmptyCollection ArgumentSet := ⟨empty⟩

instance : Inhabited ArgumentSet := ⟨∅⟩

def names (args : ArgumentSet) : List String := args.toList.map Argument.name

def size (args : ArgumentSet) : Nat := args.toList.length

/-- The argument at a place. -/
def get? (args : ArgumentSet) (id : ArgId) : Option Argument := args.toList[id]?

/-- The place of the argument with a name. -/
def idOf? (args : ArgumentSet) (name : String) : Option ArgId :=
  args.toList.findIdx? (·.name == name)

/-- The argument with a name. -/
def find? (args : ArgumentSet) (name : String) : Option Argument :=
  args.toList.find? (·.name == name)

/-- The arguments with one more at the end, unless its name is taken. -/
def push (args : ArgumentSet) (arg : Argument) : Except GrammarError ArgumentSet :=
  if h : arg.name ∈ args.names then .error (.duplicateArgument arg.name)
  else .ok {
    toList := args.toList ++ [arg]
    nodup := by
      rw [List.map_append, List.nodup_append]
      refine ⟨args.nodup, by simp, fun a ha b hb hab => h ?_⟩
      rw [List.map_singleton, List.mem_singleton] at hb
      exact hb ▸ hab ▸ ha }

/-- The arguments of a list, unless two of them share a name. -/
def ofList (list : List Argument) : Except GrammarError ArgumentSet :=
  list.foldlM push ∅

theorem get?_of_idOf?_eq_some {args : ArgumentSet} {name : String} {id : ArgId}
    (h : args.idOf? name = some id) : ∃ arg, args.get? id = some arg ∧ arg.name = name := by
  rw [idOf?, List.findIdx?_eq_some_iff_getElem] at h
  obtain ⟨hlt, hname, -⟩ := h
  exact ⟨args.toList[id], by simp [get?, hlt], by simpa using hname⟩

theorem idOf?_eq_none_iff {args : ArgumentSet} {name : String} :
    args.idOf? name = none ↔ name ∉ args.names := by
  simp [idOf?, names]

end ArgumentSet

end CommandShell
