import CommandShell.Proofs.Grammar.Compiled
import CommandShell.Proofs.Grammar.Limit
import CommandShell.Shell.Help

/-!
# Declared commands

A command has the name and the handler of its declaration, and its grammar begins with its name. The
limit on nesting decides whether a declaration gives a command, never which one.

## Main results

* `Declaration.command_eq_ok` — what a command has from its declaration
* `Declaration.map_name_of_mapM` — the names of commands are those of their declarations
* `Declaration.command_of_widens` — a wider limit changes nothing about a command
* `Declaration.command_eq_of_isOk` — one bracket deep, a declaration gives the same command under
  every limit
-/

namespace CommandShell

namespace ArgumentSet

variable {args args' : ArgumentSet} {list : List Argument}

theorem toList_of_foldlM_push (h : list.foldlM push args = .ok args') :
    args'.toList = args.toList ++ list := by
  induction list generalizing args with
  | nil =>
    cases h
    exact (List.append_nil _).symm
  | cons arg list ih =>
    rw [List.foldlM_cons] at h
    obtain ⟨pushed, hpush, h⟩ := bind_eq_ok_iff.mp h
    unfold push at hpush
    split at hpush
    · cases hpush
    · cases hpush
      rw [ih h, List.append_assoc, List.singleton_append]

/-- The arguments of a list are those in the list. -/
theorem toList_of_ofList (h : ofList list = .ok args) : args.toList = list :=
  toList_of_foldlM_push h

end ArgumentSet

namespace Declaration

variable {declaration : Declaration} {command : Command} {signature : Signature}
  {limit wider : Nat}

/-- The signature of a declaration has its arguments. If it is declared by a grammar, it is read
from that, which begins with the name; else it is made from the names. -/
theorem signature_eq_ok (h : declaration.signature limit = .ok signature) :
    signature.args.toList = declaration.args ∧
      match declaration.grammar with
      | some source => Signature.ofSource source signature.args limit = .ok signature ∧
          signature.grammar.command = declaration.name
      | none => signature.grammar = .ofNames declaration.name signature.args.names := by
  obtain ⟨args, hargs, h⟩ := bind_eq_ok_iff'.mp h
  rw [← ArgumentSet.toList_of_ofList (mapError_eq_ok_iff.mp hargs)]
  cases hsource : declaration.grammar with
  | some source =>
    rw [hsource] at h
    obtain ⟨parsed, hparsed, h⟩ := bind_eq_ok_iff'.mp h
    have hread : Signature.ofSource source args limit = .ok parsed :=
      mapError_eq_ok_iff.mp hparsed
    obtain ⟨grammar, -, hbuild⟩ := bind_eq_ok_iff'.mp hread
    have hsame : parsed.args = args := (Signature.ofGrammar_eq_ok hbuild).2
    split at h
    · rename_i hname
      cases h
      rw [← hsame] at hread ⊢
      exact ⟨rfl, hread, hname⟩
    · cases h
  | none =>
    rw [hsource] at h
    obtain ⟨hgrammar, hsame⟩ := Signature.ofGrammar_eq_ok (mapError_eq_ok_iff.mp h)
    rw [hgrammar, hsame]
    exact ⟨rfl, rfl⟩

/-- A command has the name, the handler and the arguments of its declaration, and its grammar begins
with its name. -/
theorem command_eq_ok (h : declaration.command limit = .ok command) :
    command.name = declaration.name ∧ command.handler = declaration.handler ∧
      command.spec.signature.args.toList = declaration.args ∧
      command.spec.signature.grammar.command = declaration.name := by
  obtain ⟨signature, hsignature, rfl⟩ := map_eq_ok_iff.mp h
  obtain ⟨hargs, hgrammar⟩ := signature_eq_ok hsignature
  refine ⟨rfl, rfl, hargs, ?_⟩
  cases hsource : declaration.grammar with
  | some source =>
    rw [hsource] at hgrammar
    exact hgrammar.2
  | none =>
    rw [hsource] at hgrammar
    exact congrArg Grammar.command hgrammar

/-- Commands have the names of their declarations. -/
theorem map_name_of_mapM {declarations : List Declaration} {commands : List Command}
    (h : declarations.mapM (·.command limit) = .ok commands) :
    commands.map Command.name = declarations.map Declaration.name := by
  induction declarations generalizing commands with
  | nil =>
    cases h
    rfl
  | cons declaration declarations ih =>
    rw [List.mapM_cons] at h
    obtain ⟨command, hcommand, h⟩ := bind_eq_ok_iff.mp h
    obtain ⟨rest, hrest, h⟩ := bind_eq_ok_iff.mp h
    cases h
    rw [List.map_cons, List.map_cons, (command_eq_ok hcommand).1, ih hrest]

theorem signature_of_widens (hw : Grammar.Widens wider limit)
    (h : declaration.signature limit = .ok signature) :
    declaration.signature wider = .ok signature := by
  obtain ⟨args, hargs, h⟩ := bind_eq_ok_iff'.mp h
  refine bind_eq_ok_iff'.mpr ⟨args, hargs, ?_⟩
  cases hsource : declaration.grammar with
  | some source =>
    rw [hsource] at h
    obtain ⟨parsed, hparsed, h⟩ := bind_eq_ok_iff'.mp h
    obtain ⟨grammar, hparse, hbuild⟩ := bind_eq_ok_iff'.mp (mapError_eq_ok_iff.mp hparsed)
    have hwider : Signature.ofSource source args wider = .ok parsed :=
      bind_eq_ok_iff'.mpr ⟨grammar, Grammar.parse_of_widens hw hparse, hbuild⟩
    exact bind_eq_ok_iff'.mpr ⟨parsed, mapError_eq_ok_iff.mpr hwider, h⟩
  | none =>
    rw [hsource] at h
    exact h

/-- A declaration that gives a command under a limit gives the same one under a wider limit. -/
theorem command_of_widens (hw : Grammar.Widens wider limit)
    (h : declaration.command limit = .ok command) : declaration.command wider = .ok command := by
  obtain ⟨signature, hsignature, heq⟩ := map_eq_ok_iff.mp h
  exact map_eq_ok_iff.mpr ⟨signature, signature_of_widens hw hsignature, heq⟩

/-- A declaration whose brackets do not nest gives the same command under every limit. -/
theorem command_eq_of_isOk (h : (declaration.command 1).isOk = true) (limit : Nat) :
    declaration.command limit = declaration.command 1 := by
  obtain ⟨command, hcommand⟩ := exists_eq_ok_of_isOk h
  rw [hcommand]
  exact command_of_widens (Grammar.widens_one limit) hcommand

end Declaration

end CommandShell
