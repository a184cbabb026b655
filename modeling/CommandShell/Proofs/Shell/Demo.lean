import CommandShell.Demo
import CommandShell.Program.Run
import CommandShell.Proofs.Matching.Leading
import CommandShell.Proofs.Shell.Registration

/-!
# The demonstration shell

Whatever its settings, the shell with the demonstration commands exists. All its commands but
`tenant` leave the candidate cache alone, and `tenant` adds the name it is given, which is that of
its first argument. So lines do not influence one another, and may come in any order.

## Main definitions

* `Demo.tenantGiven?` — the name that a line gives to `tenant`
* `Demo.Serves` — a shell whose commands are those of every shell and those of the demonstration

## Main results

* `Demo.exists_demoShell` — every shell with the demonstration commands exists
* `Demo.str?_tname_of_bind` — the name of a tenant is its first argument
* `Demo.Serves.steady` — what lines answer and add
* `Demo.lines_independent` — lines do not influence one another
-/

namespace CommandShell.Demo

open Shell (Call builtins)

variable {config : ShellConfig} {shell : Shell} {declarations : List Declaration}
  {declaration : Declaration} {held : List Command} {command : Command} {line name : String}

/-! ### The commands -/

/-- The command that remembers tenants. -/
def tenant : Declaration := commands.head (List.cons_ne_nil _ _)

/-- The shell has the commands of every shell and those of the demonstration, and a list of
tenants. -/
structure Serves (shell : Shell) : Prop where
  declared : ∀ name command, shell.registry.get? name = some command → command.name = name ∧
    ∃ declaration ∈ builtins ++ commands, declaration.command 1 = .ok command
  tenants : tenantsKey ∈ shell.cache.keys

theorem registerAll_of_foldlM {next : Shell}
    (h : declarations.foldlM Shell.register shell = .ok next) :
    registerAll shell declarations = (next, none) := by
  induction declarations generalizing shell with
  | nil =>
    cases h
    rfl
  | cons declaration declarations ih =>
    rw [List.foldlM_cons] at h
    obtain ⟨mid, hregister, h⟩ := bind_eq_ok_iff.mp h
    rw [registerAll, hregister]
    exact ih h

theorem contains_seedTenants (shell : Shell) :
    (seedTenants shell).cache.contains tenantsKey = true := by
  unfold seedTenants
  split
  · assumption
  · rw [Dict.contains, Dict.get?_put, if_pos rfl]
    rfl

/-- The first list of tenants changes nothing about the commands. -/
theorem tracks_seedTenants (h : Shell.Tracks config shell held) :
    Shell.Tracks config (seedTenants shell) held := by
  unfold seedTenants
  split
  · exact h
  · exact ⟨h.config_eq, h.rejects_eq, h.holds, h.declared⟩

/-- Whatever its settings, the shell with the demonstration commands exists. -/
theorem exists_demoShell (config : ShellConfig) :
    ∃ shell, Program.demoShell config = .ok shell ∧ Serves shell := by
  have hstart := Shell.ofConfig_eq config
  have hbuiltins := (Shell.foldlM_register_builtins config).2
  have htracks := (Shell.tracks_bare config).afterAll (builtins.map .register)
  rw [List.nil_append] at htracks
  generalize (Shell.bare config).afterAll (builtins.map .register) = start at hstart htracks
  generalize (Shell.bare config).addedAll (builtins.map .register) = held at hbuiltins htracks
  have hseeded := tracks_seedTenants htracks
  have hkeys : (seedTenants start).registry.commands.keys = ["help", "exit"] := by
    apply hseeded.holds.names_eq.trans
    rw [Declaration.map_name_of_mapM hbuiltins]
    rfl
  have hfree : ∀ declaration ∈ commands,
      (seedTenants start).registry.get? declaration.name = none := by
    intro declaration hmem
    rw [Registry.get?, Dict.get?_eq_none_iff, hkeys]
    revert declaration
    decide
  obtain ⟨hfold, hmap⟩ := Shell.foldlM_register commands (seedTenants start)
    (by decide +kernel) (by decide) hfree
  refine ⟨(seedTenants start).afterAll (commands.map .register), ?made, ?declared, ?tenants⟩
  case made =>
    refine bind_eq_ok_iff'.mpr ⟨start, hstart, ?_⟩
    rw [register, registerAll_of_foldlM hfold]
  case declared =>
    intro name command hget
    obtain ⟨hmem, hname⟩ := (hseeded.afterAll (commands.map .register)).holds.mem hget
    refine ⟨hname, ?_⟩
    rcases List.mem_append.mp hmem with hmem | hmem
    · obtain ⟨declaration, hdeclaration, hcommand⟩ := exists_of_mem_mapM hbuiltins hmem
      exact ⟨declaration, List.mem_append_left _ hdeclaration, hcommand⟩
    · obtain ⟨declaration, hdeclaration, hcommand⟩ := exists_of_mem_mapM hmap hmem
      exact ⟨declaration, List.mem_append_right _ hdeclaration, hcommand⟩
  case tenants =>
    rw [← Dict.contains_iff, Dict.contains,
      Shell.get?_cache_afterAll_register (by decide) commands]
    exact contains_seedTenants start

/-! ### What the commands do -/

/-- All commands but `tenant` answer without touching the candidate cache. -/
theorem handler_cases (h : declaration ∈ builtins ++ commands) :
    declaration = tenant ∨
      declaration.name ≠ "tenant" ∧ ∃ answer, declaration.handler = .pure answer := by
  simp only [builtins, commands, List.cons_append, List.nil_append, List.mem_cons,
    List.not_mem_nil, or_false] at h
  rcases h with rfl | rfl | rfl | rfl | rfl | rfl | rfl
  case inr.inr.inl => exact .inl rfl
  all_goals exact .inr ⟨by decide, _, rfl⟩

/-- The name of a tenant is its first argument, the text behind `tname=` if it begins so. -/
theorem str?_tname_of_bind {tokens : List Token} {bindings : Bindings}
    (hcommand : tenant.command 1 = .ok command)
    (h : command.spec.signature.bind tokens = .ok bindings) :
    ∃ first rest, tokens = first :: rest ∧
      (bindings.get? "tname").bind Value.str? = some (Sentence.ownText "tname" first.value) := by
  have hview : (tenant.command 1).toOption.map (·.spec.signature.grammar.rules) =
      some [.leaf .required 0 "tname" ⟨7, 12⟩,
        .nest (.group .zeroOrOne) 1 [.leaf .named 0 "tid" ⟨14, 17⟩] ⟨13, 19⟩,
        .finish 2 (.point 19)] := by
    decide +kernel
  rw [hcommand] at hview
  have hargs : command.spec.signature.args.toList = tenant.args :=
    (Declaration.command_eq_ok hcommand).2.2.1
  have hid : command.spec.signature.args.idOf? "tname" = some 0 := by
    rw [ArgumentSet.idOf?, hargs]
    rfl
  obtain ⟨first, rest, value, htokens, hvalue, hget⟩ :=
    Signature.exists_leading_of_bind (Option.some.inj hview) hid (by decide) h
  refine ⟨first, rest, htokens, ?_⟩
  rw [ArgumentSet.value?, ArgumentSet.get?, hargs] at hvalue
  cases hvalue
  rw [hget]
  rfl

/-- The name of a tenant is remembered. -/
theorem runTenant_eq {inv : Invocation} (h : inv.str? "tname" = some name)
    (cache : CandidateCache) :
    runTenant inv cache = (.ok (.output (bindingsText inv)), cache.add tenantsKey name) := by
  rw [runTenant, h]

/-! ### What lines add -/

/-- The name that a line gives to `tenant`, if it is executed without a failure. -/
def tenantGiven? (shell : Shell) (line : String) : Option String :=
  match Line.tokens? line with
  | .ok (head :: first :: _) =>
    if head.value = "tenant" ∧ (shell.execute line).1.isOk then
      some (Sentence.ownText "tname" first.value)
    else none
  | _ => none

/-- The candidates that a line adds. -/
def notes (shell : Shell) (line : String) : List (String × String) :=
  (tenantGiven? shell line).toList.map (tenantsKey, ·)

theorem tenantGiven?_of_error {e : ShellError} (h : (shell.execute line).1 = .error e) :
    tenantGiven? shell line = none := by
  unfold tenantGiven?
  split
  · rw [h]
    exact if_neg fun hok => by cases hok.2
  · rfl

/-- A line that names another command adds no tenant. -/
theorem tenantGiven?_of_ne {head : Token} {rest : List Token}
    (htokens : Line.tokens? line = .ok (head :: rest)) (hhead : head.value ≠ "tenant") :
    tenantGiven? shell line = none := by
  rw [tenantGiven?, htokens]
  cases rest with
  | nil => rfl
  | cons first rest => exact if_neg fun hboth => hhead hboth.1

/-- A line that `tenant` answers adds its first argument. -/
theorem tenantGiven?_of_ok {head first : Token} {rest : List Token} {outcome : Outcome}
    (htokens : Line.tokens? line = .ok (head :: first :: rest)) (hhead : head.value = "tenant")
    (hok : (shell.execute line).1 = .ok outcome) :
    tenantGiven? shell line = some (Sentence.ownText "tname" first.value) := by
  rw [tenantGiven?, htokens, hok]
  exact if_pos ⟨hhead, rfl⟩

theorem under_notes (shell : Shell) (lines : List String) :
    CandidateCache.under tenantsKey (lines.flatMap (notes shell)) =
      lines.filterMap (tenantGiven? shell) := by
  induction lines with
  | nil => rfl
  | cons line lines ih =>
    rw [List.flatMap_cons, CandidateCache.under, List.filter_append, List.map_append]
    rw [CandidateCache.under] at ih
    rw [ih, List.filterMap_cons, notes]
    cases tenantGiven? shell line <;> simp

/-- What lines answer does not depend on the candidate cache, and they add the names of tenants. -/
theorem Serves.steady (h : Serves shell) : shell.Steady (notes shell) := by
  constructor
  · intro line cache
    rcases Shell.execute_cases shell line with ⟨htokens, heq⟩ | ⟨e, heq⟩ |
      ⟨head, rest, command, inv, htokens, hget, hbind, heq⟩
    · have hself : shell.execute line = (.ok .silent, shell) := heq shell.cache
      rw [heq, hself, notes, tenantGiven?, htokens]
      rfl
    · have hself : shell.execute line = (.error e, shell) := heq shell.cache
      rw [heq, hself, notes, tenantGiven?_of_error (congrArg Prod.fst hself)]
      rfl
    · obtain ⟨hname, declaration, hdeclaration, hcommand⟩ := h.declared _ _ hget
      obtain ⟨hdeclared, hhandler, -⟩ := Declaration.command_eq_ok hcommand
      have hhead : head.value = declaration.name := hname.symm.trans hdeclared
      rw [hhandler] at heq
      rcases handler_cases hdeclaration with rfl | ⟨hother, answer, hpure⟩
      · obtain ⟨first, more, rfl, hgiven⟩ := str?_tname_of_bind hcommand hbind
        have hrun (cache : CandidateCache) : (shell.withCache cache).execute line =
            (.ok (.output (bindingsText inv)),
              shell.withCache (cache.add tenantsKey (Sentence.ownText "tname" first.value))) := by
          have hadds : tenant.handler inv cache = _ := runTenant_eq hgiven cache
          rw [heq, hadds]
        have hself : (shell.execute line).1 = .ok (.output (bindingsText inv)) :=
          congrArg Prod.fst (hrun shell.cache)
        rw [hrun, hself, notes, tenantGiven?_of_ok htokens hhead hself]
        rfl
      · rw [hpure] at heq
        have hself : (shell.execute line).1 = answer inv := congrArg Prod.fst (heq shell.cache)
        rw [← hhead] at hother
        rw [heq, hself, notes, tenantGiven?_of_ne htokens hother]
        rfl
  · intro line e herror
    rw [notes, tenantGiven?_of_error herror]
    rfl

/-- For any settings, lines of the demonstration shell do not influence one another: each has the
same outcome whatever lines were executed before it. In any order they leave the same keys in the
candidate cache, and under each the same candidates. The tenants that were there stay in front, and
the names that lines give follow, each once. -/
theorem lines_independent (config : ShellConfig) :
    ∃ shell, Program.demoShell config = .ok shell ∧
      (∀ lines line, ((shell.executeAll lines).execute line).1 = (shell.execute line).1) ∧
      (∀ lines lines' : List String, lines.Perm lines' →
        (shell.executeAll lines).cache.keys = (shell.executeAll lines').cache.keys ∧
        ∀ key item, item ∈ (shell.executeAll lines).cache.list key ↔
          item ∈ (shell.executeAll lines').cache.list key) ∧
      ∀ lines, (shell.executeAll lines).cache.list tenantsKey = shell.cache.list tenantsKey ++
        ((lines.filterMap (tenantGiven? shell)).filter
          (· ∉ shell.cache.list tenantsKey)).eraseDups := by
  obtain ⟨shell, hshell, hserves⟩ := exists_demoShell config
  have hsteady := hserves.steady
  have hkeys (lines : List String) : (shell.executeAll lines).cache.keys = shell.cache.keys := by
    apply hsteady.keys_executeAll
    intro line _ note hnote
    obtain ⟨name, -, rfl⟩ := List.mem_map.mp hnote
    exact hserves.tenants
  refine ⟨shell, hshell, hsteady.execute_executeAll, fun lines lines' hperm => ⟨?_, ?_⟩, ?_⟩
  · rw [hkeys, hkeys]
  · exact fun key item => hsteady.mem_list_executeAll_iff_of_perm hperm
  · intro lines
    rw [hsteady.list_executeAll, under_notes]

/-- Two clients name tenants, one of them with a name that is known, the other with a new name and
a line that fails. -/
theorem lines_independent_tenants :
    ∃ shell, Program.demoShell {} = .ok shell ∧
      (shell.executeAll ["tenant MULTI", "tenant tname=new", "tenant"]).cache.keys =
        (shell.executeAll ["tenant", "tenant tname=new", "tenant MULTI"]).cache.keys ∧
      (shell.executeAll ["tenant MULTI", "tenant tname=new", "tenant"]).cache.list tenantsKey =
        ["COMMON", "DEFAULT", "SINGLE", "MULTI", "new"] := by
  obtain ⟨shell, hshell, -, hperm, hlist⟩ := lines_independent {}
  refine ⟨shell, hshell, (hperm _ _ (by decide)).1, ?_⟩
  have hview : (Program.demoShell {}).toOption.map (fun shell =>
      (shell.cache.list tenantsKey,
        ["tenant MULTI", "tenant tname=new", "tenant"].filterMap (tenantGiven? shell))) =
      some (defaultTenants, ["MULTI", "new"]) := by
    decide +kernel
  rw [hshell, Except.toOption, Option.map_some, Option.some.injEq, Prod.mk.injEq] at hview
  rw [hlist, hview.1, hview.2]
  decide

end CommandShell.Demo
