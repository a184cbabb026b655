import CommandShell.Proofs.Line.Typing
import CommandShell.Proofs.Shell.Declarations
import CommandShell.Proofs.Shell.Execution

/-!
# Registered commands

What a shell knows of its commands after any calls is determined by the commands that were
registered, in the order of their registration. Its registry and its candidate cache agree on the
names, so that a command name is completed in the same way at the front of a line and behind `help`.

## Main definitions

* `Shell.Call`, `Shell.afterAll` — what a host asks of a shell, and the shell after many such calls
* `Shell.addedAll` — the commands that calls register
* `Handler.Spares` — a handler that leaves a list of the candidate cache as it is
* `Registry.Holds`, `Shell.Tracks` — a registry, and a shell, that hold these commands
* `Shell.InStep` — the candidate cache has the names of the commands

## Main results

* `Registry.Holds.insert` — one more command in a registry
* `Shell.Edit.run_register` — a registration in place registers a command or changes nothing
* `Shell.after_cases` — what a call can do to a shell
* `Shell.Tracks.afterAll`, `Shell.InStep.afterAll` — what any calls keep
* `Shell.ofConfig_eq` — every shell that settings describe exists
* `Shell.InStep.candidates_help` — a name is completed behind `help` as at the front of a line
* `Shell.registry_of_calls` — the commands, names and candidates of a shell after any calls
-/

namespace CommandShell

/-- The handler leaves the list under a key of the candidate cache as it is. -/
def Handler.Spares (handler : Handler) (key : String) : Prop :=
  ∀ inv cache, (handler inv cache).2.get? key = cache.get? key

/-! ### Registries -/

namespace Registry

variable {registry next : Registry} {added : List Command} {command : Command} {name : String}

/-- The registry holds commands that were registered in this order: their names, each where it
first appears, and under a name the last command, or the first if names may not be taken twice. -/
structure Holds (registry : Registry) (added : List Command) : Prop where
  names_eq : registry.names = (added.map Command.name).eraseDups
  get?_eq : ∀ name, registry.get? name =
    (if registry.rejectsDuplicates then added else added.reverse).find? (·.name = name)

theorem holds_empty (rejects : Bool) : (empty rejects).Holds [] where
  names_eq := rfl
  get?_eq name := by cases rejects <;> rfl

/-- A command that is registered is held. -/
theorem Holds.mem (h : registry.Holds added) (hget : registry.get? name = some command) :
    command ∈ added ∧ command.name = name := by
  rw [h.get?_eq] at hget
  have hmem := List.mem_of_find?_eq_some hget
  constructor
  · split at hmem
    · exact hmem
    · exact List.mem_reverse.mp hmem
  · simpa using List.find?_some hget

/-- One more command is held behind the others. -/
theorem Holds.insert (h : registry.Holds added) (hinsert : registry.insert command = .ok next) :
    next.Holds (added ++ [command]) := by
  unfold Registry.insert at hinsert
  split at hinsert
  · cases hinsert
  · rename_i hfree
    cases hinsert
    constructor
    · have hnames := h.names_eq
      rw [names] at hnames ⊢
      rw [Dict.keys_put, hnames, List.map_append, List.map_singleton, eraseDups_concat]
      simp only [List.mem_eraseDups]
    · intro name
      have hget := h.get?_eq name
      rw [get?] at hget ⊢
      rw [Dict.get?_put, hget]
      dsimp only
      by_cases hrejects : registry.rejectsDuplicates = true
      · have hnone : registry.get? command.name = none := by
          simpa [hrejects, Dict.contains, get?] using hfree
        rw [h.get?_eq, if_pos hrejects] at hnone
        rw [if_pos hrejects, if_pos hrejects, List.find?_append]
        by_cases hname : name = command.name
        · subst hname
          simp [hnone]
        · simp [hname, Ne.symm hname]
      · rw [if_neg hrejects, if_neg hrejects, List.reverse_append, List.reverse_singleton,
          List.singleton_append, List.find?_cons]
        by_cases hname : name = command.name
        · simp [hname]
        · simp [hname, Ne.symm hname]

theorem rejectsDuplicates_of_insert (h : registry.insert command = .ok next) :
    next.rejectsDuplicates = registry.rejectsDuplicates := by
  unfold Registry.insert at h
  split at h <;> cases h
  rfl

end Registry

/-! ### Calls -/

namespace Shell

/-- What a host asks of a shell. -/
inductive Call
  | register (declaration : Declaration)
  | execute (line : String)
  | complete (line : String)

/-- The handler that the call brings, if it brings one, leaves the list under a key of the candidate
cache as it is. -/
def Call.Spares (key : String) : Call → Prop
  | .register declaration => declaration.handler.Spares key
  | .execute _ | .complete _ => True

/-- The shell after a call. A registration that fails leaves what it has changed by then. -/
def after (shell : Shell) : Call → Shell
  | .register declaration =>
    match (Edit.register declaration).run shell with
    | .ok _ next | .error _ next => next
  | .execute line => (shell.execute line).2
  | .complete _ => shell

/-- The shell after calls, one after the other. -/
def afterAll (shell : Shell) (calls : List Call) : Shell := calls.foldl after shell

/-- The command that a call registers, if it registers one. -/
def added (shell : Shell) : Call → List Command
  | .register declaration =>
    if (shell.register declaration).isOk then
      (declaration.command shell.config.maxNestingDepth).toOption.toList
    else []
  | .execute _ | .complete _ => []

/-- The commands that calls register, in order. -/
def addedAll (shell : Shell) : List Call → List Command
  | [] => []
  | call :: calls => shell.added call ++ (shell.after call).addedAll calls

variable {config : ShellConfig} {shell next : Shell} {declaration : Declaration}
  {declarations : List Declaration} {command : Command} {call : Call} {calls : List Call}
  {commands : List Command} {line name : String} {e : ShellError}

theorem afterAll_append (shell : Shell) (calls calls' : List Call) :
    shell.afterAll (calls ++ calls') = (shell.afterAll calls).afterAll calls' := List.foldl_append

theorem addedAll_append (shell : Shell) (calls calls' : List Call) :
    shell.addedAll (calls ++ calls') =
      shell.addedAll calls ++ (shell.afterAll calls).addedAll calls' := by
  induction calls generalizing shell with
  | nil => rfl
  | cons call calls ih =>
    rw [List.cons_append, addedAll, addedAll, ih, List.append_assoc]
    rfl

/-! ### One call -/

/-- A registration in place either puts the command into the registry and all names into the
candidate cache, or fails before it has changed anything. -/
theorem Edit.run_register (shell : Shell) (declaration : Declaration) :
    (Edit.register declaration).run shell =
      match declaration.command shell.config.maxNestingDepth with
      | .error e => .error e shell
      | .ok command =>
        match shell.registry.insert command with
        | .error e => .error e shell
        | .ok registry => .ok ()
            { shell with registry, cache := shell.cache.put Help.commandsKey registry.names } := by
  unfold Edit.register
  simp only [EStateM.run_bind, EStateM.run_get, run_ofExcept]
  cases declaration.command shell.config.maxNestingDepth with
  | error e => rfl
  | ok command =>
    dsimp only
    cases shell.registry.insert command <;> rfl

/-- What a registration does: a command is built from the declaration, the registry takes it, and
the candidate cache gets the names. -/
theorem register_eq_ok_iff :
    shell.register declaration = .ok next ↔
      ∃ command registry, declaration.command shell.config.maxNestingDepth = .ok command ∧
        shell.registry.insert command = .ok registry ∧
        { shell with registry, cache := shell.cache.put Help.commandsKey registry.names } =
          next := by
  rw [register, Edit.run_register]
  cases declaration.command shell.config.maxNestingDepth with
  | error e => simp
  | ok command => cases hinsert : shell.registry.insert command <;> simp [hinsert]

/-- A registration that fails changes nothing. -/
theorem after_register_of_error (h : shell.register declaration = .error e) :
    shell.after (.register declaration) = shell ∧ shell.added (.register declaration) = [] := by
  refine ⟨?_, by rw [added, h]; rfl⟩
  rw [register, Edit.run_register] at h
  rw [after, Edit.run_register]
  cases hcommand : declaration.command shell.config.maxNestingDepth with
  | error e => rfl
  | ok command =>
    rw [hcommand] at h
    dsimp only at h ⊢
    cases hinsert : shell.registry.insert command with
    | error e => rfl
    | ok registry =>
      rw [hinsert] at h
      cases h

/-- A registration that succeeds adds the command of its declaration. -/
theorem after_register_of_ok (h : shell.register declaration = .ok next)
    (hcommand : declaration.command shell.config.maxNestingDepth = .ok command) :
    shell.after (.register declaration) = next ∧
      shell.added (.register declaration) = [command] := by
  refine ⟨?_, by rw [added, h, hcommand]; rfl⟩
  cases hrun : (Edit.register declaration).run shell with
  | ok done changed =>
    simp only [register, hrun, Except.ok.injEq] at h
    simp only [after, hrun, h]
  | error e changed =>
    rw [register, hrun] at h
    cases h

/-- What a call does to a shell: nothing, or one more command in the registry and all names in the
candidate cache, or what the handler of a registered command does to the candidate cache. -/
theorem after_cases (shell : Shell) (call : Call) :
    (shell.after call = shell ∧ shell.added call = []) ∨
      (∃ declaration command registry, call = .register declaration ∧
        declaration.command shell.config.maxNestingDepth = .ok command ∧
        shell.registry.insert command = .ok registry ∧ shell.added call = [command] ∧
        shell.after call =
          { shell with registry, cache := shell.cache.put Help.commandsKey registry.names }) ∨
      ∃ line name command inv, call = .execute line ∧
        shell.registry.get? name = some command ∧ shell.added call = [] ∧
        shell.after call = shell.withCache (command.handler inv shell.cache).2 := by
  cases call with
  | register declaration =>
    cases hregister : shell.register declaration with
    | error e => exact .inl (after_register_of_error hregister)
    | ok next =>
      obtain ⟨command, registry, hcommand, hinsert, rfl⟩ := register_eq_ok_iff.mp hregister
      obtain ⟨hafter, hadded⟩ := after_register_of_ok hregister hcommand
      exact .inr (.inl ⟨declaration, command, registry, rfl, hcommand, hinsert, hadded, hafter⟩)
  | execute line =>
    rcases execute_cases shell line with
      ⟨-, heq⟩ | ⟨e, heq⟩ | ⟨head, rest, command, inv, -, hget, -, heq⟩
    · exact .inl ⟨congrArg Prod.snd (heq shell.cache), rfl⟩
    · exact .inl ⟨congrArg Prod.snd (heq shell.cache), rfl⟩
    · exact .inr (.inr ⟨line, head.value, command, inv, rfl, hget, rfl,
        congrArg Prod.snd (heq shell.cache)⟩)
  | complete line => exact .inl ⟨rfl, rfl⟩

/-- Registrations change no list of the candidate cache but that of the names. -/
theorem get?_cache_afterAll_register {key : String} (hkey : key ≠ Help.commandsKey)
    (declarations : List Declaration) (shell : Shell) :
    (shell.afterAll (declarations.map .register)).cache.get? key = shell.cache.get? key := by
  induction declarations generalizing shell with
  | nil => rfl
  | cons declaration declarations ih =>
    refine (ih (shell.after (.register declaration))).trans ?_
    rcases after_cases shell (.register declaration) with ⟨hafter, -⟩ |
      ⟨_, command, registry, -, -, -, -, hafter⟩ | ⟨line, name, command, inv, hcall, -⟩
    · rw [hafter]
    · rw [hafter, Dict.get?_put, if_neg hkey]
    · cases hcall

/-! ### Commands -/

/-- A shell with these settings holds commands that were registered in this order, all of them
declared. -/
structure Tracks (config : ShellConfig) (shell : Shell) (commands : List Command) : Prop where
  config_eq : shell.config = config
  rejects_eq : shell.registry.rejectsDuplicates = config.rejectDuplicateCommands
  holds : shell.registry.Holds commands
  declared : ∀ command ∈ commands, ∃ declaration : Declaration,
    declaration.command config.maxNestingDepth = .ok command

theorem tracks_bare (config : ShellConfig) : Tracks config (bare config) [] where
  config_eq := rfl
  rejects_eq := rfl
  holds := Registry.holds_empty config.rejectDuplicateCommands
  declared _ h := absurd h List.not_mem_nil

/-- A call registers at most one command. -/
theorem Tracks.after (h : Tracks config shell commands) (call : Call) :
    Tracks config (shell.after call) (commands ++ shell.added call) := by
  rcases after_cases shell call with ⟨hafter, hadded⟩ |
    ⟨declaration, command, registry, -, hcommand, hinsert, hadded, hafter⟩ |
    ⟨line, name, command, inv, -, -, hadded, hafter⟩
  · rw [hafter, hadded, List.append_nil]
    exact h
  · rw [hafter, hadded]
    refine ⟨h.config_eq, ?_, h.holds.insert hinsert, ?_⟩
    · exact (Registry.rejectsDuplicates_of_insert hinsert).trans h.rejects_eq
    · rw [h.config_eq] at hcommand
      exact List.forall_mem_append.mpr
        ⟨h.declared, List.forall_mem_singleton.mpr ⟨declaration, hcommand⟩⟩
  · rw [hafter, hadded, List.append_nil]
    exact ⟨h.config_eq, h.rejects_eq, h.holds, h.declared⟩

/-- After any calls a shell holds the commands that they registered. -/
theorem Tracks.afterAll (h : Tracks config shell commands) (calls : List Call) :
    Tracks config (shell.afterAll calls) (commands ++ shell.addedAll calls) := by
  induction calls generalizing shell commands with
  | nil =>
    rw [addedAll, List.append_nil]
    exact h
  | cons call calls ih =>
    rw [addedAll, ← List.append_assoc]
    exact ih (h.after call)

/-- The grammar of a registered command begins with the name it is registered with. -/
theorem Tracks.name_eq (h : Tracks config shell commands)
    (hget : shell.registry.get? name = some command) :
    command.name = name ∧ command.spec.signature.grammar.command = name := by
  obtain ⟨hmem, hname⟩ := h.holds.mem hget
  obtain ⟨declaration, hcommand⟩ := h.declared command hmem
  obtain ⟨hdeclared, -, -, hword⟩ := Declaration.command_eq_ok hcommand
  exact ⟨hname, hword.trans (hdeclared.symm.trans hname)⟩

/-! ### Registry and candidate cache -/

/-- The candidate cache has the names of the commands, and no handler touches them. -/
structure InStep (shell : Shell) (commands : List Command) : Prop where
  cache_eq : commands ≠ [] → shell.cache.get? Help.commandsKey = some shell.registry.names
  spares : ∀ command ∈ commands, command.handler.Spares Help.commandsKey

theorem inStep_bare (config : ShellConfig) : InStep (bare config) [] where
  cache_eq h := absurd rfl h
  spares _ h := absurd h List.not_mem_nil

/-- A call keeps registry and candidate cache in step. -/
theorem InStep.after (h : InStep shell commands) (hholds : shell.registry.Holds commands)
    (hcall : call.Spares Help.commandsKey) :
    InStep (shell.after call) (commands ++ shell.added call) := by
  rcases after_cases shell call with ⟨hafter, hadded⟩ |
    ⟨declaration, command, registry, rfl, hcommand, hinsert, hadded, hafter⟩ |
    ⟨line, name, command, inv, -, hget, hadded, hafter⟩
  · rw [hafter, hadded, List.append_nil]
    exact h
  · rw [hafter, hadded]
    refine ⟨fun _ => Dict.get?_put.trans (if_pos rfl), ?_⟩
    refine List.forall_mem_append.mpr ⟨h.spares, List.forall_mem_singleton.mpr ?_⟩
    rw [(Declaration.command_eq_ok hcommand).2.1]
    exact hcall
  · rw [hafter, hadded, List.append_nil]
    refine ⟨fun hne => ?_, h.spares⟩
    exact (h.spares command (hholds.mem hget).1 inv shell.cache).trans (h.cache_eq hne)

/-- Any calls keep registry and candidate cache in step. -/
theorem InStep.afterAll (h : InStep shell commands) (htracks : Tracks config shell commands)
    (hcalls : ∀ call ∈ calls, call.Spares Help.commandsKey) :
    InStep (shell.afterAll calls) (commands ++ shell.addedAll calls) := by
  induction calls generalizing shell commands with
  | nil =>
    rw [addedAll, List.append_nil]
    exact h
  | cons call calls ih =>
    obtain ⟨hcall, hcalls⟩ := List.forall_mem_cons.mp hcalls
    -- What the shell holds goes along: a step asks it for the command whose handler runs.
    rw [addedAll, ← List.append_assoc]
    exact ih (h.after htracks.holds hcall) (htracks.after call) hcalls

/-! ### Names that are free -/

/-- A declaration that gives a command is registered if its name is free, and no other name is
taken. -/
theorem exists_register_of_free (hok : (declaration.command 1).isOk = true)
    (hfree : shell.registry.get? declaration.name = none) :
    ∃ command, declaration.command 1 = .ok command ∧
      shell.register declaration = .ok (shell.after (.register declaration)) ∧
      shell.added (.register declaration) = [command] ∧
      ∀ name, name ≠ declaration.name →
        (shell.after (.register declaration)).registry.get? name = shell.registry.get? name := by
  obtain ⟨command, hcommand⟩ := exists_eq_ok_of_isOk hok
  have hlimit := Declaration.command_eq_of_isOk hok shell.config.maxNestingDepth
  rw [hcommand] at hlimit
  have hname : command.name = declaration.name := (Declaration.command_eq_ok hcommand).1
  rw [← hname] at hfree ⊢
  have hinsert : shell.registry.insert command = .ok { shell.registry with
      commands := shell.registry.commands.put command.name command } := by
    rw [Registry.insert, if_neg]
    rw [Registry.get?] at hfree
    simp [Dict.contains, hfree]
  have hregister := register_eq_ok_iff.mpr ⟨command, _, hlimit, hinsert, rfl⟩
  obtain ⟨hafter, hadded⟩ := after_register_of_ok hregister hlimit
  refine ⟨command, hcommand, by rw [hafter, hregister], hadded, fun name hne => ?_⟩
  rw [hafter, Registry.get?, Dict.get?_put, if_neg hne]
  rfl

/-- Declarations that give commands under free names of their own are all registered. -/
theorem foldlM_register (declarations : List Declaration) (shell : Shell)
    (hok : ∀ declaration ∈ declarations, (declaration.command 1).isOk = true)
    (hnodup : (declarations.map Declaration.name).Nodup)
    (hfree : ∀ declaration ∈ declarations, shell.registry.get? declaration.name = none) :
    declarations.foldlM register shell = .ok (shell.afterAll (declarations.map .register)) ∧
      declarations.mapM (·.command 1) = .ok (shell.addedAll (declarations.map .register)) := by
  induction declarations generalizing shell with
  | nil => exact ⟨rfl, rfl⟩
  | cons declaration declarations ih =>
    obtain ⟨hokFirst, hok⟩ := List.forall_mem_cons.mp hok
    obtain ⟨hname, hnodup⟩ := List.nodup_cons.mp hnodup
    obtain ⟨hfreeFirst, hfree⟩ := List.forall_mem_cons.mp hfree
    obtain ⟨command, hcommand, hregister, hadded, hget⟩ :=
      exists_register_of_free hokFirst hfreeFirst
    -- The names that are left differ from the one that is taken, so they are still free.
    have hstill : ∀ other ∈ declarations,
        (shell.after (.register declaration)).registry.get? other.name = none := by
      intro other hother
      have hne : other.name ≠ declaration.name :=
        fun heq => hname (heq ▸ List.mem_map_of_mem hother)
      rw [hget other.name hne]
      exact hfree other hother
    obtain ⟨hfold, hmap⟩ := ih (shell.after (.register declaration)) hok hnodup hstill
    rw [List.foldlM_cons, List.mapM_cons, List.map_cons, addedAll, hregister, hcommand, hadded]
    constructor
    · exact hfold
    · rw [hmap]
      rfl

/-- The commands that every shell has. -/
def builtins : List Declaration := [Help.helpCommand, Help.exitCommand]

/-- A shell without commands takes those that every shell has. -/
theorem foldlM_register_builtins (config : ShellConfig) :
    builtins.foldlM register (bare config) =
        .ok ((bare config).afterAll (builtins.map .register)) ∧
      builtins.mapM (·.command 1) = .ok ((bare config).addedAll (builtins.map .register)) :=
  foldlM_register builtins (bare config) (by decide +kernel) (by decide) fun _ _ => rfl

/-- The shell that settings describe is made from the one without commands by registering those that
every shell has. -/
theorem ofConfig_eq (config : ShellConfig) :
    ofConfig config = .ok ((bare config).afterAll (builtins.map .register)) := by
  rw [← (foldlM_register_builtins config).1]
  simp only [ofConfig, builtins, List.foldlM_cons, List.foldlM_nil, bind_pure]
  rfl

theorem exists_addedAll_builtins (config : ShellConfig) :
    ∃ help exit, Help.helpCommand.command 1 = .ok help ∧ Help.exitCommand.command 1 = .ok exit ∧
      (bare config).addedAll (builtins.map .register) = [help, exit] := by
  have hmap := (foldlM_register_builtins config).2
  rw [builtins, List.mapM_cons] at hmap
  obtain ⟨help, hhelp, hmap⟩ := bind_eq_ok_iff.mp hmap
  obtain ⟨rest, hrest, hmap⟩ := bind_eq_ok_iff.mp hmap
  rw [List.mapM_cons] at hrest
  obtain ⟨exit, hexit, hrest⟩ := bind_eq_ok_iff.mp hrest
  cases hrest
  exact ⟨help, exit, hhelp, hexit, (Except.ok.inj hmap).symm⟩

theorem spares_builtins (key : String) : ∀ call ∈ builtins.map .register, Call.Spares key call := by
  intro call hcall
  rcases List.mem_cons.mp hcall with rfl | hcall
  · exact fun _ _ => rfl
  · cases List.mem_singleton.mp hcall
    exact fun _ _ => rfl

/-! ### Completion of names -/

/-- Behind `help` comes a value that is completed from the names in the candidate cache. -/
theorem exists_offer_of_help (h : Help.helpCommand.command 1 = .ok command)
    (context : CompletionContext) (typed : String) :
    command.spec.signature.tree.frontier Tree.root = ⟨[4], true⟩ ∧
      ∃ text, command.spec.signature.matcher.offer? context typed 4 =
        some (text, ((context.lookup Help.commandsKey).getD []).filter (Text.begins typed)) := by
  -- The command is a fixed one, so what its tree has is computed.
  have hview : (Help.helpCommand.command 1).toOption.map (fun command =>
      (command.spec.signature.tree.frontier Tree.root,
        (command.spec.signature.tree.node? 4).map Node.kind)) =
      some (⟨[4], true⟩, some (.freeForm 0)) := by
    decide +kernel
  rw [h, Except.toOption, Option.map_some, Option.some.injEq, Prod.mk.injEq] at hview
  obtain ⟨hfrontier, hnode⟩ := hview
  obtain ⟨node, hnode, hkind⟩ := Option.map_eq_some_iff.mp hnode
  obtain ⟨arg, harg, htype⟩ : ∃ arg, command.spec.signature.args.get? 0 = some arg ∧
      arg.type = .dynamic Help.commandsKey [] := by
    rw [ArgumentSet.get?, (Declaration.command_eq_ok h).2.2.1]
    exact ⟨_, rfl, rfl⟩
  refine ⟨hfrontier, arg.name ++ ": " ++ arg.help typed, ?_⟩
  simp [Matcher.offer?, Signature.matcher, hnode, hkind, NodeKind.arg?, harg, htype,
    ArgType.complete?]

/-- A name is completed behind `help` as at the front of a line. -/
theorem InStep.candidates_help (h : InStep shell commands) (hne : commands ≠ []) {limit : Nat}
    (hcommand : Help.helpCommand.command limit = .ok command)
    (hget : shell.registry.get? "help" = some command) {typed : String}
    (htyped : Line.IsPlain typed.toList) :
    (shell.complete typed).candidates = (shell.complete ("help " ++ typed)).candidates := by
  have hfront : Line.splitPartial typed = ([], typed) := by
    simpa using Line.splitPartial_append (Line.settles_nil 0) htyped
  have hhelp : Line.Settles 0 "help ".toList [⟨"help", ⟨0, 4⟩⟩] := {
    scan_append := fun rest => rfl
    stop_lt := by decide }
  have hbehind : Line.splitPartial ("help " ++ typed) = ([⟨"help", ⟨0, 4⟩⟩], typed) := by
    have hsplit := Line.splitPartial_append hhelp htyped
    rwa [← String.toList_append, String.ofList_toList, String.ofList_toList] at hsplit
  rw [Declaration.command_eq_of_isOk (by decide +kernel)] at hcommand
  obtain ⟨hfrontier, text, hoffer⟩ := exists_offer_of_help hcommand
    ⟨"help " ++ typed, some shell.cache.source⟩ typed
  have hlookup : CompletionContext.lookup ⟨"help " ++ typed, some shell.cache.source⟩
      Help.commandsKey = some shell.registry.names := h.cache_eq hne
  rw [hlookup, Option.getD_some] at hoffer
  have hnodup : (shell.registry.names.filter (Text.begins typed)).Nodup :=
    Dict.nodup_keys.filter _
  simp only [complete, hfront, hbehind, hget, Signature.suggest, Matcher.suggest, Matcher.walk,
    Matcher.walkFrom]
  rw [show command.spec.signature.matcher.tree = command.spec.signature.tree from rfl, hfrontier]
  simp [hoffer, eraseDups_eq_self hnodup]

/-! ### Shells after any calls -/

/-- Every shell that settings describe exists. After any calls to it whose handlers leave the list
of names in the candidate cache alone, its commands are known under the names of those that were
registered, each once and in the order of their first registration. Under a name there is the last
command registered with it, or the first if names may not be taken twice, and its grammar begins
with that name. The list in the candidate cache has the same names. A registration that fails
changes nothing. While `help` is the command that every shell begins with, names are completed
behind it as at the front of a line. -/
theorem registry_of_calls (config : ShellConfig) :
    ∃ start, ofConfig config = .ok start ∧
      ∀ calls : List Call, (∀ call ∈ calls, call.Spares Help.commandsKey) →
        let shell := start.afterAll calls
        let commands := (bare config).addedAll (builtins.map .register ++ calls)
        (shell.registry.names.Nodup ∧
          shell.registry.names = (commands.map Command.name).eraseDups) ∧
        (∀ name, shell.registry.get? name =
          (if config.rejectDuplicateCommands then commands else commands.reverse).find?
            (·.name = name)) ∧
        (∀ name command, shell.registry.get? name = some command →
          command.name = name ∧ command.spec.signature.grammar.command = name) ∧
        shell.cache.get? Help.commandsKey = some shell.registry.names ∧
        (∀ declaration e, shell.register declaration = .error e →
          shell.after (.register declaration) = shell) ∧
        ∀ help, Help.helpCommand.command config.maxNestingDepth = .ok help →
          shell.registry.get? "help" = some help →
          ∀ typed : String, Line.IsPlain typed.toList →
            (shell.complete typed).candidates = (shell.complete ("help " ++ typed)).candidates := by
  refine ⟨_, ofConfig_eq config, fun calls hcalls => ?_⟩
  have htracks := (tracks_bare config).afterAll (builtins.map .register ++ calls)
  have hinStep := (inStep_bare config).afterAll (tracks_bare config)
    (List.forall_mem_append.mpr ⟨spares_builtins Help.commandsKey, hcalls⟩)
  rw [List.nil_append, afterAll_append] at htracks hinStep
  have hne : (bare config).addedAll (builtins.map .register ++ calls) ≠ [] := by
    obtain ⟨help, exit, -, -, hbuiltins⟩ := exists_addedAll_builtins config
    rw [addedAll_append, hbuiltins]
    exact List.cons_ne_nil _ _
  refine ⟨⟨Dict.nodup_keys, htracks.holds.names_eq⟩, fun name => ?_, fun _ _ => htracks.name_eq,
    hinStep.cache_eq hne, fun declaration e herror => (after_register_of_error herror).1,
    fun help hhelp hget typed htyped => hinStep.candidates_help hne hhelp hget htyped⟩
  rw [htracks.holds.get?_eq, htracks.rejects_eq]

/-- A command that says nothing. -/
def greet : Declaration := { name := "greet", handler := .pure fun _ => .ok .silent }

/-- A command that is registered twice is known once, and offered behind `help`. -/
theorem registry_of_calls_greet :
    ∃ start, ofConfig {} = .ok start ∧
      let shell := start.afterAll [.register greet, .execute "greet", .register greet]
      shell.registry.names = ["help", "exit", "greet"] ∧
        (shell.complete "gr").candidates = (shell.complete "help gr").candidates := by
  obtain ⟨start, hstart, hcalls⟩ := registry_of_calls {}
  obtain ⟨⟨-, hnames⟩, hget, -, -, -, hcandidates⟩ :=
    hcalls [.register greet, .execute "greet", .register greet] (by
      simp only [List.forall_mem_cons, Call.Spares]
      exact ⟨fun _ _ => rfl, trivial, fun _ _ => rfl, fun _ h => absurd h List.not_mem_nil⟩)
  obtain ⟨help, exit, hhelp, hexit, hbuiltins⟩ := exists_addedAll_builtins {}
  have hlimit : Help.helpCommand.command Grammar.defaultMaxDepth = Help.helpCommand.command 1 :=
    Declaration.command_eq_of_isOk (by decide +kernel) Grammar.defaultMaxDepth
  refine ⟨start, hstart, hnames.trans (by decide +kernel),
    hcandidates help (hlimit.trans hhelp) ?_ "gr" (by decide)⟩
  have hgreet : ((((bare {}).afterAll (builtins.map .register)).addedAll
      [.register greet, .execute "greet", .register greet]).reverse.find?
        (·.name = "help")).isNone = true := by
    decide +kernel
  have hother : exit.name ≠ "help" := by
    rw [(Declaration.command_eq_ok hexit).1]
    decide
  have hname : help.name = "help" := (Declaration.command_eq_ok hhelp).1
  rw [hget, addedAll_append, hbuiltins]
  simp [List.find?_append, hother, hname, Option.isNone_iff_eq_none.mp hgreet]

end Shell

end CommandShell
