import CommandShell.Matching.Basic
import CommandShell.Matching.Sentence
import CommandShell.Proofs.Tree.Walk
import CommandShell.Signature

/-!
# Which tokens a node accepts

What a node accepts is decided by its symbol. Positional arguments and free-form values accept any
token, a constant its literal, and a flag its name behind a dash or, with its value, its name before
an equals sign. The shape of a token is read off from its text, so each of these is said of texts.

## Main definitions

* `Matcher.IsBuilt` — the tree of a matcher refers to its arguments
* `Matcher.Takes` — what a node does with a token that it takes
* `Matcher.Accepts` — some node that can come next accepts a token

## Main results

* `Shape.of_eq_flag_iff`, `Shape.of_eq_assignment_iff` — the tokens of a shape
* `accept?_argument`, `accept?_freeForm`, `accept?_constant`, `accept?_flag_eq_some_iff` — what
  each kind of node does with a token
* `accept?_eq_some_iff` — a node accepts the tokens that it takes
* `select?_isSome_iff` — a token is matched if a node that can come next accepts it
* `Signature.isBuilt_matcher` — the matcher of a signature is built
-/

namespace CommandShell

/-! ### Shapes -/

namespace Shape

variable {token name value : String}

theorem flagName?_eq_some_iff {cs name : List Char} :
    flagName? cs = some name ↔ cs = '-' :: name ∧ Text.isIdentifier name = true := by
  rw [flagName?, Option.filter_eq_some_iff, Text.dropOpening?_eq_some_iff]
  rfl

theorem assigned?_eq_some_iff {cs name value : List Char} :
    assigned? cs = some (name, value) ↔
      cs = name ++ '=' :: value ∧ Text.isIdentifier name = true := by
  rw [assigned?, Option.filter_eq_some_iff]
  constructor
  · rintro ⟨hcut, hname⟩
    exact ⟨(Text.cutFirst?_eq_some hcut).1, hname⟩
  · rintro ⟨rfl, hname⟩
    exact ⟨cutFirst?_identifier hname value, hname⟩

/-- A token has the shape of a flag if it is the name of the flag behind a dash. -/
theorem of_eq_flag_iff :
    of token = .flag name ↔ token = "-" ++ name ∧ Text.isIdentifier name.toList = true := by
  constructor
  · intro h
    unfold of at h
    split at h
    · rename_i cs _ hflag
      cases h
      obtain ⟨htoken, hname⟩ := flagName?_eq_some_iff.mp hflag
      refine ⟨String.toList_inj.mp ?_, by simpa using hname⟩
      simpa using htoken
    all_goals cases h
  · rintro ⟨rfl, hname⟩
    have htoken : "-" ++ name = .ofList ('-' :: name.toList) := by
      apply String.toList_inj.mp
      simp
    rw [htoken, of_flag hname, String.ofList_toList]

/-- A token has the shape of an assignment if a name and an equals sign come before the value. -/
theorem of_eq_assignment_iff :
    of token = .assignment name value ↔
      token = Sentence.assignment name value ∧ Text.isIdentifier name.toList = true := by
  constructor
  · intro h
    unfold of at h
    split at h
    · cases h
    · rename_i cs ds _ hassigned
      cases h
      obtain ⟨htoken, hname⟩ := assigned?_eq_some_iff.mp hassigned
      refine ⟨String.toList_inj.mp ?_, by simpa using hname⟩
      simpa [Sentence.assignment] using htoken
    · cases h
  · rintro ⟨rfl, hname⟩
    have htoken : Sentence.assignment name value =
        .ofList (name.toList ++ '=' :: value.toList) := by
      apply String.toList_inj.mp
      simp [Sentence.assignment]
    rw [htoken, of_assignment hname, String.ofList_toList, String.ofList_toList]

end Shape

namespace Sentence

variable {name value token : String}

/-- A positional argument takes the text behind its own name. -/
theorem ownText_assignment (h : Text.isIdentifier name.toList = true) :
    ownText name (assignment name value) = value := by
  have hdrop : Text.dropOpening? (name.toList ++ ['=']) (assignment name value).toList =
      some value.toList := by
    rw [Text.dropOpening?_eq_some_iff]
    simp [assignment]
  rw [ownText, if_pos h, hdrop, Option.map_some, Option.getD_some, String.ofList_toList]

/-- A positional argument takes any other token as it is. -/
theorem ownText_of_ne
    (h : ∀ value, Text.isIdentifier name.toList = true → token ≠ assignment name value) :
    ownText name token = token := by
  unfold ownText
  split
  · rename_i hname
    cases hdrop : Text.dropOpening? (name.toList ++ ['=']) token.toList with
    | none => rfl
    | some rest =>
      rw [Text.dropOpening?_eq_some_iff] at hdrop
      refine absurd (String.toList_inj.mp ?_) (h (.ofList rest) hname)
      simpa [assignment] using hdrop
  · rfl

end Sentence

/-! ### Matchers that are built -/

/-- The labels of the tree are the names of the arguments, and flags lead to their values. -/
structure Matcher.IsBuilt (matcher : Matcher) : Prop where
  wellFormed : matcher.tree.WellFormed matcher.args
  flags : matcher.tree.FlagsLeadToValues

theorem Signature.isBuilt_matcher (signature : Signature) : signature.matcher.IsBuilt := by
  obtain ⟨last, hgrows⟩ := Tree.build_grows signature.tree_eq
  exact ⟨hgrows.wellFormed, hgrows.flags⟩

namespace Matcher

variable {matcher : Matcher} {id value : NodeId} {arg : ArgId} {name token : String} {step : Step}

theorem argName_of_idOf? (h : matcher.args.idOf? name = some arg) : matcher.argName arg = name := by
  obtain ⟨argument, hget, rfl⟩ := ArgumentSet.get?_of_idOf?_eq_some h
  simp [argName, hget]

theorem map_kind_of_symbol? {symbol : Symbol} (h : matcher.tree.symbol? id = some symbol) :
    (matcher.tree.node? id).map Node.kind = some symbol.kind := by
  obtain ⟨node, hnode, rfl⟩ := Tree.symbol?_eq_some_iff.mp h
  simp [hnode, Node.symbol]

/-! ### What each kind of node accepts -/

/-- A positional argument accepts any token, and takes its own text of it. -/
theorem accept?_argument (hm : matcher.IsBuilt)
    (h : matcher.tree.symbol? id = some ⟨.argument arg, name⟩) :
    matcher.accept? id token = some ⟨id, some (arg, Sentence.ownText name token)⟩ := by
  have harg : matcher.argName arg = name := argName_of_idOf? (hm.wellFormed.declared h)
  rw [accept?, map_kind_of_symbol? h]
  cases hshape : Shape.of token with
  | assignment other value =>
    simp only [harg]
    obtain ⟨rfl, hother⟩ := Shape.of_eq_assignment_iff.mp hshape
    by_cases hname : other = name
    · subst hname
      simp [Sentence.ownText_assignment hother]
    · have hne (value' : String) (hname' : Text.isIdentifier name.toList = true) :
          Sentence.assignment other value ≠ Sentence.assignment name value' := by
        intro heq
        rw [Shape.of_eq_assignment_iff.mpr ⟨heq, hname'⟩] at hshape
        cases hshape
        exact hname rfl
      simp [Sentence.ownText_of_ne hne, hname]
  | flag | bare =>
    have hne (value : String) (hname : Text.isIdentifier name.toList = true) :
        token ≠ Sentence.assignment name value := by
      intro heq
      rw [Shape.of_eq_assignment_iff.mpr ⟨heq, hname⟩] at hshape
      cases hshape
    simp [Sentence.ownText_of_ne hne]

/-- A free-form value accepts any token. -/
theorem accept?_freeForm (h : matcher.tree.symbol? id = some ⟨.freeForm arg, name⟩) :
    matcher.accept? id token = some ⟨id, some (arg, token)⟩ := by
  rw [accept?, map_kind_of_symbol? h]

/-- A constant accepts its literal. -/
theorem accept?_constant {literal : String} {arg? : Option ArgId}
    (h : matcher.tree.symbol? id = some ⟨.constant literal arg?, name⟩) :
    matcher.accept? id token =
      if literal = token then some ⟨id, arg?.map (·, token)⟩ else none := by
  rw [accept?, map_kind_of_symbol? h]

/-- A flag leads to its value alone. -/
theorem exists_value_of_flag (hm : matcher.IsBuilt)
    (h : matcher.tree.symbol? id = some ⟨.flag arg, name⟩) :
    ∃ value, matcher.tree.targets id = [value] ∧ matcher.tree.valueOf? id = some value ∧
      matcher.tree.symbol? value = some ⟨.freeForm arg, name⟩ := by
  obtain ⟨value, htargets, hvalue⟩ := hm.flags h
  refine ⟨value, htargets, ?_, hvalue⟩
  obtain ⟨node, hnode, hsymbol⟩ := Tree.symbol?_eq_some_iff.mp h
  have hkind : node.kind = .flag arg := congrArg Symbol.kind hsymbol
  have hchildren : node.children.map Edge.target = [value] := by
    simpa [Tree.targets, Tree.children, hnode] using htargets
  rw [Tree.valueOf?, hnode, Option.bind_some, hkind, ← List.head?_map, hchildren]
  rfl

/-- A flag accepts its name behind a dash, and its name together with a value. -/
theorem accept?_flag_eq_some_iff (hm : matcher.IsBuilt)
    (h : matcher.tree.symbol? id = some ⟨.flag arg, name⟩)
    (hvalue : matcher.tree.valueOf? id = some value) :
    matcher.accept? id token = some step ↔ Text.isIdentifier name.toList = true ∧
      (token = "-" ++ name ∧ step = ⟨id, none⟩ ∨
        ∃ raw, token = Sentence.assignment name raw ∧ step = ⟨value, some (arg, raw)⟩) := by
  have harg : matcher.argName arg = name := argName_of_idOf? (hm.wellFormed.declared h)
  rw [accept?, map_kind_of_symbol? h]
  constructor
  · intro hstep
    -- The name in the token is an identifier, so the name of the flag is one if they are equal.
    cases hshape : Shape.of token with
    | flag other =>
      obtain ⟨rfl, hother⟩ := Shape.of_eq_flag_iff.mp hshape
      simp only [hshape, harg] at hstep
      split at hstep
      · cases hstep
        subst other
        exact ⟨hother, .inl ⟨rfl, rfl⟩⟩
      · cases hstep
    | assignment other raw =>
      obtain ⟨rfl, hother⟩ := Shape.of_eq_assignment_iff.mp hshape
      simp only [hshape, harg, hvalue, Option.map_some] at hstep
      split at hstep
      · cases hstep
        subst other
        exact ⟨hother, .inr ⟨raw, rfl, rfl⟩⟩
      · cases hstep
    | bare =>
      rw [hshape] at hstep
      cases hstep
  · rintro ⟨hname, ⟨rfl, rfl⟩ | ⟨raw, rfl, rfl⟩⟩
    · rw [Shape.of_eq_flag_iff.mpr ⟨rfl, hname⟩]
      simp only [harg, if_true]
    · rw [Shape.of_eq_assignment_iff.mpr ⟨rfl, hname⟩]
      simp only [harg, hvalue, Option.map_some, if_true]

/-! ### Steps -/

/-- What a node does with a token that it takes. -/
inductive Takes (tree : Tree) (id : NodeId) : String → Step → Prop
  /-- A positional argument takes its own text of any token. -/
  | argument {arg : ArgId} {name : String} (h : tree.symbol? id = some ⟨.argument arg, name⟩)
      (token : String) : Takes tree id token ⟨id, some (arg, Sentence.ownText name token)⟩
  /-- A free-form value takes any token. -/
  | freeForm {arg : ArgId} {name : String} (h : tree.symbol? id = some ⟨.freeForm arg, name⟩)
      (token : String) : Takes tree id token ⟨id, some (arg, token)⟩
  /-- A constant takes its literal. -/
  | constant {literal name : String} {arg? : Option ArgId}
      (h : tree.symbol? id = some ⟨.constant literal arg?, name⟩) :
      Takes tree id literal ⟨id, arg?.map (·, literal)⟩
  /-- A flag takes its name behind a dash. -/
  | flag {arg : ArgId} {name : String} (h : tree.symbol? id = some ⟨.flag arg, name⟩)
      (hname : Text.isIdentifier name.toList = true) : Takes tree id ("-" ++ name) ⟨id, none⟩
  /-- A flag takes its name together with a value, and leads behind the node of the value. -/
  | assigned {arg : ArgId} {name : String} {value : NodeId}
      (h : tree.symbol? id = some ⟨.flag arg, name⟩)
      (hname : Text.isIdentifier name.toList = true) (htargets : tree.targets id = [value])
      (hvalue : tree.symbol? value = some ⟨.freeForm arg, name⟩) (raw : String) :
      Takes tree id (Sentence.assignment name raw) ⟨value, some (arg, raw)⟩

theorem takes_of_accept? (hm : matcher.IsBuilt) (h : matcher.accept? id token = some step) :
    Takes matcher.tree id token step := by
  cases hsymbol : matcher.tree.symbol? id with
  | none =>
    have hnode : matcher.tree.node? id = none := Option.map_eq_none_iff.mp hsymbol
    rw [accept?, hnode] at h
    cases h
  | some symbol =>
    obtain ⟨kind, name⟩ := symbol
    cases kind with
    | start | finish | hook | loop =>
      rw [accept?, map_kind_of_symbol? hsymbol] at h
      cases h
    | argument arg =>
      rw [accept?_argument hm hsymbol] at h
      cases h
      exact .argument hsymbol token
    | freeForm arg =>
      rw [accept?_freeForm hsymbol] at h
      cases h
      exact .freeForm hsymbol token
    | constant literal arg? =>
      rw [accept?_constant hsymbol] at h
      split at h
      · cases h
        subst token
        exact .constant hsymbol
      · cases h
    | flag arg =>
      obtain ⟨value, htargets, hvalue, hfree⟩ := exists_value_of_flag hm hsymbol
      rw [accept?_flag_eq_some_iff hm hsymbol hvalue] at h
      obtain ⟨hname, ⟨rfl, rfl⟩ | ⟨raw, rfl, rfl⟩⟩ := h
      · exact .flag hsymbol hname
      · exact .assigned hsymbol hname htargets hfree raw

/-- A node accepts a token if it takes it, and does with it what it does. -/
theorem accept?_eq_some_iff (hm : matcher.IsBuilt) :
    matcher.accept? id token = some step ↔ Takes matcher.tree id token step := by
  constructor
  · exact takes_of_accept? hm
  · intro h
    cases h with
    | argument h => exact accept?_argument hm h
    | freeForm h => exact accept?_freeForm h
    | constant h => rw [accept?_constant h, if_pos rfl]
    | flag h hname =>
      obtain ⟨value, -, hvalue, -⟩ := exists_value_of_flag hm h
      exact (accept?_flag_eq_some_iff hm h hvalue).mpr ⟨hname, .inl ⟨rfl, rfl⟩⟩
    | assigned h hname htargets _ raw =>
      obtain ⟨value, htargets', hvalue, -⟩ := exists_value_of_flag hm h
      rw [htargets] at htargets'
      cases htargets'
      exact (accept?_flag_eq_some_iff hm h hvalue).mpr ⟨hname, .inr ⟨raw, rfl, rfl⟩⟩

/-! ### What can come next -/

/-- Some node that can come next after `node` accepts the token. -/
def Accepts (matcher : Matcher) (node : NodeId) (token : String) : Prop :=
  ∃ id ∈ (matcher.tree.frontier node).nodes, (matcher.accept? id token).isSome = true

/-- A step is selected exactly for a token that some node accepts. -/
theorem select?_isSome_iff {node : NodeId} :
    (matcher.select? (matcher.tree.frontier node) token).isSome = true ↔
      matcher.Accepts node token :=
  List.findSome?_isSome_iff

theorem select?_eq_none_iff {node : NodeId} :
    matcher.select? (matcher.tree.frontier node) token = none ↔ ¬ matcher.Accepts node token := by
  rw [← select?_isSome_iff, Option.not_isSome_iff_eq_none]

/-- Where only one node can come next, a token does what it does there. -/
theorem select?_of_forall_eq {frontier : Frontier} (hmem : id ∈ frontier.nodes)
    (h : ∀ other ∈ frontier.nodes, other = id) :
    matcher.select? frontier token = matcher.accept? id token := by
  rw [select?]
  generalize frontier.nodes = nodes at hmem h
  induction nodes with
  | nil => cases hmem
  | cons first nodes ih =>
    obtain ⟨rfl, hnodes⟩ := List.forall_mem_cons.mp h
    rw [List.findSome?_cons]
    cases haccept : matcher.accept? first token with
    | some step => rfl
    | none => exact List.findSome?_eq_none_iff.mpr fun other hother => hnodes other hother ▸ haccept

end Matcher

end CommandShell
