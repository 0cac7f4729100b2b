import Mathlib.Data.List.Induction
import Mathlib.Data.List.Nodup
import Pagewright.Proofs.Site.Directives

/-!
# The extensions of a compiler

A compiler starts with the directives of its site, in the order of their names
(`Config.pairwise_directives`), and further rules are registered with it one by one. Registering a
rule replaces the one of the same name where that stands, or else puts the new rule at the end
(`Compiler.register_cases`). So every name stands once, where it was first met, and has the rule
that was registered last under it. `Compiler.Holds` is that invariant: one registration keeps it
(`Compiler.Holds.register`), hence so does any number of them (`Compiler.holds_foldl`).

`Compiler.compile` runs the rules of that list between the built-in directives and the output tags
(`Compiler.extensions_in_order`).
-/

namespace Pagewright

/-! ## Names in the order in which they are met -/

/-- The names of `met` that are not among `given`, each where it is met first. -/
def newNames (given met : List Text) : List Text :=
  (met.filter (· ∉ given)).eraseDups

/-- The new names are those that have been met and were not given. -/
theorem mem_newNames {given met : List Text} {name : Text} :
    name ∈ newNames given met ↔ name ∈ met ∧ name ∉ given := by
  simp [newNames, List.mem_eraseDups]

/-- One more name that is met counts when it is neither given nor met before. -/
theorem newNames_concat (given met : List Text) (name : Text) :
    newNames given (met ++ [name]) =
      if name ∈ given ++ newNames given met then newNames given met
      else newNames given met ++ [name] := by
  have hone : [name].eraseDups = [name] := List.eraseDups_cons
  rw [newNames, List.filter_append, List.eraseDups_append, List.removeAll, ← newNames]
  by_cases hgiven : name ∈ given
  · simp [hgiven]
  · by_cases hmet : name ∈ met <;> simp [mem_newNames, hgiven, hmet, hone]

/-- The rule is the last one of its name among `rules`. -/
def Rule.IsLast (rule : Rule) (rules : List Rule) : Prop :=
  ∃ before after, rules = before ++ rule :: after ∧ ∀ later ∈ after, later.name ≠ rule.name

theorem Rule.isLast_concat (rule : Rule) (rules : List Rule) : rule.IsLast (rules ++ [rule]) :=
  ⟨rules, [], rfl, List.forall_mem_nil _⟩

/-- A rule stays the last of its name when one of another name is registered. -/
theorem Rule.IsLast.concat {rule next : Rule} {rules : List Rule} (h : rule.IsLast rules)
    (hname : next.name ≠ rule.name) : rule.IsLast (rules ++ [next]) := by
  obtain ⟨before, after, rfl, hafter⟩ := h
  refine ⟨before, after ++ [next], by simp, fun later hlater => ?_⟩
  rcases List.mem_append.1 hlater with hmem | hmem
  · exact hafter later hmem
  · rwa [List.mem_singleton.1 hmem]

/-- Where no name stands twice, each rule is the last one of its name. -/
theorem Rule.isLast_of_nodup {rules : List Rule} (h : (rules.map Rule.name).Nodup) {rule : Rule}
    (hmem : rule ∈ rules) : rule.IsLast rules := by
  obtain ⟨before, after, rfl⟩ := List.append_of_mem hmem
  refine ⟨before, after, rfl, fun later hlater hname => ?_⟩
  rw [List.map_append, List.map_cons] at h
  exact (List.nodup_cons.1 (List.nodup_append.1 h).2.1).1 (hname ▸ List.mem_map_of_mem hlater)

namespace Compiler

/-! ## One registration -/

/-- A rule takes the place of the one of its name, or else the last place. -/
theorem register_cases (rule : Rule) (rules : List Rule) :
    rule.name ∉ rules.map Rule.name ∧ register rule rules = rules ++ [rule] ∨
      ∃ before old after, rules = before ++ old :: after ∧ old.name = rule.name ∧
        register rule rules = before ++ rule :: after := by
  induction rules with
  | nil => exact .inl ⟨List.not_mem_nil, rfl⟩
  | cons first rules ih =>
    by_cases hname : first.name = rule.name
    · exact .inr ⟨[], first, rules, rfl, hname, if_pos hname⟩
    · have hregister : register rule (first :: rules) = first :: register rule rules := if_neg hname
      rcases ih with ⟨hnew, heq⟩ | ⟨before, old, after, rfl, hold, heq⟩
      · refine .inl ⟨?_, by rw [hregister, heq, List.cons_append]⟩
        rw [List.map_cons, List.mem_cons]
        exact not_or.2 ⟨Ne.symm hname, hnew⟩
      · exact .inr ⟨first :: before, old, after, rfl, hold,
          by rw [hregister, heq, List.cons_append]⟩

/-- What a list of rules is when some were given and others have been registered since. -/
structure Holds (given registered rules : List Rule) : Prop where
  names : rules.map Rule.name =
    given.map Rule.name ++ newNames (given.map Rule.name) (registered.map Rule.name)
  nodup : (rules.map Rule.name).Nodup
  last : ∀ rule ∈ rules, rule.IsLast (given ++ registered)

/-- The invariant holds before anything is registered. -/
theorem holds_nil {given : List Rule} (h : (given.map Rule.name).Nodup) : Holds given [] given where
  names := (List.append_nil _).symm
  nodup := h
  last rule hrule := by
    rw [List.append_nil]
    exact Rule.isLast_of_nodup h hrule

/-- One registration keeps the invariant. -/
theorem Holds.register {given registered rules : List Rule} (h : Holds given registered rules)
    (rule : Rule) : Holds given (registered ++ [rule]) (Compiler.register rule rules) := by
  rcases register_cases rule rules with ⟨hnew, heq⟩ | ⟨before, old, after, rfl, hold, heq⟩ <;>
    rw [heq]
  · refine ⟨?_, ?_, fun other hother => ?_⟩
    · rw [h.names] at hnew
      rw [List.map_append, List.map_append, List.map_singleton, newNames_concat, if_neg hnew,
        h.names, List.append_assoc]
    · rw [List.map_append, List.map_singleton, ← List.concat_eq_append]
      exact List.Nodup.concat hnew h.nodup
    · rw [← List.append_assoc]
      rcases List.mem_append.1 hother with hmem | hmem
      · exact (h.last other hmem).concat fun hsame => hnew (hsame ▸ List.mem_map_of_mem hmem)
      · rw [List.mem_singleton.1 hmem]
        exact Rule.isLast_concat rule _
  · -- The names stay what they are, and the rule that goes is the only one of its name.
    have hnames :
        (before ++ rule :: after).map Rule.name = (before ++ old :: after).map Rule.name := by
      simp [hold]
    have hknown : rule.name ∈ given.map Rule.name
        ++ newNames (given.map Rule.name) (registered.map Rule.name) := by
      rw [← h.names, ← hnames]
      simp
    have hother : ∀ other, other ∈ before ∨ other ∈ after → rule.name ≠ other.name := by
      have hnodup := h.nodup
      rw [← hnames, List.map_append, List.map_cons, List.nodup_append, List.nodup_cons] at hnodup
      rintro other (hmem | hmem) hsame
      · exact hnodup.2.2 _ (List.mem_map_of_mem hmem) _ List.mem_cons_self hsame.symm
      · exact hnodup.2.1.1 (hsame ▸ List.mem_map_of_mem hmem)
    refine ⟨?_, hnames ▸ h.nodup, fun other hmem => ?_⟩
    · rw [hnames, h.names, List.map_append, List.map_singleton, newNames_concat, if_pos hknown]
    · rw [← List.append_assoc]
      rcases List.mem_append.1 hmem with hbefore | hcons
      · exact (h.last other (by simp [hbefore])).concat (hother other (.inl hbefore))
      · rcases List.mem_cons.1 hcons with rfl | hafter
        · exact Rule.isLast_concat other _
        · exact (h.last other (by simp [hafter])).concat (hother other (.inr hafter))

/-! ## Any number of registrations -/

/-- Registering rules changes no options. -/
theorem options_foldl (registered : List Rule) (compiler : Compiler) :
    (registered.foldl withRule compiler).options = compiler.options := by
  induction registered generalizing compiler with
  | nil => rfl
  | cons rule registered ih => exact ih _

/-- Any number of registrations keeps the invariant. -/
theorem holds_foldl {compiler : Compiler} (h : (compiler.extensions.map Rule.name).Nodup)
    (registered : List Rule) :
    Holds compiler.extensions registered (registered.foldl withRule compiler).extensions := by
  induction registered using List.reverseRecOn with
  | nil => exact holds_nil h
  | append_singleton registered rule ih =>
    rw [List.foldl_append]
    exact ih.register rule

/-- The names of the rules that the directives of a site become. -/
theorem names_ofOptions (options : CompileOptions) :
    (ofOptions options).extensions.map Rule.name = options.directives.map Prod.fst := by
  rw [ofOptions, List.map_map]
  rfl

/-- Compiling runs the built-in rules, then the extensions, and then those for the output. -/
theorem compile_eq (compiler : Compiler) (draft : Draft) (output : Path) :
    let first := runRules [Output.commentRule] ⟨draft, []⟩
    compiler.compile draft output =
      runRules (finalRules compiler.options) (runRules compiler.extensions
        (runRules (builtinRules compiler.options.dirs)
          { first with draft := { first.draft with relativePath := output.wayUp } })) := by
  dsimp only
  rw [compile, rules, runRules_append, runRules_append]

/-- Extensions are kept like a map in the order of its keys. A configuration has its directives in
the order of the bytes of their names. The names of a compiler are these, then the names registered
besides, in the order in which they were met first, and no name stands twice. Each name has the rule
that was registered last under it, and compiling runs these rules in that order, between the
built-in directives and the output tags, the first of which is for raw output. -/
theorem extensions_in_order :
    (∀ text config, Config.ofText text = .ok config →
      config.compileOptions.directives.Pairwise fun a b => a.1.BytesBelow b.1) ∧
    ∀ (options : CompileOptions) (registered : List Rule),
      (options.directives.Pairwise fun a b => a.1.BytesBelow b.1) →
      let compiler := registered.foldl withRule (ofOptions options)
      let given := options.directives.map Prod.fst
      let names := compiler.extensionNames
      names.Nodup ∧
        names = given ++ ((registered.map Rule.name).filter (· ∉ given)).eraseDups ∧
        (∀ (i : Nat) (name : Text), names[i]? = some name →
          ∃ rule, compiler.extensions[i]? = some rule ∧ rule.name = name ∧
            rule.IsLast ((ofOptions options).extensions ++ registered)) ∧
        (∃ later, finalRules options = Output.rawRule :: later) ∧
        ∀ draft output,
          let first := runRules [Output.commentRule] ⟨draft, []⟩
          compiler.compile draft output =
            runRules (finalRules options) (runRules compiler.extensions
              (runRules (builtinRules options.dirs)
                { first with draft := { first.draft with relativePath := output.wayUp } })) := by
  refine ⟨fun text config h => Config.pairwise_directives h, fun options registered hgiven => ?_⟩
  intro compiler given names
  have hnodup : ((ofOptions options).extensions.map Rule.name).Nodup := by
    rw [names_ofOptions]
    exact List.pairwise_map.2 (hgiven.imp Text.BytesBelow.ne)
  have hholds := holds_foldl hnodup registered
  refine ⟨hholds.nodup, ?_, fun i name hname => ?_, ⟨_, rfl⟩, fun draft output => ?_⟩
  · have hnames := hholds.names
    rwa [names_ofOptions] at hnames
  · have hfound : (compiler.extensions.map Rule.name)[i]? = some name := hname
    rw [List.getElem?_map] at hfound
    obtain ⟨rule, hrule, rfl⟩ := Option.map_eq_some_iff.1 hfound
    exact ⟨rule, hrule, rfl, hholds.last rule (List.mem_of_getElem? hrule)⟩
  · have hoptions : compiler.options = options := options_foldl registered _
    rw [← hoptions]
    exact compile_eq compiler draft output

/-- A rule that finds nothing. -/
def silent (name : Text) : Rule :=
  ⟨name, fun _ => none⟩

/-- Rules under a name that the site has given, and twice under another one. -/
theorem extensions_in_order_clashing :
    let options : CompileOptions := { directives := [("alpha", "A"), ("zeta", "Z")] }
    let registered := [silent "x", silent "alpha", silent "x"]
    let compiler := registered.foldl withRule (ofOptions options)
    (options.directives.Pairwise fun a b => a.1.BytesBelow b.1) ∧
      compiler.extensionNames = (["alpha", "zeta", "x"] : List Text) ∧
      ∃ rule, compiler.extensions[0]? = some rule ∧ rule.name = ("alpha" : Text) ∧
        rule.IsLast ((ofOptions options).extensions ++ registered) := by
  intro options registered compiler
  have hgiven : options.directives.Pairwise fun a b => a.1.BytesBelow b.1 :=
    .cons (fun other hother => by
      rw [List.mem_singleton.1 hother]
      exact .rel (by decide)) (.cons (List.forall_mem_nil _) .nil)
  obtain ⟨-, hnames, hlast, -, -⟩ := extensions_in_order.2 options registered hgiven
  exact ⟨hgiven, hnames.trans (by decide), hlast 0 _ rfl⟩

end Compiler

end Pagewright
