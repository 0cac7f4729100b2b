import Pagewright.Proofs.Template.Translation

/-!
# Content and fragments alike

Behind the rule for sections, every rule rewrites each text of a draft on its own: the content and
the fragments before it go through the same rules as a draft that holds nothing else
(`Rule.IsUniform`, `Compiler.runRules_eq_alone`). So what a section captured is compiled like the
rest of the page, and no fragment comes or goes (`Compiler.compile_sections_alike`).

The last rule closes the tag that a text leaves open. It sees the content and every fragment,
whatever the extensions of the site have done to them, so that none ends with PHP switched on
(`Compiler.compile_terminated`).
-/

namespace Pagewright

open Text

/-! ## Rules that see one text at a time -/

namespace Rule

/-- The rule rewrites the content and the fragments, each on its own and all in the same way. -/
def IsUniform (rule : Rule) : Prop :=
  ∃ rewrite : Rewrite, ∀ draft : Draft, (rule.step draft).1 = draft.mapTexts rewrite.run

/-- A rule that is given by a rewrite does the same to every text. -/
theorem isUniform_ofRewrite (name : Text) (rewrite : Rewrite) :
    (ofRewrite name rewrite).IsUniform :=
  ⟨rewrite, step_ofRewrite name rewrite⟩

/-- The rule changes neither the settings nor the fragments behind the content. -/
def KeepsRest (rule : Rule) : Prop :=
  ∀ draft : Draft, (rule.step draft).1.settings = draft.settings ∧
    (rule.step draft).1.after = draft.after

/-- A rule for the content changes neither the place nor the settings. -/
theorem keepsRest_ofContent (name : Text) (rewrite : Text → Rewrite) :
    (ofContent name rewrite).KeepsRest := by
  intro draft
  rw [step_ofContent]
  exact ⟨rfl, rfl⟩

theorem keepsRest_ofRewrite (name : Text) (rewrite : Rewrite) :
    (ofRewrite name rewrite).KeepsRest :=
  keepsRest_ofContent name fun _ => rewrite

/-- Nor does the rule for sections. -/
theorem keepsRest_sectionRule : Directive.sectionRule.KeepsRest := by
  intro draft
  have happly : ∀ next, Directive.sectionRule.apply draft = some next →
      next.settings = draft.settings ∧ next.after = draft.after := by
    intro next hnext
    obtain ⟨content, -, rfl⟩ := Option.map_eq_some_iff.1 hnext
    exact ⟨rfl, rfl⟩
  cases hnext : Directive.sectionRule.apply draft with
  | none => simp [step, hnext]
  | some next => simpa [step, hnext] using happly next hnext

end Rule

namespace Compiler

open Rule

/-- What rules make of a text that is a draft of its own. -/
def alone (rules : List Rule) (text : Text) : Text :=
  (runRules rules ⟨{ content := text }, []⟩).draft.content

/-- A draft on its way through the compiler: without comments, and with the first `count` rules
behind their removal applied. -/
def draftAfter (compiler : Compiler) (draft : Draft) (output : Path) (count : Nat) : Draft :=
  let first := runRules [Output.commentRule] ⟨draft, []⟩
  (runRules (compiler.rules.take count)
    { first with draft := { first.draft with relativePath := output.wayUp } }).draft

/-- The rules behind the one for sections, where the site has no extensions. -/
def behindSections (options : CompileOptions) : List Rule :=
  (builtinRules options.dirs).drop 13 ++ finalRules options

/-- After all rules the draft is what compiling gives. -/
theorem draftAfter_length (compiler : Compiler) (draft : Draft) (output : Path) :
    compiler.draftAfter draft output compiler.rules.length
      = (compiler.compile draft output).draft := by
  rw [draftAfter, List.take_length, compile]

/-- The draft after some more rules comes from the one before them. -/
theorem draftAfter_add (compiler : Compiler) (draft : Draft) (output : Path) (n count : Nat) :
    compiler.draftAfter draft output (n + count)
      = (runRules ((compiler.rules.drop n).take count)
          ⟨compiler.draftAfter draft output n, []⟩).draft := by
  simp only [draftAfter, runRules_draft, List.take_add, List.foldl_append]

/-- Rules that see one text at a time make of each text what they make of it alone. -/
theorem runRules_eq_alone {rules : List Rule} (h : ∀ rule ∈ rules, rule.IsUniform)
    (draft : Draft) (report : List Text) :
    (runRules rules ⟨draft, report⟩).draft = draft.mapTexts (alone rules) := by
  simp only [runRules_draft]
  induction rules generalizing draft with
  | nil =>
    have halone : alone [] = id := rfl
    simp [Draft.mapTexts, halone]
  | cons rule rules ih =>
    obtain ⟨⟨rewrite, hstep⟩, hrules⟩ := List.forall_mem_cons.1 h
    have halone : ∀ text, alone (rule :: rules) text = alone rules (rewrite.run text) := by
      intro text
      simp only [alone, runRules_draft, List.foldl_cons, hstep]
      rfl
    rw [List.foldl_cons, hstep, ih hrules, Draft.mapTexts_mapTexts, ← funext halone]

/-- The rules behind the one for sections do the same to every text. -/
theorem isUniform_behindSections (options : CompileOptions) :
    ∀ rule ∈ behindSections options, rule.IsUniform := by
  have hlist : behindSections options =
      [Directive.stackRule, Directive.unlessRule, Directive.loopRule .while, Directive.yieldRule,
        Output.rawRule, Output.leftoverRule, Output.echoRule options.safeOutput,
        Output.closeTagRule] := rfl
  simp only [hlist, List.forall_mem_cons]
  refine ⟨?_, ?_, ?_, ?_, ?_, ?_, ?_, ?_, List.forall_mem_nil _⟩ <;> exact isUniform_ofRewrite _ _

/-- The built-in rules rewrite the content, all but the one for sections. -/
theorem builtinRules_cases {dirs : Conventions} {rule : Rule} (h : rule ∈ builtinRules dirs) :
    (∃ name rewrite, rule = ofContent name rewrite) ∨ rule = Directive.sectionRule := by
  have hrewrite (name : Text) (rewrite : Rewrite) :
      (∃ name' rewrite', ofRewrite name rewrite = ofContent name' rewrite') ∨
        ofRewrite name rewrite = Directive.sectionRule := .inl ⟨name, fun _ => rewrite, rfl⟩
  revert rule
  simp only [builtinRules, List.forall_mem_cons]
  refine ⟨?_, .inl ⟨_, _, rfl⟩, ?_, ?_, ?_, ?_, ?_, ?_, ?_, ?_, .inl ⟨_, _, rfl⟩, ?_, .inr trivial,
    ?_, ?_, ?_, ?_, List.forall_mem_nil _⟩ <;> exact hrewrite _ _

/-- No rule of a compiler changes the place or the settings. -/
theorem keepsRest_rules (options : CompileOptions) :
    ∀ rule ∈ rules ⟨options, []⟩, rule.KeepsRest := by
  intro rule hrule
  have hbuiltin : ∀ rule ∈ builtinRules options.dirs, rule.KeepsRest := by
    intro rule hrule
    rcases builtinRules_cases hrule with ⟨name, rewrite, rfl⟩ | rfl
    · exact keepsRest_ofContent name rewrite
    · exact keepsRest_sectionRule
  have hfinal : ∀ rule ∈ finalRules options, rule.KeepsRest := by
    simp only [finalRules, List.forall_mem_cons]
    refine ⟨?_, ?_, ?_, ?_, List.forall_mem_nil _⟩ <;> exact keepsRest_ofRewrite _ _
  have hsplit : rules ⟨options, []⟩ = builtinRules options.dirs ++ finalRules options := by
    simp [rules]
  rw [hsplit] at hrule
  exact (List.mem_append.1 hrule).elim (hbuiltin rule) (hfinal rule)

/-- Rules that leave the rest alone do so one after another. -/
theorem foldl_keepsRest {rules : List Rule} (h : ∀ rule ∈ rules, rule.KeepsRest) (draft : Draft) :
    let ended := rules.foldl (fun draft rule => (rule.step draft).1) draft
    ended.settings = draft.settings ∧ ended.after = draft.after := by
  induction rules generalizing draft with
  | nil => exact ⟨rfl, rfl⟩
  | cons rule rules ih =>
    obtain ⟨hrule, hrules⟩ := List.forall_mem_cons.1 h
    obtain ⟨hsettings, hafter⟩ := hrule draft
    obtain ⟨hsettings', hafter'⟩ := ih hrules (rule.step draft).1
    exact ⟨hsettings'.trans hsettings, hafter'.trans hafter⟩

theorem draftAfter_keepsRest (options : CompileOptions) (draft : Draft) (output : Path)
    (count : Nat) :
    let ended := draftAfter ⟨options, []⟩ draft output count
    ended.settings = draft.settings ∧ ended.after = draft.after := by
  obtain ⟨hsettings, hafter⟩ := keepsRest_ofRewrite "comments" Output.comments draft
  obtain ⟨hsettings', hafter'⟩ := foldl_keepsRest
    (fun rule hrule => keepsRest_rules options rule (List.mem_of_mem_take hrule))
    { (Output.commentRule.step draft).1 with relativePath := output.wayUp }
  simp only [draftAfter, runRules_draft]
  exact ⟨hsettings'.trans hsettings, hafter'.trans hafter⟩

/-- What a section captured is compiled like the content. Once the rule for sections has run, each
later rule, up to the last, makes of the content and of every fragment what it would make of the
text alone. So the fragments stay as many as they are and in their order, and nothing else in the
draft changes at any time. -/
theorem compile_sections_alike (options : CompileOptions) (draft : Draft) (output : Path) :
    let compiler : Compiler := ⟨options, []⟩
    let split := compiler.draftAfter draft output 13
    let later := behindSections options
    compiler.rules = (builtinRules options.dirs).take 12 ++ Directive.sectionRule :: later ∧
      later.map Rule.name = (["stack", "unless", "while", "yield", "escaped-output",
        "generic-call", "interpolation", "close-tag"] : List Text) ∧
      (compiler.compile draft output).draft =
        { split with
          content := alone later split.content
          before := split.before.map (alone later) } ∧
      (∀ count, compiler.draftAfter draft output (13 + count) =
        { split with
          content := alone (later.take count) split.content
          before := split.before.map (alone (later.take count)) }) ∧
      ∀ count, (compiler.draftAfter draft output count).settings = draft.settings ∧
        (compiler.draftAfter draft output count).after = draft.after := by
  intro compiler split later
  have hafter : ∀ count, compiler.draftAfter draft output (13 + count)
      = split.mapTexts (alone (later.take count)) := by
    intro count
    have hrules : compiler.rules.drop 13 = later := rfl
    rw [draftAfter_add, hrules]
    exact runRules_eq_alone
      (fun rule hrule => isUniform_behindSections options rule (List.mem_of_mem_take hrule)) _ _
  refine ⟨rfl, rfl, ?_, hafter, draftAfter_keepsRest options draft output⟩
  rw [← draftAfter_length]
  exact hafter 8

end Compiler

/-! ## The last tag -/

namespace Php

/-- A text is not cut at the last occurrence of a word when there is none. -/
theorem lastCut?_eq_none_iff {text word : Text} (hword : word ≠ []) :
    lastCut? text word = none ↔ ¬word <:+: text := by
  rw [lastCut?, Option.map_eq_none_iff, cut?_eq_none_iff (by simpa using hword),
    List.reverse_infix]

/-- A text that does not end open holds no tag, or its last one is closed. -/
theorem closed_of_not_unclosed {text : Text} (h : ¬Unclosed text) :
    ¬("<?php" : Text) <:+: text ∨ ∃ front rest, text = front ++ ("<?php" ++ rest) ∧
      ¬("<?php" : Text) <:+: rest ∧ ("?>" : Text) <:+: rest := by
  cases hcut : lastCut? text "<?php" with
  | none => exact .inl ((lastCut?_eq_none_iff (by decide)).1 hcut)
  | some pair =>
    obtain ⟨front, rest⟩ := pair
    obtain ⟨htext, hlast⟩ := (lastCut?_eq_some_iff (by decide)).1 hcut
    refine .inr ⟨front, rest, htext, hlast, ?_⟩
    by_contra hclosed
    exact h ⟨front, rest, htext, hlast, hclosed⟩

/-- The mark that closes the last tag does not open another one. -/
theorem not_unclosed_closeTag (text : Text) : ¬Unclosed (closeTag.run text) := by
  cases hopen : endsOpen text with
  | true =>
    have hrun : closeTag.run text = text ++ "?>" := by simp [closeTag, Rewrite.run, hopen]
    rw [hrun]
    exact (Template.sealed_close text).not_unclosed
  | false =>
    have hrun : closeTag.run text = text := by simp [closeTag, Rewrite.run, hopen]
    rw [hrun, ← endsOpen_iff, hopen]
    exact Bool.false_ne_true

end Php

namespace Compiler

/-- No text of a compiled draft ends with PHP switched on, whatever the extensions of the site are:
the last rule closes the tag that the content or a fragment leaves open, and changes nothing
else. -/
theorem compile_terminated (compiler : Compiler) (draft : Draft) (output : Path) :
    let compiled := (compiler.compile draft output).draft
    let last := compiler.draftAfter draft output (compiler.rules.length - 1)
    compiled = { last with
      content := Php.closeTag.run last.content
      before := last.before.map Php.closeTag.run } ∧
    ∀ text ∈ compiled.content :: compiled.before,
      ¬("<?php" : Text) <:+: text ∨ ∃ front rest, text = front ++ ("<?php" ++ rest) ∧
        ¬("<?php" : Text) <:+: rest ∧ ("?>" : Text) <:+: rest := by
  intro compiled last
  have hcompiled : compiled = last.mapTexts Php.closeTag.run := by
    obtain ⟨front, hrules⟩ : ∃ front, compiler.rules = front ++ [Output.closeTagRule] :=
      ⟨builtinRules compiler.options.dirs ++ compiler.extensions
        ++ (finalRules compiler.options).take 3, by simp [rules, finalRules]⟩
    have hlength : compiler.rules.length = compiler.rules.length - 1 + 1 := by simp [hrules]
    have hlast : (compiler.rules.drop (compiler.rules.length - 1)).take 1
        = [Output.closeTagRule] := by
      simp [hrules]
    show (compiler.compile draft output).draft = _
    rw [← draftAfter_length, hlength, draftAfter_add, hlast, runRules_draft]
    exact Rule.step_ofRewrite _ _ _
  refine ⟨hcompiled, ?_⟩
  have htexts : compiled.content :: compiled.before
      = (last.content :: last.before).map Php.closeTag.run := by
    rw [hcompiled]
    rfl
  rw [htexts]
  intro text htext
  obtain ⟨old, -, rfl⟩ := List.mem_map.1 htext
  exact Php.closed_of_not_unclosed (Php.not_unclosed_closeTag old)

end Compiler

end Pagewright
