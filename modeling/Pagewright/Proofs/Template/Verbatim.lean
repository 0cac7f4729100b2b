import Pagewright.Proofs.Template.Passes

/-!
# Texts that compile to themselves

A rule spares a text when it finds nothing to do in it. Every rule but the last spares the texts
that hold neither a directive nor an output tag (`Compiler.spares_rules`), and the last one closes a
PHP tag that is left open (`Php.Unclosed`). So such a text compiles to itself, closed if need be,
and the report names no other rule (`Compiler.compile_verbatim`).
-/

namespace Pagewright

open Text

namespace Text

/-- What it takes for a text to be directive-free: it holds no start of an output tag, and behind
none of its `@` does a word stand that counts on its own or has an argument list. -/
theorem directiveFree_iff {text : Text} :
    DirectiveFree text ↔ ¬("\x7b\x7b" : Text) <:+: text ∧ ¬("\x7b!!" : Text) <:+: text ∧
      ∀ front rest, text = front ++ '@' :: rest →
        (∀ start ∈ bareStarts, ¬start <+: rest.takeWhile isWordLetter) ∧
          ∀ tail, rest.dropWhile isWordLetter ≠ '(' :: tail ∧
            rest.dropWhile isWordLetter ≠ ' ' :: '(' :: tail := by
  have hdirective : ∀ rest, opensDirective rest = false ↔
      (∀ start ∈ bareStarts, ¬start <+: rest.takeWhile isWordLetter) ∧
        ∀ tail, rest.dropWhile isWordLetter ≠ '(' :: tail ∧
          rest.dropWhile isWordLetter ≠ ' ' :: '(' :: tail := by
    intro rest
    rw [← Bool.not_eq_true, opensDirective_iff, parenthesis?_isSome_iff]
    simp only [not_or, not_exists, not_and, ne_eq]
  constructor
  · intro h
    refine ⟨?_, ?_, ?_⟩
    · rintro ⟨front, back, rfl⟩
      exact Bool.noConfusion (h.of_infix ⟨front, back, rfl⟩).1
    · rintro ⟨front, back, rfl⟩
      exact Bool.noConfusion (h.of_infix ⟨front, back, rfl⟩).1
    · rintro front rest rfl
      have hat := (along_append.1 h).2.1
      rw [List.append_nil] at hat
      exact (hdirective rest).1 hat
  · rintro ⟨hecho, hraw, hat⟩
    induction text with
    | nil => trivial
    | cons c text ih =>
      have hinside : ∀ {word : Text}, ¬word <:+: c :: text → ¬word <:+: text :=
        fun h hword => h (hword.trans (List.suffix_cons _ _).isInfix)
      refine ⟨?_, ih (hinside hecho) (hinside hraw) fun front rest htext =>
        hat (c :: front) rest (by rw [htext]; rfl)⟩
      rw [List.append_nil]
      by_cases hc : c = '@'
      · subst hc
        exact (hdirective text).2 (hat [] text rfl)
      · by_cases hbrace : c = '\x7b'
        · subst hbrace
          rw [silent_brace, ← Bool.not_eq_true, opensTag_iff]
          rintro ⟨rest, rfl | rfl⟩
          · exact hecho ⟨[], rest, rfl⟩
          · exact hraw ⟨[], rest, rfl⟩
        · exact silent_cons hc hbrace text

end Text

/-! ## Rewrites that find nothing -/

namespace Rewrite

/-- The rewrite finds nothing to do in a text without directives. -/
def Spares (rewrite : Rewrite) : Prop :=
  ∀ text, DirectiveFree text → rewrite text = none

/-- A rewrite of pieces spares a text when its reader recognises nothing at a silent head. -/
theorem spares_pieces {α : Type} {read : Text → Option (Piece α)}
    (h : ∀ text, Silent text → read text = none) (f : α → Option Text) :
    Spares fun text => Piece.rewrite? f (text.pieces read) := by
  intro text hfree
  have hpieces : text.pieces read = Piece.letters text := by
    have hall : Along (read · = none) text [] := hfree.mono h
    simpa using pieces_append_of_along hall
  simp [hpieces, Piece.rewrite?]

/-- A proper element finds no mark of its own in such a text. -/
theorem spares_element {element : Element} (h : element.isProper = true) :
    element.rewrite.Spares := by
  have habsent : ∀ text, Silent text → element.pattern.Absent text :=
    fun _ => Pattern.absent_of_silent (Element.isProper_pattern h)
  cases element with
  | calls name f => exact spares_pieces habsent f
  | regions name close f =>
    exact spares_pieces (fun text hs => Region.read_of_call (habsent text hs)) f
  | token word new =>
    rw [Element.eq_cons_of_isProper_token h]
    exact spares_pieces habsent _
  | literal word new =>
    rw [Element.eq_cons_of_isProper_literal h]
    exact spares_pieces (fun text hs => Option.map_eq_none_iff.2 (habsent text hs)) _

/-- Two rewrites that find nothing do so one after the other. -/
theorem Spares.andThen {first second : Rewrite} (h : first.Spares) (h' : second.Spares) :
    (first.andThen second).Spares := by
  intro text hfree
  simp [Rewrite.andThen, h text hfree, h' text hfree]

/-- A rewrite with proper elements finds nothing in a text without directives. -/
theorem spares_ofElements {elements : List Element} (h : elements.all Element.isProper = true) :
    (ofElements elements).Spares :=
  ofElements_induction (fun _ _ => rfl) Spares.andThen fun element he =>
    spares_element (List.all_eq_true.1 h element he)

end Rewrite

/-! ## Rules that find nothing -/

namespace Rule

/-- The rule leaves a draft alone whose content has no directives. -/
def Spares (rule : Rule) : Prop :=
  ∀ draft : Draft, DirectiveFree draft.content → rule.apply draft = none

theorem spares_ofContent (name : Text) {rewrite : Text → Rewrite} (h : ∀ up, (rewrite up).Spares) :
    (ofContent name rewrite).Spares := by
  intro draft hfree
  exact Option.map_eq_none_iff.2 (h draft.relativePath draft.content hfree)

theorem spares_ofRewrite (name : Text) {rewrite : Rewrite} (h : rewrite.Spares) :
    (ofRewrite name rewrite).Spares :=
  spares_ofContent name fun _ => h

/-- A rule with proper elements finds nothing in a text without directives. -/
theorem spares_elements (name : Text) {elements : List Element}
    (h : elements.all Element.isProper = true) : (Rule.ofElements name elements).Spares :=
  spares_ofRewrite name (Rewrite.spares_ofElements h)

/-- A rule that finds nothing leaves a draft as it is and reports nothing. -/
theorem Spares.step_eq {rule : Rule} (h : rule.Spares) {draft : Draft}
    (hfree : DirectiveFree draft.content) (hbefore : draft.before = []) :
    rule.step draft = (draft, false) := by
  have hnone := h draft hfree
  obtain ⟨content, relativePath, settings, before, after⟩ := draft
  obtain rfl : before = [] := hbefore
  simp [step, onFragments, hnone]

end Rule

namespace Directive

open Rewrite Rule

theorem spares_sectionRule : sectionRule.Spares := fun draft hfree =>
  Option.map_eq_none_iff.2 (spares_ofElements rfl draft.content hfree)

end Directive

namespace Compiler

open Rewrite Rule Directive

/-- No built-in rule finds anything in a text without directives. -/
theorem spares_builtinRules (dirs : Conventions) : ∀ rule ∈ builtinRules dirs, rule.Spares := by
  simp only [builtinRules, List.forall_mem_cons]
  refine ⟨spares_elements _ rfl, spares_ofContent _ fun _ => spares_ofElements rfl,
    spares_elements _ rfl, spares_elements _ rfl, spares_elements _ rfl, spares_elements _ rfl,
    spares_elements _ rfl, spares_elements _ rfl, spares_elements _ rfl, spares_elements _ rfl,
    spares_ofContent _ fun _ => spares_ofElements rfl, spares_elements _ rfl, spares_sectionRule,
    spares_elements _ rfl, spares_elements _ rfl, spares_elements _ rfl, spares_elements _ rfl,
    List.forall_mem_nil _⟩

theorem spares_commentRule : Output.commentRule.Spares :=
  spares_ofRewrite _ (spares_pieces (fun _ => Pattern.absent_of_silent (p := .comment) rfl) _)

/-- All rules but the one that closes a tag, where the site has no extensions. -/
theorem spares_rules (options : CompileOptions) :
    ∀ rule ∈ builtinRules options.dirs ++ (finalRules options).take 3, rule.Spares := by
  intro rule hrule
  rcases List.mem_append.1 hrule with hbuiltin | hfinal
  · exact spares_builtinRules options.dirs rule hbuiltin
  · have hraw : Output.rawRule.Spares :=
      spares_ofRewrite _ (spares_pieces (fun _ => Pattern.absent_of_silent (p := .raw) rfl) _)
    have hleftover : Output.leftoverRule.Spares :=
      spares_ofRewrite _
        ((spares_pieces (fun _ => Pattern.absent_of_silent (p := .leftover) rfl) _).andThen
          (spares_pieces (fun _ => Pattern.absent_of_silent (p := .leftoverEnd) rfl) _))
    have hecho : (Output.echoRule options.safeOutput).Spares :=
      spares_ofRewrite _ (spares_pieces (fun _ => Pattern.absent_of_silent (p := .echo) rfl) _)
    have hall : ∀ rule ∈ [Output.rawRule, Output.leftoverRule, Output.echoRule options.safeOutput],
        rule.Spares :=
      List.forall_mem_cons.2 ⟨hraw, List.forall_mem_cons.2
        ⟨hleftover, List.forall_mem_cons.2 ⟨hecho, List.forall_mem_nil _⟩⟩⟩
    exact hall rule hfinal

/-- Rules that find nothing change nothing, and the report stays as it was. -/
theorem runRules_of_spares {rules : List Rule} (h : ∀ rule ∈ rules, rule.Spares)
    {compiled : Compiled} (hfree : DirectiveFree compiled.draft.content)
    (hbefore : compiled.draft.before = []) : runRules rules compiled = compiled := by
  induction rules with
  | nil => rfl
  | cons rule rules ih =>
    obtain ⟨hrule, hrules⟩ := List.forall_mem_cons.1 h
    rw [runRules, hrule.step_eq hfree hbefore]
    exact ih hrules

end Compiler

/-! ## The tag that is left open -/

namespace Php

/-- The last rule on a draft without fragments: its report is whether the content ends open. -/
theorem step_closeTagRule {draft : Draft} (hbefore : draft.before = []) :
    Output.closeTagRule.step draft =
      ({ draft with content := closeTag.run draft.content }, endsOpen draft.content) := by
  obtain ⟨content, relativePath, settings, before, after⟩ := draft
  obtain rfl : before = [] := hbefore
  cases hopen : endsOpen content <;>
    simp [Output.closeTagRule, Rule.step, Rule.onFragments, Rule.ofRewrite, Rule.ofContent,
      Rewrite.run, closeTag, hopen]

end Php

namespace Compiler

/-- What becomes of a draft without directives and without fragments: the tag it leaves open is
closed. -/
theorem compile_of_directiveFree (options : CompileOptions) {draft : Draft}
    (hfree : DirectiveFree draft.content) (hbefore : draft.before = []) (output : Path) :
    compile ⟨options, []⟩ draft output =
      ⟨{ draft with content := Php.closeTag.run draft.content, relativePath := output.wayUp },
        if Php.endsOpen draft.content then ["close-tag"] else []⟩ := by
  have hcomments : runRules [Output.commentRule] ⟨draft, []⟩ = ⟨draft, []⟩ :=
    runRules_of_spares (List.forall_mem_cons.2 ⟨spares_commentRule, List.forall_mem_nil _⟩) hfree
      hbefore
  have hrules : rules ⟨options, []⟩ =
      (builtinRules options.dirs ++ (finalRules options).take 3) ++ [Output.closeTagRule] := by
    simp [rules, finalRules]
  let start : Draft := { draft with relativePath := output.wayUp }
  have hstart : compile ⟨options, []⟩ draft output =
      runRules (rules ⟨options, []⟩) ⟨start, []⟩ := by
    rw [compile, hcomments]
  have hspared : runRules (builtinRules options.dirs ++ (finalRules options).take 3) ⟨start, []⟩
      = ⟨start, []⟩ :=
    runRules_of_spares (spares_rules options) hfree hbefore
  have hclose : Output.closeTagRule.step start = _ := Php.step_closeTagRule hbefore
  rw [hstart, hrules, runRules_append, hspared, runRules, hclose]
  rfl

/-- A text compiles to itself when it holds no start of an output tag and when behind none of its
`@` stands a word that counts on its own or has an argument list. Only a PHP tag that it leaves open
is closed, and only then does the report name a rule. -/
theorem compile_verbatim (options : CompileOptions) (output : Path) {text : Text}
    (hecho : ¬("\x7b\x7b" : Text) <:+: text) (hraw : ¬("\x7b!!" : Text) <:+: text)
    (hat : ∀ front rest, text = front ++ '@' :: rest →
      (∀ start ∈ bareStarts, ¬start <+: rest.takeWhile isWordLetter) ∧
        ∀ tail, rest.dropWhile isWordLetter ≠ '(' :: tail ∧
          rest.dropWhile isWordLetter ≠ ' ' :: '(' :: tail) :
    (Php.Unclosed text →
        compile ⟨options, []⟩ { content := text } output =
          ⟨{ content := text ++ "?>", before := [], relativePath := output.wayUp },
            ["close-tag"]⟩) ∧
      (¬Php.Unclosed text →
        compile ⟨options, []⟩ { content := text } output =
          ⟨{ content := text, before := [], relativePath := output.wayUp }, []⟩) := by
  have hfree : DirectiveFree text := directiveFree_iff.2 ⟨hecho, hraw, hat⟩
  have hcompile := compile_of_directiveFree options
    (show DirectiveFree ({ content := text } : Draft).content from hfree) rfl output
  constructor
  · intro hopen
    rw [hcompile]
    simp [Php.closeTag, Rewrite.run, Php.endsOpen_iff.2 hopen]
  · intro hclosed
    rw [hcompile]
    simp [Php.closeTag, Rewrite.run, mt Php.endsOpen_iff.1 hclosed]

/-- An address, a rule of a style sheet and a lone brace stay as they are, and the tag behind them
is closed. -/
theorem compile_verbatim_address :
    compile ⟨{}, []⟩ { content := "me@a.org @media x \x7by\x7d <?php f()" } ⟨"b/i.php"⟩ =
      ⟨{ content := "me@a.org @media x \x7by\x7d <?php f()?>", before := [],
          relativePath := "/.." }, ["close-tag"]⟩ := by
  have hfree : DirectiveFree ("me@a.org @media x \x7by\x7d <?php f()" : Text) := by decide +kernel
  obtain ⟨hecho, hraw, hat⟩ := directiveFree_iff.1 hfree
  have hopen : Php.Unclosed "me@a.org @media x \x7by\x7d <?php f()" :=
    ⟨"me@a.org @media x \x7by\x7d ", " f()", rfl, by decide, by decide⟩
  have hup : Path.wayUp ⟨"b/i.php"⟩ = "/.." := by decide +kernel
  rw [(compile_verbatim {} ⟨"b/i.php"⟩ hecho hraw hat).1 hopen, hup]
  rfl

end Compiler

end Pagewright
