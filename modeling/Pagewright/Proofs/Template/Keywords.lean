import Pagewright.Proofs.Template.Stretches

/-!
# The directives with arguments

All built-in directives but `@else` take a list of arguments (`Keyword`). The rule of each goes over
the text once for each of its elements (`Element.sweep`, `Keyword.passes`): first for the calls of
its word, or for the regions that they open, and then for a closing or a bare word, or, for `@push`,
for regions.
`Keyword.content_rule` says that the rule does to the content what these passes do one after
another, so that a stretch of the text can be followed through them (`Sweep.KeepsAll`,
`Sweep.Eventually`).
-/

namespace Pagewright

open Text

/-- A region is read with its closing word, and is spelled as it stands. -/
theorem Region.source_of_read {name close text source : Text} {region : Region}
    (h : Region.read name close text = some ⟨source, some region⟩) :
    source = region.source ∧ region.close = close := by
  unfold Region.read at h
  split at h
  · cases h
  · cases h
  · split at h
    · obtain ⟨hsource, hregion⟩ := Piece.mk.inj (Option.some.inj h)
      obtain rfl := Option.some.inj hregion
      exact ⟨hsource.symm, rfl⟩
    · cases h

/-- A text can be cut at a word when the word stands in it. -/
theorem Text.exists_cut?_iff {text word : Text} (hword : word ≠ []) :
    (∃ before rest, cut? text word = some (before, rest)) ↔ word <:+: text := by
  rw [← not_iff_not, ← cut?_eq_none_iff hword, Option.eq_none_iff_forall_ne_some]
  simp

namespace Call

variable {name back args rest : Text} {spaced : Bool}

theorem parenthesis?_opening :
    ((opening name spaced ++ back).after? ('@' :: name)).bind parenthesis? =
      some (spaced, back) := by
  rw [opening, List.append_assoc, after?_append, Option.bind_some]
  cases spaced <;> rfl

/-- An opening whose parenthesis is closed is read as a call. -/
theorem read_opening_of_closing (h : closing? back = some (args, rest)) :
    read name (opening name spaced ++ back) =
      some ⟨source ⟨name, spaced, args⟩, some ⟨name, spaced, args⟩⟩ := by
  simp only [read, parenthesis?_opening, h]

/-- An opening whose parenthesis is never closed is passed over. -/
theorem read_opening_of_not_closing (h : closing? back = none) :
    read name (opening name spaced ++ back) = some ⟨opening name spaced, none⟩ := by
  simp only [read, parenthesis?_opening, h]

theorem opening_append_of_closing (h : closing? back = some (args, rest)) :
    opening name spaced ++ back = source ⟨name, spaced, args⟩ ++ rest := by
  rw [eq_append_of_closing? h, source]
  simp

end Call

namespace Region

variable {name close back args rest body behind : Text} {spaced : Bool}

/-- Nor does an opening that is never closed start a region. -/
theorem read_opening_of_not_closing (h : closing? back = none) :
    read name close (Call.opening name spaced ++ back) = some ⟨Call.opening name spaced, none⟩ := by
  simp only [read, Call.read_opening_of_not_closing h]

/-- A call with the closing word behind it is read as a region. -/
theorem read_opening_of_cut (h : closing? back = some (args, rest))
    (hcut : cut? rest close = some (body, behind)) :
    read name close (Call.opening name spaced ++ back) =
      some ⟨source ⟨⟨name, spaced, args⟩, body, close⟩,
        some ⟨⟨name, spaced, args⟩, body, close⟩⟩ := by
  rw [read, Call.read_opening_of_closing h, Call.opening_append_of_closing h]
  simp only [List.drop_left, hcut]

/-- A call without the closing word behind it ends the search for regions. -/
theorem read_opening_of_not_cut (h : closing? back = some (args, rest))
    (hcut : cut? rest close = none) :
    read name close (Call.opening name spaced ++ back) =
      some ⟨Call.opening name spaced ++ back, none⟩ := by
  rw [read, Call.read_opening_of_closing h, Call.opening_append_of_closing h]
  simp only [List.drop_left, hcut]

end Region

/-! ## Passes of four kinds -/

namespace Sweep

/-- Replaces the calls of `name` for which `f` has an answer. -/
def calls (name : Text) (f : Call → Option Text) : Sweep :=
  of (Call.read name) f

/-- Replaces the regions between calls of `name` and `close` for which `f` has an answer. -/
def regions (name close : Text) (f : Region → Option Text) : Sweep :=
  of (Region.read name close) f

/-- Replaces a bare word. -/
def token (word new : Text) : Sweep :=
  of (Token.read word) fun _ => some new

/-- Replaces a word, whatever follows it. -/
def literal (word new : Text) : Sweep :=
  of (fun text => (text.after? word).map fun _ => (⟨word, some ()⟩ : Piece Unit)) fun _ => some new

theorem faithful_calls (name : Text) (f : Call → Option Text) : Faithful (calls name f) :=
  faithful_of (Call.faithful_read name)

theorem faithful_regions (name close : Text) (f : Region → Option Text) :
    Faithful (regions name close f) :=
  faithful_of (Region.faithful_read name close)

theorem faithful_token {word : Text} (hw : word ≠ []) (new : Text) : Faithful (token word new) :=
  faithful_of (Token.faithful_read hw)

theorem faithful_literal {word : Text} (hw : word ≠ []) (new : Text) :
    Faithful (literal word new) :=
  faithful_of (faithful_after? hw)

theorem run_calls (name : Text) (f : Call → Option Text) (text : Text) :
    (calls name f).run text = (Rewrite.calls name f).run text :=
  (run_of text).trans (Rewrite.run_pieces (Call.faithful_read name) f text).symm

theorem run_regions (name close : Text) (f : Region → Option Text) (text : Text) :
    (regions name close f).run text = (Rewrite.regions name close f).run text :=
  (run_of text).trans (Rewrite.run_pieces (Region.faithful_read name close) f text).symm

/-- The pass for a bare word does what the rewrite for it does. -/
theorem run_token {word : Text} (hw : word ≠ []) (new text : Text) :
    (token word new).run text = (Rewrite.token word new).run text := by
  refine (run_of text).trans ((Rewrite.run_pieces (Token.faithful_read hw) _ text).symm.trans ?_)
  simp only [Rewrite.run, Rewrite.token, Token.pieces, if_neg hw]

/-- The pass for a word does what the rewrite for it does. -/
theorem run_literal {word : Text} (hw : word ≠ []) (new text : Text) :
    (literal word new).run text = (Rewrite.literal word new).run text := by
  refine (run_of text).trans ((Rewrite.run_pieces (faithful_after? hw) _ text).symm.trans ?_)
  simp only [Rewrite.run, Rewrite.literal, occurrences, if_neg hw]

/-! ## What the passes recognise -/

/-- What a pass for calls replaces is a call. -/
theorem source_of_calls {name : Text} {f : Call → Option Text} {text source new : Text}
    (h : calls name f text = some ⟨source, some new⟩) : ∃ call : Call, source = call.source := by
  obtain ⟨call, hread, -⟩ := of_eq_some_iff.1 h
  exact ⟨call, Call.source_of_read hread⟩

/-- What a pass for regions replaces is a call up to the closing word. -/
theorem source_of_regions {name close : Text} {f : Region → Option Text} {text source new : Text}
    (h : regions name close f text = some ⟨source, some new⟩) :
    ∃ (call : Call) (body : Text), source = call.source ++ body ++ close := by
  obtain ⟨region, hread, -⟩ := of_eq_some_iff.1 h
  obtain ⟨hsource, hclose⟩ := Region.source_of_read hread
  exact ⟨region.call, region.body, by rw [hsource, Region.source, hclose]⟩

/-- What a pass for a bare word replaces is the word. -/
theorem source_of_token {word new : Text} {text : Text} {piece : Piece Text}
    (h : token word new text = some piece) : piece = ⟨word, some new⟩ ∧ word <+: text := by
  obtain ⟨found, hread, rfl⟩ := Option.map_eq_some_iff.1 h
  unfold Token.read at hread
  split at hread
  case h_1 rest hafter =>
    split at hread
    · obtain rfl := Option.some.inj hread
      exact ⟨rfl, rest, (after?_eq_some_iff.1 hafter).symm⟩
    · cases hread
  case h_2 => cases hread

theorem source_of_literal {word new : Text} {text : Text} {piece : Piece Text}
    (h : literal word new text = some piece) : piece = ⟨word, some new⟩ ∧ word <+: text := by
  obtain ⟨found, hread, rfl⟩ := Option.map_eq_some_iff.1 h
  obtain ⟨rest, hafter, rfl⟩ := Option.map_eq_some_iff.1 hread
  exact ⟨rfl, rest, (after?_eq_some_iff.1 hafter).symm⟩

/-- No call ends inside of a word without a parenthesis. -/
theorem clears_calls (name : Text) (f : Call → Option Text) {word : Text} (hword : ')' ∉ word) :
    (calls name f).Clears '@' word := by
  refine @clears_of_last _ '@' ')' word (fun text source new h => ?_) hword
  obtain ⟨call, rfl⟩ := source_of_calls h
  exact ⟨by simp [Call.source, Call.opening], by simp [Call.source]⟩

/-- No region ends inside of another word. -/
theorem clears_regions (name : Text) (f : Region → Option Text) {close word : Text}
    (hclose : '@' ∉ close) (hword : '@' ∉ word) (hne : ¬close <+: word) :
    (regions name ('@' :: close) f).Clears '@' ('@' :: word) := by
  refine clears_of_close (fun text source new h => ?_) hclose hword hne
  obtain ⟨call, body, rfl⟩ := source_of_regions h
  exact ⟨by simp [Call.source, Call.opening], List.suffix_append _ _⟩

/-- Bare words do not overlap with other words. -/
theorem clears_token {close : Text} (hclose : '@' ∉ close) (new word : Text) :
    (token ('@' :: close) new).Clears '@' ('@' :: word) := by
  refine clears_of_mark (fun text source new h => ?_) rfl
  cases (source_of_token h).1
  exact ⟨rfl, hclose⟩

theorem clears_literal {close : Text} (hclose : '@' ∉ close) (new word : Text) :
    (literal ('@' :: close) new).Clears '@' ('@' :: word) := by
  refine clears_of_mark (fun text source new h => ?_) rfl
  cases (source_of_literal h).1
  exact ⟨rfl, hclose⟩

/-! ## One pass after another -/

/-- The text after all of the passes. -/
def runAll : List Sweep → Text → Text
  | [], text => text
  | s :: passes, text => runAll passes (s.run text)

/-- Each of the passes keeps the stretch. -/
def KeepsAll : List Sweep → Stretch → Stretch → Prop
  | [], a, b => a = b
  | s :: passes, a, c => ∃ b, s.Keeps a b ∧ KeepsAll passes b c

/-- `P` holds of one of the passes and the stretch, and the passes before that keep the stretch. -/
def Eventually (P : Sweep → Stretch → Prop) : List Sweep → Stretch → Prop
  | [], _ => False
  | s :: passes, a => P s a ∨ ∃ b, s.Keeps a b ∧ Eventually P passes b

/-- A stretch that all passes keep stands in what they leave. -/
theorem KeepsAll.runAll_eq {passes : List Sweep} {a b : Stretch} (h : KeepsAll passes a b) :
    runAll passes a.text = b.text := by
  induction passes generalizing a with
  | nil => exact congrArg Stretch.text h
  | cons s passes ih =>
    obtain ⟨c, hc, hrest⟩ := h
    rw [runAll, hc.run_eq, ih hrest]

/-- When `P` says for each pass what keeps it from keeping the word, other than taking it, the same
goes for all of the passes. -/
theorem keepsAll_or_eventually_iff {P : Sweep → Stretch → Prop} {passes : List Sweep} {word : Text}
    (hfaithful : ∀ s ∈ passes, Faithful s)
    (hiff : ∀ s ∈ passes, ∀ a : Stretch, a.word = word →
      ((∃ b, s.Keeps a b) ∨ P s a ↔ ¬s.Takes a))
    (hnot : ∀ s ∈ passes, ∀ a b : Stretch, a.word = word → s.Keeps a b → ¬P s a)
    {a : Stretch} (hword : a.word = word) :
    (∃ b, KeepsAll passes a b) ∨ Eventually P passes a ↔ ¬Eventually Takes passes a := by
  induction passes generalizing a with
  | nil => simp [KeepsAll, Eventually]
  | cons s passes ih =>
    have hs := hfaithful s (by simp)
    have hhere := hiff s (by simp) a hword
    -- Behind a pass that keeps the word the claim holds of the other passes.
    have hrest : ∀ {b}, s.Keeps a b →
        ((∃ c, KeepsAll passes b c) ∨ Eventually P passes b ↔ ¬Eventually Takes passes b) :=
      fun {b} hb => ih (fun t ht => hfaithful t (by simp [ht])) (fun t ht => hiff t (by simp [ht]))
        (fun t ht => hnot t (by simp [ht])) (hb.word_eq.trans hword)
    constructor
    · rintro hdone (htakes | ⟨b, hb, htakes⟩)
      · rcases hdone with ⟨c, b, hb, -⟩ | hP | ⟨b, hb, -⟩
        · exact hhere.1 (.inl ⟨b, hb⟩) htakes
        · exact hhere.1 (.inr hP) htakes
        · exact hhere.1 (.inl ⟨b, hb⟩) htakes
      · rcases hdone with ⟨c, b', hb', hkeeps⟩ | hP | ⟨b', hb', hP⟩
        · obtain rfl := hb.unique hs hb'
          exact (hrest hb).1 (.inl ⟨c, hkeeps⟩) htakes
        · exact hnot s (by simp) a b hword hb hP
        · obtain rfl := hb.unique hs hb'
          exact (hrest hb).1 (.inr hP) htakes
    · intro hnone
      rcases hhere.2 fun htakes => hnone (.inl htakes) with ⟨b, hb⟩ | hP
      · rcases (hrest hb).2 fun htakes => hnone (.inr ⟨b, hb, htakes⟩) with ⟨c, hc⟩ | hP
        · exact .inl ⟨c, b, hb, hc⟩
        · exact .inr (.inr ⟨b, hb, hP⟩)
      · exact .inr (.inl hP)

/-- Passes that clear a word keep it just when it does not lie inside of what one of them replaces,
and none of them takes it. -/
theorem keepsAll_or_covers_iff {passes : List Sweep} {mark : Char} {word : Text}
    (hmark : mark ∉ word) (hfaithful : ∀ s ∈ passes, Faithful s)
    (hclears : ∀ s ∈ passes, s.Clears mark (mark :: word))
    {a : Stretch} (hword : a.word = mark :: word) :
    (∃ b, KeepsAll passes a b) ∨ Eventually Covers passes a ↔ ¬Eventually Takes passes a := by
  refine keepsAll_or_eventually_iff hfaithful (fun s hs a hword => ?_) (fun s hs a b hword hb => ?_)
    hword
  · have hne : a.word ≠ [] := by simp [hword]
    constructor
    · rintro (⟨b, hb⟩ | hcovers)
      · exact hb.not_takes (hfaithful s hs) hne
      · exact hcovers.not_takes (hfaithful s hs) hne
    · intro hnone
      rcases keeps_or_covers_or_takes (hfaithful s hs) hword hmark (hword ▸ hclears s hs) with
        hkeeps | hcovers | htakes
      · exact .inl hkeeps
      · exact .inr hcovers
      · exact absurd htakes hnone
  · exact hb.not_covers (by simp [hword])

end Sweep

/-! ## Elements and their passes -/

namespace Element

/-- The pass for an element. -/
def sweep : Element → Sweep
  | .calls name f => .calls name f
  | .regions name close f => .regions name close f
  | .token word new => .token word new
  | .literal word new => .literal word new

/-- Whether a word that an element looks for is one. -/
def isWorded : Element → Bool
  | .calls .. => true
  | .regions .. => true
  | .token word _ => word ≠ []
  | .literal word _ => word ≠ []

/-- A pass does what the rewrite with its element does. -/
theorem run_sweep {element : Element} (h : element.isWorded = true) (text : Text) :
    element.sweep.run text = element.rewrite.run text := by
  cases element with
  | calls name f => exact Sweep.run_calls name f text
  | regions name close f => exact Sweep.run_regions name close f text
  | token word new => exact Sweep.run_token (of_decide_eq_true h) new text
  | literal word new => exact Sweep.run_literal (of_decide_eq_true h) new text

/-- The passes for some elements do one after another what the rewrite with all of them does. -/
theorem runAll_sweep {elements : List Element} (h : ∀ element ∈ elements, element.isWorded = true)
    (text : Text) :
    Sweep.runAll (elements.map sweep) text = (Rewrite.ofElements elements).run text := by
  induction elements generalizing text with
  | nil => rfl
  | cons element rest ih =>
    obtain ⟨hfirst, hrest⟩ := List.forall_mem_cons.1 h
    rw [List.map_cons, Sweep.runAll, run_sweep hfirst, ih hrest, Rewrite.run_ofElements_cons]

end Element

/-! ## The directives -/

/-- The built-in directives that take arguments. -/
inductive Keyword where
  | break
  | component
  | continue
  | elseif
  | empty
  | for
  | foreach
  | set
  | if
  | include
  | push
  | section
  | stack
  | unless
  | while
  | yield
  deriving Repr, DecidableEq

namespace Keyword

/-- The rule of a directive. -/
def rule (dirs : Conventions) : Keyword → Rule
  | .break => Directive.breakRule
  | .component => Directive.componentRule dirs.includes
  | .continue => Directive.continueRule
  | .elseif => Directive.elseifRule
  | .empty => Directive.emptyRule
  | .for => Directive.loopRule .for
  | .foreach => Directive.loopRule .foreach
  | .set => Directive.setRule
  | .if => Directive.ifRule
  | .include => Directive.includeRule dirs.includes
  | .push => Directive.pushRule
  | .section => Directive.sectionRule
  | .stack => Directive.stackRule
  | .unless => Directive.unlessRule
  | .while => Directive.loopRule .while
  | .yield => Directive.yieldRule

/-- The elements of a rule, for partials in `dir` and a page from which `up` leads to the root. -/
def elements (dir up : Text) : Keyword → List Element
  | .break => Directive.breakElements
  | .component => Directive.componentElements dir up
  | .continue => Directive.continueElements
  | .elseif => Directive.elseifElements
  | .empty => Directive.emptyElements
  | .for => Directive.loopElements .for
  | .foreach => Directive.loopElements .foreach
  | .set => Directive.setElements
  | .if => Directive.ifElements
  | .include => Directive.includeElements dir up
  | .push => Directive.pushElements
  | .section => Directive.sectionElements
  | .stack => Directive.stackElements
  | .unless => Directive.unlessElements
  | .while => Directive.loopElements .while
  | .yield => Directive.yieldElements

/-- The word of a directive, which is the name of its rule. -/
def word (k : Keyword) : Text :=
  (k.rule {}).name

/-- The passes of a rule, one for each of its elements. -/
def passes (dir up : Text) (k : Keyword) : List Sweep :=
  (k.elements dir up).map Element.sweep

/-- The pass for jumps with a condition. -/
def jumpCalls (word : Text) : Sweep :=
  (Directive.jumpCalls word).sweep

/-- The pass for jumps without one. -/
def jumpToken (word : Text) : Sweep :=
  (Directive.jumpToken word).sweep

/-- The pass for values that are pushed. -/
def pushCalls : Sweep :=
  Directive.pushCalls.sweep

/-- The pass for blocks that are pushed. -/
def pushRegions : Sweep :=
  Directive.pushRegions.sweep

/-- Every built-in rule but the one for `@else` is the rule of a directive with arguments. -/
theorem exists_rule_eq {dirs : Conventions} {rule : Rule} (h : rule ∈ builtinRules dirs) :
    rule = Directive.elseRule ∨ ∃ k : Keyword, k.rule dirs = rule := by
  simp only [builtinRules, List.mem_cons, List.not_mem_nil, or_false] at h
  rcases h with rfl | rfl | rfl | rfl | rfl | rfl | rfl | rfl | rfl | rfl | rfl | rfl | rfl | rfl |
    rfl | rfl | rfl
  · exact .inr ⟨.break, rfl⟩
  · exact .inr ⟨.component, rfl⟩
  · exact .inr ⟨.continue, rfl⟩
  · exact .inl rfl
  · exact .inr ⟨.elseif, rfl⟩
  · exact .inr ⟨.empty, rfl⟩
  · exact .inr ⟨.for, rfl⟩
  · exact .inr ⟨.foreach, rfl⟩
  · exact .inr ⟨.set, rfl⟩
  · exact .inr ⟨.if, rfl⟩
  · exact .inr ⟨.include, rfl⟩
  · exact .inr ⟨.push, rfl⟩
  · exact .inr ⟨.section, rfl⟩
  · exact .inr ⟨.stack, rfl⟩
  · exact .inr ⟨.unless, rfl⟩
  · exact .inr ⟨.while, rfl⟩
  · exact .inr ⟨.yield, rfl⟩

/-! ## What the rules do to the content -/

/-- The words that the elements look for are not empty. -/
theorem isWorded_elements (dir up : Text) (k : Keyword) :
    ∀ element ∈ k.elements dir up, element.isWorded = true := by
  cases k <;> exact List.all_eq_true.1 rfl

/-- The rule for sections adds fragments in front of the content; the others change the content
alone. -/
theorem rule_eq (dirs : Conventions) {k : Keyword} (h : k ≠ .section) :
    k.rule dirs = .ofContent k.word fun up => .ofElements (k.elements dirs.includes up) := by
  cases k
  case «section» => exact absurd rfl h
  all_goals rfl

/-- The rule for sections does to the content what its rewrite does. -/
theorem content_sectionRule (draft : Draft) :
    ((Directive.sectionRule.apply draft).getD draft).content =
      (Rewrite.ofElements Directive.sectionElements).run draft.content := by
  have happly : Directive.sectionRule.apply draft =
      (Rewrite.ofElements Directive.sectionElements draft.content).map fun content =>
        { draft with
          content
          before := draft.before ++ (Piece.values
            (Region.pieces "section" Directive.sectionClose draft.content)).filterMap
              Directive.sectionCapture } := rfl
  rw [happly, Rewrite.run]
  cases Rewrite.ofElements Directive.sectionElements draft.content <;> rfl

/-- A rule does to the content what its passes do. -/
theorem content_rule (k : Keyword) (dirs : Conventions) (draft : Draft) :
    (((k.rule dirs).apply draft).getD draft).content =
      Sweep.runAll (k.passes dirs.includes draft.relativePath) draft.content := by
  rw [passes, Element.runAll_sweep (k.isWorded_elements _ _)]
  by_cases h : k = .section
  · subst h
    exact content_sectionRule draft
  · rw [rule_eq dirs h]
    exact Rule.content_ofContent k.word (fun up => .ofElements (k.elements dirs.includes up)) draft

end Keyword

end Pagewright
