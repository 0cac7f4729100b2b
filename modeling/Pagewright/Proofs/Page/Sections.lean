import Pagewright.Page.Basic
import Pagewright.Proofs.Template.Regions
import Pagewright.Proofs.Template.Translation

/-!
# Sections of a page

A section leaves the content and becomes a fragment that captures it, and the fragments run before
the content. They run in the order in which the sections stand in the text, whatever they read from
one another: a section may read one that is captured behind it, or itself. What can be said is that
a capture comes before every reader in the content, and before those in the fragments behind its own
(`Page.render_sections`).
-/

namespace Pagewright

namespace Template

/-- The sections of a text that have a name, with their byte offsets. -/
def sections (text : Text) : List (Nat × Nat × Region) :=
  (Piece.located 0 (Region.pieces "section" "@endsection" text)).filter fun found =>
    found.2.2.args.bareName ≠ []

/-- A section is captured under its bare name. -/
theorem captures_eq (text : Text) :
    captures text = (sections text).map fun found =>
      Directive.capture found.2.2.args.bareName found.2.2.body := by
  rw [captures, ← Piece.values_located 0, Directive.filterMap_sectionCapture]
  rfl

/-- Sections do not overlap and stand in order. -/
theorem pairwise_sections (text : Text) :
    (sections text).Pairwise fun a b => a.2.1 ≤ b.1 :=
  (Piece.pairwise_located _ _).filter _

end Template

/-! ## Places of fragments -/

namespace Assembly

/-- Parts of a program, each with the line break behind it. -/
def joined (parts : List Text) : Text :=
  parts.flatMap (· ++ "\n")

/-- Where a part starts among others. -/
def offset (parts : List Text) (i : Nat) : Nat :=
  (joined (parts.take i)).length

/-- The fragments of a page and its content, as they run. -/
def fragments (draft : Draft) : List Text :=
  draft.before ++ [contentFragment draft.content]

theorem joined_append (first second : List Text) :
    joined (first ++ second) = joined first ++ joined second :=
  List.flatMap_append

theorem intercalate_eq (first : List Text) {second : List Text} (h : second ≠ []) :
    List.intercalate "\n" (first ++ second) = joined first ++ List.intercalate "\n" second := by
  induction first with
  | nil => rfl
  | cons part rest ih =>
    have hne : rest ++ second ≠ [] := by simp [h]
    rw [List.cons_append, List.intercalate_cons_of_ne_nil hne, ih]
    simp [joined]

/-- The fragments of a page stand together in the parts of its program. -/
theorem exists_parts_eq (draft : Draft) (facts : Facts) :
    ∃ first last, last ≠ [] ∧ parts draft facts = first ++ fragments draft ++ last := by
  have hgroup : ∀ first before content after layout last : List Text,
      first ++ before ++ content ++ after ++ layout ++ last
        = first ++ (before ++ content) ++ (after ++ layout ++ last) := by
    intros
    simp only [List.append_assoc]
  exact ⟨_, _, by simp, hgroup _ _ _ _ _ _⟩

/-- The fragments and the content stand in the program one right behind the other. -/
theorem exists_program_eq (draft : Draft) (facts : Facts) :
    ∃ head tail, program draft facts = head ++ joined (fragments draft) ++ tail := by
  obtain ⟨first, last, hlast, hparts⟩ := exists_parts_eq draft facts
  refine ⟨joined first, List.intercalate "\n" last, ?_⟩
  rw [program, hparts, intercalate_eq _ hlast, joined_append]

/-- A fragment starts one character behind the end of the one before it. -/
theorem offset_succ {parts : List Text} {i : Nat} {part : Text} (h : parts[i]? = some part) :
    offset parts (i + 1) = offset parts i + part.length + 1 := by
  simp [offset, joined, List.take_add_one, h, Nat.add_assoc]

/-- Later fragments start later. -/
theorem offset_mono (parts : List Text) {i j : Nat} (h : i ≤ j) :
    offset parts i ≤ offset parts j := by
  obtain ⟨k, rfl⟩ := Nat.exists_eq_add_of_le h
  rw [offset, offset, List.take_add, joined_append, List.length_append]
  exact Nat.le_add_right _ _

/-- A part ends before a place inside another just when it is the earlier one. -/
theorem offset_le_offset_iff {parts : List Text} {i j q : Nat} {a b : Text}
    (hi : parts[i]? = some a) (hj : parts[j]? = some b) (hq : q < b.length) :
    offset parts i + a.length ≤ offset parts j + q ↔ i < j := by
  constructor
  · intro h
    by_contra hle
    obtain rfl | hlt := Nat.eq_or_lt_of_le (Nat.le_of_not_lt hle)
    · cases hi.symm.trans hj
      omega
    · have hmono := offset_mono parts (hlt : j + 1 ≤ i)
      rw [offset_succ hj] at hmono
      omega
  · intro h
    have hmono := offset_mono parts (h : i + 1 ≤ j)
    rw [offset_succ hi] at hmono
    omega

end Assembly

/-! ## Captures and readers -/

namespace Directive

/-- The code that ends the capture of a section. -/
def assignment (name : Text) : Text :=
  Php.tag ("$sections[\"" ++ name ++ "\"] = ob_get_clean();")

/-- The code that shows a section. -/
def reader (name : Text) : Text :=
  Php.tag ("echo $sections[\"" ++ name ++ "\"] ?? \"\";")

/-- A capture ends with its assignment. -/
theorem assignment_isSuffix_capture (name body : Text) : assignment name <:+ capture name body :=
  List.suffix_append _ _

/-- A reader stands inside of the text. -/
theorem lt_length_of_reader {name text : Text} {q : Nat} (h : reader name <+: text.drop q) :
    q < text.length := by
  have hpos : 0 < (reader name).length := Nat.zero_lt_succ _
  have hlength := h.length_le
  rw [List.length_drop] at hlength
  omega

end Directive

namespace Assembly

variable {draft : Draft} {i : Nat} {part : Text}

/-- What the compiler puts in front of the content comes first. -/
theorem fragments_of_before (h : draft.before[i]? = some part) :
    (fragments draft)[i]? = some part := by
  rw [fragments, List.getElem?_append_left (List.getElem?_eq_some_iff.1 h).1, h]

/-- The content comes behind all that is in front of it. -/
theorem fragments_content (draft : Draft) :
    (fragments draft)[draft.before.length]? = some (contentFragment draft.content) := by
  simp [fragments]

end Assembly

namespace Page

open Directive Assembly Template

/-- A page compiled without extensions. -/
def draft (page : Page) (options : CompileOptions) : Draft :=
  (Compiler.compile ⟨options, []⟩ { content := page.body, settings := page.settings }
    page.output).draft

/-- The text of a page as the rules before the one for sections leave it. A component has its slots
behind its content there. -/
def prepared (page : Page) (options : CompileOptions) : Text :=
  Pass.runAll (uptoSections (.of options page.output)) page.body

/-- In front of the content stand the captures of the sections, in their order. -/
theorem before_draft (page : Page) (options : CompileOptions) :
    (page.draft options).before = (sections (page.prepared options)).map fun found =>
      finished (.of options page.output) (capture found.2.2.args.bareName found.2.2.body) := by
  rw [draft, compile_draft options rfl, prepared]
  dsimp only
  rw [captures_eq, List.map_map, Function.comp_def]

theorem after_draft (page : Page) (options : CompileOptions) : (page.draft options).after = [] := by
  rw [draft, compile_draft options rfl]

/-- The fragments of a page stand in its program one after another. -/
theorem exists_text_eq {page : Page} (hkind : page.kind = .page) (options : CompileOptions)
    (modified : Nat) :
    ∃ head tail, (page.render ⟨options, []⟩ modified).text
      = head ++ joined (fragments (page.draft options)) ++ tail := by
  rw [render, hkind]
  exact exists_program_eq _ _

/-- The sections of a page are captured one after another, in the order in which they stand in its
text, and all of them before its content, with no fragments behind it. So a capture is over before
any reader in the content starts, and before a reader in a fragment just when that fragment is a
later one. -/
theorem render_sections (options : CompileOptions) (page : Page) (hkind : page.kind = .page)
    (modified : Nat) :
    let draft := page.draft options
    draft.before = (sections (page.prepared options)).map (fun found =>
        finished (.of options page.output) (capture found.2.2.args.bareName found.2.2.body)) ∧
      ((sections (page.prepared options)).Pairwise fun a b => a.2.1 ≤ b.1) ∧
      draft.after = [] ∧
      (∃ head tail,
        (page.render ⟨options, []⟩ modified).text = head ++ joined (fragments draft) ++ tail) ∧
      ∀ name i captured, draft.before[i]? = some captured → assignment name <:+ captured →
        (∀ q, reader name <+: (contentFragment draft.content).drop q →
          offset (fragments draft) i + captured.length
            ≤ offset (fragments draft) draft.before.length + q) ∧
        ∀ j reading q, draft.before[j]? = some reading → reader name <+: reading.drop q →
          (offset (fragments draft) i + captured.length ≤ offset (fragments draft) j + q ↔
            i < j) := by
  intro draft
  refine ⟨before_draft page options, pairwise_sections _, after_draft page options,
    exists_text_eq hkind options modified, fun name i captured hi _ => ⟨?_, ?_⟩⟩
  · intro q hq
    have hlt : i < draft.before.length := (List.getElem?_eq_some_iff.1 hi).1
    exact (offset_le_offset_iff (fragments_of_before hi) (fragments_content draft)
      (lt_length_of_reader hq)).2 hlt
  · intro j reading q hj hq
    exact offset_le_offset_iff (fragments_of_before hi) (fragments_of_before hj)
      (lt_length_of_reader hq)

/-- A section that shows the one behind it. -/
def crossed : Page where
  kind := .page
  source := ⟨"index.blade"⟩
  output := ⟨"index.php"⟩
  settings := []
  body := "@section('a')@yield('b')@endsection@section('b')x@endsection@yield('b')"

/-- The section that is read is captured behind the one that reads it. -/
theorem draft_crossed :
    (crossed.draft {}).before = [capture "a" (reader "b"), capture "b" "x"] ∧
      (crossed.draft {}).content = reader "b" := by
  decide +kernel

/-- The reader in the content comes behind the capture, the one in the other section before it. -/
theorem render_sections_crossed :
    crossed.kind = .page ∧ (crossed.draft {}).before[1]? = some (capture "b" "x") ∧
      offset (fragments (crossed.draft {})) 1 + (capture "b" "x").length
        ≤ offset (fragments (crossed.draft {})) 2 + 21 ∧
      ¬offset (fragments (crossed.draft {})) 1 + (capture "b" "x").length
        ≤ offset (fragments (crossed.draft {})) 0 + 21 := by
  obtain ⟨hbefore, hcontent⟩ := draft_crossed
  obtain ⟨-, -, -, -, hplaces⟩ := render_sections {} crossed rfl 0
  have hfirst : (crossed.draft {}).before[0]? = some (capture "a" (reader "b")) := by
    rw [hbefore]
    rfl
  have hsecond : (crossed.draft {}).before[1]? = some (capture "b" "x") := by
    rw [hbefore]
    rfl
  obtain ⟨hshown, hread⟩ := hplaces "b" 1 _ hsecond (assignment_isSuffix_capture "b" "x")
  have hlast := hshown 21 (by rw [hcontent]; decide)
  rw [hbefore] at hlast
  refine ⟨rfl, hsecond, hlast, ?_⟩
  rw [hread 0 _ 21 hfirst (by decide)]
  decide

/-- Every capture runs before the fragments that show it. -/
def CapturesFirst (before : List Text) : Prop :=
  ∀ (name : Text) (i j : Nat) (captured reading : Text),
    before[i]? = some captured → assignment name <:+ captured → before[j]? = some reading →
      reader name <:+: reading → i < j

/-- A section that shows the one behind it runs first. -/
theorem not_capturesFirst_crossed : ¬CapturesFirst (crossed.draft {}).before := by
  intro h
  rw [draft_crossed.1] at h
  have hlt := h "b" 1 0 _ _ rfl (assignment_isSuffix_capture "b" "x") rfl
    ⟨Php.tag "ob_start();" ++ "\n", "\n" ++ assignment "a", by decide⟩
  exact absurd hlt (by decide)

end Page

end Pagewright
