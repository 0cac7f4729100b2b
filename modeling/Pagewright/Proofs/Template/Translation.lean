import Pagewright.Proofs.Template.Phases

/-!
# The compiler translates a template item by item

The rules of the compiler go over the whole text of a template one after another, and each sees what
the ones before it have written. On a well-formed template the outcome is still the one of a
translation that looks at one item at a time (`Template.compile_source`).

Between the phases of the flat items three rules look at regions. Each finds exactly the items that
it is meant for, since no flat item and no PHP of an item holds an opening or a closing word: a
component is taken apart into its content and its slots (`Template.component_region`), a pushed
block becomes a capture (`Template.pushBlock_region`), and a section leaves the content
(`Template.pieces_sections`). The last rule, which closes a tag that was left open, finds none
(`Template.run_closeTag`). `Template.foldl_step` says which passes a list of rules amounts to.
-/

namespace Pagewright

open Text

namespace Template

/-! ## Brackets -/

/-- The opening of a block is a sound mark. -/
theorem sound_opening {word : Text} (h : word.all isWordLetter = true) (n : Name) :
    (Mark.call word (quoted n.text)).Sound :=
  ⟨h, balanced_quoted n.isPlain, n.quiet_quoted.directiveFree⟩

theorem sound_slot (n : Name) (e : Expr) : (Mark.call "slot" (named n e)).Sound :=
  ⟨rfl, balanced_named n e, free_named n e⟩

/-- A block is carried if its opening, its closing word and its inside are. -/
theorem carries_enclosed {run : Text → Text} {word a b : Text} {n : Name}
    (hopening : Carries run (Mark.call word (quoted n.text)).source
      (Mark.call word (quoted n.text)).source)
    (hclosing : Carries run (Mark.close ("end" ++ word)).source
      (Mark.close ("end" ++ word)).source)
    (h : Carries run a b) : Carries run (enclosed word n a) (enclosed word n b) :=
  (hopening.append h).append hclosing

/-- A pattern stands in a block only if it stands in its opening, its closing word or its inside. -/
theorem absentIn_enclosed {p : Pattern} (hp : p.isProper) {word a : Text} {n : Name}
    (hword : word.all isWordLetter = true)
    (hopening : p.ignores (Mark.call word (quoted n.text)))
    (hclosing : p.ignores (Mark.close ("end" ++ word))) (h : p.AbsentIn a) :
    p.AbsentIn (enclosed word n a) := by
  refine ((Pattern.absentIn_mark hp (sound_opening hword n) hopening).append h).append
    (Pattern.absentIn_mark hp ?_ hclosing)
  simp only [Mark.Sound, List.all_append, hword, Bool.and_true]
  rfl

/-- The region that an enclosed body is. -/
def region (word : Text) (n : Name) (body : Text) : Region :=
  ⟨⟨word, false, quoted n.text⟩, body, '@' :: ("end" ++ word)⟩

/-- A block is cut as one region if its closing word does not stand inside. -/
theorem splits_enclosed {word body : Text} {n : Name}
    (hbody : (Pattern.literal ("end" ++ word)).AbsentIn body) :
    Splits (Region.read word ('@' :: ("end" ++ word))) (enclosed word n body)
      [⟨enclosed word n body, some (region word n body)⟩] :=
  splits_of_read (by simp [enclosed, Mark.source_call]) fun rest =>
    Region.read_source word (by simp) (balanced_quoted n.isPlain) (hbody _)

/-- A pass for regions replaces the block it is for. -/
theorem carries_region {word body new : Text} {n : Name} {f : Region → Option Text}
    (hbody : (Pattern.literal ("end" ++ word)).AbsentIn body)
    (hf : f (region word n body) = some new) :
    Carries (Element.regions word ('@' :: ("end" ++ word)) f).rewrite.run
      (enclosed word n body) new :=
  Rewrite.carries_of_read (Region.faithful_read _ _) (by simp [enclosed, Mark.source_call])
    (fun _ => Region.read_source word (by simp) (balanced_quoted n.isPlain) (hbody _)) hf

/-! ## Components -/

section Component

variable {target : Target} {w : Flat → Text}

/-- The pieces of a part, the calls of `@slot` recognised. -/
def Part.callCut (w : Flat → Text) : Part → List (Piece Call)
  | flat f => Piece.letters (w f)
  | slot n e => [⟨(Mark.call "slot" (named n e)).source, some ⟨"slot", false, named n e⟩⟩]
  | slotBlock n body =>
    ⟨(Mark.call "slot" (quoted n.text)).source, some ⟨"slot", false, quoted n.text⟩⟩
      :: Piece.letters (body.flatMap w ++ (Mark.close "endslot").source)

/-- A part when the slots with a value have been taken out. -/
def Part.withoutValue (w : Flat → Text) : Part → Text
  | flat f => w f
  | slot _ _ => []
  | slotBlock n body => enclosed "slot" n (body.flatMap w)

/-- The pieces of what is left of a part, slots with a body recognised. -/
def Part.regionCut (w : Flat → Text) : Part → List (Piece Region)
  | flat f => Piece.letters (w f)
  | slot _ _ => []
  | slotBlock n body =>
    [⟨enclosed "slot" n (body.flatMap w), some (region "slot" n (body.flatMap w))⟩]

/-- A part of a component is cut into its calls of `@slot`. -/
theorem Part.splits_callCut (hslot : ∀ f, (Pattern.call "slot").AbsentIn (w f)) (part : Part) :
    Splits (Call.read "slot") (part.source w) (part.callCut w) := by
  cases part with
  | flat f => exact splits_of_along (hslot f)
  | slot n e =>
    have hne : (Mark.call "slot" (named n e)).source ≠ [] := by simp [Mark.source_call]
    exact splits_of_read hne (Call.read_source "slot" (balanced_named n e))
  | slotBlock n body =>
    have hrest : (Pattern.call "slot").AbsentIn
        (body.flatMap w ++ (Mark.close "endslot").source) :=
      (Pattern.absentIn_flatMap hslot body).append
        (Pattern.absentIn_mark rfl rfl rfl)
    have hne : (Mark.call "slot" (quoted n.text)).source ≠ [] := by simp [Mark.source_call]
    have hopening := splits_of_read hne (Call.read_source "slot" (balanced_quoted n.isPlain))
    have := hopening.append (splits_of_along hrest)
    rwa [← List.append_assoc] at this

/-- A part of a component without its value is cut into its slots. -/
theorem Part.splits_regionCut (hslot : ∀ f, (Pattern.call "slot").AbsentIn (w f))
    (hend : ∀ f, (Pattern.literal "endslot").AbsentIn (w f)) (part : Part) :
    Splits (Region.read "slot" "@endslot") (part.withoutValue w) (part.regionCut w) := by
  cases part with
  | flat f =>
    exact splits_of_along fun rest => (hslot f rest).mono fun _ => Region.read_of_call
  | slot n e => exact splits_nil
  | slotBlock n body =>
    exact splits_enclosed (Pattern.absentIn_flatMap hend body)

/-- Each text and a line feed. -/
def lines (texts : List Text) : Text :=
  texts.flatMap fun text => (text ++ "\n" : Text)

theorem lines_append (first second : List Text) :
    lines (first ++ second) = lines first ++ lines second :=
  List.flatMap_append

theorem lines_flatMap {β : Type} (texts : β → List Text) (items : List β) :
    lines (items.flatMap texts) = items.flatMap fun b => lines (texts b) :=
  List.flatMap_assoc

/-- The last of some lines has no line break. -/
theorem intercalate_concat (last : Text) (texts : List Text) :
    List.intercalate "\n" (texts ++ [last]) = lines texts ++ last := by
  induction texts with
  | nil => simp [List.intercalate, lines]
  | cons t texts ih =>
    obtain ⟨next, rest, hnext⟩ : ∃ next rest, texts ++ [last] = next :: rest :=
      List.exists_cons_of_ne_nil (by simp)
    rw [hnext] at ih
    rw [List.cons_append, hnext, List.intercalate, List.intersperse_cons_cons, List.flatten_cons,
      List.flatten_cons, ← List.intercalate, ih]
    simp [lines]

/-- Without its value a part is its text with the call cut out. -/
theorem Part.rewrite_callCut (part : Part) :
    Piece.rewrite (fun call => (Directive.slotValue call).map fun _ => []) (part.callCut w)
      = part.withoutValue w := by
  cases part with
  | flat f => exact Piece.rewrite_letters _
  | slot n e =>
    simp [callCut, withoutValue, Piece.rewrite, Piece.rewritten, slotValue_named]
  | slotBlock n body =>
    rw [callCut, Piece.rewrite, List.flatMap_cons, ← Piece.rewrite, Piece.rewrite_letters]
    simp [Piece.rewritten, slotValue_quoted, withoutValue, enclosed]

/-- The value of a slot becomes a line of the component. -/
theorem Part.values_callCut (part : Part) :
    lines ((Piece.values (part.callCut w)).filterMap Directive.slotValue) = part.valueLine := by
  cases part with
  | flat f => simp [callCut, valueLine, lines]
  | slot n e => simp [callCut, valueLine, lines, Piece.values, slotValue_named]
  | slotBlock n body =>
    rw [callCut, Piece.values, List.filterMap_cons, ← Piece.values, Piece.values_letters]
    simp [slotValue_quoted, valueLine, lines]

/-- Without its slots a part is its content. -/
theorem Part.rewrite_regionCut (part : Part) :
    Piece.rewrite (fun _ => some []) (part.regionCut w) = part.content w := by
  cases part with
  | flat f => exact Piece.rewrite_letters _
  | slot n e => rfl
  | slotBlock n body => rfl

/-- A slot with a body becomes lines of the component. -/
theorem Part.values_regionCut (part : Part) :
    lines ((Piece.values (part.regionCut w)).map Directive.slotBlock) = part.blockLine w := by
  cases part with
  | flat f => simp [regionCut, blockLine, lines]
  | slot n e => rfl
  | slotBlock n body =>
    simp [regionCut, blockLine, lines, Piece.values, Directive.slotBlock, region, Region.args,
      bareName_quoted n.isPlain]

/-- A component is made of its content, its slots with a value and its slots with a body. -/
theorem component_region (target : Target) (hslot : ∀ f, (Pattern.call "slot").AbsentIn (w f))
    (hend : ∀ f, (Pattern.literal "endslot").AbsentIn (w f)) (n : Name) (parts : List Part) :
    Directive.component target.dir target.up
        (region "component" n (parts.flatMap (Part.source w)))
      = some (componentPhp target w n parts) := by
  have hcalls : Call.pieces "slot" (parts.flatMap (Part.source w))
      = parts.flatMap (Part.callCut w) :=
    (Splits.flatMap fun part _ => part.splits_callCut hslot).pieces_eq
  have hbody : Piece.rewrite (fun call => (Directive.slotValue call).map fun _ => [])
      (parts.flatMap (Part.callCut w)) = parts.flatMap (Part.withoutValue w) := by
    simp only [Piece.rewrite_flatMap, Part.rewrite_callCut]
  have hregions : Region.pieces "slot" "@endslot" (parts.flatMap (Part.withoutValue w))
      = parts.flatMap (Part.regionCut w) :=
    (Splits.flatMap fun part _ => part.splits_regionCut hslot hend).pieces_eq
  have hvalues : lines ((Piece.values (parts.flatMap (Part.callCut w))).filterMap
      Directive.slotValue) = parts.flatMap Part.valueLine := by
    simp only [Piece.values_flatMap, List.filterMap_flatMap, lines_flatMap, Part.values_callCut]
  have hblocks : lines ((Piece.values (parts.flatMap (Part.regionCut w))).map
      Directive.slotBlock) = parts.flatMap (Part.blockLine w) := by
    simp only [Piece.values_flatMap, List.map_flatMap, lines_flatMap, Part.values_regionCut]
  have hcontent : Piece.rewrite (fun _ => some []) (parts.flatMap (Part.regionCut w))
      = parts.flatMap (Part.content w) := by
    simp only [Piece.rewrite_flatMap, Part.rewrite_regionCut]
  unfold Directive.component componentPhp
  simp only [region, Region.args, trim_quoted, bareName_quoted n.isPlain, if_neg n.ne_nil, hcalls,
    hbody, hregions, hcontent, filePath_quoted, intercalate_concat, lines_append, hvalues, hblocks]
  simp [lines]

end Component

/-- A pattern that ignores slots stands in a part only if it stands in a flat item. -/
theorem Part.absentIn_source {w : Flat → Text} {p : Pattern} (hp : p.isProper)
    (hopening : ∀ args, p.ignores (Mark.call "slot" args))
    (hclosing : p.ignores (Mark.close "endslot")) (hw : ∀ f, p.AbsentIn (w f)) (part : Part) :
    p.AbsentIn (part.source w) := by
  cases part with
  | flat f => exact hw f
  | slot n e =>
    exact Pattern.absentIn_mark hp (sound_slot n e) (hopening _)
  | slotBlock n body =>
    exact absentIn_enclosed hp rfl (hopening _) hclosing
      (Pattern.absentIn_flatMap hw body)

/-! ## From phase to phase -/

section Phases

variable {target : Target} (h : target.Sound)

/-- The pass that puts components together. -/
def componentPass (target : Target) : Pass :=
  .ofElement (Directive.componentRegions target.dir target.up) rfl

/-- The pass that puts pushed blocks together. -/
def pushPass : Pass :=
  .ofElement Directive.pushRegions rfl

/-- An item of a section when components have been put together. -/
def Inner.assembled (target : Target) (w : Flat → Text) : Inner → Text
  | flat f => w f
  | push n body => enclosed "push" n (body.flatMap w)
  | component n parts => componentPhp target w n parts

/-- A pushed block becomes a capture. -/
theorem pushBlock_region (n : Name) (body : Text) :
    Directive.pushBlock (region "push" n body)
      = some (captured body (onStack n "ob_get_clean()")) := by
  unfold Directive.pushBlock Directive.pushValue captured onStack
  simp only [region, Region.args, bareName_quoted n.isPlain, if_neg n.ne_nil]

/-- The opening of a pushed block has no value, so it is not taken for a push of one. -/
theorem carries_opening_push (target : Target) (n : Name) :
    Carries (Pass.runAll (passes target 1)) (Mark.call "push" (quoted n.text)).source
      (Mark.call "push" (quoted n.text)).source := by
  have hsplit : passes target 1 = (passes target 1).take 14
      ++ [.ofElement Directive.pushCalls rfl] := rfl
  have hfront : ((passes target 1).take 14).all
      (·.pattern.ignores (.call "push" (quoted n.text))) = true := rfl
  rw [hsplit]
  refine Pass.carries_runAll_self fun p hp => ?_
  rcases List.mem_append.1 hp with hp | hp
  · exact p.carries_of_ignores (sound_opening rfl n) (List.all_eq_true.1 hfront p hp)
  · obtain rfl := List.mem_singleton.1 hp
    exact Pass.carries_call_self (balanced_quoted n.isPlain) (pushCall_quoted _ n)

include h

/-- The first phase rewrites the flat items of a part. -/
theorem Part.carries_first (part : Part) :
    Carries (Pass.runAll (passes target 0)) (part.source (Flat.textAt target 0))
      (part.source (Flat.textAt target 1)) := by
  cases part with
  | flat f => exact f.carries h 0
  | slot n e =>
    exact Pass.carries_runAll_of_ignores (m := .call "slot" (named n e)) (sound_slot n e) rfl
  | slotBlock n body =>
    exact carries_enclosed (Pass.carries_runAll_of_ignores (sound_opening rfl n) rfl)
      (Pass.carries_runAll_of_ignores rfl rfl) (Carries.flatMap fun f _ => f.carries h 0)

/-- The first phase rewrites the flat items of an item. -/
theorem Inner.carries_first (i : Inner) :
    Carries (Pass.runAll (passes target 0)) (i.source (Flat.textAt target 0))
      (i.source (Flat.textAt target 1)) := by
  cases i with
  | flat f => exact f.carries h 0
  | push n body =>
    exact carries_enclosed (Pass.carries_runAll_of_ignores (sound_opening rfl n) rfl)
      (Pass.carries_runAll_of_ignores rfl rfl) (Carries.flatMap fun f _ => f.carries h 0)
  | component n parts =>
    exact carries_enclosed (Pass.carries_runAll_of_ignores (sound_opening rfl n) rfl)
      (Pass.carries_runAll_of_ignores rfl rfl) (Carries.flatMap fun part _ => part.carries_first h)

/-- Behind the first phase components are put together. -/
theorem Inner.carries_component (i : Inner) :
    Carries (componentPass target).rewrite.run (i.source (Flat.textAt target 1))
      (i.assembled target (Flat.textAt target 1)) := by
  have hflat : ∀ f : Flat, Carries (componentPass target).rewrite.run (f.textAt target 1)
      (f.textAt target 1) := fun f =>
    (componentPass target).carries_self
      (f.absentIn_textAt h rfl fun f _ => by cases f <;> rfl)
  cases i with
  | flat f => exact hflat f
  | push n body =>
    exact carries_enclosed ((componentPass target).carries_of_ignores (sound_opening rfl n) rfl)
      ((componentPass target).carries_of_ignores rfl rfl) (Carries.flatMap fun f _ => hflat f)
  | component n parts =>
    have hslot : ∀ f : Flat, (Pattern.call "slot").AbsentIn (f.textAt target 1) :=
      Flat.absentIn_textAt h rfl fun f _ => by cases f <;> rfl
    have hend : ∀ f : Flat, (Pattern.literal "endslot").AbsentIn (f.textAt target 1) :=
      Flat.absentIn_textAt h rfl fun f _ => by cases f <;> rfl
    have hclose : ∀ f : Flat, (Pattern.literal "endcomponent").AbsentIn (f.textAt target 1) :=
      Flat.absentIn_textAt h rfl fun f _ => by cases f <;> rfl
    refine carries_region ?_ (component_region target hslot hend n parts)
    exact Pattern.absentIn_flatMap (Part.absentIn_source rfl (fun _ => rfl) rfl hclose) parts

/-- The second phase rewrites the flat items of an item. -/
theorem Inner.carries_second (i : Inner) :
    Carries (Pass.runAll (passes target 1)) (i.assembled target (Flat.textAt target 1))
      (i.assembled target (Flat.textAt target 2)) := by
  cases i with
  | flat f => exact f.carries h 1
  | push n body =>
    exact carries_enclosed (carries_opening_push target n) (Pass.carries_runAll_of_ignores rfl rfl)
      (Carries.flatMap fun f _ => f.carries h 1)
  | component n parts => exact (congruent_runAll _).componentPhp h (Flat.carries h 1) n parts

/-- Behind the second phase pushed blocks are put together. -/
theorem Inner.carries_push (i : Inner) :
    Carries pushPass.rewrite.run (i.assembled target (Flat.textAt target 2))
      (i.php target (Flat.textAt target 2)) := by
  have hflat : ∀ f : Flat, (Pattern.call "push").AbsentIn (f.textAt target 2) :=
    Flat.absentIn_textAt h rfl fun f hf => by cases f <;> simp [Flat.phase] at hf <;> rfl
  cases i with
  | flat f => exact pushPass.carries_self (hflat f)
  | push n body =>
    have hclose : ∀ f : Flat, (Pattern.literal "endpush").AbsentIn (f.textAt target 2) :=
      Flat.absentIn_textAt h rfl fun f _ => by cases f <;> rfl
    exact carries_region (Pattern.absentIn_flatMap hclose body) (pushBlock_region n _)
  | component n parts =>
    exact pushPass.carries_self
      ((congruent_absentIn rfl).componentPhp h (v := Flat.textAt target 2) hflat n parts)

/-- The third phase rewrites the flat items of an item. -/
theorem Inner.carries_third (i : Inner) :
    Carries (Pass.runAll (passes target 2)) (i.php target (Flat.textAt target 2))
      (i.php target (Flat.php target)) := by
  rw [← Flat.textAt_three]
  exact (congruent_runAll _).inner h (Flat.carries h 2) i

end Phases

/-! ## Sections -/

/-- What carries the items of sections carries the sections, when it ignores their brackets. -/
theorem Item.carries_runAll (ps : List Pass) {g g' : Inner → Text}
    (hopening : ∀ n : Name, ps.all (·.pattern.ignores (.call "section" (quoted n.text))) = true)
    (hclosing : ps.all (·.pattern.ignores (.close ("end" ++ "section"))) = true)
    (h : ∀ i, Carries (Pass.runAll ps) (g i) (g' i)) (item : Item) :
    Carries (Pass.runAll ps) (item.source g) (item.source g') := by
  cases item with
  | inner i => exact h i
  | sect n body =>
    exact carries_enclosed (Pass.carries_runAll_of_ignores (sound_opening rfl n) (hopening n))
      (Pass.carries_runAll_of_ignores (m := .close ("end" ++ "section")) rfl hclosing)
      (Carries.flatMap fun i _ => h i)

/-- The passes up to the one that takes sections out of the content. -/
def uptoSections (target : Target) : List Pass :=
  passes target 0 ++ ([componentPass target] ++ (passes target 1 ++ [pushPass]))

/-- All passes before sections are taken out rewrite what they are for. -/
theorem carries_uptoSections {target : Target} (h : target.Sound) (item : Item) :
    Carries (Pass.runAll (uptoSections target)) (item.source (Inner.source Flat.source))
      (item.source (Inner.php target (Flat.textAt target 2))) := by
  have hfirst := Item.carries_runAll (passes target 0) (fun _ => rfl) rfl
    (Inner.carries_first h) item
  have hcomponent := Item.carries_runAll [componentPass target] (fun _ => rfl) rfl
    (fun i => Pass.carries_runAll_singleton (i.carries_component h)) item
  have hsecond := Item.carries_runAll (passes target 1) (fun _ => rfl) rfl
    (Inner.carries_second h) item
  have hpush := Item.carries_runAll [pushPass] (fun _ => rfl) rfl
    (fun i => Pass.carries_runAll_singleton (i.carries_push h)) item
  rw [Flat.textAt_zero] at hfirst
  exact Pass.carries_runAll_append hfirst (Pass.carries_runAll_append hcomponent
    (Pass.carries_runAll_append hsecond hpush))

/-- The pieces of an item, sections recognised. -/
def Item.cut (g : Inner → Text) : Item → List (Piece Region)
  | inner i => Piece.letters (g i)
  | sect n body =>
    [⟨enclosed "section" n (body.flatMap g), some (region "section" n (body.flatMap g))⟩]

/-- An item is cut as a section or letter by letter. -/
theorem Item.splits_cut {g : Inner → Text} (hsection : ∀ i, (Pattern.call "section").AbsentIn (g i))
    (hend : ∀ i, (Pattern.literal "endsection").AbsentIn (g i)) (item : Item) :
    Splits (Region.read "section" "@endsection") (item.source g) (item.cut g) := by
  cases item with
  | inner i =>
    exact splits_of_along fun rest => (hsection i rest).mono fun _ => Region.read_of_call
  | sect n body => exact splits_enclosed (Pattern.absentIn_flatMap hend body)

/-- A section becomes a capture. -/
theorem sectionCapture_region (word : Text) (n : Name) (body : Text) :
    Directive.sectionCapture (region word n body)
      = some (captured body ("$sections[\"" ++ n.text ++ "\"] = ob_get_clean();")) := by
  unfold Directive.sectionCapture Directive.capture captured
  simp only [region, Region.args, bareName_quoted n.isPlain, if_neg n.ne_nil]

/-- Without the sections the content is left. -/
theorem Item.rewrite_cut (g : Inner → Text) (item : Item) :
    Piece.rewrite (fun region => (Directive.sectionCapture region).map fun _ => []) (item.cut g)
      = item.content g := by
  cases item with
  | inner i => exact Piece.rewrite_letters _
  | sect n body =>
    simp [cut, content, Piece.rewrite, Piece.rewritten, sectionCapture_region]

/-- The sections become fragments. -/
theorem Item.values_cut (g : Inner → Text) (item : Item) :
    (Piece.values (item.cut g)).filterMap Directive.sectionCapture = item.before g := by
  cases item with
  | inner i => simp [cut, before]
  | sect n body => simp [cut, before, Piece.values, sectionCapture_region]

/-! ## Closed tags -/

/-- A tag that opens at the head of the text is closed behind it. -/
def ClosedAt (text : Text) : Prop :=
  ∀ rest, text.after? "<?php" = some rest → ("?>" : Text) <:+: rest

/-- Every tag that opens in the block is closed, whatever follows the block. -/
def Sealed (block : Text) : Prop :=
  ∀ rest, Along ClosedAt block rest

theorem Sealed.append {a b : Text} (ha : Sealed a) (hb : Sealed b) : Sealed (a ++ b) :=
  fun rest => along_append.2 ⟨ha _, hb rest⟩

theorem closedAt_cons {c : Char} (h : c ≠ '<') (text : Text) : ClosedAt (c :: text) := by
  intro rest hr
  exact absurd (List.cons.inj (after?_eq_some_iff.1 hr)).1 h

theorem sealed_close (a : Text) : Sealed (a ++ "?>") := by
  intro rest
  refine along_append.2 ⟨?_, closedAt_cons (by decide) _, closedAt_cons (by decide) _, trivial⟩
  induction a with
  | nil => trivial
  | cons c a ih =>
    refine ⟨fun back hback => ?_, ih⟩
    have heq : (c :: a) ++ ("?>" ++ rest) = "<?php" ++ back := after?_eq_some_iff.1 hback
    rcases List.append_eq_append_iff.1 heq with ⟨x, hx, hback⟩ | ⟨x, -, rfl⟩
    · -- The block ends inside the opening mark, of which no rest starts with the closing mark.
      have hx : a ++ x = "?php" := (List.cons.inj hx).2.symm
      cases x with
      | nil => exact ⟨[], rest, by simpa using hback⟩
      | cons d x =>
        obtain rfl : '?' = d := (List.cons.inj hback).1
        cases a with
        | nil =>
          obtain rfl := (List.cons.inj hx).2
          exact absurd (List.cons.inj (List.cons.inj hback).2).1 (by decide)
        | cons e a =>
          have htail : a ++ '?' :: x = ("php" : Text) := (List.cons.inj hx).2
          have hmem : '?' ∈ ("php" : Text) := htail ▸ List.mem_append_right a List.mem_cons_self
          exact absurd hmem (by decide)
    · exact ⟨x, rest, by simp⟩

/-- A tag is sealed. -/
theorem sealed_tag (code : Text) : Sealed (Php.tag code) := by
  have := sealed_close ("<?php " ++ code ++ " ")
  rwa [List.append_assoc] at this

theorem sealed_line : Sealed "\n" :=
  fun _ => ⟨closedAt_cons (by decide) _, trivial⟩

/-- A chunk of text is sealed, since no tag opens in it. -/
theorem Chunk.sealed_text (c : Chunk) : Sealed c.text := by
  have hchunk : ∀ {t : Text}, ¬("<?" : Text) <:+: t → t.getLast? ≠ some '<' → Sealed t := by
    intro t htag hlast rest
    induction t with
    | nil => trivial
    | cons d t ih =>
      refine ⟨fun back hback => ?_, ih (fun h => htag (h.trans (List.suffix_cons _ _).isInfix))
        fun h => hlast (by rw [List.getLast?_cons, h]; rfl)⟩
      obtain ⟨rfl, htail⟩ := List.cons.inj (after?_eq_some_iff.1 hback)
      cases t with
      | nil => exact absurd rfl hlast
      | cons x t =>
        obtain rfl := (List.cons.inj htail).1
        exact absurd ⟨[], t, rfl⟩ htag
  exact hchunk c.no_tag c.last_ne

/-- That a text is sealed goes through PHP around it. -/
theorem congruent_sealed : Congruent fun a _ => Sealed a where
  nil := fun _ => trivial
  append := Sealed.append
  tag _ := sealed_tag _
  line := sealed_line

/-- The code for a flat item is sealed. -/
theorem Flat.sealed_php (target : Target) (f : Flat) : Sealed (f.php target) := by
  cases f with
  | chunk c => exact c.sealed_text
  | breakLine | continueLine | elseLine | endFor | endForeach | endWhile =>
    exact (sealed_tag _).append sealed_line
  | _ => exact sealed_tag _

/-- A sealed text leaves no tag open. -/
theorem Sealed.not_unclosed {text : Text} (h : Sealed text) : ¬Php.Unclosed text := by
  rintro ⟨front, rest, rfl, -, hnot⟩
  have hclosed : ClosedAt (("<?php" : Text) ++ rest ++ []) :=
    (h []).of_suffix (List.suffix_append front _) (by simp)
  rw [List.append_nil] at hclosed
  exact hnot (hclosed _ (after?_append _ _))

/-- The last rule leaves a sealed text alone. -/
theorem run_closeTag {text : Text} (h : Sealed text) : Php.closeTag.run text = text := by
  have hopen : Php.endsOpen text = false := by
    rw [← Bool.not_eq_true, Php.endsOpen_iff]
    exact h.not_unclosed
  simp [Php.closeTag, Rewrite.run, hopen]

/-! ## The rules of the compiler -/

/-- A rule does the same as a list of passes, for pages that are at `up`. -/
def Performs (up : Text) (ps : List Pass) (rule : Rule) : Prop :=
  ∀ draft : Draft, draft.relativePath = up →
    (rule.step draft).1 = draft.mapTexts (Pass.runAll ps)

theorem performs_one (up name : Text) (p : Pass) : Performs up [p] (.ofRewrite name p.rewrite) :=
  fun draft _ => Rule.step_ofRewrite name p.rewrite draft

theorem performs_two (up name : Text) (p q : Pass) :
    Performs up [p, q] (.ofRewrite name (p.rewrite.andThen q.rewrite)) := by
  intro draft _
  have hrun : (p.rewrite.andThen q.rewrite).run = Pass.runAll [p, q] :=
    funext (Rewrite.run_andThen p.rewrite q.rewrite)
  rw [Rule.step_ofRewrite, hrun]

/-- A rule given by elements does the same as the passes for them. -/
theorem performs_content {up : Text} (name : Text) {elements : Text → List Element}
    (h : (elements up).all Element.isProper = true) :
    Performs up (Pass.ofElements (elements up) h)
      (.ofContent name fun up => .ofElements (elements up)) := by
  rintro draft rfl
  have hrun : (Rewrite.ofElements (elements draft.relativePath)).run
      = Pass.runAll (Pass.ofElements _ h) :=
    funext (Pass.run_ofElements h)
  rw [Rule.step_ofContent, hrun]

/-- So does a rule that is the same for all pages. -/
theorem performs_elements (up name : Text) {elements : List Element}
    (h : elements.all Element.isProper = true) :
    Performs up (Pass.ofElements elements h) (.ofElements name elements) :=
  @performs_content up name (fun _ => elements) h

/-- Rules do what all of their passes do one after another. -/
theorem foldl_step {up : Text} {rules : List Rule} {pss : List (List Pass)}
    (h : List.Forall₂ (Performs up) pss rules) (draft : Draft) (hup : draft.relativePath = up) :
    rules.foldl (fun draft rule => (rule.step draft).1) draft
      = draft.mapTexts (Pass.runAll pss.flatten) := by
  induction h generalizing draft with
  | nil => simp [Draft.mapTexts, Pass.runAll]
  | @cons ps rule pss rules hrule _ ih =>
    rw [List.foldl_cons, hrule draft hup, ih (draft.mapTexts (Pass.runAll ps)) hup,
      Draft.mapTexts_mapTexts, List.flatten_cons]
    congr 1
    funext text
    exact (Pass.runAll_append ps pss.flatten text).symm

/-- What the translation of a page depends on, by the options of its compiler. -/
def Target.of (options : CompileOptions) (output : Path) : Target where
  up := output.wayUp
  dir := options.dirs.includes
  safe := options.safeOutput

/-- The rules before the one for sections, without the removal of comments. -/
theorem performs_uptoSections (options : CompileOptions) (output : Path) :
    List.Forall₂ (Performs output.wayUp)
      ((rulePasses (.of options output) 0).tail ++ [[componentPass (.of options output)]]
        ++ (rulePasses (.of options output) 1).dropLast
        ++ [Pass.ofElements Directive.pushElements rfl])
      ((builtinRules options.dirs).take 12) := by
  refine .cons (performs_elements _ _ rfl) (.cons (performs_content _ rfl) ?_)
  refine .cons (performs_elements _ _ rfl) (.cons (performs_elements _ _ rfl) ?_)
  refine .cons (performs_elements _ _ rfl) (.cons (performs_elements _ _ rfl) ?_)
  refine .cons (performs_elements _ _ rfl) (.cons (performs_elements _ _ rfl) ?_)
  refine .cons (performs_elements _ _ rfl) (.cons (performs_elements _ _ rfl) ?_)
  exact .cons (performs_content _ rfl) (.cons (performs_elements _ _ rfl) .nil)

/-- The rules behind the one for sections, up to the one that closes the last tag. -/
theorem performs_third (options : CompileOptions) (output : Path) :
    List.Forall₂ (Performs output.wayUp) (rulePasses (.of options output) 2)
      ((builtinRules options.dirs).drop 13 ++ (Compiler.finalRules options).take 3) := by
  refine .cons (performs_elements _ _ rfl) (.cons (performs_elements _ _ rfl) ?_)
  refine .cons (performs_elements _ _ rfl) (.cons (performs_elements _ _ rfl) ?_)
  exact .cons (performs_one _ _ _) (.cons (performs_two _ _ _ _) (.cons (performs_one _ _ _) .nil))

/-- A text without its sections. -/
def outside (text : Text) : Text :=
  Piece.rewrite (fun region => (Directive.sectionCapture region).map fun _ => [])
    (Region.pieces "section" "@endsection" text)

/-- The captures of the sections of a text. -/
def captures (text : Text) : List Text :=
  (Piece.values (Region.pieces "section" "@endsection" text)).filterMap Directive.sectionCapture

/-- The rule for sections, on a draft that has no fragments yet. -/
theorem step_sectionRule {draft : Draft} (hbefore : draft.before = []) :
    (Directive.sectionRule.step draft).1
      = { draft with content := outside draft.content, before := captures draft.content } := by
  have hfragments : ∀ next : Draft, (Directive.sectionRule.onFragments next 0).1 = next.before := by
    intro next
    simp [Rule.onFragments]
  have happly : Directive.sectionRule.apply draft
      = (Piece.rewrite? (fun region => (Directive.sectionCapture region).map fun _ => [])
          (Region.pieces "section" "@endsection" draft.content)).map fun content =>
        { draft with content, before := draft.before ++ captures draft.content } := rfl
  have hnext : (Directive.sectionRule.apply draft).getD draft
      = { draft with content := outside draft.content, before := captures draft.content } := by
    rw [happly, Piece.rewrite?]
    split
    case isTrue => simp [hbefore, outside]
    case isFalse hnone =>
      have hall : ∀ region ∈ Piece.values (Region.pieces "section" "@endsection" draft.content),
          Directive.sectionCapture region = none := by
        simpa using hnone
      have hcaptures : captures draft.content = [] := List.filterMap_eq_nil_iff.2 hall
      have houtside : outside draft.content = draft.content := by
        rw [outside, Piece.rewrite_eq_sources fun region h => by simp [hall region h]]
        exact sources_pieces (Region.faithful_read _ _) draft.content
      rw [houtside, hcaptures, ← hbefore]
      rfl
  simp only [Rule.step, hnext, hbefore, List.length_nil, hfragments]

/-- What the rules behind the one for sections make of a text. -/
def finished (target : Target) (text : Text) : Text :=
  Php.closeTag.run (Pass.runAll (passes target 2) text)

/-- The rules in front of the one for sections do what the passes up to sections do. -/
theorem foldl_uptoSections (options : CompileOptions) (output : Path) (draft : Draft)
    (hup : draft.relativePath = output.wayUp) :
    ((builtinRules options.dirs).take 12).foldl (fun draft rule => (rule.step draft).1)
        (draft.mapTexts Output.comments.run)
      = draft.mapTexts (Pass.runAll (uptoSections (.of options output))) := by
  have hlist : .comments :: ((rulePasses (.of options output) 0).tail
        ++ [[componentPass (.of options output)]] ++ (rulePasses (.of options output) 1).dropLast
        ++ [Pass.ofElements Directive.pushElements rfl]).flatten
      = uptoSections (.of options output) := rfl
  rw [foldl_step (performs_uptoSections options output)
    (draft.mapTexts Output.comments.run) hup, Draft.mapTexts_mapTexts, ← hlist]
  simp only [Pass.runAll]
  rfl

/-- The rules behind the one for sections do what the third phase does, and close the last tag. -/
theorem foldl_finished (options : CompileOptions) (output : Path) (draft : Draft)
    (hup : draft.relativePath = output.wayUp) :
    ((builtinRules options.dirs).drop 13 ++ (Compiler.finalRules options).take 3
        ++ [Output.closeTagRule]).foldl (fun draft rule => (rule.step draft).1) draft
      = draft.mapTexts (finished (.of options output)) := by
  rw [List.foldl_append, foldl_step (performs_third options output) draft hup, List.foldl_cons,
    List.foldl_nil, Output.closeTagRule, Rule.step_ofRewrite, Draft.mapTexts_mapTexts]
  rfl

/-- What compiling makes of a draft without fragments, by passes. -/
theorem compile_draft (options : CompileOptions) {draft : Draft} (hbefore : draft.before = [])
    (output : Path) :
    (Compiler.compile ⟨options, []⟩ draft output).draft =
      let text := Pass.runAll (uptoSections (.of options output)) draft.content
      { draft with
        relativePath := output.wayUp
        content := finished (.of options output) (outside text)
        before := (captures text).map (finished (.of options output)) } := by
  let start : Draft := { draft with relativePath := output.wayUp }
  have hrules : Compiler.rules ⟨options, []⟩
      = (builtinRules options.dirs).take 12 ++ Directive.sectionRule ::
          ((builtinRules options.dirs).drop 13 ++ (Compiler.finalRules options).take 3
            ++ [Output.closeTagRule]) := rfl
  have hcompile : (Compiler.compile ⟨options, []⟩ draft output).draft
      = (Compiler.rules ⟨options, []⟩).foldl (fun draft rule => (rule.step draft).1)
          (start.mapTexts Output.comments.run) := by
    have hfirst : (Compiler.runRules [Output.commentRule] ⟨draft, []⟩).draft
        = draft.mapTexts Output.comments.run := by
      rw [Compiler.runRules_draft]
      exact Rule.step_ofRewrite _ _ draft
    rw [Compiler.compile, Compiler.runRules_draft, hfirst]
    rfl
  rw [hcompile, hrules, List.foldl_append, foldl_uptoSections options output start rfl,
    List.foldl_cons, step_sectionRule (by simp [Draft.mapTexts, start, hbefore]),
    foldl_finished options output _ rfl]
  simp only [Draft.mapTexts, start]

/-- The target of a page is sound if the name of the directory for partials is free of directives.
-/
theorem Target.sound_of {options : CompileOptions} (hdir : DirectiveFree options.dirs.includes)
    (output : Path) : (Target.of options output).Sound where
  up_free := (Quiet.flatMap fun _ _ => quiet_of_isHarmless rfl).directiveFree
  dir_free := hdir

/-- What a well-formed template is before sections are taken out. -/
theorem runAll_source {target : Target} (h : target.Sound) (items : List Item) :
    Pass.runAll (uptoSections target) (source items)
      = items.flatMap (Item.source (Inner.php target (Flat.textAt target 2))) :=
  (Carries.flatMap fun item _ => carries_uptoSections h item).run_eq (Pass.runAll_nil _)

/-- It is cut into its sections. -/
theorem pieces_sections {target : Target} (h : target.Sound) (items : List Item) :
    Region.pieces "section" "@endsection"
        (items.flatMap (Item.source (Inner.php target (Flat.textAt target 2))))
      = items.flatMap (Item.cut (Inner.php target (Flat.textAt target 2))) := by
  have hsection : ∀ i : Inner,
      (Pattern.call "section").AbsentIn (i.php target (Flat.textAt target 2)) :=
    (congruent_absentIn rfl).inner h (v := Flat.textAt target 2)
      (Flat.absentIn_textAt h rfl fun f _ => by cases f <;> rfl)
  have hend : ∀ i : Inner,
      (Pattern.literal "endsection").AbsentIn (i.php target (Flat.textAt target 2)) :=
    (congruent_absentIn rfl).inner h (v := Flat.textAt target 2)
      (Flat.absentIn_textAt h rfl fun f _ => by cases f <;> rfl)
  exact (Splits.flatMap fun item _ => item.splits_cut hsection hend).pieces_eq

/-- The code for an item is sealed. -/
theorem sealed_inner {target : Target} (h : target.Sound) (i : Inner) :
    Sealed (i.php target (Flat.php target)) :=
  congruent_sealed.inner h (v := Flat.php target) (Flat.sealed_php target) i

theorem finished_eq {target : Target} {a b : Text}
    (hcarries : Carries (Pass.runAll (passes target 2)) a b) (hsealed : Sealed b) :
    finished target a = b := by
  rw [finished, hcarries.run_eq (Pass.runAll_nil _), run_closeTag hsealed]

/-- The third phase makes of the content what is to become of it. -/
theorem finished_content {target : Target} (h : target.Sound) (items : List Item) :
    finished target (items.flatMap (Item.content (Inner.php target (Flat.textAt target 2))))
      = content target items := by
  refine finished_eq (Carries.flatMap fun item _ => ?_) (congruent_sealed.flatMap
    (g := Item.content (Inner.php target (Flat.php target))) (fun item => ?_) items)
  · cases item with
    | inner i => exact i.carries_third h
    | sect n body => exact carries_nil
  · cases item with
    | inner i => exact sealed_inner h i
    | sect n body => exact fun _ => trivial

/-- The third phase makes of the fragments what is to become of them. -/
theorem finished_before {target : Target} (h : target.Sound) (item : Item) :
    (item.before (Inner.php target (Flat.textAt target 2))).map (finished target)
      = item.before (Inner.php target (Flat.php target)) := by
  cases item with
  | inner i => rfl
  | sect n body =>
    have hcode : Quiet ("$sections[\"" ++ n.text ++ "\"] = ob_get_clean();") :=
      ((quiet_of_isHarmless rfl).append n.quiet).append (quiet_of_isHarmless rfl)
    refine congrArg (fun text => [text]) (finished_eq ?_ ?_)
    · exact (congruent_runAll _).captured (Carries.flatMap fun i _ => i.carries_third h) hcode
    · exact congruent_sealed.captured (b := []) (congruent_sealed.flatMap
        (g := fun _ => []) (sealed_inner h) body) hcode

/-- A compiler without extensions translates a well-formed template item by item: each item leaves
its PHP in the content, in the order of the items, and each section its capture among the fragments
that run before the content. -/
theorem compile_source (options : CompileOptions) (hdir : DirectiveFree options.dirs.includes)
    (relativePath : Text) (settings : Settings) (after : List Text) (output : Path)
    (items : List Item) :
    (Compiler.compile ⟨options, []⟩ { content := source items, relativePath, settings, after }
        output).draft
      = { content := content (.of options output) items
          relativePath := output.wayUp
          settings
          before := before (.of options output) items
          after } := by
  have h := Target.sound_of hdir output
  rw [compile_draft options rfl]
  simp only [runAll_source h, outside, captures, pieces_sections h, Piece.rewrite_flatMap,
    Item.rewrite_cut, Piece.values_flatMap, List.filterMap_flatMap, Item.values_cut,
    List.map_flatMap, finished_content h, finished_before h, before]

/-- A section that holds a component and a pushed block, and a loop behind it. -/
def sample : List Item :=
  [.sect ⟨"main", by decide, by decide⟩
      [.component ⟨"ui.card", by decide, by decide⟩
          [.slot ⟨"title", by decide, by decide⟩ ⟨"'a, b)'", by decide +kernel, by decide +kernel⟩,
            .flat (.echo ⟨"$x or 'none'", by decide +kernel, by decide +kernel⟩),
            .slotBlock ⟨"foot", by decide, by decide⟩ [.breakLine]],
        .push ⟨"js", by decide, by decide⟩ [.yield ⟨"head", by decide, by decide⟩]],
    .inner (.flat (.foreach ⟨"$xs ", "$x", by decide +kernel, by decide +kernel, by decide⟩)),
    .inner (.flat (.chunk ⟨"a < b", by decide, by decide, by decide, by decide⟩)),
    .inner (.flat .endForeach)]

theorem compile_source_sample :
    DirectiveFree ({} : CompileOptions).dirs.includes ∧
      source sample = "@section('main')@component('ui.card')@slot('title', 'a, b)')".toList
        ++ "\x7b\x7b $x or 'none' \x7d\x7d@slot('foot')@break\n@endslot@endcomponent".toList
        ++ "@push('js')@yield('head')@endpush@endsection".toList
        ++ "@foreach($xs  as $x)a < b@endforeach\n".toList ∧
      (Compiler.compile ⟨{}, []⟩ { content := source sample } ⟨"blog/index.php"⟩).draft
        = { content := "<?php foreach ($xs as $x) : ?>a < b<?php endforeach; ?>\n"
            relativePath := "/.."
            before := before (.of {} ⟨"blog/index.php"⟩) sample } := by
  refine ⟨by decide, by decide +kernel, ?_⟩
  have hcontent : content (.of {} ⟨"blog/index.php"⟩) sample
      = "<?php foreach ($xs as $x) : ?>a < b<?php endforeach; ?>\n" := by decide +kernel
  have hup : Path.wayUp ⟨"blog/index.php"⟩ = "/.." := by decide +kernel
  rw [compile_source {} (by decide), hcontent, hup]

end Template

end Pagewright
