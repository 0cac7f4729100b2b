import Pagewright.Proofs.Template.Passes

/-!
# The keys of sections and stacks

A page and its layout meet under a key: what `@section` captures is shown by `@yield`, and what
`@push` collects by `@stack`. For a quoted argument the readers use the inside of the literal as
their key, while the writers drop every quote from it. `Directive.keys_of_quoted` says which keys
the rules make of an argument, and that they are the same just when the literal holds no quote of
either kind.
-/

namespace Pagewright

open Text

/-! ## Texts of one directive -/

namespace Piece

variable {α : Type} {f : α → Option Text}

theorem rewrite?_singleton (source : Text) (a : α) : rewrite? f [⟨source, some a⟩] = f a := by
  cases h : f a <;> simp [rewrite?, rewrite, rewritten, values, h]

theorem values_singleton (source : Text) (a : α) : values [⟨source, some a⟩] = [a] :=
  rfl

/-- Nothing is rewritten where every answer is missing. -/
theorem rewrite?_eq_none {pieces : List (Piece α)} (h : ∀ a ∈ values pieces, f a = none) :
    rewrite? f pieces = none := by
  refine if_neg fun hany => ?_
  obtain ⟨a, ha, hsome⟩ := List.any_eq_true.1 hany
  simp [h a ha] at hsome

end Piece

section Pieces

variable {name close args body : Text} (hargs : Balanced args)

include hargs

/-- A call alone is one piece. -/
theorem Call.pieces_source :
    Call.pieces name (Call.source ⟨name, false, args⟩) =
      [⟨Call.source ⟨name, false, args⟩, some ⟨name, false, args⟩⟩] :=
  (splits_of_read (by simp [Mark.source_call]) (Call.read_source name hargs)).pieces_eq

/-- A region alone is one piece. -/
theorem Region.pieces_source (hne : close ≠ [])
    (hbody : Along (after? · close = none) body close) :
    Region.pieces name close (Region.source ⟨⟨name, false, args⟩, body, close⟩) =
      [⟨Region.source ⟨⟨name, false, args⟩, body, close⟩,
        some ⟨⟨name, false, args⟩, body, close⟩⟩] := by
  have hread := Region.read_source name hne hargs (by rwa [List.append_nil])
  rw [List.append_nil] at hread
  have hpieces := pieces_of_read hread (by simp [hne]) (by simp [hne])
  rwa [List.drop_length, pieces_nil] at hpieces

/-- A call that no word closes is no region. -/
theorem Region.pieces_call (hne : close ≠ []) :
    Region.pieces name close (Call.source ⟨name, false, args⟩) =
      [⟨Call.source ⟨name, false, args⟩, none⟩] := by
  have hcall : Call.read name (Call.source ⟨name, false, args⟩ ++ []) =
      some ⟨Call.source ⟨name, false, args⟩, some ⟨name, false, args⟩⟩ :=
    Call.read_source name hargs []
  rw [List.append_nil] at hcall
  have hread : Region.read name close (Call.source ⟨name, false, args⟩) =
      some ⟨Call.source ⟨name, false, args⟩, none⟩ := by
    rw [Region.read, hcall]
    simp [cut?, hne]
  have hpieces := pieces_of_read hread (by simp [Call.source]) (by simp [Call.source])
  rwa [List.drop_length, pieces_nil] at hpieces

end Pieces

/-- A rule does to the content what its elements do. -/
theorem Rule.apply_ofElements (name : Text) (elements : List Element) (draft : Draft)
    (text : Text) :
    (Rule.ofElements name elements).apply { draft with content := text } =
      (Rewrite.ofElements elements text).map fun content => { draft with content } :=
  rfl

namespace Directive

/-! ## What the rules make of an argument -/

/-- `@yield` shows the section of a key. -/
def ReadsSection (argument key : Text) : Prop :=
  ∀ draft : Draft,
    yieldRule.apply { draft with content := Call.source ⟨"yield", false, argument⟩ } =
      some { draft with content := Php.tag ("echo $sections[\"" ++ key ++ "\"] ?? \"\";") }

/-- `@stack` shows the stack of a key. -/
def ReadsStack (argument key : Text) : Prop :=
  ∀ draft : Draft,
    stackRule.apply { draft with content := Call.source ⟨"stack", false, argument⟩ } =
      some { draft with content := Php.tag ("echo join(\"\", $stacks[\"" ++ key ++ "\"] ?? []);") }

/-- `@section` captures its body under a key, and does nothing where the key is empty. -/
def WritesSection (argument key : Text) : Prop :=
  ∀ (draft : Draft) (body : Text), ¬List.IsInfix "@endsection" body →
    sectionRule.apply { draft with
        content := Region.source ⟨⟨"section", false, argument⟩, body, "@endsection"⟩ } =
      if key = [] then none
      else some { draft with content := [], before := draft.before ++ [capture key body] }

/-- `@push` puts a value on the stack of a key, and does nothing where the key is empty. Blocks are
looked for in the code that comes of it. -/
def PushesValue (argument key : Text) : Prop :=
  ∀ (draft : Draft) (value : Text), Balanced value →
    pushRule.apply { draft with
        content := Call.source ⟨"push", false, argument ++ ", " ++ value⟩ } =
      if key = [] then none
      else some { draft with
        content := (Rewrite.regions "push" "@endpush" pushBlock).run
          (pushValue key (Php.value value.trim)) }

/-- `@push` puts what a body shows on the stack of a key, and does nothing where the key is
empty. -/
def PushesBlock (argument key : Text) : Prop :=
  ∀ (draft : Draft) (body : Text), ¬List.IsInfix "@push" body → ¬List.IsInfix "@endpush" body →
    pushRule.apply { draft with
        content := Region.source ⟨⟨"push", false, argument⟩, body, "@endpush"⟩ } =
      if key = [] then none
      else some { draft with
        content := Php.tag "ob_start();" ++ "\n" ++ body ++ "\n"
          ++ pushValue key "ob_get_clean()" }

/-- The rule for sections cuts them out and adds their captures. -/
theorem apply_sectionRule (draft : Draft) (text : Text) :
    sectionRule.apply { draft with content := text } =
      (Piece.rewrite? (fun region => (sectionCapture region).map fun _ => [])
        (Region.pieces "section" "@endsection" text)).map fun content =>
          { draft with
            content
            before := draft.before ++ (Piece.values
              (Region.pieces "section" "@endsection" text)).filterMap sectionCapture } :=
  rfl

/-- The rule for pushes looks for values first and then for blocks. -/
theorem ofElements_push :
    Rewrite.ofElements pushElements =
      .andThen (.calls "push" pushCall) (.regions "push" "@endpush" pushBlock) :=
  rfl

section Quoted

variable {argument inner : Text} (h : argument.unquote? = some inner)

include h

/-- A section is read under what stands between the quotes. -/
theorem readsSection_of_unquote? : ReadsSection argument inner := by
  intro draft
  have hargs := balanced_of_crosses (crosses_of_unquote? h).2
  rw [yieldRule, Rule.apply_ofElements, yieldElements, Rewrite.ofElements, Element.rewrite,
    Rewrite.calls, Call.pieces_source hargs, Piece.rewrite?_singleton, yieldCall, h]
  rfl

/-- A stack is read under what stands between the quotes, unless that is empty. -/
theorem readsStack_of_unquote? (hne : inner ≠ []) : ReadsStack argument inner := by
  intro draft
  have hargs := balanced_of_crosses (crosses_of_unquote? h).2
  have hcall : stackCall ⟨"stack", false, argument⟩ =
      some (Php.tag ("echo join(\"\", $stacks[\"" ++ inner ++ "\"] ?? []);")) := by
    rw [stackCall, h]
    exact if_neg hne
  rw [stackRule, Rule.apply_ofElements, stackElements, Rewrite.ofElements, Element.rewrite,
    Rewrite.calls, Call.pieces_source hargs, Piece.rewrite?_singleton, hcall]
  rfl

/-- A section is written under its bare name. -/
theorem writesSection_of_unquote? : WritesSection argument argument.bareName := by
  intro draft body hbody
  have hargs := balanced_of_crosses (crosses_of_unquote? h).2
  have hpieces := @Region.pieces_source "section" "@endsection" argument body hargs (by decide)
    (along_of_mark '@' hbody (by decide) (by decide))
  have hcapture : sectionCapture ⟨⟨"section", false, argument⟩, body, "@endsection"⟩ =
      if argument.bareName = [] then none else some (capture argument.bareName body) := rfl
  rw [apply_sectionRule, hpieces, Piece.rewrite?_singleton, Piece.values_singleton,
    List.filterMap_cons]
  by_cases hkey : argument.bareName = []
  · rw [if_pos hkey] at hcapture ⊢
    rw [hcapture]
    rfl
  · rw [if_neg hkey] at hcapture ⊢
    rw [hcapture]
    rfl

/-- A value is pushed under its bare name. -/
theorem pushesValue_of_unquote? : PushesValue argument argument.bareName := by
  intro draft value hvalue
  have hcrosses := (crosses_of_unquote? h).2
  have hargs := hvalue.append_of_crosses hcrosses
  have hcalls : Rewrite.calls "push" pushCall
      (Call.source ⟨"push", false, argument ++ ", " ++ value⟩) =
      if argument.bareName = [] then none
      else some (pushValue argument.bareName (Php.value value.trim)) := by
    rw [Rewrite.calls, Call.pieces_source hargs, Piece.rewrite?_singleton, pushCall,
      splitFirst?_append_of_crosses hcrosses, ← bareName_trim]
    rfl
  rw [pushRule, Rule.apply_ofElements, ofElements_push, Rewrite.andThen, hcalls]
  by_cases hkey : argument.bareName = []
  · have hregions : Rewrite.regions "push" "@endpush" pushBlock
        (Call.source ⟨"push", false, argument ++ ", " ++ value⟩) = none := by
      rw [Rewrite.regions, Region.pieces_call hargs (by decide)]
      exact Piece.rewrite?_eq_none (by simp [Piece.values])
    rw [if_pos hkey, if_pos hkey, Option.getD_none, hregions]
    rfl
  · rw [if_neg hkey, if_neg hkey, Option.getD_some, Rewrite.run]
    cases Rewrite.regions "push" "@endpush" pushBlock
      (pushValue argument.bareName (Php.value value.trim)) <;> rfl

/-- A block is pushed under its bare name. -/
theorem pushesBlock_of_unquote? : PushesBlock argument argument.bareName := by
  intro draft body hpush hbody
  have hcrosses := (crosses_of_unquote? h).2
  have hargs := balanced_of_crosses hcrosses
  have hcalls : Rewrite.calls "push" pushCall
      (Region.source ⟨⟨"push", false, argument⟩, body, "@endpush"⟩) = none := by
    have hbehind : Along (Call.read "push" · = none) (body ++ "@endpush") [] := by
      refine along_append.2 ⟨?_, ?_⟩
      · refine (along_of_mark '@' hpush (by decide) rfl).mono fun text htext => ?_
        have hword : ("@push" : Text) = '@' :: "push" := by decide
        rw [hword] at htext
        rw [Call.read, htext]
        rfl
      · exact @Pattern.absentIn_mark (.call "push") (by decide) (.close "endpush")
          (show List.all _ _ = true by decide) (by decide) []
    have hnone : pushCall ⟨"push", false, argument⟩ = none := by
      rw [pushCall, splitFirst?_of_crosses hcrosses]
      rfl
    have hletters := pieces_append_of_along hbehind
    rw [List.append_nil, pieces_nil, List.append_nil] at hletters
    have hpieces := pieces_append_of_read (Call.read_source "push" hargs (body ++ "@endpush"))
      (by simp [Mark.source_call])
    rw [hletters, ← List.append_assoc] at hpieces
    refine (congrArg _ hpieces).trans ?_
    refine Piece.rewrite?_eq_none fun call hcall => ?_
    rw [← List.singleton_append, Piece.values_append, Piece.values_letters,
      List.append_nil] at hcall
    obtain rfl : call = ⟨"push", false, argument⟩ := List.mem_singleton.1 hcall
    exact hnone
  have hregions := @Region.pieces_source "push" "@endpush" argument body hargs (by decide)
    (along_of_mark '@' hbody (by decide) (by decide))
  rw [pushRule, Rule.apply_ofElements, ofElements_push, Rewrite.andThen, hcalls, Option.getD_none,
    Rewrite.regions, hregions, Piece.rewrite?_singleton, Option.or_none, pushBlock]
  show Option.map _ (if argument.bareName = [] then none else some _) = _
  split <;> rfl

/-- The keys that the rules make of a quoted argument. Readers and writers agree on them just when
there is no quote inside of the literal. -/
theorem keys_of_quoted (hne : inner ≠ []) :
    let key := inner.filter fun c => !isQuote c
    (ReadsSection argument inner ∧ WritesSection argument key) ∧
      (ReadsStack argument inner ∧ PushesValue argument key ∧ PushesBlock argument key) ∧
      (key = inner ↔ ∀ c ∈ inner, isQuote c = false) := by
  intro key
  have hkey : argument.bareName = key := bareName_of_unquote? h
  refine ⟨⟨readsSection_of_unquote? h, ?_⟩, ⟨readsStack_of_unquote? h hne, ?_, ?_⟩, ?_⟩
  · exact hkey ▸ writesSection_of_unquote? h
  · exact hkey ▸ pushesValue_of_unquote? h
  · exact hkey ▸ pushesBlock_of_unquote? h
  · simp only [key, List.filter_eq_self, Bool.not_eq_true']

end Quoted

/-- An apostrophe between double quotes parts a section from the page that shows it. -/
theorem keys_of_quoted_apostrophe :
    (ReadsSection "\"it's\"" "it's" ∧ WritesSection "\"it's\"" "its") ∧
      (ReadsStack "\"it's\"" "it's" ∧ PushesValue "\"it's\"" "its" ∧
        PushesBlock "\"it's\"" "its") ∧ ("its" : Text) ≠ "it's" := by
  have hkey : List.filter (fun c => !isQuote c) "it's" = "its" := by decide
  obtain ⟨hsections, hstacks, -⟩ := @keys_of_quoted "\"it's\"" "it's" (by decide) (by decide)
  rw [hkey] at hsections hstacks
  exact ⟨hsections, hstacks, by decide⟩

end Directive

end Pagewright
