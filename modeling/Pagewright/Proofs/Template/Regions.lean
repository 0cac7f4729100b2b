import Pagewright.Proofs.Template.Calls

/-!
# The regions of a text

A region can be searched for from any place on: the first call, and the nearest closing word behind
it (`Text.nextRegion?`, `Text.FirstRegion`). The scan that lists all regions of a text finds them in
this way, one after another. It stands behind each region at a place from which the search for the
next one gives the next in the list, and behind the last one the search fails
(`Text.exists_of_regions_append`). It is enough to look at the first call then: where no closing
word follows it, none follows the calls behind it (`Text.not_standsAt_of_nextRegion?`).

`Text.regions_lossless` says what this means for the list, and for the rule that takes sections out
of the content.
-/

namespace Pagewright

open Text

namespace Text

variable {name close : Text}

/-- The first cut is made at the first occurrence. -/
theorem isPrefix_of_cut? {text word before rest : Text} (h : cut? text word = some (before, rest))
    {front back : Text} (htext : text = front ++ (word ++ back)) : before <+: front := by
  have hsplit : before ++ (word ++ rest) = front ++ (word ++ back) := by
    rw [← List.append_assoc, ← eq_append_of_cut? h, htext]
  rcases append_cases hsplit with ⟨x, rfl, -⟩ | ⟨x, hx, rfl, hback⟩
  · exact List.prefix_append _ _
  · have hnone := (along_append.1 (along_of_cut? h)).2.of_suffix List.suffix_rfl hx
    rw [← hback, after?_append] at hnone
    cases hnone

/-! ## From one place on -/

/-- The calls of `name` at or after byte `start`, with their byte offsets. -/
def callsFrom (text name : Text) (start : Nat) : List (Nat × Nat × Call) :=
  let rest := text.dropBytes start
  Piece.located (text.byteSize - rest.byteSize) (Call.pieces name rest)

/-- From between two texts the calls are those of the second. -/
theorem callsFrom_append (front rest : Text) :
    (front ++ rest).callsFrom name front.byteSize
      = Piece.located front.byteSize (Call.pieces name rest) := by
  rw [callsFrom, dropBytes_append, byteSize_append, Nat.add_sub_cancel_right]

/-- From between two texts the next call is the first of the second. -/
theorem nextCall?_append (front rest : Text) :
    (front ++ rest).nextCall? name front.byteSize
      = (Piece.located front.byteSize (Call.pieces name rest)).head? :=
  congrArg List.head? (callsFrom_append front rest)

/-- The first call from some place on stands behind that place. -/
theorem exists_of_nextCall? {front rest : Text} {start behind : Nat} {call : Call}
    (h : (front ++ rest).nextCall? name front.byteSize = some (start, behind, call)) :
    ∃ gap tail, rest = gap ++ call.source ++ tail ∧ start = (front ++ gap).byteSize ∧
      behind = (front ++ gap ++ call.source).byteSize := by
  rw [nextCall?_append] at h
  obtain ⟨gap, source, tail, rfl, rfl, rfl, hread⟩ :=
    Piece.exists_of_mem_located_pieces (Call.faithful_read name) (List.mem_of_mem_head? h)
  obtain rfl := Call.source_of_read hread
  exact ⟨gap, tail, (List.append_assoc _ _ _).symm, rfl, (byteSize_append _ _).symm⟩

/-- The next region starts at the next call and ends at the first closing word behind it. -/
theorem nextRegion?_of_call {text : Text} {start first behind : Nat} {call : Call}
    (h : text.nextCall? name start = some (first, behind, call)) :
    text.nextRegion? name close start = ((text.dropBytes behind).cut? close).map fun found =>
      (first, behind + found.1.byteSize + close.byteSize, ⟨call, found.1, close⟩) := by
  rw [nextRegion?, h]
  cases hcut : (text.dropBytes behind).cut? close <;> simp [hcut]

theorem nextRegion?_of_not_call {text : Text} {start : Nat}
    (h : text.nextCall? name start = none) : text.nextRegion? name close start = none := by
  rw [nextRegion?, h]
  rfl

/-- The first region from some place on starts with the first call, and its body ends at the first
closing word. -/
theorem exists_of_nextRegion? {front rest : Text} {first stop : Nat} {region : Region}
    (h : (front ++ rest).nextRegion? name close front.byteSize = some (first, stop, region)) :
    ∃ gap behind, rest = gap ++ region.source ++ behind ∧ first = (front ++ gap).byteSize ∧
      stop = (front ++ gap ++ region.source).byteSize ∧ region.close = close ∧
      (front ++ rest).nextCall? name front.byteSize
        = some (first, first + region.call.source.byteSize, region.call) ∧
      cut? (region.body ++ close ++ behind) close = some (region.body, behind) := by
  cases hcall : (front ++ rest).nextCall? name front.byteSize with
  | none =>
    rw [nextRegion?_of_not_call hcall] at h
    cases h
  | some found =>
    obtain ⟨first', behind, call⟩ := found
    rw [nextRegion?_of_call hcall] at h
    obtain ⟨⟨body, back⟩, hcut, hregion⟩ := Option.map_eq_some_iff.1 h
    obtain ⟨rfl, rfl, rfl⟩ : first' = first ∧ behind + body.byteSize + close.byteSize = stop ∧
        (⟨call, body, close⟩ : Region) = region := by simpa using hregion
    obtain ⟨gap, tail, rfl, rfl, rfl⟩ := exists_of_nextCall? hcall
    have htext : front ++ (gap ++ call.source ++ tail) = front ++ gap ++ call.source ++ tail := by
      simp only [List.append_assoc]
    rw [htext, dropBytes_append] at hcut
    obtain rfl := eq_append_of_cut? hcut
    refine ⟨gap, back, ?_, rfl, ?_, rfl, ?_, hcut⟩
    · simp only [Region.source, List.append_assoc]
    · simp only [Region.source, byteSize_append, Nat.add_assoc]
    · rw [byteSize_append (front ++ gap)]

/-- From byte `place` on, the text has its first region between the bytes `start` and `stop`: the
first call, what stands between it and the first closing word behind it, and that word. -/
structure FirstRegion (text name close : Text) (place start stop : Nat) (region : Region) :
    Prop where
  start_lt : start < stop
  stop_le : stop ≤ text.byteSize
  spelled : text.StandsAt start (region.call.source ++ region.body ++ close)
  stop_eq : stop = start + (region.call.source ++ region.body ++ close).byteSize
  first_call : text.nextCall? name place
    = some (start, start + region.call.source.byteSize, region.call)
  first_close : ∀ closed, start + region.call.source.byteSize ≤ closed →
    text.StandsAt closed close → stop ≤ closed + close.byteSize

/-- The region that is found is the first one from there on. -/
theorem firstRegion_of_nextRegion? {front rest : Text} {start stop : Nat} {region : Region}
    (h : (front ++ rest).nextRegion? name close front.byteSize = some (start, stop, region)) :
    (front ++ rest).FirstRegion name close front.byteSize start stop region := by
  obtain ⟨gap, behind, rfl, rfl, rfl, hname, hcall, hcut⟩ := exists_of_nextRegion? h
  have hsource : region.source = region.call.source ++ region.body ++ close := by
    rw [Region.source, hname]
  have hpos : 0 < region.source.byteSize := byteSize_pos (by simp [Region.source, Call.source])
  have hsize : (front ++ gap ++ region.source).byteSize
      = (front ++ gap).byteSize + region.source.byteSize := byteSize_append _ _
  refine ⟨by omega, ?_, ⟨front ++ gap, behind, ?_, rfl⟩, ?_, hcall, ?_⟩
  · simp only [byteSize_append]
    omega
  · simp only [hsource, List.append_assoc]
  · rw [hsize, hsource]
  · rintro closed hle ⟨before, after, htext, rfl⟩
    have hsplit : front ++ gap ++ region.call.source ++ (region.body ++ close ++ behind)
        = before ++ (close ++ after) := by
      rw [← List.append_assoc before, ← htext, hsource]
      simp only [List.append_assoc]
    obtain ⟨between, rfl, hbody⟩ :=
      exists_append_of_byteSize_le hsplit (by rwa [byteSize_append])
    obtain ⟨more, rfl⟩ := isPrefix_of_cut? hcut hbody
    rw [hsource]
    simp only [byteSize_append]
    omega

/-! ## One region after another -/

/-- What the scan passes over in front of a region, a search passes over too. -/
theorem nextRegion?_skip {front skipped rest : Text}
    (hcalls : Call.pieces name (skipped ++ rest) = ⟨skipped, none⟩ :: Call.pieces name rest)
    (hregions : Region.pieces name close (skipped ++ rest)
      = ⟨skipped, none⟩ :: Region.pieces name close rest)
    (h : (front ++ skipped ++ rest).nextRegion? name close (front ++ skipped).byteSize
      = (Piece.located (front ++ skipped).byteSize (Region.pieces name close rest)).head?) :
    (front ++ (skipped ++ rest)).nextRegion? name close front.byteSize
      = (Piece.located front.byteSize (Region.pieces name close (skipped ++ rest))).head? := by
  have hcall : (front ++ (skipped ++ rest)).nextCall? name front.byteSize
      = (front ++ skipped ++ rest).nextCall? name (front ++ skipped).byteSize := by
    rw [nextCall?_append, nextCall?_append, hcalls, byteSize_append]
    rfl
  rw [byteSize_append] at h
  rw [hregions, Piece.located, ← h, ← byteSize_append]
  simp only [nextRegion?, hcall, List.append_assoc]

/-- The scan finds first what a search from its start on finds. -/
theorem nextRegion?_append (front rest : Text) :
    (front ++ rest).nextRegion? name close front.byteSize
      = (Piece.located front.byteSize (Region.pieces name close rest)).head? := by
  induction rest using pieces_induction (Call.faithful_read name) generalizing front with
  | nil => exact nextRegion?_of_not_call (nextCall?_append front [])
  | letter c rest hread ih =>
    exact @nextRegion?_skip name close front [c] rest (pieces_of_read_none hread)
      (pieces_of_read_none (Region.read_of_call hread)) (ih _)
  | found piece rest hread ih =>
    have hne := (Call.faithful_read name _ _ hread).1
    have hcalls := pieces_append_of_read hread hne
    obtain ⟨spaced, back, htext, ⟨args, -, -, rfl⟩ | ⟨hclose, rfl⟩⟩ := Call.exists_of_read hread
    · have hcall :
          (front ++ (Call.source ⟨name, spaced, args⟩ ++ rest)).nextCall? name front.byteSize
            = some (front.byteSize, (front ++ Call.source ⟨name, spaced, args⟩).byteSize,
              ⟨name, spaced, args⟩) := by
        rw [nextCall?_append, Call.pieces, hcalls, byteSize_append]
        rfl
      rw [nextRegion?_of_call hcall, ← List.append_assoc, dropBytes_append, Region.pieces]
      cases hcut : cut? rest close with
      | none =>
        -- A call without a closing word takes the rest of the text with it.
        have hregion : Region.read name close (Call.source ⟨name, spaced, args⟩ ++ rest)
            = some ⟨Call.source ⟨name, spaced, args⟩ ++ rest, none⟩ := by
          rw [Region.read, hread]
          simp only [List.drop_left, hcut]
        rw [pieces_of_read hregion (by simp [hne]) (by simp [hne]), List.drop_length]
        rfl
      | some found =>
        have hregion : Region.read name close (Call.source ⟨name, spaced, args⟩ ++ rest)
            = some ⟨Region.source ⟨⟨name, spaced, args⟩, found.1, close⟩,
                some ⟨⟨name, spaced, args⟩, found.1, close⟩⟩ := by
          rw [Region.read, hread]
          simp only [List.drop_left, hcut]
        rw [pieces_of_read hregion (by simp [hne]) (by simp [Region.source, hne])]
        simp [Piece.located, Region.source, Nat.add_assoc]
    · -- An opening that is never closed is passed over whole.
      obtain rfl : rest = back := List.append_cancel_left htext
      exact nextRegion?_skip hcalls
        (pieces_append_of_read (Region.read_opening_of_not_closing hclose) hne) (ih _)

/-- Behind some of the regions that it has found, the scan stands at a place of the text and goes on
as if the text started there. -/
theorem exists_of_located_append {front rest : Text} {before after : List (Nat × Nat × Region)}
    (h : Piece.located front.byteSize (Region.pieces name close rest) = before ++ after) :
    ∃ front' rest', front ++ rest = front' ++ rest' ∧
      Piece.lastStop front.byteSize before = front'.byteSize ∧
      Piece.located front'.byteSize (Region.pieces name close rest') = after := by
  induction before generalizing front rest with
  | nil => exact ⟨front, rest, rfl, rfl, h⟩
  | cons x before ih =>
    obtain ⟨start, stop, region⟩ := x
    obtain ⟨gap, source, behind, rfl, -, rfl, hfound⟩ :=
      Piece.exists_of_located_pieces_cons (Region.faithful_read name close) h
    obtain ⟨front', rest', htext, hplace, hafter⟩ := ih hfound.symm
    refine ⟨front', rest', ?_, hplace, hafter⟩
    rw [← htext]
    simp only [List.append_assoc]

/-- A search from the end of a listed region on finds the next one in the list. -/
theorem exists_of_regions_append {text : Text} {before after : List (Nat × Nat × Region)}
    (h : text.regions name close = before ++ after) :
    ∃ front rest, text = front ++ rest ∧ Piece.lastStop 0 before = front.byteSize ∧
      (front ++ rest).nextRegion? name close front.byteSize = after.head? := by
  obtain ⟨front, rest, htext, hplace, hafter⟩ :=
    @exists_of_located_append name close [] text before after h
  exact ⟨front, rest, htext, hplace, by rw [nextRegion?_append, hafter]⟩

/-- When the search for a region fails, no call from there on is followed by the closing word: the
first call is not, and the others come behind it. -/
theorem not_standsAt_of_nextRegion? (hclose : close ≠ []) {front rest : Text}
    (h : (front ++ rest).nextRegion? name close front.byteSize = none) {start behind : Nat}
    {call : Call} (hcall : (start, behind, call) ∈ (front ++ rest).callsFrom name front.byteSize)
    {place : Nat} (hplace : behind ≤ place) : ¬(front ++ rest).StandsAt place close := by
  rw [callsFrom_append] at hcall
  cases hfirst : (front ++ rest).nextCall? name front.byteSize with
  | none =>
    rw [nextCall?_append, List.head?_eq_none_iff] at hfirst
    rw [hfirst] at hcall
    cases hcall
  | some first =>
    obtain ⟨start', behind', call'⟩ := first
    have hle : behind' ≤ behind :=
      Piece.stop_le_of_head? (Call.faithful_read name) (nextCall?_append front rest ▸ hfirst) hcall
    rw [nextRegion?_of_call hfirst, Option.map_eq_none_iff] at h
    obtain ⟨gap, tail, rfl, -, rfl⟩ := exists_of_nextCall? hfirst
    rw [← List.append_assoc, ← List.append_assoc, dropBytes_append, cut?_eq_none_iff hclose] at h
    rintro ⟨before, after, htext, rfl⟩
    rw [← List.append_assoc, ← List.append_assoc, List.append_assoc before] at htext
    obtain ⟨between, -, rfl⟩ := exists_append_of_byteSize_le htext (hle.trans hplace)
    exact h ⟨between, after, by simp⟩

/-- A region is spelled as it stands. -/
theorem source_of_mem_regions {text source : Text} {region : Region}
    (h : ⟨source, some region⟩ ∈ Region.pieces name close text) : source = region.source := by
  obtain ⟨before, after, hpieces⟩ := List.append_of_mem h
  exact (Region.source_of_read (read_of_pieces (Region.faithful_read name close) hpieces)).1

/-- Regions that are cut out of a text can be put back. -/
theorem putBack_regions (p : Region → Bool) (text name close : Text) :
    let cut := (text.regions name close).filter fun x => p x.2.2
    putBack 0 (cut.map fun x => (x.1, x.2.2.source))
      (text.splice 0 (cut.map fun x => (x.1, x.2.1, []))) = text := by
  intro cut
  have hsources := sources_pieces (Region.faithful_read name close) text
  have hspelled : ∀ source region, ⟨source, some region⟩ ∈ text.pieces (Region.read name close) →
      source = region.source := fun _ _ h => source_of_mem_regions h
  have hback := Piece.putBack_located p 0 [] hspelled
  rwa [List.nil_append, List.nil_append, Piece.rewrite_eq_splice, Piece.edits_cut, hsources]
    at hback

end Text

/-! ## Sections -/

namespace Directive

/-- The sections that have a name leave the content. -/
theorem sectionCut_eq : (fun region => (sectionCapture region).map fun _ => ([] : Text)) =
    fun region => if decide (region.args.bareName ≠ []) then some [] else none := by
  funext region
  by_cases hname : region.args.bareName = [] <;> simp [sectionCapture, hname]

/-- Only sections with a name are captured. -/
theorem filterMap_sectionCapture (found : List (Nat × Nat × Region)) :
    (found.map (·.2.2)).filterMap sectionCapture =
      (found.filter fun x => x.2.2.args.bareName ≠ []).map fun x =>
        capture x.2.2.args.bareName x.2.2.body := by
  induction found with
  | nil => rfl
  | cons x found ih =>
    by_cases hname : x.2.2.args.bareName = [] <;>
      simpa [sectionCapture, hname] using ih

/-- The rule for sections cuts the sections that have a name out of the content and adds their
captures. -/
theorem getD_apply_sectionRule (draft : Draft) :
    let named := (draft.content.regions "section" "@endsection").filter fun x =>
      x.2.2.args.bareName ≠ []
    (sectionRule.apply draft = none ↔ named = []) ∧
      (sectionRule.apply draft).getD draft =
        { draft with
          content := draft.content.splice 0 (named.map fun x => (x.1, x.2.1, []))
          before := draft.before ++ named.map fun x =>
            capture x.2.2.args.bareName x.2.2.body } := by
  intro named
  have hedits : Piece.edits (fun region => (sectionCapture region).map fun _ => [])
      (draft.content.regions "section" "@endsection")
        = named.map fun x => (x.1, x.2.1, []) := by
    rw [sectionCut_eq, Piece.edits_cut]
  have hcaptures : (Piece.values (Region.pieces "section" sectionClose draft.content)).filterMap
      sectionCapture = named.map fun x => capture x.2.2.args.bareName x.2.2.body := by
    rw [← Piece.values_located 0, filterMap_sectionCapture]
    rfl
  have hnone : sectionRule.apply draft = none ↔ named = [] := by
    refine Option.map_eq_none_iff.trans (Piece.rewrite?_eq_none_iff.trans ?_)
    exact (congrArg (· = []) hedits).to_iff.trans List.map_eq_nil_iff
  refine ⟨hnone, ?_⟩
  cases happly : sectionRule.apply draft with
  | none =>
    rw [hnone.1 happly]
    simp [splice]
  | some next =>
    obtain ⟨content, hcontent, rfl⟩ := Option.map_eq_some_iff.1 happly
    have hsplice := Piece.eq_splice_of_rewrite? hcontent
    rw [Region.pieces, sources_pieces (Region.faithful_read _ _)] at hsplice
    rw [hcaptures, hsplice, Option.getD_some, ← hedits]
    rfl

end Directive

namespace Text

/-- Regions are listed in order, within the text and without overlap. Each is spelled by its call,
its body and the closing word; its call is the first one at or after the end of the region before
it, and the closing word does not start inside of its body. No call from the end of the last region
on is followed by the closing word, so no region is missed.

The rule for sections cuts out of the content exactly the regions that have a name. Behind the
fragments that were there it adds one for each, in the order in which they stand in the text, and
the regions put back where they were give the content again. -/
theorem regions_lossless {close : Text} (hclose : close ≠ []) (text name : Text) (draft : Draft) :
    let found := text.regions name close
    let named := (draft.content.regions "section" "@endsection").filter fun x =>
      x.2.2.args.bareName ≠ []
    let next := (Directive.sectionRule.apply draft).getD draft
    (found.Pairwise fun a b => a.1 < b.1 ∧ a.2.1 ≤ b.1) ∧
      (∀ before start stop region after, found = before ++ (start, stop, region) :: after →
        text.FirstRegion name close (Piece.lastStop 0 before) start stop region) ∧
      (∀ start behind call, (start, behind, call) ∈ text.callsFrom name (Piece.lastStop 0 found) →
        ∀ place, behind ≤ place → ¬text.StandsAt place close) ∧
      (Directive.sectionRule.apply draft = none ↔ named = []) ∧
      next = { draft with
        content := draft.content.splice 0 (named.map fun x => (x.1, x.2.1, []))
        before := draft.before ++ named.map fun x =>
          Directive.capture x.2.2.args.bareName x.2.2.body } ∧
      putBack 0 (named.map fun x => (x.1, x.2.2.source)) next.content = draft.content := by
  intro found named next
  obtain ⟨hnone, hnext⟩ := Directive.getD_apply_sectionRule draft
  refine ⟨Piece.pairwise_located_pieces (Region.faithful_read name close) 0 text, ?_, ?_, hnone,
    hnext, ?_⟩
  · intro before start stop region after hfound
    obtain ⟨front, rest, rfl, hplace, hnext⟩ := exists_of_regions_append hfound
    rw [hplace]
    exact firstRegion_of_nextRegion? hnext
  · intro start behind call hcall closed hclosed
    obtain ⟨front, rest, rfl, hplace, hnext⟩ :=
      exists_of_regions_append (List.append_nil found).symm
    rw [hplace] at hcall
    exact not_standsAt_of_nextRegion? hclose hnext hcall hclosed
  · rw [show next = _ from hnext]
    exact putBack_regions (fun region => decide (region.args.bareName ≠ [])) _ _ _

/-- A section with a call inside of it, one without a name, and a call that nothing closes. -/
def sectionsInARow : Text :=
  "@section('a')1@section('b')2@endsection@section('')3@endsection@section('c')4"

/-- Three sections in a row, the last of which has no name. -/
theorem regions_lossless_in_a_row :
    ("@endsection" : Text) ≠ [] ∧
      sectionsInARow.FirstRegion "section" "@endsection" 39 39 63
        ⟨⟨"section", false, "''"⟩, "3", "@endsection"⟩ ∧
      ((Directive.sectionRule.apply { content := sectionsInARow }).getD
        { content := sectionsInARow }).before = [Directive.capture "a" "1@section('b')2"] ∧
      putBack 0 [(0, "@section('a')1@section('b')2@endsection")]
        ((Directive.sectionRule.apply { content := sectionsInARow }).getD
          { content := sectionsInARow }).content = sectionsInARow := by
  have hclose : ("@endsection" : Text) ≠ [] := by decide
  have hfound : sectionsInARow.regions "section" "@endsection" =
      [(0, 39, ⟨⟨"section", false, "'a'"⟩, "1@section('b')2", "@endsection"⟩),
        (39, 63, ⟨⟨"section", false, "''"⟩, "3", "@endsection"⟩)] := by
    decide
  obtain ⟨-, hregions, -, -, hnext, hback⟩ :=
    regions_lossless hclose sectionsInARow "section" { content := sectionsInARow }
  rw [hfound] at hnext hback
  refine ⟨hclose, hregions [_] 39 63 _ [] hfound, ?_, hback⟩
  rw [hnext]
  decide

end Text

end Pagewright
