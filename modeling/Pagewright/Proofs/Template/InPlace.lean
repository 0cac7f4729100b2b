import Pagewright.Proofs.Template.Nameless
import Pagewright.Proofs.Template.Regions

/-!
# Rewriting in place

Regions can be replaced one at a time in the text itself: find the first one from some byte on, put
the new text into its place, and go on behind that (`Buffer.turn?`). What stands in front of this
byte was written by earlier turns and may hold anything, calls of the same name among it; what
stands behind it is the end of the original text, as it was. This invariant is all that a turn
depends on (`Buffer.turn?_append`). So the loop ends, after one turn for each region of the original
text, with the text that one pass over it gives (`Buffer.exists_ends`).

`Directive.components_in_place` says so for components.
-/

namespace Pagewright

open Text

/-- A text that is rewritten in place. -/
structure Buffer where
  text : Text
  /-- The byte from which the search for the next region starts. -/
  place : Nat
  /-- Whether something has been replaced. -/
  changed : Bool

namespace Buffer

/-- One turn of the loop: the next region is replaced by what `f` has for it, or else passed over.
`none` when there is no region left. -/
def turn? (name close : Text) (f : Region → Option Text) (buffer : Buffer) : Option Buffer :=
  (buffer.text.nextRegion? name close buffer.place).map fun found =>
    match f found.2.2 with
    | some new =>
      { text := buffer.text.splice 0 [(found.1, found.2.1, new)]
        place := found.1 + new.byteSize
        changed := true }
    | none => { buffer with place := found.2.1 }

/-- A loop that starts with one buffer ends with another. -/
inductive Ends (turn : Buffer → Option Buffer) : Buffer → Buffer → Prop where
  | done {buffer : Buffer} (h : turn buffer = none) : Ends turn buffer buffer
  | turn {buffer next last : Buffer} (h : turn buffer = some next) (hlast : Ends turn next last) :
    Ends turn buffer last

variable {name close : Text} {f : Region → Option Text}

/-- The first region of a text is what a search finds, and the scan goes on behind it. -/
theorem exists_of_values {rest : Text} {region : Region} {regions : List Region}
    (h : Piece.values (Region.pieces name close rest) = region :: regions) :
    ∃ gap behind, rest = gap ++ region.source ++ behind ∧
      Piece.values (Region.pieces name close behind) = regions ∧
      (∀ f, Piece.rewrite f (Region.pieces name close rest)
        = gap ++ (f region).getD region.source
          ++ Piece.rewrite f (Region.pieces name close behind)) ∧
      ∀ front : Text, (front ++ rest).nextRegion? name close front.byteSize
        = some ((front ++ gap).byteSize, (front ++ gap ++ region.source).byteSize, region) := by
  obtain ⟨skipped, ⟨source, value⟩, after, hpieces, hskipped, rfl, hafter⟩ :=
    List.filterMap_eq_cons_iff.1 h
  have hread := Region.faithful_read name close
  obtain rfl : source = region.source :=
    source_of_mem_regions (hpieces ▸ List.mem_append_right _ List.mem_cons_self)
  have hbehind : Region.pieces name close (Piece.sources after) = after :=
    pieces_eq_of_append hread (hpieces.trans (List.append_cons ..))
  have hnone : Piece.values skipped = [] := List.filterMap_eq_nil_iff.2 hskipped
  refine ⟨Piece.sources skipped, Piece.sources after, ?_, ?_, ?_, ?_⟩
  · rw [eq_append_of_pieces hread hpieces, List.append_assoc]
  · rw [hbehind]
    exact hafter
  · intro f
    have hgap : Piece.rewrite f skipped = Piece.sources skipped :=
      Piece.rewrite_eq_sources (by simp [hnone])
    rw [hbehind, hpieces, Piece.rewrite_append, Piece.rewrite_cons, hgap, List.append_assoc]
    rfl
  · intro front
    have hlocated : Piece.located front.byteSize skipped = [] := by
      rw [← List.map_eq_nil_iff, Piece.values_located, hnone]
    rw [nextRegion?_append, hpieces, Piece.located_append, hlocated, Piece.located]
    simp only [byteSize_append, List.nil_append, List.head?_cons]

/-- A turn leaves everything behind the region as it was. -/
theorem turn?_append {front gap behind : Text} {region : Region} (changed : Bool)
    (h : (front ++ (gap ++ region.source ++ behind)).nextRegion? name close front.byteSize
      = some ((front ++ gap).byteSize, (front ++ gap ++ region.source).byteSize, region)) :
    turn? name close f ⟨front ++ (gap ++ region.source ++ behind), front.byteSize, changed⟩
      = some ⟨front ++ gap ++ (f region).getD region.source ++ behind,
          (front ++ gap ++ (f region).getD region.source).byteSize,
          changed || (f region).isSome⟩ := by
  have htext : front ++ (gap ++ region.source ++ behind)
      = front ++ gap ++ region.source ++ behind := by
    simp only [List.append_assoc]
  rw [turn?, h, Option.map_some, htext]
  cases f region with
  | none => simp
  | some new =>
    have hsplice : splice (front ++ gap ++ region.source ++ behind) 0
        [((front ++ gap).byteSize, (front ++ gap ++ region.source).byteSize, new)]
          = front ++ gap ++ new ++ behind := by
      rw [splice, splice, dropBytes_append, slice, dropBytes_zero, Nat.sub_zero,
        List.append_assoc _ region.source, takeBytes_append]
    simp only [hsplice, Option.getD_some, Option.isSome_some, Bool.or_true,
      byteSize_append _ new]

/-- The loop ends with what one pass gives, whatever stands in front of the place where it
starts. -/
theorem exists_ends (front rest : Text) (changed : Bool) :
    ∃ place, Ends (turn? name close f) ⟨front ++ rest, front.byteSize, changed⟩
      ⟨front ++ Piece.rewrite f (Region.pieces name close rest), place,
        changed || (Piece.values (Region.pieces name close rest)).any fun r => (f r).isSome⟩ := by
  -- One turn for each region of `rest`, which is all that the original text still has to give. What
  -- a turn writes goes over to `front` and is not searched again.
  induction hvalues : Piece.values (Region.pieces name close rest)
    generalizing front rest changed with
  | nil =>
    have hnone : (front ++ rest).nextRegion? name close front.byteSize = none := by
      rw [nextRegion?_append, List.head?_eq_none_iff, ← List.map_eq_nil_iff, Piece.values_located,
        hvalues]
    have hrewrite : Piece.rewrite f (Region.pieces name close rest) = rest := by
      rw [Piece.rewrite_eq_sources (by simp [hvalues]), Region.pieces,
        sources_pieces (Region.faithful_read name close)]
    rw [hrewrite, List.any_nil, Bool.or_false]
    exact ⟨_, .done (by rw [turn?, hnone, Option.map_none])⟩
  | cons region regions ih =>
    obtain ⟨gap, behind, rfl, hregions, hrewrite, hnext⟩ := exists_of_values hvalues
    obtain ⟨place, hends⟩ :=
      ih (front ++ gap ++ (f region).getD region.source) behind (changed || (f region).isSome)
        hregions
    refine ⟨place, .turn (turn?_append changed (hnext front)) ?_⟩
    rw [hrewrite, List.any_cons, ← Bool.or_assoc, ← List.append_assoc, ← List.append_assoc]
    exact hends

end Buffer

namespace Directive

/-- A component is rendered when it has a name. The rule for components does not apply just when no
region of the content has one; otherwise it puts the code of each such region into its place and
keeps everything else. The loop that rewrites the content in place, from its start on, ends with the
same result. -/
theorem components_in_place (dir : Text) (draft : Draft) :
    let found := draft.content.regions "component" "@endcomponent"
    let render := component dir draft.relativePath
    let result := (componentRule dir).apply draft
    (∀ region, (∃ code, render region = some code) ↔ region.args.bareName ≠ []) ∧
      (result = none ↔ ∀ start stop region, (start, stop, region) ∈ found →
        region.args.bareName = []) ∧
      result.getD draft =
        { draft with content := draft.content.splice 0 (Piece.edits render found) } ∧
      ∃ last, Buffer.Ends (Buffer.turn? "component" "@endcomponent" render)
          ⟨draft.content, 0, false⟩ last ∧
        result = if last.changed then some { draft with content := last.text } else none := by
  intro found render result
  have hsome := fun region => @component_isSome_iff dir draft.relativePath region
  have hnone : ∀ region, render region = none ↔ region.args.bareName = [] := fun region => by
    rw [← not_iff_not, ← ne_eq, Option.ne_none_iff_exists', hsome]
  refine ⟨hsome, ?_, ?_, ?_⟩
  · have hresult : result = none ↔ Piece.edits render found = [] :=
      Option.map_eq_none_iff.trans Piece.rewrite?_eq_none_iff
    rw [hresult, Piece.edits_eq_nil_iff]
    simp only [hnone]
  · have hread := Region.faithful_read "component" "@endcomponent"
    have hrun : (Rewrite.regions "component" "@endcomponent" render).run draft.content
        = draft.content.splice 0 (Piece.edits render found) := by
      refine (Rewrite.run_pieces hread render draft.content).trans ?_
      rw [Piece.rewrite_eq_splice, sources_pieces hread]
      rfl
    rw [← hrun]
    exact Rule.getD_apply_ofContent "component" _ draft
  · obtain ⟨place, hends⟩ :=
      @Buffer.exists_ends "component" "@endcomponent" render [] draft.content false
    refine ⟨_, hends, ?_⟩
    change (Piece.rewrite? render _).map _ = _
    rw [Piece.rewrite?, Bool.false_or]
    split <;> rfl

end Directive

end Pagewright
