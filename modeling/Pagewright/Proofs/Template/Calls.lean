import Pagewright.Proofs.Template.Keywords
import Pagewright.Proofs.Template.Spans

/-!
# The calls of a text

The calls of a directive are listed with the bytes where they start and end. A scan can stop at two
places only, behind a call and behind an opening that is never closed (`Call.exists_of_read`), and
neither jump passes over another opening unless that lies inside of a call. So an opening whose
parenthesis is closed is listed, or it starts inside of a call that is (`Text.mem_calls_or_inside`).

`Text.calls_complete` puts this together with what the list is used for: to replace the calls for
which there is an answer, and to change nothing else.
-/

namespace Pagewright

open Text

/-! ## What the scan stops at -/

namespace Call

/-- What is read at the head of a text is an opening: with its arguments when the parenthesis is
closed, else alone. -/
theorem exists_of_read {name text : Text} {piece : Piece Call} (h : read name text = some piece) :
    ∃ spaced back, text = opening name spaced ++ back ∧
      ((∃ args rest, closing? back = some (args, rest) ∧
          piece = ⟨source ⟨name, spaced, args⟩, some ⟨name, spaced, args⟩⟩) ∨
        closing? back = none ∧ piece = ⟨opening name spaced, none⟩) := by
  unfold read at h
  split at h
  · cases h
  case h_2 spaced back hopen =>
    obtain ⟨tail, htail, hparen⟩ := Option.bind_eq_some_iff.1 hopen
    have htext : text = opening name spaced ++ back := by
      rw [after?_eq_some_iff.1 htail, eq_append_of_parenthesis? hparen, opening]
      simp
    refine ⟨spaced, back, htext, ?_⟩
    split at h
    case h_1 args rest hclose => exact .inl ⟨args, rest, hclose, (Option.some.inj h).symm⟩
    case h_2 hclose => exact .inr ⟨hclose, (Option.some.inj h).symm⟩

/-- A call has the bytes of its opening, its arguments and the parenthesis. -/
theorem byteSize_source (name args : Text) (spaced : Bool) :
    (source ⟨name, spaced, args⟩).byteSize =
      (opening name spaced).byteSize + args.byteSize + 1 := by
  rw [source, byteSize_append, byteSize_append]
  rfl

theorem at_not_mem_opening_tail {name : Text} (hname : '@' ∉ name) (spaced : Bool) :
    '@' ∉ (opening name spaced).tail := by
  cases spaced <;> simpa [opening] using hname

end Call

namespace Text

/-- The parenthesis behind an opening is closed where its arguments end. -/
theorem matchingParen_opening_eq (front name back : Text) (spaced : Bool) :
    matchingParen (front ++ Call.opening name spaced ++ back)
        (front.byteSize + (Call.opening name spaced).byteSize - 1) =
      (closing? back).map fun found =>
        front.byteSize + ((Call.opening name spaced).byteSize + found.1.byteSize) := by
  obtain ⟨start, hstart⟩ : ∃ start, Call.opening name spaced = start ++ ['('] := by
    cases spaced
    · exact ⟨'@' :: name, rfl⟩
    · exact ⟨'@' :: name ++ [' '], by simp [Call.opening]⟩
  have hsize : (Call.opening name spaced).byteSize = start.byteSize + 1 := by
    rw [hstart, byteSize_append]
    rfl
  have htext : front ++ Call.opening name spaced ++ back = (front ++ start) ++ ('(' :: back) := by
    simp [hstart]
  have hplace : front.byteSize + (Call.opening name spaced).byteSize - 1 =
      (front ++ start).byteSize := by
    rw [hsize, byteSize_append]
    omega
  rw [htext, hplace, matchingParen, atByte?_byteSize, hsize, byteSize_append]
  cases hclose : closing? back <;> simp [hclose, Nat.add_assoc]

variable {name text : Text}

/-! ## What is listed -/

/-- The calls that are listed are the pieces that have been recognised, with their offsets. -/
theorem mem_calls_iff {start stop : Nat} {call : Call} :
    (start, stop, call) ∈ text.calls name ↔
      ∃ before after, Call.pieces name text = before ++ ⟨call.source, some call⟩ :: after ∧
        start = (Piece.sources before).byteSize ∧ stop = start + call.source.byteSize := by
  rw [calls, Piece.mem_located_iff]
  simp only [Nat.zero_add]
  constructor
  · rintro ⟨before, source, after, hpieces, hstart, hstop⟩
    obtain rfl := Call.source_of_read (read_of_pieces (Call.faithful_read name) hpieces)
    exact ⟨before, after, hpieces, hstart, hstop⟩
  · rintro ⟨before, after, hpieces, hstart, hstop⟩
    exact ⟨before, call.source, after, hpieces, hstart, hstop⟩

/-- A listed call stands where the list says, and its parenthesis is closed behind its
arguments. -/
theorem exists_of_mem_calls {start stop : Nat} {call : Call}
    (h : (start, stop, call) ∈ text.calls name) :
    ∃ spaced args front back rest, call = ⟨name, spaced, args⟩ ∧
      text = front ++ Call.opening name spaced ++ back ∧ front.byteSize = start ∧
      stop = start + call.source.byteSize ∧ closing? back = some (args, rest) := by
  obtain ⟨before, after, hpieces, hstart, hstop⟩ := mem_calls_iff.1 h
  have htext := eq_append_of_pieces (Call.faithful_read name) hpieces
  obtain ⟨spaced, back, hhead, ⟨args, rest, hclose, hpiece⟩ | ⟨-, hpiece⟩⟩ :=
    Call.exists_of_read (read_of_pieces (Call.faithful_read name) hpieces)
  · refine ⟨spaced, args, Piece.sources before, back, rest,
      Option.some.inj (congrArg Piece.value hpiece), ?_, hstart.symm, hstop, hclose⟩
    rw [htext, hhead, List.append_assoc]
  · cases congrArg Piece.value hpiece

/-- An opening whose parenthesis is closed is listed, or it starts inside of a call that is. -/
theorem mem_calls_or_inside (hname : '@' ∉ name) {front back args rest : Text} {spaced : Bool}
    (htext : text = front ++ Call.opening name spaced ++ back)
    (hclose : closing? back = some (args, rest)) :
    (front.byteSize, front.byteSize + (Call.source ⟨name, spaced, args⟩).byteSize,
        ⟨name, spaced, args⟩) ∈ text.calls name ∨
      ∃ start stop call, (start, stop, call) ∈ text.calls name ∧
        start < front.byteSize ∧ front.byteSize < stop := by
  have hread := Call.faithful_read name
  rw [List.append_assoc] at htext
  have hsources : Piece.sources (Call.pieces name text)
      = front ++ (Call.opening name spaced ++ back) := by
    rw [Call.pieces, sources_pieces hread, htext]
  rcases Piece.between_or_inside hsources with
    ⟨before, after, hpieces, rfl, hafter⟩ |
      ⟨before, x, y, value, after, hpieces, hx, hy, hfront, hback⟩
  · -- The scan comes to the opening, so it reads the call.
    left
    have hhere := pieces_eq_of_append hread hpieces
    rw [hafter, pieces_of_read (Call.read_opening_of_closing hclose) (by simp [Call.opening])
      (by simp [Call.source])] at hhere
    rw [← hhere] at hpieces
    exact mem_calls_iff.2 ⟨before, _, hpieces, rfl, rfl⟩
  · -- Something that the scan stops at starts before the opening and runs over its first character.
    have hhead : (y ++ Piece.sources after).head? = some '@' := by
      rw [hback]
      rfl
    have hat : '@' ∈ (x ++ y).tail := mem_tail_of_inside hx hy hhead
    obtain hfound | ⟨c, hc, -⟩ := read_or_letter hread hpieces
    · obtain ⟨spaced', back', -, ⟨args', rest', -, hpiece⟩ | ⟨-, hpiece⟩⟩ :=
        Call.exists_of_read hfound
      · right
        obtain ⟨hsource, rfl⟩ := Piece.mk.inj hpiece
        rw [hsource] at hpieces
        have hlisted := mem_calls_iff.2 ⟨before, after, hpieces, rfl, rfl⟩
        refine ⟨_, _, _, hlisted, ?_, ?_⟩
        · have := byteSize_pos hx
          rw [← hfront, byteSize_append]
          omega
        · have := byteSize_pos hy
          rw [← hfront, byteSize_append, ← hsource, byteSize_append]
          omega
      · rw [(Piece.mk.inj hpiece).1] at hat
        exact absurd hat (Call.at_not_mem_opening_tail hname spaced')
    · rw [(Piece.mk.inj hc).1] at hat
      cases hat

/-- No listed call starts inside of another one. -/
theorem not_inside_of_mem_calls {start stop start' stop' : Nat} {call call' : Call}
    (h : (start, stop, call) ∈ text.calls name) (h' : (start', stop', call') ∈ text.calls name) :
    ¬(start' < start ∧ start < stop') := by
  rintro ⟨hstart, hstop⟩
  have hlt : start < stop := Piece.lt_of_mem_located (Call.faithful_read name) h
  obtain ⟨before, after, hfound⟩ := List.append_of_mem h
  have hordered : (text.calls name).Pairwise fun a b => a.2.1 ≤ b.1 := Piece.pairwise_located _ _
  rw [hfound, List.pairwise_append, List.pairwise_cons] at hordered
  obtain ⟨-, ⟨hafter, -⟩, hbefore⟩ := hordered
  rw [hfound] at h'
  rcases List.mem_append.1 h' with h' | h'
  · have : stop' ≤ start := hbefore _ h' _ List.mem_cons_self
    omega
  · rcases List.mem_cons.1 h' with heq | h'
    · have : start' = start := congrArg Prod.fst heq
      omega
    · have : stop ≤ start' := hafter _ h'
      omega

/-! ## The whole list -/

/-- Calls are listed in order and do not overlap. Each stands where the list says, spelled with its
name, at most one space and its arguments in parentheses, of which the last closes the first. An
opening whose parenthesis is closed is listed just when it does not start inside of a listed call.

Calls are replaced where `f` has an answer. When it has none for any listed call there is nothing to
do, and otherwise the spans of the calls that it accepts are replaced and all other bytes stay. The
name must not hold the mark that calls start with, as no word of letters, digits and underscores
does. -/
theorem calls_complete (hname : '@' ∉ name) (text : Text) (f : Call → Option Text) :
    let found := text.calls name
    (found.Pairwise fun a b => a.1 < b.1 ∧ a.2.1 ≤ b.1) ∧
      (∀ start stop call, (start, stop, call) ∈ found →
        call.name = name ∧ text.StandsAt start call.source ∧
          stop = start + call.source.byteSize ∧
          text.matchingParen (start + (Call.opening name call.spaced).byteSize - 1)
            = some (stop - 1)) ∧
      (∀ start spaced close, text.StandsAt start (Call.opening name spaced) →
        text.matchingParen (start + (Call.opening name spaced).byteSize - 1) = some close →
        ((∃ args, (start, close + 1, ⟨name, spaced, args⟩) ∈ found) ↔
          ¬∃ first last call, (first, last, call) ∈ found ∧ first < start ∧ start < last)) ∧
      (Rewrite.calls name f text = none ↔
        ∀ start stop call, (start, stop, call) ∈ found → f call = none) ∧
      ∀ new, Rewrite.calls name f text = some new → new = text.splice 0 (Piece.edits f found) := by
  intro found
  refine ⟨Piece.pairwise_located_pieces (Call.faithful_read name) 0 text, ?_, ?_, ?_, ?_⟩
  · intro start stop call h
    obtain ⟨spaced, args, front, back, rest, rfl, rfl, rfl, rfl, hclose⟩ := exists_of_mem_calls h
    have hspelled : front ++ Call.opening name spaced ++ back
        = front ++ Call.source ⟨name, spaced, args⟩ ++ rest := by
      rw [List.append_assoc, Call.opening_append_of_closing hclose, List.append_assoc]
    refine ⟨rfl, ⟨front, rest, hspelled, rfl⟩, rfl, ?_⟩
    rw [matchingParen_opening_eq, hclose, Call.byteSize_source]
    rfl
  · rintro start spaced close ⟨front, back, rfl, rfl⟩ hparen
    rw [matchingParen_opening_eq] at hparen
    obtain ⟨⟨args, rest⟩, hclose, rfl⟩ := Option.map_eq_some_iff.1 hparen
    constructor
    · rintro ⟨args', hlisted⟩ ⟨first, last, call, hcall, hinside⟩
      exact not_inside_of_mem_calls hlisted hcall hinside
    · intro hnone
      refine ⟨args, ?_⟩
      have hlisted := (mem_calls_or_inside hname rfl hclose).resolve_right hnone
      rwa [Call.byteSize_source] at hlisted
  · rw [Rewrite.calls, Piece.rewrite?_eq_none_iff, Piece.edits_eq_nil_iff]
    rfl
  · intro new hnew
    rw [Piece.eq_splice_of_rewrite? hnew, Call.pieces, sources_pieces (Call.faithful_read name)]
    rfl

/-- An opening that is never closed does not hide the call behind it. -/
theorem calls_complete_unclosed :
    '@' ∉ ("if" : Text) ∧
      (∃ args, (7, 14, ⟨"if", false, args⟩) ∈ calls "@if($x @if($y)" "if") ∧
      splice "@if($x @if($y)" 0 [(7, 14, "$y")] = "@if($x $y".toList := by
  have hfound : calls "@if($x @if($y)" "if" = [(7, 14, ⟨"if", false, "$y"⟩)] := by decide
  obtain ⟨-, -, hlisted, -, hsplice⟩ :=
    @calls_complete "if" (by decide) "@if($x @if($y)" fun call => some call.args
  have hparen : matchingParen "@if($x @if($y)" (7 + (Call.opening "if" false).byteSize - 1)
      = some 13 :=
    matchingParen_opening_eq "@if($x " "if" "$y)" false
  have hstands : StandsAt "@if($x @if($y)" 7 (Call.opening "if" false) :=
    ⟨"@if($x ", "$y)", by decide, by decide⟩
  refine ⟨by decide, (hlisted 7 false 13 hstands hparen).2 ?_, ?_⟩
  · rw [hfound]
    simp
  · rw [hfound] at hsplice
    exact (hsplice _ rfl).symm

end Text

end Pagewright
