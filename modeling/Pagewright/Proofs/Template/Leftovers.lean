import Pagewright.Proofs.Template.Stretches

/-!
# Leftover closing words

Whatever directives are left over are rewritten in two passes: calls open conditions
(`Output.leftoverSweep`), then closing words end them (`Output.leftoverEndSweep`). A closing word
is itself a word that may be called. `Output.closing_word_iff` says that this is the one thing that
keeps a closing word from ending a condition: where an argument list follows it, and no brace on
the line behind that, the first pass takes `@endauth (see below)` for the call of a function
`endauth`. Among the arguments of a call a closing word is not looked at by the first pass, and is
treated as anywhere else by the second.
-/

namespace Pagewright

open Text

namespace Output

/-- The pass that turns leftover calls into conditions. -/
def leftoverSweep : Sweep :=
  .of readLeftover fun call => some (Php.tag ("if (" ++ call.name ++ "(" ++ call.args ++ ")) :"))

/-- The pass that turns leftover closing words into ends of conditions. -/
def leftoverEndSweep : Sweep :=
  .of readLeftoverEnd fun _ => some (Php.tag "endif;")

/-- A closed argument list follows, and the rest of its last line holds no brace. -/
def OpensCall (back : Text) (spaced : Bool) (args rest : Text) : Prop :=
  ∃ tail, Call.parenthesis? back = some (spaced, tail) ∧ closing? tail = some (args, rest) ∧
    '\x7b' ∉ firstLine rest

/-- The second pass ends a condition at the word, or leaves the word alone when a directive claims
it. -/
def Ends (b : Stretch) (word result : Text) : Prop :=
  ∃ c, (if isClaimed word then leftoverEndSweep.Keeps b c
      else leftoverEndSweep.Replaces b c ∧ c.word = Php.tag "endif;") ∧ result = c.text

/-- The first pass leaves the closing word alone and the second one ends a condition there, or
leaves it alone too when a directive claims the word. -/
def ClosesCondition (a : Stretch) (word result : Text) : Prop :=
  ∃ b, leftoverSweep.Keeps a b ∧ Ends b word result

/-- The closing word and the argument list behind it are taken for a call, which opens a condition.
-/
def OpensCondition (front word : Text) (spaced : Bool) (args rest result : Text) : Prop :=
  ∃ b c, leftoverSweep.Replaces ⟨front, Call.source ⟨"end" ++ word, spaced, args⟩, rest⟩ b ∧
    b.word = Php.tag ("if (end" ++ word ++ "(" ++ args ++ ")) :") ∧
    leftoverEndSweep.Keeps
      ⟨b.front, "<?php if (end" ++ word ++ "(", args ++ ")) : ?>" ++ b.back⟩ c ∧
    result = c.text

/-- The closing word stands among the arguments of a call and is copied with them into the condition
that comes of the call. -/
def EndsInside (a : Stretch) (word result : Text) : Prop :=
  ∃ c d x z, leftoverSweep.Replaces c d ∧ c.Encloses a ∧ d.word = x ++ a.word ++ z ∧
    Ends ⟨d.front ++ x, a.word, z ++ d.back⟩ word result

theorem faithful_leftoverSweep : Faithful leftoverSweep :=
  Sweep.faithful_of faithful_readLeftover

theorem faithful_leftoverEndSweep : Faithful leftoverEndSweep :=
  Sweep.faithful_of faithful_readLeftoverEnd

/-- The rule for leftovers sweeps over the content twice, for calls and then for closing words. -/
theorem content_leftoverRule (draft : Draft) :
    ((leftoverRule.apply draft).getD draft).content =
      leftoverEndSweep.run (leftoverSweep.run draft.content) := by
  refine (Rule.content_ofContent "generic-call"
    (fun _ => Rewrite.andThen leftoverCalls leftoverEnds) draft).trans ?_
  rw [leftoverSweep, leftoverEndSweep, Sweep.run_of, Sweep.run_of,
    ← Rewrite.run_pieces faithful_readLeftover, ← Rewrite.run_pieces faithful_readLeftoverEnd]
  exact Rewrite.run_andThen leftoverCalls leftoverEnds draft.content

/-! ## What the passes recognise -/

section Word

variable {word back : Text} (hname : ∀ c ∈ word, isNameChar c)
  (hback : ∀ c ∈ back.head?, isNameChar c = false)

include hname hback

/-- A word ends where no more letters of a name follow. -/
theorem takeWhile_name : (word ++ back).takeWhile isNameChar = word := by
  rw [List.takeWhile_append_of_pos hname, List.append_right_eq_self]
  cases back with
  | nil => rfl
  | cons c back => exact List.takeWhile_cons_of_neg (by simp [hback c rfl])

theorem dropWhile_name : (word ++ back).dropWhile isNameChar = back := by
  rw [List.dropWhile_append_of_pos hname]
  cases back with
  | nil => rfl
  | cons c back => exact List.dropWhile_cons_of_neg (by simp [hback c rfl])

end Word

/-- What the first pass reads is an opening that it passes over, or a call. -/
theorem cases_of_readLeftover {text : Text} {piece : Piece Call}
    (h : readLeftover text = some piece) :
    ∃ rest spaced tail, text = '@' :: rest ∧
      Call.parenthesis? (rest.dropWhile isNameChar) = some (spaced, tail) ∧
      (piece = ⟨Call.opening (rest.takeWhile isNameChar) spaced, none⟩ ∨
        ∃ args behind, closing? tail = some (args, behind) ∧ '\x7b' ∉ firstLine behind ∧
          piece = ⟨Call.source ⟨rest.takeWhile isNameChar, spaced, args⟩,
            some ⟨rest.takeWhile isNameChar, spaced, args⟩⟩) := by
  unfold readLeftover at h
  split at h
  case h_2 => cases h
  case h_1 rest =>
    simp only at h
    split at h
    · cases h
    split at h
    · cases h
    case h_2 spaced tail hparen =>
      refine ⟨rest, spaced, tail, rfl, hparen, ?_⟩
      split at h
      · exact .inl (Option.some.inj h).symm
      split at h
      · exact .inl (Option.some.inj h).symm
      case h_2 args behind hclosing =>
        split at h
        · exact .inl (Option.some.inj h).symm
        case isFalse hbrace =>
          exact .inr ⟨args, behind, hclosing, by simpa using hbrace, (Option.some.inj h).symm⟩

/-- What is replaced is a call, and it becomes a condition. -/
theorem source_of_leftoverSweep {text source new : Text}
    (h : leftoverSweep text = some ⟨source, some new⟩) :
    ∃ call : Call, (∀ c ∈ call.name, isNameChar c) ∧
      source = call.source ∧ new = Php.tag ("if (" ++ call.name ++ "(" ++ call.args ++ ")) :") := by
  obtain ⟨piece, hread, hpiece⟩ := Option.map_eq_some_iff.1 h
  obtain ⟨rest, spaced, tail, -, -, rfl | ⟨args, behind, -, -, rfl⟩⟩ := cases_of_readLeftover hread
  · cases congrArg Piece.value hpiece
  · obtain ⟨rfl, hnew⟩ := Piece.mk.inj hpiece
    exact ⟨_, fun c hc => List.mem_takeWhile_imp hc, rfl, (Option.some.inj hnew).symm⟩

theorem not_mem_opening {word : Text} (hname : ∀ c ∈ word, isNameChar c) (spaced : Bool) :
    '@' ∉ (Call.opening word spaced).tail := by
  have hword : '@' ∉ word := fun hc => absurd (hname _ hc) (by decide)
  cases spaced <;> simp [Call.opening, hword]

/-- An opening that is passed over holds no other `@`. -/
theorem not_mem_of_passed {text source : Text} (h : leftoverSweep text = some ⟨source, none⟩) :
    '@' ∉ source.tail := by
  obtain ⟨piece, hread, hpiece⟩ := Option.map_eq_some_iff.1 h
  obtain ⟨rest, spaced, tail, -, -, rfl | ⟨args, behind, -, -, rfl⟩⟩ := cases_of_readLeftover hread
  · obtain ⟨rfl, -⟩ := Piece.mk.inj hpiece
    exact not_mem_opening (fun c hc => List.mem_takeWhile_imp hc) spaced
  · cases congrArg Piece.value hpiece

/-- No call ends inside of a word without a parenthesis. -/
theorem clears_leftoverSweep {word : Text} (hword : ')' ∉ word) :
    leftoverSweep.Clears '@' word := by
  refine @Sweep.clears_of_last leftoverSweep '@' ')' word (fun text source new h => ?_) hword
  obtain ⟨call, -, rfl, -⟩ := source_of_leftoverSweep h
  exact ⟨by simp [Call.source, Call.opening], by simp [Call.source]⟩

/-- No built-in directive has a name that starts with `end`. -/
theorem not_isClaimed_end (word : Text) : isClaimed ("end" ++ word) = false := by
  have hnames : ∀ name ∈ ("slot" : Text) :: builtinNames, ¬("end" : Text) <+: name := by decide
  have hnot : "end" ++ word ∉ ("slot" : Text) :: builtinNames :=
    fun hmem => hnames _ hmem (List.prefix_append _ _)
  rw [List.mem_cons, not_or] at hnot
  rw [isClaimed, Bool.or_eq_false_iff, decide_eq_false_iff_not]
  exact ⟨by simpa using hnot.2, hnot.1⟩

/-- The second pass replaces closing words. -/
theorem source_of_leftoverEndSweep {text : Text} {piece : Piece Text}
    (h : leftoverEndSweep text = some piece) :
    ∃ name, piece.source = "@end" ++ name ∧ ∀ c ∈ name, isNameChar c := by
  obtain ⟨found, hread, rfl⟩ := Option.map_eq_some_iff.1 h
  obtain ⟨rest, -, hread⟩ := Option.bind_eq_some_iff.1 hread
  simp only at hread
  split at hread
  · cases hread
  · obtain rfl := Option.some.inj hread
    exact ⟨_, rfl, fun c hc => List.mem_takeWhile_imp hc⟩

theorem at_end (word back : Text) : "@end" ++ word ++ back = '@' :: ("end" ++ word ++ back) :=
  rfl

theorem isNameChar_end {word : Text} (hname : ∀ c ∈ word, isNameChar c) :
    ∀ c ∈ "end" ++ word, isNameChar c := by
  intro c hc
  rcases List.mem_append.1 hc with hc | hc
  · exact List.all_eq_true.1 (by decide : ("end" : Text).all isNameChar = true) c hc
  · exact hname c hc

section ClosingWord

variable {word back : Text} (hne : word ≠ []) (hname : ∀ c ∈ word, isNameChar c)
  (hback : ∀ c ∈ back.head?, isNameChar c = false)

include hname hback

/-- A closing word with arguments behind it is taken for a call. -/
theorem read_leftoverSweep_of_opensCall {spaced : Bool} {args rest : Text}
    (h : OpensCall back spaced args rest) :
    leftoverSweep ("@end" ++ word ++ back) = some ⟨Call.source ⟨"end" ++ word, spaced, args⟩,
      some (Php.tag ("if (end" ++ word ++ "(" ++ args ++ ")) :"))⟩ := by
  obtain ⟨tail, hparen, hclosing, hbrace⟩ := h
  have hread : readLeftover ("@end" ++ word ++ back) =
      some ⟨Call.source ⟨"end" ++ word, spaced, args⟩, some ⟨"end" ++ word, spaced, args⟩⟩ := by
    have hcontains : (firstLine rest).contains '\x7b' = false := by simpa using hbrace
    have hempty : ("end" : Text) ++ word ≠ [] := by simp
    rw [at_end, readLeftover]
    simp only [takeWhile_name (isNameChar_end hname) hback,
      dropWhile_name (isNameChar_end hname) hback, if_neg hempty, hparen, not_isClaimed_end,
      hclosing, hcontains, Bool.false_eq_true, if_false]
  rw [leftoverSweep, Sweep.of, hread]
  rfl

/-- A closing word is taken for a call only if arguments stand behind it. -/
theorem opensCall_of_read_leftoverSweep {source new : Text}
    (h : leftoverSweep ("@end" ++ word ++ back) = some ⟨source, some new⟩) :
    ∃ spaced args rest, OpensCall back spaced args rest := by
  obtain ⟨piece, hread, hpiece⟩ := Option.map_eq_some_iff.1 h
  rw [at_end] at hread
  obtain ⟨tail', spaced, tail, htail, hparen, rfl | ⟨args, behind, hclosing, hbrace, -⟩⟩ :=
    cases_of_readLeftover hread
  · cases congrArg Piece.value hpiece
  · rw [← (List.cons.inj htail).2, dropWhile_name (isNameChar_end hname) hback] at hparen
    exact ⟨spaced, args, behind, tail, hparen, hclosing, hbrace⟩

include hne

/-- The second pass closes a condition at a closing word, unless the word belongs to a directive. -/
theorem readLeftoverEnd_word : readLeftoverEnd ("@end" ++ word ++ back) =
    some ⟨"@end" ++ word, if isClaimed word then none else some ()⟩ := by
  rw [readLeftoverEnd, List.append_assoc, after?_append]
  simp only [Option.bind_eq_bind, Option.bind_some, takeWhile_name hname hback, if_neg hne]
  rfl

/-- What the first pass has left of a closing word is closed by the second. -/
theorem ends_closing_word {b : Stretch} (hword : b.word = "@end" ++ word) (hrest : b.back = back) :
    Ends b word (leftoverEndSweep.run b.text) := by
  have hreach : leftoverEndSweep.Reaches b.front (b.word ++ b.back) := by
    refine @Sweep.reaches_of_mark _ faithful_leftoverEndSweep '@' (fun text piece h => ?_) _ _ ?_
    · obtain ⟨name, hsource, hletters⟩ := source_of_leftoverEndSweep h
      rw [hsource]
      exact fun hmem => absurd (isNameChar_end hletters _ hmem) (by decide)
    · rw [hword]
      rfl
  have hread : leftoverEndSweep (b.word ++ b.back) =
      some ⟨b.word, if isClaimed word then none else some (Php.tag "endif;")⟩ := by
    rw [hword, hrest, leftoverEndSweep, Sweep.of, readLeftoverEnd_word hne hname hback]
    cases isClaimed word <;> rfl
  cases hclaimed : isClaimed word with
  | true =>
    rw [hclaimed, if_pos rfl, ← List.append_nil b.word, List.append_assoc] at hread
    obtain ⟨c, hkeeps⟩ := hreach.keeps faithful_leftoverEndSweep hread
    exact ⟨c, by rwa [if_pos hclaimed], hkeeps.run_eq⟩
  | false =>
    rw [hclaimed, if_neg (by decide)] at hread
    obtain ⟨c, hreplaces⟩ := hreach.replaces faithful_leftoverEndSweep hread
    exact ⟨c, by rwa [if_neg (by simp [hclaimed])], hreplaces.1.run_eq⟩

end ClosingWord

/-! ## What becomes of a closing word -/

/-- A condition has the name and the arguments of its call. -/
theorem tag_condition (name args : Text) :
    Php.tag ("if (" ++ name ++ "(" ++ args ++ ")) :") =
      "<?php if (" ++ name ++ "(" ++ (args ++ ")) : ?>") := by
  have hopen : ("<?php if (" : Text) = "<?php " ++ "if (" := rfl
  have hclose : (")) : ?>" : Text) = ")) :" ++ " ?>" := rfl
  have htag : ∀ code, Php.tag code = "<?php " ++ code ++ " ?>" := fun _ => rfl
  simp only [htag, hopen, hclose, List.append_assoc]

/-- The start of the code for a condition holds no closing word, and none runs into it. -/
theorem keeps_condition (front word back : Text) (hname : ∀ c ∈ word, isNameChar c) :
    ∃ c, leftoverEndSweep.Keeps ⟨front, "<?php if (end" ++ word ++ "(", back⟩ c := by
  refine (Sweep.keeps_or_overlaps faithful_leftoverEndSweep (by simp)).resolve_right ?_
  rintro ⟨c, d, hreplaces, hoverlaps⟩
  obtain ⟨name, hsource, hletters⟩ :=
    source_of_leftoverEndSweep (hreplaces.read_eq faithful_leftoverEndSweep)
  have hhead : c.word.head? = some '@' := congrArg List.head? hsource
  have hfirst : ("<?php if (end" ++ word ++ "(" : Text).head? = some '<' := rfl
  rcases hoverlaps.head_mem hhead hfirst with hat | hopen
  · rcases List.mem_append.1 hat with hat | hat
    · rcases List.mem_append.1 hat with hat | hat
      · exact absurd hat (by decide)
      · exact absurd (hname _ hat) (by decide)
    · exact absurd hat (by decide)
  · rw [show c.word = "@end" ++ name from hsource] at hopen
    rcases List.mem_append.1 hopen with hopen | hopen
    · exact absurd hopen (by decide)
    · exact absurd (hletters _ hopen) (by decide)

theorem not_mem_end {word : Text} (hname : ∀ c ∈ word, isNameChar c) {c : Char}
    (hc : isNameChar c = false) : c ∉ ("end" : Text) ++ word :=
  fun hmem => absurd (isNameChar_end hname c hmem) (by simp [hc])

/-- No call ends inside of a closing word. -/
theorem clears_closing_word {word : Text} (hname : ∀ c ∈ word, isNameChar c) :
    leftoverSweep.Clears '@' ("@end" ++ word) :=
  clears_leftoverSweep fun hmem =>
    not_mem_end hname (by decide) ((List.mem_cons.1 hmem).resolve_left (by decide))

/-- A closing word with its arguments is spelled as a call. -/
theorem source_append_of_opensCall {word back : Text} {spaced : Bool} {args rest : Text}
    (h : OpensCall back spaced args rest) :
    Call.source ⟨"end" ++ word, spaced, args⟩ ++ rest = "@end" ++ word ++ back := by
  obtain ⟨tail, hparen, hclosing, -⟩ := h
  rw [Call.eq_append_of_parenthesis? hparen, eq_append_of_closing? hclosing, Call.source,
    Call.opening]
  simp

/-- What lies inside of a call and starts with an `@` lies among its arguments. -/
theorem args_of_source {call : Call} (hcall : ∀ c ∈ call.name, isNameChar c) {x word z : Text}
    (hword : ')' ∉ word) (hx : x ≠ []) (h : call.source = x ++ ('@' :: word) ++ z) :
    ∃ x z', call.args = x ++ ('@' :: word) ++ z' ∧ z = z' ++ ")" := by
  have hsplit : x ++ ('@' :: word ++ z) =
      Call.opening call.name call.spaced ++ (call.args ++ ")") := by
    rw [← List.append_assoc, ← h, Call.source, List.append_assoc]
  obtain ⟨x, hargs⟩ : ∃ x, call.args ++ [')'] = x ++ ('@' :: word) ++ z := by
    rcases append_cases hsplit with ⟨y, hy, hargs⟩ | ⟨y, -, -, hargs⟩
    · rcases eq_or_ne y [] with rfl | hne
      · exact ⟨[], hargs.symm⟩
      · have hhead : (y ++ (call.args ++ ")")).head? = some '@' := by
          rw [← hargs]
          rfl
        exact absurd (hy ▸ mem_tail_of_inside hx hne hhead) (not_mem_opening hcall call.spaced)
    · exact ⟨y, by rw [List.append_assoc]; exact hargs⟩
  rcases List.eq_nil_or_concat z with rfl | ⟨z, last, rfl⟩
  · -- The call ends with a parenthesis, and the word does not.
    rw [List.append_nil] at hargs
    have hlast := congrArg List.getLast? hargs
    rw [List.getLast?_concat, List.getLast?_append_of_ne_nil _ (by simp)] at hlast
    have hmem := List.mem_of_getLast? hlast.symm
    exact absurd ((List.mem_cons.1 hmem).resolve_left (by decide)) hword
  · rw [List.concat_eq_append, ← List.append_assoc] at hargs
    obtain ⟨hargs, hlast⟩ := List.append_inj' hargs rfl
    exact ⟨x, z, hargs, by rw [List.concat_eq_append, ← hlast]; rfl⟩

section ClosingWord

variable {front word back : Text} (hne : word ≠ []) (hname : ∀ c ∈ word, isNameChar c)
  (hback : ∀ c ∈ back.head?, isNameChar c = false)

include hback in
/-- A closing word still ends where it did when the first pass has kept it. -/
theorem isNameChar_back_of_keeps {b : Stretch}
    (h : leftoverSweep.Keeps ⟨front, "@end" ++ word, back⟩ b) :
    ∀ c ∈ b.back.head?, isNameChar c = false := by
  refine h.forall_head_back faithful_leftoverSweep (fun c d hreplaces => ⟨'<', ?_, by decide⟩) hback
  obtain ⟨call, -, -, hnew⟩ := source_of_leftoverSweep (hreplaces.read_eq faithful_leftoverSweep)
  rw [hnew]
  rfl

include hname hback

/-- The first pass keeps a closing word that no arguments follow and that lies in no call. -/
theorem keeps_closing_word (hcover : ¬leftoverSweep.Covers ⟨front, "@end" ++ word, back⟩)
    (hcall : ¬∃ spaced args rest, OpensCall back spaced args rest) :
    ∃ b, leftoverSweep.Keeps ⟨front, "@end" ++ word, back⟩ b := by
  refine (Sweep.keeps_or_covers faithful_leftoverSweep rfl (not_mem_end hname (by decide))
    (clears_closing_word hname) fun source new hread => ?_).resolve_right hcover
  exact hcall (opensCall_of_read_leftoverSweep hname hback hread)

/-- The first pass makes a condition of a closing word with arguments. -/
theorem replaces_closing_call (hcover : ¬leftoverSweep.Covers ⟨front, "@end" ++ word, back⟩)
    {spaced : Bool} {args rest : Text} (hcall : OpensCall back spaced args rest) :
    ∃ b, leftoverSweep.Replaces ⟨front, Call.source ⟨"end" ++ word, spaced, args⟩, rest⟩ b ∧
      b.word = Php.tag ("if (end" ++ word ++ "(" ++ args ++ ")) :") := by
  have hreach := (Sweep.reaches_or_covers faithful_leftoverSweep rfl (not_mem_end hname (by decide))
    (clears_closing_word hname) fun text source => not_mem_of_passed).resolve_right hcover
  have hread := read_leftoverSweep_of_opensCall hname hback hcall
  rw [← source_append_of_opensCall hcall] at hreach hread
  exact hreach.replaces faithful_leftoverSweep hread

include hne

/-- A closing word inside of the arguments of a call is closed there. -/
theorem endsInside_of_covers (hcover : leftoverSweep.Covers ⟨front, "@end" ++ word, back⟩) :
    EndsInside ⟨front, "@end" ++ word, back⟩ word
      (leftoverEndSweep.run (leftoverSweep.run (front ++ ("@end" ++ word) ++ back))) := by
  obtain ⟨c, d, hreplaces, hencloses⟩ := hcover
  obtain ⟨call, hcall, hsource, hnew⟩ :=
    source_of_leftoverSweep (hreplaces.read_eq faithful_leftoverSweep)
  obtain ⟨x, z, hx, hfront, hword, rfl⟩ := hencloses.exists_eq
  obtain ⟨x, z, hargs, rfl⟩ := args_of_source hcall (not_mem_end hname (by decide)) hx
    (hsource.symm.trans hword)
  have hnew' : d.word = "<?php if (" ++ call.name ++ "(" ++ x ++ ("@end" ++ word) ++
      (z ++ ")) : ?>") := by
    rw [hnew, tag_condition, hargs]
    simp only [List.append_assoc]
    rfl
  refine ⟨c, d, _, _, hreplaces, hencloses, hnew', ?_⟩
  have htext : Stretch.text ⟨d.front ++ ("<?php if (" ++ call.name ++ "(" ++ x), "@end" ++ word,
      z ++ ")) : ?>" ++ d.back⟩ = d.text := by
    simp only [Stretch.text, hnew', List.append_assoc]
  have hrun : leftoverSweep.run (front ++ ("@end" ++ word) ++ (z ++ ")" ++ c.back)) = d.text :=
    (congrArg leftoverSweep.run hencloses.1).symm.trans hreplaces.run_eq
  rw [hrun, ← htext]
  refine ends_closing_word hne hname ?_ rfl rfl
  intro y hy
  cases z with
  | nil =>
    obtain rfl : ')' = y := by simpa using hy
    decide
  | cons w z => exact hback y (by simpa using hy)

end ClosingWord

/-- What becomes of a closing word. Outside of the calls that are rewritten it ends a condition, or
stays when a directive claims it, just when it does not read as a call; when it does, it opens a
condition. Among the arguments of a rewritten call it always ends one, or stays. -/
theorem closing_word_iff {draft : Draft} {front word back : Text}
    (hcontent : draft.content = front ++ ("@end" ++ word) ++ back) (hne : word ≠ [])
    (hname : ∀ c ∈ word, isNameChar c) (hback : ∀ c ∈ back.head?, isNameChar c = false) :
    let a : Stretch := ⟨front, "@end" ++ word, back⟩
    let result := ((leftoverRule.apply draft).getD draft).content
    (¬leftoverSweep.Covers a →
      (ClosesCondition a word result ↔ ¬∃ spaced args rest, OpensCall back spaced args rest) ∧
      ∀ spaced args rest, OpensCall back spaced args rest →
        OpensCondition front word spaced args rest result) ∧
    (leftoverSweep.Covers a → EndsInside a word result) := by
  intro a result
  have hresult : result = leftoverEndSweep.run (leftoverSweep.run a.text) := by
    rw [Stretch.text, ← hcontent, ← content_leftoverRule]
  refine ⟨fun hcover => ⟨⟨?_, fun hcall => ?_⟩, fun spaced args rest hcall => ?_⟩, fun hcover => ?_⟩
  · rintro ⟨b, hkeeps, -⟩ ⟨spaced, args, rest, hcall⟩
    obtain ⟨c, hreplaces, -⟩ := replaces_closing_call hname hback hcover hcall
    refine hkeeps.not_overlaps hreplaces (Stretch.overlaps_of_front_eq ?_ rfl ?_ ?_)
    · simp only [a, Stretch.text, List.append_assoc, ← source_append_of_opensCall hcall]
    · simp [Call.source]
    · simp [a]
  · obtain ⟨b, hkeeps⟩ := keeps_closing_word hname hback hcover hcall
    refine ⟨b, hkeeps, ?_⟩
    rw [hresult, hkeeps.run_eq]
    exact ends_closing_word hne hname (isNameChar_back_of_keeps hback hkeeps) hkeeps.word_eq rfl
  · obtain ⟨b, hreplaces, hb⟩ := replaces_closing_call hname hback hcover hcall
    obtain ⟨c, hkeeps⟩ := keeps_condition b.front word (args ++ ")) : ?>" ++ b.back) hname
    have hcode : Stretch.text ⟨b.front, "<?php if (end" ++ word ++ "(", args ++ ")) : ?>" ++ b.back⟩
        = b.text := by
      have htag : Php.tag ("if (end" ++ word ++ "(" ++ args ++ ")) :") =
          "<?php if (end" ++ word ++ "(" ++ (args ++ ")) : ?>") :=
        tag_condition ("end" ++ word) args
      rw [Stretch.text, Stretch.text, hb, htag]
      simp only [List.append_assoc]
    have hcall :
        Stretch.text ⟨front, Call.source ⟨"end" ++ word, spaced, args⟩, rest⟩ = a.text := by
      simp only [a, Stretch.text, List.append_assoc, ← source_append_of_opensCall hcall]
    refine ⟨b, c, hreplaces, hb, hkeeps, ?_⟩
    rw [hresult, ← hcall, hreplaces.run_eq, ← hcode, hkeeps.run_eq]
  · rw [hresult]
    exact endsInside_of_covers hne hname hback hcover

/-- Prose in parentheses behind a closing word makes it open a condition. -/
theorem closing_word_iff_of_prose :
    let result := ((leftoverRule.apply ⟨"@endauth (see below) b", [], [], [], []⟩).getD
      ⟨"@endauth (see below) b", [], [], [], []⟩).content
    ¬ClosesCondition ⟨[], "@endauth", " (see below) b"⟩ "auth" result ∧
      OpensCondition [] "auth" true "see below" " b" result := by
  intro result
  have hcall : OpensCall " (see below) b" true "see below" " b" :=
    ⟨"see below) b", by decide, by decide, by decide⟩
  have hcover : ¬leftoverSweep.Covers ⟨[], "@end" ++ "auth", " (see below) b"⟩ := by
    rintro ⟨c, d, -, -, hstart, -⟩
    exact absurd hstart (Nat.not_lt_zero _)
  obtain ⟨hcloses, hopens⟩ := (@closing_word_iff ⟨"@endauth (see below) b", [], [], [], []⟩ []
    "auth" " (see below) b" (by decide) (by decide)
    (List.all_eq_true.1 (by decide : ("auth" : Text).all isNameChar = true))
    (by rintro c ⟨⟩; decide)).1 hcover
  exact ⟨fun h => hcloses.1 h ⟨_, _, _, hcall⟩, hopens _ _ _ hcall⟩

end Output

end Pagewright
