import Pagewright.Proofs.Template.Stretches

/-!
# Comments that come of removing comments

Removing the comments of a text joins what stands around them, and the joined text may hold a
comment that was not there before: in `{{{{----}}-- x --}}` the inner comment keeps the outer one
apart. `Output.comments_twice_iff` says that this is the only way in which a second removal finds
anything. The opening mark of the new comment has to lie on both sides of a comment that was
removed (`Output.Joins`): had it stood in one piece, the first pass would have removed the comment
with it.
-/

namespace Pagewright

open Text

namespace Output

/-- The text holds a comment. -/
def HoldsComment (text : Text) : Prop :=
  ∃ front body back, text = front ++ ("\x7b\x7b--" ++ (body ++ ("--\x7d\x7d" ++ back)))

/-- Joining the two texts makes an opening mark out of the end of the one and the start of the
other, and a closing mark follows. -/
def Joins (front back : Text) : Prop :=
  ∃ x y rest : Text, x ≠ [] ∧ y ≠ [] ∧ x ++ y = "\x7b\x7b--" ∧ x <:+ front ∧ back = y ++ rest ∧
    ("--\x7d\x7d" : Text) <:+: rest

/-- The pass that removes comments. -/
def commentSweep : Sweep :=
  Sweep.of readComment fun _ => some []

theorem faithful_commentSweep : Faithful commentSweep :=
  Sweep.faithful_of faithful_readComment

/-! ## What the pass recognises -/

/-- At an opening nothing is read just when no closing mark follows. -/
theorem readComment_eq_none_iff {rest : Text} :
    readComment ("\x7b\x7b--" ++ rest) = none ↔ ¬("--\x7d\x7d" : Text) <:+: rest := by
  rw [← cut?_eq_none_iff (by decide), readComment, after?_append, Option.bind_eq_bind,
    Option.bind_some, Option.bind_eq_bind, Option.bind_eq_none_iff]
  constructor
  · intro h
    refine Option.eq_none_iff_forall_ne_some.2 fun cut hcut => ?_
    cases h cut hcut
  · intro h cut hcut
    rw [h] at hcut
    cases hcut

/-- What is read is a comment with its two marks. -/
theorem exists_body_of_readComment {text : Text} {piece : Piece Unit}
    (h : readComment text = some piece) :
    ∃ body, piece = ⟨"\x7b\x7b--" ++ body ++ "--\x7d\x7d", some ()⟩ := by
  obtain ⟨rest, -, h⟩ := Option.bind_eq_some_iff.1 h
  obtain ⟨⟨body, behind⟩, -, h⟩ := Option.bind_eq_some_iff.1 h
  exact ⟨body, (Option.some.inj h).symm⟩

/-- Where no comment is found, none starts at any place of the text. -/
theorem along_of_values {text : Text} (h : Piece.values (text.pieces readComment) = []) :
    Along (readComment · = none) text [] := by
  induction text with
  | nil => trivial
  | cons c rest ih =>
    cases hread : readComment (c :: rest) with
    | none =>
      rw [pieces_of_read_none hread] at h
      exact ⟨by rwa [List.append_nil], ih h⟩
    | some piece =>
      rw [pieces_of_read hread (by simp) (faithful_readComment _ _ hread).1] at h
      obtain ⟨body, rfl⟩ := exists_body_of_readComment hread
      cases h

/-- The pass finds nothing just when the text holds no comment. -/
theorem comments_eq_none_iff {text : Text} : comments text = none ↔ ¬HoldsComment text := by
  have hvalues : comments text = none ↔ Piece.values (text.pieces readComment) = [] := by
    rw [comments, Piece.rewrite?]
    cases Piece.values (text.pieces readComment) <;> simp
  rw [hvalues]
  constructor
  · rintro h ⟨front, body, back, rfl⟩
    have hnone := (along_of_values h).of_suffix (List.suffix_append _ _) (by simp)
    rw [List.append_nil, readComment_eq_none_iff] at hnone
    exact hnone ⟨body, back, by simp⟩
  · intro h
    refine List.eq_nil_iff_forall_not_mem.2 fun value hvalue => h ?_
    obtain ⟨piece, hpiece, hsome⟩ := List.mem_filterMap.1 hvalue
    obtain ⟨before, after, hpieces⟩ := List.append_of_mem hpiece
    rcases read_or_letter faithful_readComment hpieces with hread | ⟨c, rfl, -⟩
    · obtain ⟨body, rfl⟩ := exists_body_of_readComment hread
      refine ⟨Piece.sources before, body, Piece.sources after, ?_⟩
      rw [← sources_pieces faithful_readComment text, hpieces]
      simp
    · cases hsome

/-! ## What the pass leaves behind -/

theorem value_commentSweep {text : Text} {piece : Piece Text} (h : commentSweep text = some piece) :
    ∃ body, piece = ⟨"\x7b\x7b--" ++ body ++ "--\x7d\x7d", some []⟩ := by
  obtain ⟨found, hfound, rfl⟩ := Option.map_eq_some_iff.1 h
  obtain ⟨body, rfl⟩ := exists_body_of_readComment hfound
  exact ⟨body, rfl⟩

/-- A text that is left when some stretches have been taken out stood in one piece before, or it was
joined when one of them was taken out. -/
theorem kept_or_joined {steps : List (Piece Text)}
    (hsteps : ∀ p ∈ steps, (∃ c, p = ⟨[c], none⟩) ∨ ∃ source, p = ⟨source, some []⟩)
    {front word back : Text} (hword : word ≠ [])
    (h : Piece.rewrite some steps = front ++ (word ++ back)) :
    (∃ before after, steps = before ++ (Piece.letters word ++ after) ∧
      Piece.rewrite some before = front ∧ Piece.rewrite some after = back) ∨
    ∃ x y before source after, x ≠ [] ∧ y ≠ [] ∧ x ++ y = word ∧
      steps = before ++ ⟨source, some []⟩ :: after ∧
      Piece.rewrite some before = front ++ x ∧ Piece.rewrite some after = y ++ back := by
  induction steps generalizing front word with
  | nil => simp [hword, Piece.rewrite] at h
  | cons step steps ih =>
    have hrest := fun p hp => hsteps p (List.mem_cons_of_mem _ hp)
    rcases hsteps step (by simp) with ⟨c, rfl⟩ | ⟨source, rfl⟩
    · have hcons : ∀ steps, Piece.rewrite some (⟨[c], none⟩ :: steps) =
        c :: Piece.rewrite some steps := fun _ => rfl
      rw [hcons] at h
      cases front with
      | cons f front =>
        obtain ⟨rfl, htail⟩ := List.cons.inj h
        rcases ih hrest hword htail with ⟨before, after, rfl, rfl, rfl⟩ |
          ⟨x, y, before, source, after, hx, hy, hxy, rfl, hbefore, hafter⟩
        · exact .inl ⟨_ :: before, after, rfl, rfl, rfl⟩
        · exact .inr ⟨x, y, _ :: before, source, after, hx, hy, hxy, rfl,
            by rw [hcons, hbefore]; rfl, hafter⟩
      | nil =>
        obtain ⟨w, word, rfl⟩ := List.exists_cons_of_ne_nil hword
        obtain ⟨rfl, htail⟩ := List.cons.inj h
        replace htail : Piece.rewrite some steps = [] ++ (word ++ back) := htail
        rcases eq_or_ne word [] with rfl | hne
        · exact .inl ⟨[], steps, rfl, rfl, htail⟩
        rcases ih hrest hne htail with ⟨before, after, rfl, hbefore, rfl⟩ |
          ⟨x, y, before, source, after, hx, hy, hxy, rfl, hbefore, hafter⟩
        · cases before with
          | nil => exact .inl ⟨[], after, rfl, rfl, rfl⟩
          | cons step before =>
            -- Something was taken out between the first character and the others.
            rcases hrest step (by simp) with ⟨d, rfl⟩ | ⟨source, rfl⟩
            · cases hbefore
            · exact .inr ⟨[c], word, [⟨[c], none⟩], source, _, by simp, hne, rfl, rfl, rfl, htail⟩
        · exact .inr ⟨c :: x, y, _ :: before, source, after, by simp, hy, by rw [← hxy]; rfl, rfl,
            by rw [hcons, hbefore]; rfl, hafter⟩
    · rcases ih hrest hword h with ⟨before, after, rfl, hbefore, hafter⟩ |
        ⟨x, y, before, source', after, hx, hy, hxy, rfl, hbefore, hafter⟩
      · exact .inl ⟨_ :: before, after, rfl, hbefore, hafter⟩
      · exact .inr ⟨x, y, _ :: before, source', after, hx, hy, hxy, rfl, hbefore, hafter⟩

/-- The rewrite for comments is a sweep. -/
theorem run_comments (text : Text) : comments.run text = commentSweep.run text :=
  (Rewrite.run_pieces faithful_readComment _ text).trans (Sweep.run_of text).symm

theorem trace_commentSweep (text : Text) : commentSweep.trace text = text.pieces commentSweep := by
  refine Sweep.trace_eq_pieces faithful_commentSweep (fun text piece h => ?_) text
  obtain ⟨body, rfl⟩ := value_commentSweep h
  simp

/-- A sweep passes over single characters and whole comments. -/
theorem step_of_mem_trace {text : Text} {step : Piece Text} (h : step ∈ commentSweep.trace text) :
    (∃ c, step = ⟨[c], none⟩) ∨ ∃ body, step = ⟨"\x7b\x7b--" ++ body ++ "--\x7d\x7d", some []⟩ := by
  rw [trace_commentSweep] at h
  obtain ⟨before, after, hpieces⟩ := List.append_of_mem h
  rcases read_or_letter faithful_commentSweep hpieces with hread | ⟨c, hc, -⟩
  · exact .inr (value_commentSweep hread)
  · exact .inl ⟨c, hc⟩

/-- No closing mark follows an opening mark that is left alone: it would have ended a comment. -/
theorem not_isInfix_of_kept {text : Text} {before after : List (Piece Text)}
    (h : commentSweep.trace text = before ++ (Piece.letters "\x7b\x7b--" ++ after)) :
    ¬("--\x7d\x7d" : Text) <:+: Piece.rewrite some after := by
  have hnone : commentSweep ("\x7b\x7b--" ++ Piece.sources after) = none := by
    rw [trace_commentSweep] at h
    rcases read_or_letter faithful_commentSweep h with hread | ⟨c, hc, hnone⟩
    · obtain ⟨body, hbody⟩ := value_commentSweep hread
      cases congrArg Piece.value hbody
    · cases hc
      exact hnone
  have hmark : ¬("--\x7d\x7d" : Text) <:+: Piece.sources after :=
    readComment_eq_none_iff.1 (Option.map_eq_none_iff.1 hnone)
  -- With no closing mark there is no comment behind either, so all of it is left.
  have hafter : Piece.rewrite some after = Piece.sources after := by
    refine Piece.rewrite_eq_sources fun new hnew => ?_
    obtain ⟨step, hstep, hvalue⟩ := List.mem_filterMap.1 hnew
    have hmem : step ∈ commentSweep.trace text := by simp [h, hstep]
    rcases step_of_mem_trace hmem with ⟨c, rfl⟩ | ⟨body, rfl⟩
    · cases hvalue
    · obtain ⟨first, second, rfl⟩ := List.append_of_mem hstep
      exact absurd
        ⟨Piece.sources first ++ "\x7b\x7b--" ++ body, Piece.sources second, by simp⟩ hmark
  rwa [hafter]

/-- A comment that the pass leaves behind was joined by it. -/
theorem joins_of_holdsComment {text : Text} (h : HoldsComment (commentSweep.run text)) :
    ∃ a b, commentSweep.Replaces a b ∧ a.text = text ∧ Joins b.front b.back := by
  obtain ⟨front, body, back, hrun⟩ := h
  rw [← Sweep.rewrite_trace] at hrun
  have hsteps : ∀ p ∈ commentSweep.trace text, (∃ c, p = ⟨[c], none⟩) ∨
      ∃ source, p = ⟨source, some []⟩ :=
    fun p hp => (step_of_mem_trace hp).imp_right fun hbody => ⟨_, hbody.choose_spec⟩
  rcases kept_or_joined hsteps (by decide) hrun with ⟨before, after, htrace, -, hafter⟩ |
    ⟨x, y, before, source, after, hx, hy, hxy, htrace, hbefore, hafter⟩
  · exact absurd ⟨body, back, by rw [hafter]; simp⟩ (not_isInfix_of_kept htrace)
  · have htext : Piece.sources before ++ source ++ Piece.sources after = text := by
      conv_rhs => rw [← Sweep.sources_trace faithful_commentSweep text, htrace]
      simp
    refine ⟨⟨Piece.sources before, source, Piece.sources after⟩,
      ⟨Piece.rewrite some before, [], Piece.rewrite some after⟩,
      ⟨before, after, ?_, rfl, rfl, rfl, rfl⟩, htext, x, y, _, hx, hy, hxy, ?_, hafter,
      ⟨body, back, by simp⟩⟩
    · rw [Stretch.text, htext, htrace]
    · rw [hbefore]
      exact List.suffix_append _ _

/-- Where the two sides of a comment join to another one, it is there afterwards. -/
theorem holdsComment_of_joins {a b : Stretch} (h : commentSweep.Replaces a b)
    (hjoin : Joins b.front b.back) : HoldsComment (commentSweep.run a.text) := by
  obtain ⟨x, y, rest, -, -, hxy, ⟨front, hfront⟩, hback, body, behind, hrest⟩ := hjoin
  obtain ⟨inside, hinside⟩ := value_commentSweep (h.read_eq faithful_commentSweep)
  have hword : b.word = [] := Option.some.inj (congrArg Piece.value hinside)
  refine ⟨front, body, behind, ?_⟩
  rw [h.run_eq, Stretch.text, hword, ← hfront, hback, ← hrest, ← hxy]
  simp

/-- Removing comments once more changes nothing if and only if no comment is left, and one is left
just when taking out a comment has joined an opening mark in front of a closing one. -/
theorem comments_twice_iff (draft : Draft) :
    let once := (commentRule.apply draft).getD draft
    (commentRule.apply once = none ↔ ¬HoldsComment once.content) ∧
      (HoldsComment once.content ↔
        ∃ a b, commentSweep.Replaces a b ∧ a.text = draft.content ∧ Joins b.front b.back) := by
  intro once
  have honce : once.content = commentSweep.run draft.content := by
    rw [← run_comments]
    exact Rule.content_ofContent "comments" (fun _ => comments) draft
  refine ⟨?_, ?_⟩
  · rw [← comments_eq_none_iff]
    exact Option.map_eq_none_iff
  · rw [honce]
    constructor
    · exact joins_of_holdsComment
    · rintro ⟨a, b, hreplaces, htext, hjoin⟩
      rw [← htext]
      exact holdsComment_of_joins hreplaces hjoin

/-- The comment inside keeps the outer one apart until it is removed. -/
example : comments (comments.run "\x7b\x7b\x7b\x7b----\x7d\x7d-- x --\x7d\x7d") = some [] := by
  decide

end Output

end Pagewright
