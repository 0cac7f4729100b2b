import Mathlib.Data.List.Basic
import Pagewright.Proofs.Template.Readers

/-!
# What becomes of a stretch of the text

A rule goes over the text in one pass or two, and each pass replaces some pieces and leaves the rest
alone (`Sweep`). To follow one stretch of the text through a pass, a word is taken together with
what stands in front of it and behind it (`Stretch`). A pass keeps the stretch when nothing that it
replaces overlaps the word, and then it says where the word stands afterwards (`Sweep.Keeps`); it
replaces the stretch when the word is just what it recognises (`Sweep.Replaces`).

Of a stretch that is replaced and overlaps another one it matters where it starts: at the same
place (`Sweep.Takes`), before it, so that it has the other inside of it (`Sweep.Covers`), or just
elsewhere (`Sweep.Meets`). A word that starts with a mark can only be covered or taken when no
border of it is lost (`Sweep.Clears`).

Every stretch is kept unless it overlaps one that is replaced (`Sweep.keeps_or_overlaps`), never
both (`Sweep.Keeps.not_overlaps`), and it has one place in the result (`Sweep.Keeps.unique`). Where
the scan comes to a stretch, what it reads there decides (`Sweep.Reaches.keeps`,
`Sweep.Reaches.replaces`).
-/

namespace Pagewright

open Text

/-! ## Passes over pieces -/

namespace Piece

@[simp]
theorem sources_nil {α : Type} : sources ([] : List (Piece α)) = [] := rfl

@[simp]
theorem sources_cons {α : Type} (piece : Piece α) (pieces : List (Piece α)) :
    sources (piece :: pieces) = piece.source ++ sources pieces :=
  List.flatMap_cons

@[simp]
theorem sources_append {α : Type} (first second : List (Piece α)) :
    sources (first ++ second) = sources first ++ sources second :=
  List.flatMap_append

theorem rewrite_cons {α : Type} {f : α → Option Text} (piece : Piece α) (pieces : List (Piece α)) :
    rewrite f (piece :: pieces) = rewritten f piece ++ rewrite f pieces :=
  List.flatMap_cons

end Piece

namespace Text

/-- When a text is taken apart twice, the first part of the one ends inside the first part of the
other or runs on behind it. -/
theorem append_cases {a b c d : Text} (h : a ++ b = c ++ d) :
    (∃ x, c = a ++ x ∧ b = x ++ d) ∨ ∃ x, x ≠ [] ∧ a = c ++ x ∧ d = x ++ b := by
  rcases List.append_eq_append_iff.1 h with hinside | ⟨x, ha, hd⟩
  · exact .inl hinside
  · rcases eq_or_ne x [] with rfl | hx
    · exact .inl ⟨[], by simpa using ha.symm, hd.symm⟩
    · exact .inr ⟨x, hx, ha, hd⟩

/-- A mark at which a piece is entered stands behind its first character. -/
theorem mem_tail_of_inside {mark : Char} {x y more : Text} (hx : x ≠ []) (hy : y ≠ [])
    (h : (y ++ more).head? = some mark) : mark ∈ (x ++ y).tail := by
  obtain ⟨c, x, rfl⟩ := List.exists_cons_of_ne_nil hx
  obtain ⟨d, y, rfl⟩ := List.exists_cons_of_ne_nil hy
  obtain rfl : d = mark := by simpa using h
  simp

variable {α : Type} {read : Text → Option (Piece α)}

/-- Behind any of its pieces a text is cut as if it started there. -/
theorem pieces_eq_of_append (hread : Faithful read) {text : Text} {before after : List (Piece α)}
    (h : text.pieces read = before ++ after) : (Piece.sources after).pieces read = after := by
  induction before generalizing text with
  | nil =>
    obtain rfl : text.pieces read = after := h
    rw [sources_pieces hread]
  | cons piece before ih =>
    cases text with
    | nil => cases h
    | cons c rest =>
      cases hc : read (c :: rest) with
      | none =>
        rw [pieces_of_read_none hc] at h
        exact ih (List.cons.inj h).2
      | some found =>
        rw [pieces_of_read hc (by simp) (hread _ _ hc).1] at h
        exact ih (List.cons.inj h).2

/-- A piece was read where it stands, or it is a character at which nothing is read. -/
theorem read_or_letter (hread : Faithful read) {text : Text} {before after : List (Piece α)}
    {piece : Piece α} (h : text.pieces read = before ++ piece :: after) :
    read (piece.source ++ Piece.sources after) = some piece ∨
      ∃ c, piece = ⟨[c], none⟩ ∧ read (c :: Piece.sources after) = none := by
  have hhere := pieces_eq_of_append hread h
  rw [Piece.sources_cons] at hhere
  cases htext : piece.source ++ Piece.sources after with
  | nil =>
    rw [htext] at hhere
    cases hhere
  | cons c rest =>
    rw [htext] at hhere
    cases hc : read (c :: rest) with
    | none =>
      rw [pieces_of_read_none hc] at hhere
      obtain ⟨rfl, -⟩ := List.cons.inj hhere
      obtain ⟨-, rfl⟩ := List.cons.inj htext
      exact .inr ⟨c, rfl, hc⟩
    | some found =>
      rw [pieces_of_read hc (by simp) (hread _ _ hc).1] at hhere
      exact .inl (congrArg some (List.cons.inj hhere).1)

/-- No piece of a faithful reader is empty. -/
theorem source_ne_nil_of_pieces (hread : Faithful read) {text : Text} {piece : Piece α}
    (h : piece ∈ text.pieces read) : piece.source ≠ [] := by
  obtain ⟨before, after, hpieces⟩ := List.append_of_mem h
  rcases read_or_letter hread hpieces with hfound | ⟨c, rfl, -⟩
  · exact (hread _ _ hfound).1
  · simp

end Text

/-- One pass over a text: what it recognises at the head of a text, and what it puts in its place
when it replaces it. -/
abbrev Sweep := Text → Option (Piece Text)

namespace Sweep

/-- The pass that looks with `read` and replaces what `f` has an answer for. -/
def of {α : Type} (read : Text → Option (Piece α)) (f : α → Option Text) : Sweep := fun text =>
  (read text).map fun piece => ⟨piece.source, piece.value.bind f⟩

/-- The text after the pass. -/
def run (s : Sweep) (text : Text) : Text :=
  Piece.rewrite some (text.pieces s)

section Of

variable {α : Type} {read : Text → Option (Piece α)} {f : α → Option Text}

theorem faithful_of (hread : Faithful read) : Faithful (of read f) := by
  intro text piece h
  obtain ⟨found, hfound, rfl⟩ := Option.map_eq_some_iff.1 h
  exact hread text found hfound

/-- A pass replaces what its reader finds and has an answer for. -/
theorem of_eq_some_iff {text source new : Text} :
    of read f text = some ⟨source, some new⟩ ↔
      ∃ x, read text = some ⟨source, some x⟩ ∧ f x = some new := by
  constructor
  · intro h
    obtain ⟨⟨source', value⟩, hread, hpiece⟩ := Option.map_eq_some_iff.1 h
    obtain ⟨rfl, hvalue⟩ := Piece.mk.inj hpiece
    obtain ⟨x, rfl, hx⟩ := Option.bind_eq_some_iff.1 hvalue
    exact ⟨x, hread, hx⟩
  · rintro ⟨x, hread, hx⟩
    rw [of, hread, Option.map_some, Option.bind_some, hx]

/-- A pass cuts a text as its reader does. -/
theorem pieces_of (text : Text) :
    text.pieces (of read f) = (text.pieces read).map fun p => ⟨p.source, p.value.bind f⟩ := by
  have hall : ∀ passed, piecesAfter (of read f) passed text =
      (piecesAfter read passed text).map fun p => ⟨p.source, p.value.bind f⟩ := by
    induction text with
    | nil => intro passed; cases passed <;> rfl
    | cons c rest ih =>
      intro passed
      cases passed with
      | succ n => exact ih n
      | zero =>
        rw [piecesAfter, piecesAfter, of]
        cases read (c :: rest) with
        | none => exact congrArg _ (ih 0)
        | some piece => exact congrArg _ (ih _)
  exact hall 0

/-- A pass rewrites the pieces of its reader. -/
theorem run_of (text : Text) : (of read f).run text = Piece.rewrite f (text.pieces read) := by
  have hpiece : ∀ p : Piece α,
      Piece.rewritten some ⟨p.source, p.value.bind f⟩ = Piece.rewritten f p := by
    intro p
    rw [Piece.rewritten, Option.bind_fun_some, Piece.rewritten]
  rw [run, pieces_of, Piece.rewrite, Piece.rewrite, List.flatMap_map]
  simp only [hpiece]

end Of

end Sweep

/-- The content once a rule that rewrites nothing else has been applied. -/
theorem Rule.content_ofContent (name : Text) (rewrite : Text → Rewrite) (draft : Draft) :
    (((ofContent name rewrite).apply draft).getD draft).content =
      (rewrite draft.relativePath).run draft.content :=
  congrArg Draft.content (getD_apply_ofContent name rewrite draft)

/-! ## Stretches -/

/-- A word of a text, with what stands in front of it and what stands behind it. -/
structure Stretch where
  front : Text
  word : Text
  back : Text

namespace Stretch

/-- The whole text. -/
def text (a : Stretch) : Text :=
  a.front ++ a.word ++ a.back

/-- Two stretches of one text have a character in common. -/
def Overlaps (a b : Stretch) : Prop :=
  a.text = b.text ∧ a.front.length < (b.front ++ b.word).length ∧
    b.front.length < (a.front ++ a.word).length

/-- The stretch `b` lies inside of `a`, and `a` starts before it. -/
def Encloses (a b : Stretch) : Prop :=
  a.text = b.text ∧ a.front.length < b.front.length ∧
    (b.front ++ b.word).length ≤ (a.front ++ a.word).length

theorem rest_eq {a b : Stretch} (htext : a.text = b.text) (hfront : a.front = b.front) :
    a.word ++ a.back = b.word ++ b.back := by
  simp only [text, hfront, List.append_assoc] at htext
  exact List.append_cancel_left htext

/-- A stretch that encloses another one overlaps with it. -/
theorem Encloses.overlaps {a b : Stretch} (h : a.Encloses b) (hword : b.word ≠ []) :
    a.Overlaps b := by
  obtain ⟨htext, hstart, hend⟩ := h
  have := List.length_pos_iff.2 hword
  simp only [List.length_append] at hend
  refine ⟨htext, ?_, ?_⟩ <;> simp only [List.length_append] <;> omega

/-- Two stretches that start together overlap. -/
theorem overlaps_of_front_eq {a b : Stretch} (htext : a.text = b.text) (hfront : a.front = b.front)
    (ha : a.word ≠ []) (hb : b.word ≠ []) : a.Overlaps b := by
  have := List.length_pos_iff.2 ha
  have := List.length_pos_iff.2 hb
  refine ⟨htext, ?_, ?_⟩ <;> simp only [hfront, List.length_append] <;> omega

/-- Of two stretches that overlap one starts inside of the other. -/
theorem Overlaps.starts_inside {a b : Stretch} (h : a.Overlaps b) :
    (∃ x z, z ≠ [] ∧ b.front = a.front ++ x ∧ a.word = x ++ z ∧ b.word ++ b.back = z ++ a.back) ∨
    ∃ x z, x ≠ [] ∧ z ≠ [] ∧ a.front = b.front ++ x ∧ b.word = x ++ z ∧
      a.word ++ a.back = z ++ b.back := by
  obtain ⟨htext, hstart, hend⟩ := h
  have hsplit : a.front ++ (a.word ++ a.back) = b.front ++ (b.word ++ b.back) := by
    simpa [text] using htext
  simp only [List.length_append] at hstart hend
  rcases append_cases hsplit with ⟨x, hfront, hrest⟩ | ⟨x, hx, hfront, hrest⟩
  · rcases append_cases hrest with ⟨z, rfl, -⟩ | ⟨z, hz, hword, hback⟩
    · simp only [hfront, List.length_append] at hend
      omega
    · exact .inl ⟨x, z, hz, hfront, hword, hback⟩
  · rcases append_cases hrest with ⟨z, rfl, -⟩ | ⟨z, hz, hword, hback⟩
    · simp only [hfront, List.length_append] at hstart
      omega
    · exact .inr ⟨x, z, hx, hz, hfront, hword, hback⟩

/-- Of two stretches that overlap one holds the head of the other. -/
theorem Overlaps.head_mem {a b : Stretch} (h : a.Overlaps b) {x y : Char}
    (hx : a.word.head? = some x) (hy : b.word.head? = some y) : x ∈ b.word ∨ y ∈ a.word := by
  rcases h.starts_inside with ⟨u, z, hz, -, hword, hback⟩ | ⟨u, z, -, hz, -, hword, hback⟩
  · have hhead := congrArg List.head? hback
    rw [List.head?_append_of_ne_nil _ hz, List.head?_append, hy, Option.some_or] at hhead
    exact .inr (hword ▸ List.mem_append_right _ (List.mem_of_head? hhead.symm))
  · have hhead := congrArg List.head? hback
    rw [List.head?_append_of_ne_nil _ hz, List.head?_append, hx, Option.some_or] at hhead
    exact .inl (hword ▸ List.mem_append_right _ (List.mem_of_head? hhead.symm))

/-- Both stretches start with a mark that the second one does not have inside of it, and the first
one does not end inside of the second. Then they can only overlap in two ways. -/
theorem Overlaps.encloses_or_front_eq {a b : Stretch} (h : a.Overlaps b) {mark : Char} {word : Text}
    (hhead : a.word.head? = some mark) (hword : b.word = mark :: word) (hmark : mark ∉ word)
    (hborder : ∀ x y, x ≠ [] → y ≠ [] → a.word = x ++ y → y <+: b.word → y = b.word) :
    a.Encloses b ∨ a.front = b.front := by
  rcases h.starts_inside with ⟨x, z, hz, hfront, ha, hback⟩ | ⟨x, z, hx, hz, -, hb, hback⟩
  · rcases eq_or_ne x [] with rfl | hx
    · exact .inr (by simpa using hfront.symm)
    · -- What the first one has behind the start of the second is all of the second.
      have hinside : b.word <+: z := by
        rcases append_cases hback.symm with ⟨t, ht, -⟩ | ⟨t, -, ht, -⟩
        · exact hborder x z hx hz ha ⟨t, ht.symm⟩ ▸ List.prefix_rfl
        · exact ⟨t, ht.symm⟩
      have hlength := hinside.length_le
      have hxpos := List.length_pos_iff.2 hx
      refine .inl ⟨h.1, ?_, ?_⟩ <;> simp only [hfront, ha, List.length_append] <;> omega
  · -- The first one would start with a mark inside of the second.
    obtain ⟨d, x, rfl⟩ := List.exists_cons_of_ne_nil hx
    have hz' : z.head? = some mark := by
      have := congrArg List.head? hback
      rwa [List.head?_append, hhead, Option.some_or, List.head?_append_of_ne_nil _ hz,
        eq_comm] at this
    rw [hword] at hb
    refine absurd ?_ hmark
    rw [(List.cons.inj hb).2]
    exact List.mem_append_right _ (List.mem_of_head? hz')

/-- What encloses a stretch has something in front of it. -/
theorem Encloses.exists_eq {a b : Stretch} (h : a.Encloses b) :
    ∃ x z, x ≠ [] ∧ b.front = a.front ++ x ∧ a.word = x ++ b.word ++ z ∧ b.back = z ++ a.back := by
  obtain ⟨htext, hstart, hend⟩ := h
  have hsplit : a.front ++ (a.word ++ a.back) = b.front ++ (b.word ++ b.back) := by
    simpa [text] using htext
  rcases append_cases hsplit with ⟨x, hfront, hrest⟩ | ⟨x, -, hfront, -⟩
  · have hx : x ≠ [] := by
      rintro rfl
      simp [hfront] at hstart
    rw [← List.append_assoc] at hrest
    rcases append_cases hrest with ⟨z, hz, hback⟩ | ⟨z, -, hz, hback⟩
    · have hnil : z = [] := by
        rw [hfront, List.append_assoc, hz, List.length_append, List.length_append,
          List.length_append] at hend
        exact List.length_eq_zero_iff.1 (by omega)
      subst hnil
      exact ⟨x, [], hx, hfront, by simpa using hz.symm, by simpa using hback.symm⟩
    · exact ⟨x, z, hx, hfront, hz, hback⟩
  · rw [hfront, List.length_append] at hstart
    omega

end Stretch

/-! ## What a pass does to a stretch -/

namespace Piece

/-- What is replaced, and one by one the characters that are left alone. -/
def steps (piece : Piece Text) : List (Piece Text) :=
  match piece.value with
  | none => letters piece.source
  | some _ => [piece]

theorem sources_letters (block : Text) : sources (letters block : List (Piece Text)) = block := by
  induction block with
  | nil => rfl
  | cons c block ih => exact congrArg (c :: ·) ih

theorem sources_steps (piece : Piece Text) : sources piece.steps = piece.source := by
  unfold steps
  split
  · exact sources_letters _
  · exact List.append_nil _

theorem sources_flatMap_steps (pieces : List (Piece Text)) :
    sources (pieces.flatMap steps) = sources pieces := by
  rw [sources, sources, List.flatMap_assoc]
  exact congrArg (List.flatMap · pieces) (funext sources_steps)

theorem rewrite_steps (piece : Piece Text) : rewrite some piece.steps = rewritten some piece := by
  unfold steps
  split
  case h_1 hvalue => rw [rewrite_letters, rewritten, hvalue]; rfl
  case h_2 => exact List.append_nil _

theorem rewrite_flatMap_steps (pieces : List (Piece Text)) :
    rewrite some (pieces.flatMap steps) = rewrite some pieces := by
  rw [rewrite_flatMap, rewrite]
  exact congrArg (List.flatMap · pieces) (funext rewrite_steps)

/-- A step is a single character that is left alone, or it replaces something. -/
def IsStep (piece : Piece Text) : Prop :=
  (∃ c, piece = ⟨[c], none⟩) ∨ ∃ c source new, piece = ⟨c :: source, some new⟩

theorem isStep_of_mem_letters {block : Text} {piece : Piece Text} (h : piece ∈ letters block) :
    ∃ c, piece = ⟨[c], none⟩ := by
  obtain ⟨c, -, rfl⟩ := List.mem_map.1 h
  exact ⟨c, rfl⟩

/-- The steps of a piece are single letters, or the piece itself if it is replaced. -/
theorem isStep_of_mem_steps {piece step : Piece Text} (hne : piece.source ≠ [])
    (h : step ∈ piece.steps) : step.IsStep := by
  unfold steps at h
  split at h
  · exact .inl (isStep_of_mem_letters h)
  case h_2 new hvalue =>
    obtain ⟨c, source, hsource⟩ := List.exists_cons_of_ne_nil hne
    obtain rfl := List.mem_singleton.1 h
    exact .inr ⟨c, source, new, by rw [← hsource, ← hvalue]⟩

theorem IsStep.source_ne_nil {piece : Piece Text} (h : piece.IsStep) : piece.source ≠ [] := by
  rcases h with ⟨c, rfl⟩ | ⟨c, source, new, rfl⟩ <;> simp

/-- What a step replaces is a piece of its own. -/
theorem append_of_steps {source new : Text} {pieces before after : List (Piece Text)}
    (h : pieces.flatMap steps = before ++ ⟨source, some new⟩ :: after) :
    ∃ first second, pieces = first ++ ⟨source, some new⟩ :: second ∧
      before = first.flatMap steps ∧ after = second.flatMap steps := by
  induction pieces generalizing before with
  | nil => simp at h
  | cons piece pieces ih =>
    obtain ⟨text, value⟩ := piece
    cases value with
    | some value =>
      have hsteps : steps ⟨text, some value⟩ = [⟨text, some value⟩] := rfl
      rw [List.flatMap_cons, hsteps, List.singleton_append] at h
      cases before with
      | nil =>
        obtain ⟨hpiece, rfl⟩ := List.cons.inj h
        exact ⟨[], pieces, congrArg (· :: pieces) hpiece, rfl, rfl⟩
      | cons step before =>
        obtain ⟨rfl, hrest⟩ := List.cons.inj h
        obtain ⟨first, second, rfl, rfl, rfl⟩ := ih hrest
        exact ⟨_ :: first, second, rfl, rfl, rfl⟩
    | none =>
      have hsteps : steps ⟨text, none⟩ = letters text := rfl
      rw [List.flatMap_cons, hsteps] at h
      rcases List.append_eq_append_iff.1 h with ⟨more, rfl, hmore⟩ | ⟨more, hletters, hmore⟩
      · obtain ⟨first, second, rfl, rfl, rfl⟩ := ih hmore
        exact ⟨_ :: first, second, rfl, rfl, rfl⟩
      · cases more with
        | nil =>
          obtain ⟨first, second, rfl, hfirst, rfl⟩ := @ih [] hmore.symm
          refine ⟨⟨text, none⟩ :: first, second, rfl, ?_, rfl⟩
          rw [List.flatMap_cons, ← hfirst, hsteps, hletters]
          simp
        | cons step more =>
          obtain ⟨rfl, -⟩ := List.cons.inj hmore
          have hmem : (⟨source, some new⟩ : Piece Text) ∈ letters text := by simp [hletters]
          obtain ⟨c, hc⟩ := isStep_of_mem_letters hmem
          cases hc

theorem eq_nil_of_sources {pieces : List (Piece Text)} (hne : ∀ p ∈ pieces, p.source ≠ [])
    (h : sources pieces = []) : pieces = [] := by
  cases pieces with
  | nil => rfl
  | cons piece pieces => exact absurd (List.append_eq_nil_iff.1 h).1 (hne piece (by simp))

/-- A place in the text of some pieces lies between two of them, or inside of one. -/
theorem between_or_inside {α : Type} {pieces : List (Piece α)} {front rest : Text}
    (h : sources pieces = front ++ rest) :
    (∃ before after, pieces = before ++ after ∧ sources before = front ∧ sources after = rest) ∨
    ∃ before x y value after, pieces = before ++ ⟨x ++ y, value⟩ :: after ∧ x ≠ [] ∧ y ≠ [] ∧
      sources before ++ x = front ∧ y ++ sources after = rest := by
  induction pieces generalizing front with
  | nil =>
    obtain ⟨rfl, rfl⟩ := List.append_eq_nil_iff.1 h.symm
    exact .inl ⟨[], [], rfl, rfl, rfl⟩
  | cons piece pieces ih =>
    rcases append_cases (show piece.source ++ sources pieces = front ++ rest from h) with
      ⟨more, rfl, hmore⟩ | ⟨y, hy, hsource, rfl⟩
    · rcases ih hmore with ⟨before, after, rfl, rfl, rfl⟩ |
        ⟨before, x, y, value, after, rfl, hx, hy, rfl, rfl⟩
      · exact .inl ⟨piece :: before, after, rfl, rfl, rfl⟩
      · exact .inr ⟨piece :: before, x, y, value, after, rfl, hx, hy, by simp, rfl⟩
    · rcases eq_or_ne front [] with rfl | hx
      · exact .inl ⟨[], piece :: pieces, rfl, rfl, by rw [sources_cons, hsource, List.nil_append]⟩
      · exact .inr ⟨[], front, y, piece.value, pieces, by rw [← hsource]; rfl, hx, hy, rfl, rfl⟩

/-- A place between two steps is given by the text in front of it. -/
theorem append_inj_of_sources {before after before' after' : List (Piece Text)}
    (hne : ∀ p ∈ before ++ after, p.source ≠ []) (h : before ++ after = before' ++ after')
    (hs : sources before = sources before') : before = before' ∧ after = after' := by
  have hnil : ∀ more, (∀ p ∈ more, p ∈ before ++ after) → sources more = [] → more = [] :=
    fun more hmore => eq_nil_of_sources fun p hp => hne p (hmore p hp)
  rcases List.append_eq_append_iff.1 h with ⟨more, rfl, rfl⟩ | ⟨more, rfl, rfl⟩
  · obtain rfl := hnil more (fun p hp => by simp [hp]) (by simpa using hs)
    simp
  · obtain rfl := hnil more (fun p hp => by simp [hp]) (by simpa using hs)
    simp

end Piece

namespace Sweep

variable {s : Sweep} {a b c d : Stretch}

/-- What the pass does to a text, step by step. -/
def trace (s : Sweep) (text : Text) : List (Piece Text) :=
  (text.pieces s).flatMap Piece.steps

theorem sources_trace (hs : Faithful s) (text : Text) : Piece.sources (s.trace text) = text := by
  rw [trace, Piece.sources_flatMap_steps, sources_pieces hs]

theorem rewrite_trace (s : Sweep) (text : Text) : Piece.rewrite some (s.trace text) = s.run text :=
  Piece.rewrite_flatMap_steps _

/-- A trace has single letters and replaced pieces. -/
theorem isStep_of_mem_trace (hs : Faithful s) {text : Text} :
    ∀ p ∈ s.trace text, p.IsStep := by
  intro step hstep
  obtain ⟨piece, hpiece, hstep⟩ := List.mem_flatMap.1 hstep
  exact Piece.isStep_of_mem_steps (source_ne_nil_of_pieces hs hpiece) hstep

/-- A pass that replaces all that it recognises takes a step for each piece. -/
theorem trace_eq_pieces (hs : Faithful s) (hvalue : ∀ text piece, s text = some piece →
    piece.value ≠ none) (text : Text) : s.trace text = text.pieces s := by
  have hsteps : ∀ piece ∈ text.pieces s, piece.steps = [piece] := by
    intro piece hpiece
    obtain ⟨before, after, hpieces⟩ := List.append_of_mem hpiece
    rcases read_or_letter hs hpieces with hread | ⟨c, rfl, -⟩
    · obtain ⟨new, hnew⟩ := Option.ne_none_iff_exists.1 (hvalue _ _ hread)
      rw [Piece.steps, ← hnew]
    · rfl
  rw [trace, List.flatMap_congr hsteps]
  exact List.flatMap_singleton' _

/-- The pass leaves the word alone. What comes of the text in front of it and behind it is in front
of it and behind it afterwards. -/
def Keeps (s : Sweep) (a b : Stretch) : Prop :=
  ∃ before after, s.trace a.text = before ++ (Piece.letters a.word ++ after) ∧
    Piece.sources before = a.front ∧ Piece.sources after = a.back ∧
    b = ⟨Piece.rewrite some before, a.word, Piece.rewrite some after⟩

/-- The pass recognises the word, no more and no less, and replaces it. -/
def Replaces (s : Sweep) (a b : Stretch) : Prop :=
  ∃ before after, s.trace a.text = before ++ ⟨a.word, some b.word⟩ :: after ∧
    Piece.sources before = a.front ∧ Piece.sources after = a.back ∧
    Piece.rewrite some before = b.front ∧ Piece.rewrite some after = b.back

/-- The stretch lies inside of one that the pass replaces and that starts before it. -/
def Covers (s : Sweep) (a : Stretch) : Prop :=
  ∃ c d, s.Replaces c d ∧ c.Encloses a

/-- The pass replaces a stretch that starts where the word starts. -/
def Takes (s : Sweep) (a : Stretch) : Prop :=
  ∃ c d, s.Replaces c d ∧ c.text = a.text ∧ c.front = a.front

/-- The pass replaces a stretch that overlaps the word and starts elsewhere. -/
def Meets (s : Sweep) (a : Stretch) : Prop :=
  ∃ c d, s.Replaces c d ∧ c.Overlaps a ∧ c.front ≠ a.front

theorem Keeps.word_eq (h : s.Keeps a b) : b.word = a.word := by
  obtain ⟨-, -, -, -, -, rfl⟩ := h
  rfl

/-- A stretch that is kept stands in what the pass leaves. -/
theorem Keeps.run_eq (h : s.Keeps a b) : s.run a.text = b.text := by
  obtain ⟨before, after, htrace, -, -, rfl⟩ := h
  rw [← rewrite_trace, htrace, Piece.rewrite_append, Piece.rewrite_append, Piece.rewrite_letters]
  simp [Stretch.text]

/-- What has replaced a stretch stands in what the pass leaves. -/
theorem Replaces.run_eq (h : s.Replaces a b) : s.run a.text = b.text := by
  obtain ⟨before, after, htrace, -, -, hfront, hback⟩ := h
  rw [← rewrite_trace, htrace, Piece.rewrite_append, Piece.rewrite_cons, hfront, hback]
  simp [Stretch.text, Piece.rewritten]

/-- What is replaced was read where it stands. -/
theorem Replaces.read_eq (hs : Faithful s) (h : s.Replaces a b) :
    s (a.word ++ a.back) = some ⟨a.word, some b.word⟩ := by
  obtain ⟨before, after, htrace, -, hback, -, -⟩ := h
  obtain ⟨first, second, hpieces, -, rfl⟩ := Piece.append_of_steps htrace
  rw [← hback, Piece.sources_flatMap_steps]
  rcases read_or_letter hs hpieces with hread | ⟨x, hx, -⟩
  · exact hread
  · cases congrArg Piece.value hx

/-! ## Kept or replaced -/

/-- Something that is replaced in one of the steps overlaps the word behind `front`. -/
def Overlapped (steps : List (Piece Text)) (front word : Text) : Prop :=
  ∃ before source new after, steps = before ++ ⟨source, some new⟩ :: after ∧
    (Piece.sources before).length < (front ++ word).length ∧
    front.length < (Piece.sources before ++ source).length

/-- What is replaced further on and overlaps what is left of a word overlaps the word. -/
theorem Overlapped.cons {step : Piece Text} {steps : List (Piece Text)}
    {front word front' word' : Text} (h : Overlapped steps front' word')
    (hlength : (front ++ word).length = (step.source ++ (front' ++ word')).length)
    (hfront : front.length ≤ (step.source ++ front').length) :
    Overlapped (step :: steps) front word := by
  obtain ⟨before, source, new, after, rfl, hstart, hend⟩ := h
  refine ⟨step :: before, source, new, after, rfl, ?_, ?_⟩
  · rw [hlength, Piece.sources_cons, List.length_append, List.length_append]
    omega
  · rw [Piece.sources_cons, List.append_assoc, List.length_append]
    rw [List.length_append] at hfront
    omega

/-- Among steps, a word is left alone or overlaps something that is replaced. -/
theorem kept_or_overlapped {steps : List (Piece Text)} (hsteps : ∀ p ∈ steps, p.IsStep)
    {front word back : Text} (hword : word ≠ [])
    (h : Piece.sources steps = front ++ word ++ back) :
    (∃ before after, steps = before ++ (Piece.letters word ++ after) ∧
      Piece.sources before = front ∧ Piece.sources after = back) ∨
    Overlapped steps front word := by
  induction steps generalizing front word with
  | nil => simp [hword] at h
  | cons step steps ih =>
    have hrest : ∀ p ∈ steps, p.IsStep := fun p hp => hsteps p (List.mem_cons_of_mem _ hp)
    rcases hsteps step (by simp) with ⟨c, rfl⟩ | ⟨c, source, new, rfl⟩
    · cases front with
      | cons f front =>
        obtain ⟨rfl, hsources⟩ := List.cons.inj h
        rcases ih hrest hword hsources with ⟨before, after, rfl, rfl, hback⟩ | hoverlap
        · exact .inl ⟨_ :: before, after, rfl, rfl, hback⟩
        · exact .inr (hoverlap.cons rfl le_rfl)
      | nil =>
        obtain ⟨w, word, rfl⟩ := List.exists_cons_of_ne_nil hword
        obtain ⟨rfl, hsources⟩ := List.cons.inj h
        replace hsources : Piece.sources steps = [] ++ word ++ back := hsources
        rcases eq_or_ne word [] with rfl | hne
        · exact .inl ⟨[], steps, rfl, rfl, hsources⟩
        rcases ih hrest hne hsources with ⟨before, after, rfl, hnil, hback⟩ | hoverlap
        · obtain rfl : before = [] :=
            Piece.eq_nil_of_sources (fun p hp => (hrest p (by simp [hp])).source_ne_nil) hnil
          exact .inl ⟨[], after, rfl, rfl, hback⟩
        · exact .inr (hoverlap.cons rfl (Nat.zero_le _))
    · have h : c :: source ++ Piece.sources steps = front ++ (word ++ back) := by
        rw [← List.append_assoc, ← h, Piece.sources_cons]
      rcases append_cases h with ⟨front, rfl, hsources⟩ | ⟨x, hx, hsource, -⟩
      · rw [← List.append_assoc] at hsources
        rcases ih hrest hword hsources with ⟨before, after, rfl, rfl, hback⟩ | hoverlap
        · exact .inl ⟨_ :: before, after, rfl, rfl, hback⟩
        · exact .inr (hoverlap.cons (by rw [List.append_assoc]) le_rfl)
      · refine .inr ⟨[], c :: source, new, steps, rfl, ?_, ?_⟩
        · have := List.length_pos_iff.2 hword
          simp only [Piece.sources_nil, List.length_nil, List.length_append]
          omega
        · have := List.length_pos_iff.2 hx
          simp only [Piece.sources_nil, List.nil_append, hsource, List.length_append]
          omega

/-- A stretch is kept, or it overlaps one that is replaced. -/
theorem keeps_or_overlaps (hs : Faithful s) (hword : a.word ≠ []) :
    (∃ b, s.Keeps a b) ∨ ∃ c d, s.Replaces c d ∧ c.Overlaps a := by
  have hsources : Piece.sources (s.trace a.text) = a.front ++ a.word ++ a.back :=
    sources_trace hs a.text
  rcases kept_or_overlapped (fun p => isStep_of_mem_trace hs p) hword hsources with
    ⟨before, after, htrace, hfront, hback⟩ | ⟨before, source, new, after, htrace, hstart, hend⟩
  · exact .inl ⟨_, before, after, htrace, hfront, hback, rfl⟩
  · let c : Stretch := ⟨Piece.sources before, source, Piece.sources after⟩
    have htext : c.text = a.text := by
      conv_rhs => rw [← sources_trace hs a.text, htrace]
      simp [Stretch.text, c]
    exact .inr ⟨c, ⟨Piece.rewrite some before, new, Piece.rewrite some after⟩,
      ⟨before, after, htext ▸ htrace, rfl, rfl, rfl, rfl⟩, htext, hstart, hend⟩

/-- What the pass replaces starts with the mark. If it runs into the word, it does not end inside of
it. -/
structure Clears (s : Sweep) (mark : Char) (word : Text) : Prop where
  head : ∀ {text source new}, s text = some ⟨source, some new⟩ → source.head? = some mark
  border : ∀ {text source new}, s text = some ⟨source, some new⟩ →
    ∀ x y, x ≠ [] → y ≠ [] → source = x ++ y → y <+: word → y = word

/-- A word without the last character of what is replaced is cleared. -/
theorem clears_of_last {mark last : Char} {word : Text}
    (h : ∀ text source new, s text = some ⟨source, some new⟩ →
      source.head? = some mark ∧ source.getLast? = some last) (hword : last ∉ word) :
    s.Clears mark word where
  head hread := (h _ _ _ hread).1
  border hread := by
    rintro x y - hy rfl ⟨rest, rfl⟩
    have hlast := (h _ _ _ hread).2
    rw [List.getLast?_append_of_ne_nil _ hy] at hlast
    exact absurd (List.mem_append_left _ (List.mem_of_getLast? hlast)) hword

/-- A word that starts with the mark is cleared if nothing that is replaced has the mark behind its
head. -/
theorem clears_of_mark {mark : Char} {word : Text}
    (h : ∀ text source new, s text = some ⟨source, some new⟩ →
      source.head? = some mark ∧ mark ∉ source.tail) (hword : word.head? = some mark) :
    s.Clears mark word where
  head hread := (h _ _ _ hread).1
  border hread := by
    rintro x y hx hy rfl ⟨rest, rfl⟩
    exact absurd (mem_tail_of_inside hx hy hword) (h _ _ _ hread).2

/-- A word is cleared if all that is replaced ends with a closing word that it does not start with.
-/
theorem clears_of_close {mark : Char} {close word : Text}
    (h : ∀ text source new, s text = some ⟨source, some new⟩ →
      source.head? = some mark ∧ mark :: close <:+ source) (hclose : mark ∉ close)
    (hmark : mark ∉ word) (hne : ¬close <+: word) : s.Clears mark (mark :: word) where
  head hread := (h _ _ _ hread).1
  border hread := by
    rintro x y - hy rfl ⟨rest, hrest⟩
    -- Of two ends of one text, each with the mark at its start alone, none is the longer.
    obtain ⟨c, y, rfl⟩ := List.exists_cons_of_ne_nil hy
    obtain ⟨rfl, rfl⟩ := List.cons.inj hrest
    have hy : c ∉ y := fun hc => hmark (List.mem_append_left _ hc)
    refine absurd (?_ : close = y) fun hclose => hne (hclose ▸ List.prefix_append _ _)
    rcases List.suffix_or_suffix_of_suffix (List.suffix_append x (c :: y)) (h _ _ _ hread).2 with
      ⟨x, hx⟩ | ⟨x, hx⟩
    · cases x with
      | nil => exact (List.cons.inj hx).2.symm
      | cons d x => exact absurd (by simp [← (List.cons.inj hx).2]) hclose
    · cases x with
      | nil => exact (List.cons.inj hx).2
      | cons d x => exact absurd (by simp [← (List.cons.inj hx).2]) hy

/-- A word that starts with a mark is kept, or it lies inside of a stretch that is replaced, or one
that is replaced starts where the word does. -/
theorem keeps_or_covers_or_takes (hs : Faithful s) {mark : Char} {word : Text}
    (hword : a.word = mark :: word) (hmark : mark ∉ word) (hclears : s.Clears mark a.word) :
    (∃ b, s.Keeps a b) ∨ s.Covers a ∨ s.Takes a := by
  have hne : a.word ≠ [] := by simp [hword]
  rcases keeps_or_overlaps hs hne with hkeeps | ⟨c, d, hreplaces, hoverlaps⟩
  · exact .inl hkeeps
  have hfound := hreplaces.read_eq hs
  rcases hoverlaps.encloses_or_front_eq (hclears.head hfound) hword hmark
    (hclears.border hfound) with hencloses | hfront
  · exact .inr (.inl ⟨c, d, hreplaces, hencloses⟩)
  · exact .inr (.inr ⟨c, d, hreplaces, hoverlaps.1, hfront⟩)

/-- A stretch that is kept overlaps none that is replaced. -/
theorem Keeps.not_overlaps (h : s.Keeps a b) (h' : s.Replaces c d) : ¬c.Overlaps a := by
  rintro ⟨htext, hstart, hend⟩
  obtain ⟨before, after, htrace, hfront, -, -⟩ := h
  obtain ⟨before', after', htrace', hfront', -, -⟩ := h'
  rw [htext, htrace] at htrace'
  simp only [← hfront, ← hfront', List.length_append] at hstart hend
  have hletters : ⟨c.word, some d.word⟩ ∉ (Piece.letters a.word : List (Piece Text)) := by
    intro hmem
    obtain ⟨x, hx⟩ := Piece.isStep_of_mem_letters hmem
    cases congrArg Piece.value hx
  have hlength := congrArg List.length (Piece.sources_letters a.word)
  rcases List.append_eq_append_iff.1 htrace' with ⟨more, rfl, hrest⟩ | ⟨more, rfl, hrest⟩
  · rw [Piece.sources_append, List.length_append] at hstart
    rcases List.append_eq_append_iff.1 hrest with ⟨more', rfl, -⟩ | ⟨more', hmore, hafter⟩
    · rw [Piece.sources_append, List.length_append] at hstart
      omega
    · cases more' with
      | nil =>
        rw [List.append_nil] at hmore
        rw [hmore] at hlength
        omega
      | cons step more' =>
        obtain ⟨rfl, -⟩ := List.cons.inj hafter
        exact hletters (by simp [hmore])
  · cases more with
    | nil =>
      obtain ⟨x, word, hword⟩ := List.exists_cons_of_ne_nil
        (l := a.word) (by rintro hnil; simp [hnil] at hstart)
      rw [hword] at hrest
      cases congrArg Piece.value (List.cons.inj hrest).1
    | cons step more =>
      obtain ⟨rfl, -⟩ := List.cons.inj hrest
      simp only [Piece.sources_append, Piece.sources_cons, List.length_append] at hend
      omega

/-- Stretches that are replaced do not overlap each other. -/
theorem Replaces.front_eq_of_overlaps (h : s.Replaces a b) (h' : s.Replaces c d)
    (hover : a.Overlaps c) : a.front = c.front := by
  obtain ⟨htext, hstart, hend⟩ := hover
  obtain ⟨before, after, htrace, hfront, -, -, -⟩ := h
  obtain ⟨before', after', htrace', hfront', -, -, -⟩ := h'
  rw [htext, htrace'] at htrace
  simp only [← hfront, ← hfront', List.length_append] at hstart hend ⊢
  rcases List.append_eq_append_iff.1 htrace with ⟨more, rfl, hmore⟩ | ⟨more, rfl, hmore⟩
  · cases more with
    | nil => simp
    | cons step more =>
      obtain ⟨rfl, -⟩ := List.cons.inj hmore
      simp only [Piece.sources_append, Piece.sources_cons, List.length_append] at hstart
      omega
  · cases more with
    | nil => simp
    | cons step more =>
      obtain ⟨rfl, -⟩ := List.cons.inj hmore
      simp only [Piece.sources_append, Piece.sources_cons, List.length_append] at hend
      omega

/-- A stretch inside of what is replaced is not taken. -/
theorem Covers.not_takes (hs : Faithful s) (h : s.Covers a) (hword : a.word ≠ []) : ¬s.Takes a := by
  rintro ⟨c, d, htaken, htext, hfront⟩
  obtain ⟨c', d', hcovers, htext', hstart, hend⟩ := h
  have hne : c.word ≠ [] := (hs _ _ (htaken.read_eq hs)).1
  have := List.length_pos_iff.2 hword
  have := List.length_pos_iff.2 hne
  simp only [List.length_append] at hend
  have hover : c'.Overlaps c := by
    refine ⟨htext'.trans htext.symm, ?_, ?_⟩ <;> simp only [hfront, List.length_append] <;> omega
  rw [hcovers.front_eq_of_overlaps htaken hover, hfront] at hstart
  exact lt_irrefl _ hstart

/-- A stretch that is kept lies inside of nothing that is replaced. -/
theorem Keeps.not_covers (h : s.Keeps a b) (hword : a.word ≠ []) : ¬s.Covers a := by
  rintro ⟨c, d, hreplaces, hencloses⟩
  exact h.not_overlaps hreplaces (hencloses.overlaps hword)

/-- A stretch that is kept is not taken. -/
theorem Keeps.not_takes (hs : Faithful s) (h : s.Keeps a b) (hword : a.word ≠ []) : ¬s.Takes a := by
  rintro ⟨c, d, hreplaces, htext, hfront⟩
  have hne : c.word ≠ [] := (hs _ _ (hreplaces.read_eq hs)).1
  exact h.not_overlaps hreplaces (Stretch.overlaps_of_front_eq htext hfront hne hword)

/-- What follows the word afterwards starts as it did before, or with what the pass puts in. -/
theorem Keeps.forall_head_back (hs : Faithful s) (h : s.Keeps a b) {p : Char → Prop}
    (hnew : ∀ c d, s.Replaces c d → ∃ x, d.word.head? = some x ∧ p x)
    (hback : ∀ x ∈ a.back.head?, p x) : ∀ x ∈ b.back.head?, p x := by
  obtain ⟨before, after, htrace, hfront, hafter, rfl⟩ := h
  cases after with
  | nil => simp [Piece.rewrite]
  | cons step after =>
    have hmem : step ∈ s.trace a.text := by simp [htrace]
    rcases isStep_of_mem_trace hs step hmem with ⟨c, rfl⟩ | ⟨c, source, new, rfl⟩
    · intro x hx
      exact hback x (by simpa [← hafter, Piece.rewrite_cons, Piece.rewritten] using hx)
    · have hreplaces : s.Replaces ⟨a.front ++ a.word, c :: source, Piece.sources after⟩
          ⟨Piece.rewrite some (before ++ Piece.letters a.word), new, Piece.rewrite some after⟩ := by
        refine ⟨before ++ Piece.letters a.word, after, ?_, ?_, rfl, rfl, rfl⟩
        · rw [List.append_assoc, ← htrace]
          simp [Stretch.text, ← hafter]
        · rw [Piece.sources_append, hfront, Piece.sources_letters]
      obtain ⟨x, hx, hpx⟩ := hnew _ _ hreplaces
      intro y hy
      obtain rfl : x = y := by
        simpa [Piece.rewrite_cons, Piece.rewritten, List.head?_append, hx] using hy
      exact hpx

/-- A stretch that is kept has one place afterwards. -/
theorem Keeps.unique (hs : Faithful s) (h : s.Keeps a b) (h' : s.Keeps a c) : b = c := by
  obtain ⟨before, after, htrace, hfront, -, rfl⟩ := h
  obtain ⟨before', after', htrace', hfront', -, rfl⟩ := h'
  have hne : ∀ p ∈ before ++ (Piece.letters a.word ++ after), p.source ≠ [] := by
    intro p hp
    exact (isStep_of_mem_trace hs p (htrace ▸ hp)).source_ne_nil
  obtain ⟨rfl, hrest⟩ := Piece.append_inj_of_sources hne (htrace.symm.trans htrace')
    (hfront.trans hfront'.symm)
  rw [List.append_cancel_left hrest]

/-! ## Where the scan stops -/

/-- The scan comes to the place between `front` and `rest`. -/
def Reaches (s : Sweep) (front rest : Text) : Prop :=
  ∃ before, (front ++ rest).pieces s = before ++ rest.pieces s ∧ Piece.sources before = front

/-- Something that the scan recognises starts in `front` and runs on into `rest`. -/
def RunsOver (s : Sweep) (front rest : Text) : Prop :=
  ∃ before x y value after, (front ++ rest).pieces s = before ++ ⟨x ++ y, value⟩ :: after ∧
    x ≠ [] ∧ y ≠ [] ∧ Piece.sources before ++ x = front ∧ y ++ Piece.sources after = rest

/-- The scan stops at a place or runs over it. -/
theorem reaches_or_runsOver (hs : Faithful s) (front rest : Text) :
    s.Reaches front rest ∨ s.RunsOver front rest := by
  rcases Piece.between_or_inside (sources_pieces hs (front ++ rest)) with
    ⟨before, after, hpieces, hfront, rfl⟩ | hinside
  · exact .inl ⟨before, by rw [hpieces, pieces_eq_of_append hs hpieces], hfront⟩
  · exact .inr hinside

/-- A piece of more than one character was read where it stands. -/
theorem read_eq_of_pieces (hs : Faithful s) {text x y : Text} {value : Option Text}
    {before after : List (Piece Text)} (h : text.pieces s = before ++ ⟨x ++ y, value⟩ :: after)
    (hx : x ≠ []) (hy : y ≠ []) : s (x ++ y ++ Piece.sources after) = some ⟨x ++ y, value⟩ := by
  rcases read_or_letter hs h with hread | ⟨c, hc, -⟩
  · exact hread
  · have hlength := congrArg (List.length ∘ Piece.source) hc
    have := List.length_pos_iff.2 hx
    have := List.length_pos_iff.2 hy
    simp only [Function.comp_apply, List.length_append, List.length_singleton] at hlength
    omega

/-- What the scan reads with is what decides where it comes to. -/
theorem Reaches.pieces_read {α : Type} {read : Text → Option (Piece α)} {f : α → Option Text}
    (hread : Faithful read) {front rest : Text} (h : (of read f).Reaches front rest) :
    ∃ before, (front ++ rest).pieces read = before ++ rest.pieces read := by
  obtain ⟨before, hpieces, -⟩ := h
  have hsources : ∀ pieces : List (Piece α),
      Piece.sources (pieces.map fun p => (⟨p.source, p.value.bind f⟩ : Piece Text)) =
        Piece.sources pieces := fun pieces => List.flatMap_map _ _ _
  rw [pieces_of, pieces_of] at hpieces
  obtain ⟨first, second, hfirst, -, hsecond⟩ := List.map_eq_append_iff.1 hpieces
  have hrest : Piece.sources second = rest := by
    rw [← hsources, hsecond, hsources, sources_pieces hread]
  refine ⟨first, ?_⟩
  rw [hfirst, ← hrest, pieces_eq_of_append hread hfirst]

/-- What is recognised where the scan stops is one of its values. -/
theorem Reaches.mem_values {α : Type} {read : Text → Option (Piece α)} {f : α → Option Text}
    (hread : Faithful read) {front rest source : Text} (h : (of read f).Reaches front rest)
    {value : α} (hfound : read rest = some ⟨source, some value⟩) :
    value ∈ Piece.values ((front ++ rest).pieces read) := by
  obtain ⟨before, hpieces⟩ := h.pieces_read hread
  obtain ⟨hne, more, rfl⟩ := hread _ _ hfound
  rw [hpieces, pieces_append_of_read hfound hne]
  simp [Piece.values]

/-- The scan comes to every place at a mark that nothing recognised has inside of it. -/
theorem reaches_of_mark (hs : Faithful s) {mark : Char}
    (hmark : ∀ text piece, s text = some piece → mark ∉ piece.source.tail) {front rest : Text}
    (hrest : rest.head? = some mark) : s.Reaches front rest := by
  rcases reaches_or_runsOver hs front rest with
    hreach | ⟨before, x, y, value, after, hpieces, hx, hy, -, rfl⟩
  · exact hreach
  · exact absurd (mem_tail_of_inside hx hy hrest) (hmark _ _ (read_eq_of_pieces hs hpieces hx hy))

/-- A piece with an answer is replaced. -/
theorem replaces_of_pieces (hs : Faithful s) {text source new : Text}
    {before after : List (Piece Text)} (h : text.pieces s = before ++ ⟨source, some new⟩ :: after) :
    s.Replaces ⟨Piece.sources before, source, Piece.sources after⟩
      ⟨Piece.rewrite some before, new, Piece.rewrite some after⟩ := by
  have htext : Piece.sources before ++ source ++ Piece.sources after = text := by
    conv_rhs => rw [← sources_pieces hs text, h]
    simp
  refine ⟨before.flatMap Piece.steps, after.flatMap Piece.steps, ?_,
    Piece.sources_flatMap_steps _, Piece.sources_flatMap_steps _,
    Piece.rewrite_flatMap_steps _, Piece.rewrite_flatMap_steps _⟩
  rw [Stretch.text, htext, trace, h, List.flatMap_append, List.flatMap_cons]
  rfl

/-- The scan comes to a word that starts with a mark, unless the word lies inside of a stretch that
is replaced. What the scan passes over must not have the mark inside of it. -/
theorem reaches_or_covers (hs : Faithful s) {mark : Char} {word : Text}
    (hword : a.word = mark :: word) (hmark : mark ∉ word) (hclears : s.Clears mark a.word)
    (hpassed : ∀ text source, s text = some ⟨source, none⟩ → mark ∉ source.tail) :
    s.Reaches a.front (a.word ++ a.back) ∨ s.Covers a := by
  rcases reaches_or_runsOver hs a.front (a.word ++ a.back) with
    hreach | ⟨before, x, y, value, after, hpieces, hx, hy, hfront, hback⟩
  · exact .inl hreach
  cases value with
  | none =>
    have hhead : (y ++ Piece.sources after).head? = some mark := by
      rw [hback, hword]
      rfl
    exact absurd (mem_tail_of_inside hx hy hhead)
      (hpassed _ _ (read_eq_of_pieces hs hpieces hx hy))
  | some new =>
    right
    have hreplaces := replaces_of_pieces hs hpieces
    refine ⟨_, _, hreplaces, ?_⟩
    have hoverlaps : Stretch.Overlaps ⟨Piece.sources before, x ++ y, Piece.sources after⟩ a := by
      have := List.length_pos_iff.2 hx
      have := List.length_pos_iff.2 hy
      refine ⟨?_, ?_, ?_⟩
      · simp [Stretch.text, ← hfront, ← hback]
      · simp only [← hfront, List.length_append]
        omega
      · simp only [← hfront, List.length_append]
        omega
    have hfound := hreplaces.read_eq hs
    refine (hoverlaps.encloses_or_front_eq (hclears.head hfound) hword hmark
      (hclears.border hfound)).resolve_right fun hsame => ?_
    exact hx (List.append_right_eq_self.1 (hfront.trans hsame.symm))

/-- Where the scan stops the trace goes on as from there. -/
theorem Reaches.trace_eq {front rest : Text} (h : s.Reaches front rest) :
    ∃ before, s.trace (front ++ rest) = before ++ s.trace rest ∧ Piece.sources before = front := by
  obtain ⟨before, hpieces, hfront⟩ := h
  refine ⟨before.flatMap Piece.steps, ?_, by rw [Piece.sources_flatMap_steps, hfront]⟩
  rw [trace, hpieces, List.flatMap_append]
  rfl

/-- What the scan comes to and recognises is replaced. -/
theorem Reaches.replaces (h : s.Reaches a.front (a.word ++ a.back)) (hs : Faithful s) {new : Text}
    (hread : s (a.word ++ a.back) = some ⟨a.word, some new⟩) :
    ∃ b, s.Replaces a b ∧ b.word = new := by
  obtain ⟨before, htrace, hfront⟩ := h.trace_eq
  have hhere : s.trace (a.word ++ a.back) = ⟨a.word, some new⟩ :: s.trace a.back := by
    rw [trace, pieces_append_of_read hread (hs _ _ hread).1]
    rfl
  rw [hhere, ← List.append_assoc] at htrace
  exact ⟨⟨_, new, _⟩, ⟨before, _, htrace, hfront, sources_trace hs _, rfl, rfl⟩, rfl⟩

/-- The pass takes a stretch where the scan comes to it and recognises something to replace. -/
theorem takes_iff (hs : Faithful s) :
    s.Takes a ↔ s.Reaches a.front (a.word ++ a.back) ∧
      ∃ source new, s (a.word ++ a.back) = some ⟨source, some new⟩ := by
  constructor
  · rintro ⟨c, d, hreplaces, htext, hfront⟩
    have hrest := Stretch.rest_eq htext hfront
    refine ⟨?_, c.word, d.word, hrest ▸ hreplaces.read_eq hs⟩
    obtain ⟨before, after, htrace, hbefore, hafter, -, -⟩ := hreplaces
    obtain ⟨first, second, hpieces, rfl, rfl⟩ := Piece.append_of_steps htrace
    rw [Piece.sources_flatMap_steps] at hbefore hafter
    have hhere := pieces_eq_of_append hs hpieces
    rw [Piece.sources_cons, hafter, hrest] at hhere
    refine ⟨first, ?_, hbefore.trans hfront⟩
    rw [hhere, ← hpieces, htext, Stretch.text, List.append_assoc]
  · rintro ⟨hreach, source, new, hread⟩
    obtain ⟨-, more, hmore⟩ := hs _ _ hread
    rw [← hmore] at hreach hread
    obtain ⟨d, hreplaces, -⟩ := @Reaches.replaces s ⟨a.front, source, more⟩ hreach hs new hread
    refine ⟨_, d, hreplaces, ?_, rfl⟩
    simp only [Stretch.text, List.append_assoc]
    rw [show source ++ more = a.word ++ a.back from hmore]

/-- What a pass writes for a stretch that it takes stands in the result. -/
theorem Takes.isInfix (hs : Faithful s) (h : s.Takes a) {source new : Text}
    (hread : s (a.word ++ a.back) = some ⟨source, some new⟩) : new <:+: s.run a.text := by
  obtain ⟨c, d, hreplaces, htext, hfront⟩ := h
  have hfound := hreplaces.read_eq hs
  rw [Stretch.rest_eq htext hfront, hread] at hfound
  cases Option.some.inj hfound
  rw [← htext, hreplaces.run_eq]
  exact ⟨d.front, d.back, rfl⟩

/-- When what the pass recognises at a word holds the whole of the word, the word is kept, or met
by a stretch from elsewhere, just when it is not taken. -/
theorem keeps_or_meets_iff (hs : Faithful s) (hword : a.word ≠ [])
    (hread : ∀ source new, s (a.word ++ a.back) = some ⟨source, some new⟩ → a.word <+: source) :
    (∃ b, s.Keeps a b) ∨ s.Meets a ↔ ¬s.Takes a := by
  constructor
  · rintro (⟨b, hkeeps⟩ | ⟨c, d, hreplaces, hover, hfront⟩)
    · exact hkeeps.not_takes hs hword
    · rintro ⟨c', d', htaken, htext, hfront'⟩
      have hlength := (hread _ _ (Stretch.rest_eq htext hfront' ▸ htaken.read_eq hs)).length_le
      obtain ⟨htext', hstart, hend⟩ := hover
      have hover' : c.Overlaps c' := by
        refine ⟨htext'.trans htext.symm, ?_, by rwa [hfront']⟩
        simp only [hfront', List.length_append] at hstart ⊢
        omega
      exact hfront ((hreplaces.front_eq_of_overlaps htaken hover').trans hfront')
  · intro hnone
    rcases keeps_or_overlaps hs hword with hkeeps | ⟨c, d, hreplaces, hover⟩
    · exact .inl hkeeps
    · exact .inr ⟨c, d, hreplaces, hover, fun hfront => hnone ⟨c, d, hreplaces, hover.1, hfront⟩⟩

/-- A word at which the pass replaces nothing is kept, unless it lies inside of a stretch that is
replaced. -/
theorem keeps_or_covers (hs : Faithful s) {mark : Char} {word : Text}
    (hword : a.word = mark :: word) (hmark : mark ∉ word) (hclears : s.Clears mark a.word)
    (hread : ∀ source new, s (a.word ++ a.back) ≠ some ⟨source, some new⟩) :
    (∃ b, s.Keeps a b) ∨ s.Covers a := by
  rcases keeps_or_covers_or_takes hs hword hmark hclears with hkeeps | hcovers | htakes
  · exact .inl hkeeps
  · exact .inr hcovers
  · obtain ⟨-, source, new, hfound⟩ := (takes_iff hs).1 htakes
    exact absurd hfound (hread source new)

/-- A stretch is kept with the piece that the scan reads there and leaves alone. -/
theorem Reaches.keeps (h : s.Reaches a.front (a.word ++ a.back)) (hs : Faithful s) {more : Text}
    (hread : s (a.word ++ a.back) = some ⟨a.word ++ more, none⟩) : ∃ b, s.Keeps a b := by
  obtain ⟨before, htrace, hfront⟩ := h.trace_eq
  obtain ⟨hne, rest, hrest⟩ := hs _ _ hread
  have hback : a.back = more ++ rest := by simpa using hrest.symm
  have hhere : s.trace (a.word ++ a.back) =
      Piece.letters a.word ++ (Piece.letters more ++ s.trace rest) := by
    have hpieces := pieces_of_read hread (by rintro hnil; exact hne (by simp_all)) hne
    rw [trace, hpieces, List.flatMap_cons, ← hrest, List.drop_left]
    simp [Piece.steps, Piece.letters, trace]
  rw [hhere, ← List.append_assoc] at htrace
  refine ⟨_, before, _, htrace, hfront, ?_, rfl⟩
  rw [Piece.sources_append, Piece.sources_letters, sources_trace hs, hback]

end Sweep

end Pagewright
