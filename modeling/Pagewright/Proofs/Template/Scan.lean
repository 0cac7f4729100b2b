import Mathlib.Tactic.Common
import Pagewright.Compiler

/-!
# Scanning a text block by block

A search goes through a text once, so what it finds in `a ++ b` is what it finds in `a` followed by
what it finds in `b`, as long as nothing that it recognises runs over the boundary. `Text.Splits`
says so for a block that is cut into the same pieces whatever follows it; blocks of this kind can be
put together (`Text.Splits.append`, `Text.Splits.flatMap`). A block is cut into its characters when
nothing is recognised at any place of it (`Text.splits_of_along`), where `Text.Along` says that a
property holds at every place of a block, what follows the block included.

Words are searched for from the start of a text and from its end (`Text.cut?_append`,
`Text.lastCut?_eq_some_iff`), the latter to tell whether a text leaves its last tag open
(`Php.endsOpen_iff`).

The last part carries this over to rewrites and rules: a rewrite that finds nothing gives the text
back, so running it always gives the rewritten pieces (`Rewrite.run_pieces`), and a rule that
rewrites the content alone does the same to the content and to every fragment
(`Rule.step_ofContent`).
-/

namespace Pagewright

namespace Piece

variable {α : Type} {f : α → Option Text}

/-- The pieces of a block in which nothing is recognised. -/
def letters (block : Text) : List (Piece α) :=
  block.map fun c => ⟨[c], none⟩

theorem rewrite_append (first second : List (Piece α)) :
    rewrite f (first ++ second) = rewrite f first ++ rewrite f second :=
  List.flatMap_append

theorem values_append (first second : List (Piece α)) :
    values (first ++ second) = values first ++ values second :=
  List.filterMap_append

theorem rewrite_flatMap {β : Type} (cut : β → List (Piece α)) (items : List β) :
    rewrite f (items.flatMap cut) = items.flatMap fun b => rewrite f (cut b) :=
  List.flatMap_assoc

theorem values_flatMap {β : Type} (cut : β → List (Piece α)) (items : List β) :
    values (items.flatMap cut) = items.flatMap fun b => values (cut b) :=
  List.filterMap_flatMap

@[simp]
theorem rewrite_letters (block : Text) : rewrite f (letters block) = block := by
  induction block with
  | nil => rfl
  | cons c block ih =>
    rw [letters, List.map_cons, rewrite, List.flatMap_cons]
    exact congrArg (c :: ·) ih

@[simp]
theorem values_letters (block : Text) : values (letters block : List (Piece α)) = [] := by
  induction block with
  | nil => rfl
  | cons c block ih => simp [letters, values]

/-- Where every answer is missing the text stays what it is. -/
theorem rewrite_eq_sources {pieces : List (Piece α)} (h : ∀ a ∈ values pieces, f a = none) :
    rewrite f pieces = sources pieces := by
  induction pieces with
  | nil => rfl
  | cons piece pieces ih =>
    have hrest : ∀ a ∈ values pieces, f a = none := by
      intro a ha
      refine h a ?_
      rw [values, List.filterMap_cons]
      split
      · exact ha
      · exact List.mem_cons_of_mem _ ha
    have hpiece : rewritten f piece = piece.source := by
      cases hv : piece.value with
      | none => simp [rewritten, hv]
      | some a => simp [rewritten, hv, h a (by simp [values, hv])]
    rw [rewrite, sources, List.flatMap_cons, List.flatMap_cons, hpiece]
    exact congrArg (piece.source ++ ·) (ih hrest)

/-- Where nothing is accepted the rewritten text is the text itself. -/
theorem getD_rewrite? (pieces : List (Piece α)) :
    (rewrite? f pieces).getD (sources pieces) = rewrite f pieces := by
  unfold rewrite?
  split
  case isTrue => rfl
  case isFalse h =>
    refine (rewrite_eq_sources ?_).symm
    intro a ha
    by_contra hne
    exact h (List.any_eq_true.2 ⟨a, ha, by simpa [Option.isSome_iff_ne_none] using hne⟩)

end Piece

namespace Text

/-! ## Places of a block -/

/-- `p` holds at every place of `block`, of what is left of the block from there together with the
text behind it. -/
def Along (p : Text → Prop) : (block rest : Text) → Prop
  | [], _ => True
  | c :: block, rest => p (c :: (block ++ rest)) ∧ Along p block rest

variable {p q : Text → Prop}

@[simp]
theorem along_nil (rest : Text) : Along p [] rest := trivial

/-- A property holds along a text when it holds at its head and along the rest. -/
@[simp]
theorem along_cons {c : Char} {block rest : Text} :
    Along p (c :: block) rest ↔ p (c :: (block ++ rest)) ∧ Along p block rest :=
  Iff.rfl

/-- A property holds along two texts when it holds along the first, with the second behind it, and
along the second. -/
theorem along_append {a b rest : Text} :
    Along p (a ++ b) rest ↔ Along p a (b ++ rest) ∧ Along p b rest := by
  induction a with
  | nil => simp
  | cons c a ih => simp [ih, and_assoc]

theorem Along.mono (h : ∀ t, p t → q t) {block rest : Text} (hb : Along p block rest) :
    Along q block rest := by
  induction block with
  | nil => trivial
  | cons c block ih => exact ⟨h _ hb.1, ih hb.2⟩

/-- A property that depends on the first character alone holds all along a block of such
characters. -/
theorem along_of_forall {block rest : Text} (h : ∀ c ∈ block, ∀ t, p (c :: t)) :
    Along p block rest := by
  induction block with
  | nil => trivial
  | cons c block ih =>
    exact ⟨h c (by simp) _, ih fun d hd => h d (List.mem_cons_of_mem _ hd)⟩

/-- What holds along a text holds of each of its ends. -/
theorem Along.of_suffix {block rest tail : Text} (hb : Along p block rest) (ht : tail <:+ block)
    (hne : tail ≠ []) : p (tail ++ rest) := by
  obtain ⟨front, rfl⟩ := ht
  obtain ⟨c, tail, rfl⟩ := List.exists_cons_of_ne_nil hne
  exact (along_append.1 hb).2.1

/-- A word is found behind a block in which it does not start. -/
theorem cut?_append {word block rest : Text} (hw : word ≠ [])
    (h : Along (after? · word = none) block (word ++ rest)) :
    cut? (block ++ (word ++ rest)) word = some (block, rest) := by
  induction block with
  | nil =>
    obtain ⟨w, tail, rfl⟩ := List.exists_cons_of_ne_nil hw
    rw [List.nil_append, List.cons_append, cut?, ← List.cons_append, after?_append]
  | cons c block ih =>
    rw [List.cons_append, cut?, h.1, ih h.2]
    rfl

/-- A word starts nowhere in a block when it does not occur in the block and all of the word but its
last letter. -/
theorem along_of_not_isInfix (word : Text) (mark : Char) {block : Text}
    (h : ¬word ++ [mark] <:+: block ++ word) (rest : Text) :
    Along (after? · (word ++ [mark]) = none) block (word ++ [mark] ++ rest) := by
  induction block with
  | nil => trivial
  | cons c block ih =>
    refine ⟨?_, ih fun hinside => h (hinside.trans (List.suffix_cons _ _).isInfix)⟩
    refine Option.eq_none_iff_forall_ne_some.2 fun found hfound => ?_
    have hword : word ++ [mark] <+: c :: (block ++ (word ++ [mark] ++ rest)) :=
      ⟨found, (after?_eq_some_iff.1 hfound).symm⟩
    have hblock : c :: (block ++ word) <+: c :: (block ++ (word ++ [mark] ++ rest)) :=
      ⟨[mark] ++ rest, by simp⟩
    have hlength : (word ++ [mark]).length ≤ (c :: (block ++ word)).length := by
      simp only [List.length_append, List.length_cons, List.length_nil]
      omega
    exact h (List.prefix_of_prefix_length_le hword hblock hlength).isInfix

/-- A word is not found in a block that does not hold it, nor over the end of the block when a mark
follows that the word has at its start at most. -/
theorem along_of_mark (mark : Char) {word block rest : Text} (h : ¬word <:+: block)
    (hword : mark ∉ word.tail) (hrest : rest.head? = some mark) :
    Along (after? · word = none) block rest := by
  induction block with
  | nil => trivial
  | cons c block ih =>
    refine ⟨?_, ih fun hinside => h (hinside.trans (List.suffix_cons _ _).isInfix)⟩
    refine Option.eq_none_iff_forall_ne_some.2 fun found hfound => ?_
    rcases List.append_eq_append_iff.1
      ((List.cons_append ..).trans (after?_eq_some_iff.1 hfound)) with ⟨x, hx, rfl⟩ | ⟨x, hx, -⟩
    · cases x with
      | nil => exact h (by simp [hx])
      | cons d x =>
        obtain rfl : d = mark := by simpa using hrest
        exact hword (by simp [hx])
    · exact h ⟨[], x, hx.symm⟩

/-! ## The first occurrence of a word -/

/-- A text cannot be cut at a word just when the word does not stand in it. -/
theorem cut?_eq_none_iff {text word : Text} (hword : word ≠ []) :
    cut? text word = none ↔ ¬word <:+: text := by
  induction text with
  | nil => simp [cut?, hword]
  | cons c text ih =>
    rw [cut?, List.infix_cons_iff, not_or]
    cases hafter : after? (c :: text) word with
    | some rest =>
      have hstart : word <+: c :: text := ⟨rest, (after?_eq_some_iff.1 hafter).symm⟩
      simp [hstart]
    | none =>
      have hstart : ¬word <+: c :: text := by
        rintro ⟨rest, hrest⟩
        rw [← hrest, after?_append] at hafter
        cases hafter
      simp [hstart, ih]

/-- Before the place of the cut the word does not stand. -/
theorem along_of_cut? {text word before rest : Text} (h : cut? text word = some (before, rest)) :
    Along (after? · word = none) before (word ++ rest) := by
  induction text generalizing before with
  | nil =>
    unfold cut? at h
    split at h
    · cases h
      trivial
    · cases h
  | cons c text ih =>
    unfold cut? at h
    split at h
    case h_1 =>
      cases h
      trivial
    case h_2 hnone =>
      obtain ⟨⟨first, last⟩, hcut, hsome⟩ := Option.map_eq_some_iff.1 h
      cases hsome
      have htext := eq_append_of_cut? hcut
      rw [List.append_assoc] at htext
      exact ⟨htext ▸ hnone, ih hcut⟩

/-- A word that stands nowhere along a text does not stand in it. -/
theorem not_isInfix_of_along {text word rest : Text} (hword : word ≠ [])
    (h : Along (after? · word = none) text rest) : ¬word <:+: text := by
  rintro ⟨front, back, rfl⟩
  have hnone := (along_append.1 (along_append.1 h).1).2.of_suffix List.suffix_rfl hword
  rw [after?_append] at hnone
  cases hnone

/-! ## The last occurrence of a word -/

/-- A word is not found over the end of a block either, where all of the word but its last letter
follows the block and that letter is not among the others. -/
theorem not_isInfix_append {word block : Text} {mark : Char} (hmark : mark ∉ word)
    (h : ¬word ++ [mark] <:+: block) : ¬word ++ [mark] <:+: block ++ word := by
  rintro ⟨front, back, htext⟩
  have hsplit : (front ++ word) ++ (mark :: back) = block ++ word := by simpa using htext
  rcases List.append_eq_append_iff.1 hsplit with ⟨x, rfl, hback⟩ | ⟨x, -, hword⟩
  · cases x with
    | nil =>
      have hword : word = mark :: back := by simpa using hback.symm
      exact hmark (by simp [hword])
    | cons d x =>
      obtain ⟨rfl, -⟩ := List.cons.inj hback
      exact h ⟨front, x, by simp⟩
  · exact hmark (by simp [hword])

/-- The last cut of a word whose first letter is not among the others. -/
theorem lastCut?_eq_some_iff {mark : Char} {word : Text} (hmark : mark ∉ word)
    {front rest text : Text} :
    Php.lastCut? text (mark :: word) = some (front, rest) ↔
      text = front ++ (mark :: word ++ rest) ∧ ¬mark :: word <:+: rest := by
  have hreverse : (mark :: word).reverse = word.reverse ++ [mark] := List.reverse_cons
  rw [Php.lastCut?, Option.map_eq_some_iff, hreverse]
  constructor
  · rintro ⟨⟨after, before⟩, hcut, hpair⟩
    obtain ⟨rfl, rfl⟩ := Prod.mk.inj hpair
    constructor
    · have htext := congrArg List.reverse (eq_append_of_cut? hcut)
      simpa using htext
    · have hnot := not_isInfix_of_along (by simp) (along_of_cut? hcut)
      rwa [← List.reverse_infix, List.reverse_reverse, hreverse]
  · rintro ⟨rfl, hnot⟩
    have hlast : ¬word.reverse ++ [mark] <:+: rest.reverse := by
      rwa [← hreverse, List.reverse_infix]
    refine ⟨(rest.reverse, front.reverse), ?_, by simp⟩
    have hcut := cut?_append (by simp) (along_of_not_isInfix word.reverse mark
      (not_isInfix_append (by simpa using hmark) hlast) front.reverse)
    simpa using hcut

end Text

namespace Php

open Text

/-- Nothing closes the last tag of the text that switches PHP on. -/
def Unclosed (text : Text) : Prop :=
  ∃ front rest, text = front ++ ("<?php" ++ rest) ∧
    ¬("<?php" : Text) <:+: rest ∧ ¬("?>" : Text) <:+: rest

/-- The check for a tag that is left open finds just such texts. -/
theorem endsOpen_iff {text : Text} : endsOpen text = true ↔ Unclosed text := by
  have hcut : ∀ {front rest : Text}, lastCut? text "<?php" = some (front, rest) ↔
      text = front ++ ("<?php" ++ rest) ∧ ¬("<?php" : Text) <:+: rest :=
    lastCut?_eq_some_iff (by decide)
  have hholds : ∀ {rest : Text}, (!rest.holds "?>") = true ↔ ¬("?>" : Text) <:+: rest := by
    intro rest
    rw [holds, Bool.not_eq_true', Option.isSome_eq_false_iff, Option.isNone_iff_eq_none,
      cut?_eq_none_iff (by decide)]
  constructor
  · intro h
    unfold endsOpen at h
    split at h
    case h_1 front rest hsome =>
      obtain ⟨htext, hlast⟩ := hcut.1 hsome
      exact ⟨front, rest, htext, hlast, hholds.1 h⟩
    case h_2 => cases h
  · rintro ⟨front, rest, htext, hlast, hclosed⟩
    rw [endsOpen, hcut.2 ⟨htext, hlast⟩]
    exact hholds.2 hclosed

end Php

namespace Text

/-! ## Blocks that are cut on their own -/

variable {α : Type} {read : Text → Option (Piece α)}

/-- Whatever follows `block`, the pieces of the block are `pieces` and a new piece starts behind
it. -/
def Splits (read : Text → Option (Piece α)) (block : Text) (pieces : List (Piece α)) : Prop :=
  ∀ rest, Text.pieces read (block ++ rest) = pieces ++ Text.pieces read rest

theorem splits_nil : Splits read [] [] := fun _ => rfl

/-- Two blocks that are cut on their own are cut one after the other. -/
theorem Splits.append {a b : Text} {first second : List (Piece α)} (ha : Splits read a first)
    (hb : Splits read b second) : Splits read (a ++ b) (first ++ second) := by
  intro rest
  rw [List.append_assoc, ha, hb, List.append_assoc]

theorem Splits.flatMap {β : Type} {block : β → Text} {cut : β → List (Piece α)} :
    ∀ {items : List β}, (∀ b ∈ items, Splits read (block b) (cut b)) →
      Splits read (items.flatMap block) (items.flatMap cut)
  | [], _ => splits_nil
  | b :: items, h => by
    rw [List.flatMap_cons, List.flatMap_cons]
    exact (h b (by simp)).append (Splits.flatMap fun c hc => h c (List.mem_cons_of_mem _ hc))

/-- A text that is cut on its own has just these pieces. -/
theorem Splits.pieces_eq {text : Text} {cut : List (Piece α)} (h : Splits read text cut) :
    Text.pieces read text = cut := by
  simpa using h []

/-- Where nothing is recognised every letter is a piece. -/
theorem pieces_append_of_along {block rest : Text} (h : Along (read · = none) block rest) :
    pieces read (block ++ rest) = Piece.letters block ++ pieces read rest := by
  induction block with
  | nil => rfl
  | cons c block ih =>
    rw [List.cons_append, pieces_of_read_none h.1, ih h.2]
    rfl

theorem splits_of_along {block : Text} (h : ∀ rest, Along (read · = none) block rest) :
    Splits read block (Piece.letters block) :=
  fun rest => pieces_append_of_along (h rest)

/-- What is recognised at the head is the first piece. -/
theorem pieces_append_of_read {block rest : Text} {value : Option α}
    (h : read (block ++ rest) = some ⟨block, value⟩) (hne : block ≠ []) :
    pieces read (block ++ rest) = ⟨block, value⟩ :: pieces read rest := by
  rw [pieces_of_read h (by simp [hne]) hne]
  simp

theorem splits_of_read {block : Text} {value : Option α} (hne : block ≠ [])
    (h : ∀ rest, read (block ++ rest) = some ⟨block, value⟩) :
    Splits read block [⟨block, value⟩] :=
  fun rest => pieces_append_of_read (h rest) hne

end Text

/-! ## Rewrites and rules -/

namespace Rewrite

/-- One rewrite and then another is the second of what the first gives. -/
theorem run_andThen (first second : Rewrite) (text : Text) :
    (first.andThen second).run text = second.run (first.run text) := by
  simp only [run, andThen]
  cases second ((first text).getD text) <;> rfl

/-- What holds of the rewrite with each of the elements, and goes from two rewrites to the one and
then the other, holds of the rewrite with all of them. -/
theorem ofElements_induction {P : Rewrite → Prop} (hnone : P fun _ => none)
    (hthen : ∀ {first second : Rewrite}, P first → P second → P (first.andThen second)) :
    ∀ {elements : List Element}, (∀ element ∈ elements, P element.rewrite) →
      P (ofElements elements)
  | [], _ => hnone
  | [element], h => h element (by simp)
  | element :: next :: rest, h =>
    hthen (h element (by simp)) (ofElements_induction hnone hthen fun e he => h e (by simp [he]))

/-- The rewrite with some elements does what the first of them does, and then the others. -/
theorem run_ofElements_cons (element : Element) (rest : List Element) (text : Text) :
    (ofElements (element :: rest)).run text = (ofElements rest).run (element.rewrite.run text) := by
  cases rest with
  | nil => rfl
  | cons next rest => exact run_andThen element.rewrite (ofElements (next :: rest)) text

/-- A rewrite of pieces gives the rewritten pieces, found or not. -/
theorem run_pieces {α : Type} {read : Text → Option (Piece α)} (hread : Text.Faithful read)
    (f : α → Option Text) (text : Text) :
    run (fun text => Piece.rewrite? f (text.pieces read)) text
      = Piece.rewrite f (text.pieces read) := by
  have h := Piece.getD_rewrite? (f := f) (text.pieces read)
  rwa [Text.sources_pieces hread] at h

end Rewrite

namespace Rule

/-- A rule for the content changes the content alone. -/
theorem getD_apply_ofContent (name : Text) (rewrite : Text → Rewrite) (draft : Draft) :
    ((ofContent name rewrite).apply draft).getD draft
      = { draft with content := (rewrite draft.relativePath).run draft.content } := by
  have happly : (ofContent name rewrite).apply draft
      = (rewrite draft.relativePath draft.content).map fun content => { draft with content } := rfl
  rw [happly, Rewrite.run]
  cases rewrite draft.relativePath draft.content <;> rfl

/-- A rule for the content rewrites every fragment in the same way. -/
theorem onFragments_ofContent (name : Text) (rewrite : Text → Rewrite) (draft : Draft) :
    ((ofContent name rewrite).onFragments draft draft.before.length).1
      = draft.before.map (rewrite draft.relativePath).run := by
  have happly : ∀ text, (ofContent name rewrite).apply (draft.fragment text)
      = (rewrite draft.relativePath text).map draft.fragment := fun _ => rfl
  have hchanged : ∀ text, (((rewrite draft.relativePath text).map draft.fragment).map
      Draft.content).getD text = (rewrite draft.relativePath).run text := by
    intro text
    rw [Rewrite.run]
    cases rewrite draft.relativePath text <;> rfl
  have hadded : ∀ text, (((rewrite draft.relativePath text).map draft.fragment).map
      Draft.before).getD [] = [] := by
    intro text
    cases rewrite draft.relativePath text <;> rfl
  simp only [onFragments, happly, List.take_length, List.drop_length, List.map_map,
    List.append_nil, List.flatMap_map]
  simp only [Function.comp_def, hchanged, hadded]
  simp

end Rule

/-- The draft with its content and the fragments before it changed. -/
def Draft.mapTexts (g : Text → Text) (draft : Draft) : Draft :=
  { draft with content := g draft.content, before := draft.before.map g }

theorem Draft.mapTexts_mapTexts (g g' : Text → Text) (draft : Draft) :
    (draft.mapTexts g).mapTexts g' = draft.mapTexts fun text => g' (g text) := by
  simp [mapTexts]

namespace Rule

/-- A rule that rewrites the content alone does the same to the content and to every fragment. -/
theorem step_ofContent (name : Text) (rewrite : Text → Rewrite) (draft : Draft) :
    ((ofContent name rewrite).step draft).1
      = draft.mapTexts (rewrite draft.relativePath).run := by
  simp only [step, getD_apply_ofContent, Draft.mapTexts]
  congr 1
  exact onFragments_ofContent name rewrite
    { draft with content := (rewrite draft.relativePath).run draft.content }

/-- A rule that is given by a rewrite does the same to all texts of a draft. -/
theorem step_ofRewrite (name : Text) (rewrite : Rewrite) (draft : Draft) :
    ((ofRewrite name rewrite).step draft).1 = draft.mapTexts rewrite.run :=
  step_ofContent name (fun _ => rewrite) draft

end Rule

/-- Rules change a draft one after another. -/
theorem Compiler.runRules_draft (rules : List Rule) (compiled : Compiled) :
    (runRules rules compiled).draft
      = rules.foldl (fun draft rule => (rule.step draft).1) compiled.draft := by
  induction rules generalizing compiled with
  | nil => rfl
  | cons rule rules ih => exact ih _

end Pagewright
