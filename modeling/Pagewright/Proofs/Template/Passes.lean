import Mathlib.Data.List.Basic
import Pagewright.Proofs.Template.Arguments

/-!
# Passes over marks

A template is made of marks: plain text, calls, bare words, closing words and output tags (`Mark`).
A pass looks for one pattern and rewrites what it finds (`Pass`). What it makes of a mark does not
depend on the text behind the mark, which is what `Text.Carries` says, and blocks that are carried
can be put one behind the other (`Text.Carries.append`) and through one pass after another
(`Text.Carries.comp`).

A pass carries a mark to itself when the pattern of the pass ignores the mark
(`Pass.carries_of_ignores`), which is decided by comparing words: `@for` is ignored by the pass for
`@foreach`, and the pass for `@endfor` ignores `@endforeach`. So when every pass of a list either
ignores a mark or turns it into a quiet text, the whole list does (`Pass.carries_runAll`).
-/

namespace Pagewright

open Text

/-! ## Carried blocks -/

namespace Text

/-- Whatever follows the block `a`, `run` turns the block into `b` and goes on behind it. -/
def Carries (run : Text → Text) (a b : Text) : Prop :=
  ∀ rest, run (a ++ rest) = b ++ run rest

variable {run next : Text → Text} {a b c d : Text}

theorem carries_nil : Carries run [] [] := fun _ => rfl

/-- Two blocks are carried one after the other. -/
theorem Carries.append (h : Carries run a b) (h' : Carries run c d) :
    Carries run (a ++ c) (b ++ d) := by
  intro rest
  rw [List.append_assoc, h, h', List.append_assoc]

theorem Carries.flatMap {β : Type} {f g : β → Text} :
    ∀ {items : List β}, (∀ x ∈ items, Carries run (f x) (g x)) →
      Carries run (items.flatMap f) (items.flatMap g)
  | [], _ => carries_nil
  | x :: items, h => by
    rw [List.flatMap_cons, List.flatMap_cons]
    exact (h x (by simp)).append (Carries.flatMap fun y hy => h y (List.mem_cons_of_mem _ hy))

/-- A block is carried by one run and then by another. -/
theorem Carries.comp (h : Carries run a b) (h' : Carries next b c) :
    Carries (fun text => next (run text)) a c := by
  intro rest
  simp only [h rest]
  exact h' _

theorem Carries.run_eq (h : Carries run a b) (hnil : run [] = []) : run a = b := by
  simpa [hnil] using h []

end Text

namespace Rewrite

variable {α : Type} {read : Text → Option (Piece α)} {f : α → Option Text} {block : Text}

/-- A block that is cut in the same way whatever follows is carried to what is made of its pieces.
-/
theorem carries_of_splits (hread : Faithful read) {cut : List (Piece α)}
    (h : Splits read block cut) :
    Carries (run fun text => Piece.rewrite? f (text.pieces read)) block (Piece.rewrite f cut) := by
  intro rest
  rw [run_pieces hread, run_pieces hread, h, Piece.rewrite_append]

/-- A block in which nothing is recognised is carried unchanged. -/
theorem carries_of_along (hread : Faithful read)
    (h : ∀ rest, Along (read · = none) block rest) :
    Carries (run fun text => Piece.rewrite? f (text.pieces read)) block block := by
  simpa using carries_of_splits (f := f) hread (splits_of_along h)

/-- A block that is recognised whole is carried to what it is replaced by. -/
theorem carries_of_read (hread : Faithful read) {a : α} {new : Text} (hne : block ≠ [])
    (h : ∀ rest, read (block ++ rest) = some ⟨block, some a⟩) (hf : f a = some new) :
    Carries (run fun text => Piece.rewrite? f (text.pieces read)) block new := by
  simpa [Piece.rewrite, Piece.rewritten, hf] using
    carries_of_splits (f := f) hread (splits_of_read hne h)

/-- A block that is recognised whole and then left alone is carried unchanged. -/
theorem carries_of_read_none (hread : Faithful read) {a : α} (hne : block ≠ [])
    (h : ∀ rest, read (block ++ rest) = some ⟨block, some a⟩) (hf : f a = none) :
    Carries (run fun text => Piece.rewrite? f (text.pieces read)) block block := by
  simpa [Piece.rewrite, Piece.rewritten, hf] using
    carries_of_splits (f := f) hread (splits_of_read hne h)

end Rewrite

/-! ## Marks -/

/-- A construct of a template that is rewritten on its own. -/
inductive Mark where
  | text (t : Text)
  /-- `@name(args)` -/
  | call (name args : Text)
  /-- `@word` and a line feed. -/
  | line (word : Text)
  /-- `@word`, whatever follows. -/
  | close (word : Text)
  /-- `{!! e !!}` -/
  | raw (e : Text)
  /-- `{{ e }}` -/
  | echo (e : Text)

namespace Mark

/-- The mark as it is written. -/
def source : Mark → Text
  | text t => t
  | call name args => Call.source ⟨name, false, args⟩
  | line word => '@' :: (word ++ "\n")
  | close word => '@' :: word
  | raw e => "\x7b!! " ++ e ++ " !!\x7d"
  | echo e => "\x7b\x7b " ++ e ++ " \x7d\x7d"

/-- The words of the mark are words, and no other mark starts inside it. -/
def Sound : Mark → Prop
  | text t => Quiet t
  | call name args => name.all isWordLetter ∧ Balanced args ∧ DirectiveFree args
  | line word => word.all isWordLetter
  | close word => word.all isWordLetter
  | raw e => DirectiveFree e
  | echo e => DirectiveFree e

theorem source_call (name args : Text) :
    (call name args).source = '@' :: (name ++ ('(' :: (args ++ [')']))) := by
  simp [source, Call.source, Call.opening]

end Mark

/-! ## Patterns -/

/-- What a pass looks for at the head of a text. -/
inductive Pattern where
  | call (name : Text)
  | token (word : Text)
  | literal (word : Text)
  | raw
  | echo
  | comment
  | leftover
  | leftoverEnd

namespace Pattern

/-- The pattern does not stand at the head of the text. -/
def Absent : Pattern → Text → Prop
  | call name, t => Call.read name t = none
  | token word, t => Token.read ('@' :: word) t = none
  | literal word, t => t.after? ('@' :: word) = none
  | raw, t => Output.readTag "\x7b!!" "!!\x7d" t = none
  | echo, t => Output.readTag "\x7b\x7b" "\x7d\x7d" t = none
  | comment, t => Output.readComment t = none
  | leftover, t => Output.readLeftover t = none
  | leftoverEnd, t => Output.readLeftoverEnd t = none

/-- Whether the pattern is among those that a silent head rules out. -/
def isProper : Pattern → Bool
  | call name => name.all isWordLetter
  | token word => word.all isWordLetter && bareStarts.any (·.isPrefixOf word)
  | literal word => word.all isWordLetter && bareStarts.any (·.isPrefixOf word)
  | _ => true

/-- Whether the pattern does not stand at the head of the mark, by the words of the two. -/
def ignores : Pattern → Mark → Bool
  | _, .text _ => true
  | call name, .call word _ => word ≠ name
  | call name, .close word => ¬word <+: name
  | token name, .call word _ => word ≠ name
  | token name, .line word => word ≠ name
  | token name, .close word => ¬word <+: name
  | literal name, .call word _ => ¬name <+: word
  | literal name, .line word => ¬name <+: word
  | literal name, .close word => ¬word <+: name ∧ ¬name <+: word
  | raw, .raw _ => false
  | echo, .echo _ => false
  | leftover, .call _ _ => false
  | leftover, .line _ => false
  | leftover, .close _ => false
  | leftoverEnd, .call _ _ => false
  | leftoverEnd, .line _ => false
  | leftoverEnd, .close _ => false
  | _, _ => true

/-- No proper pattern stands at a silent head. -/
theorem absent_of_silent {p : Pattern} (hp : p.isProper) {text : Text} (h : Silent text) :
    p.Absent text := by
  have hstart : ∀ {word : Text}, (bareStarts.any (·.isPrefixOf word)) = true →
      after? text ('@' :: word) = none := by
    intro word hw
    simp only [List.any_eq_true, List.isPrefixOf_iff_prefix] at hw
    exact after?_of_silent hw h
  cases p with
  | call name => exact Call.read_of_silent (by simpa [isProper] using hp) h
  | token word =>
    rw [isProper, Bool.and_eq_true] at hp
    exact Token.read_of_after? (hstart hp.2)
  | literal word =>
    rw [isProper, Bool.and_eq_true] at hp
    exact hstart hp.2
  | raw => exact Output.readTag_of_after? (Output.after?_brace_of_silent rfl h)
  | echo => exact Output.readTag_of_after? (Output.after?_brace_of_silent rfl h)
  | comment => exact Output.readComment_of_after? (Output.after?_brace_of_silent rfl h)
  | leftover => exact Output.readLeftover_of_silent h
  | leftoverEnd => exact Output.readLeftoverEnd_of_silent h

/-- The word of a proper pattern has letters only. -/
theorem letters_of_isProper {p : Pattern} (hp : p.isProper) {word : Text}
    (h : p = call word ∨ p = token word ∨ p = literal word) : ∀ c ∈ word, isWordLetter c := by
  rcases h with rfl | rfl | rfl
  · simpa [isProper] using hp
  · simpa using (Bool.and_eq_true_iff.1 hp).1
  · simpa using (Bool.and_eq_true_iff.1 hp).1

theorem ne_nil_of_isProper {word : Text} (h : (token word).isProper) : word ≠ [] := by
  rintro rfl
  exact absurd h (by decide)

/-- A pattern does not stand at a call that it ignores. -/
theorem absent_call {p : Pattern} (hp : p.isProper) {word args : Text}
    (hword : ∀ c ∈ word, isWordLetter c) (hi : p.ignores (.call word args)) (rest : Text) :
    p.Absent ((Mark.call word args).source ++ rest) := by
  have hbounds : ∀ {name}, (∀ c ∈ name, isWordLetter c) →
      Bounds word ('(' :: (args ++ [')']) ++ rest) name :=
    fun hname => bounds_of_head hname (by rintro c ⟨⟩; decide)
  rw [Mark.source_call, List.cons_append, List.append_assoc]
  cases p with
  | call name =>
    have hne : word ≠ name := by simpa [ignores] using hi
    exact Call.read_at_word hword (hbounds (letters_of_isProper hp (by simp)))
      fun h => absurd h hne
  | token name =>
    exact Token.read_at_word hword (hbounds (letters_of_isProper hp (by simp)))
      (ne_nil_of_isProper hp) (by simpa [ignores] using hi)
  | literal name =>
    exact after?_at_word (hbounds (letters_of_isProper hp (by simp)))
      (by simpa [ignores] using hi)
  | raw => rfl
  | echo => rfl
  | comment => rfl
  | leftover => simp [ignores] at hi
  | leftoverEnd => simp [ignores] at hi

/-- A pattern does not stand at a bare word that it ignores. -/
theorem absent_line {p : Pattern} (hp : p.isProper) {word : Text}
    (hword : ∀ c ∈ word, isWordLetter c) (hi : p.ignores (.line word)) (rest : Text) :
    p.Absent ((Mark.line word).source ++ rest) := by
  have hbounds : ∀ {name}, (∀ c ∈ name, isWordLetter c) → Bounds word ("\n" ++ rest) name :=
    fun hname => bounds_of_head hname (by rintro c ⟨⟩; decide)
  rw [Mark.source, List.cons_append, List.append_assoc]
  cases p with
  | call name =>
    exact Call.read_at_word hword (hbounds (letters_of_isProper hp (by simp))) fun _ => rfl
  | token name =>
    exact Token.read_at_word hword (hbounds (letters_of_isProper hp (by simp)))
      (ne_nil_of_isProper hp) (by simpa [ignores] using hi)
  | literal name =>
    exact after?_at_word (hbounds (letters_of_isProper hp (by simp)))
      (by simpa [ignores] using hi)
  | raw => rfl
  | echo => rfl
  | comment => rfl
  | leftover => simp [ignores] at hi
  | leftoverEnd => simp [ignores] at hi

/-- A pattern does not stand at a closing word that it ignores. -/
theorem absent_close {p : Pattern} (hp : p.isProper) {word : Text}
    (hword : ∀ c ∈ word, isWordLetter c) (hi : p.ignores (.close word)) (rest : Text) :
    p.Absent ((Mark.close word).source ++ rest) := by
  cases p with
  | call name =>
    have hnot : ¬word <+: name := by simpa [ignores] using hi
    exact Call.read_at_word hword (bounds_of_not_isPrefix hnot)
      fun h => absurd (h ▸ List.prefix_refl _) hnot
  | token name =>
    have hnot : ¬word <+: name := by simpa [ignores] using hi
    exact Token.read_at_word hword (bounds_of_not_isPrefix hnot) (ne_nil_of_isProper hp)
      fun h => hnot (h ▸ List.prefix_refl _)
  | literal name =>
    have hnot : ¬word <+: name ∧ ¬name <+: word := by simpa [ignores] using hi
    exact after?_at_word (bounds_of_not_isPrefix hnot.1) hnot.2
  | raw => rfl
  | echo => rfl
  | comment => rfl
  | leftover => simp [ignores] at hi
  | leftoverEnd => simp [ignores] at hi

theorem absent_raw {p : Pattern} {e : Text} (hi : p.ignores (.raw e)) (rest : Text) :
    p.Absent ((Mark.raw e).source ++ rest) := by
  cases p with
  | raw => simp [ignores] at hi
  | _ => rfl

theorem absent_echo {p : Pattern} {e : Text} (hi : p.ignores (.echo e)) (rest : Text) :
    p.Absent ((Mark.echo e).source ++ rest) := by
  cases p with
  | echo => simp [ignores] at hi
  | _ => rfl

/-- Whatever follows the block, the pattern stands nowhere in it. -/
def AbsentIn (p : Pattern) (block : Text) : Prop :=
  ∀ rest, Along p.Absent block rest

/-- A pattern that stands in neither of two blocks does not stand in both together. -/
theorem AbsentIn.append {p : Pattern} {a b : Text} (ha : p.AbsentIn a) (hb : p.AbsentIn b) :
    p.AbsentIn (a ++ b) :=
  fun rest => along_append.2 ⟨ha _, hb rest⟩

theorem absentIn_flatMap {p : Pattern} {β : Type} {block : β → Text}
    (h : ∀ b, p.AbsentIn (block b)) :
    ∀ items : List β, p.AbsentIn (items.flatMap block)
  | [] => fun _ => trivial
  | b :: items => by
    rw [List.flatMap_cons]
    exact (h b).append (absentIn_flatMap h items)

/-- No proper pattern stands in a quiet block. -/
theorem absentIn_quiet {p : Pattern} (hp : p.isProper) {block : Text} (h : Quiet block) :
    p.AbsentIn block :=
  fun rest => (h rest).mono fun _ => absent_of_silent hp

/-- A pattern that ignores a mark does not stand inside it either. -/
theorem absentIn_mark {p : Pattern} (hp : p.isProper) {m : Mark} (hm : m.Sound)
    (hi : p.ignores m) : p.AbsentIn m.source := by
  intro rest
  have hquiet : ∀ {block : Text}, Quiet block → Along p.Absent block rest :=
    fun h => absentIn_quiet hp h rest
  have hletters : ∀ {word : Text}, word.all isWordLetter → Quiet word := by
    intro word hw
    refine quiet_of_forall fun c hc => ?_
    have := List.all_eq_true.1 hw c hc
    constructor <;> (rintro rfl; exact absurd this (by decide))
  cases m with
  | text t => exact hquiet hm
  | call name args =>
    have hhead := absent_call hp (by simpa using hm.1) hi rest
    rw [Mark.source_call] at hhead ⊢
    refine ⟨hhead, hquiet ((hletters hm.1).append (Quiet.append (a := ['(']) ?_ ?_))⟩
    · exact quiet_of_isHarmless rfl
    · exact hm.2.2.quiet_append (by decide) (quiet_of_isHarmless rfl)
  | line word =>
    exact ⟨absent_line hp (by simpa [Mark.Sound] using hm) hi rest,
      hquiet ((hletters hm).append (quiet_of_isHarmless rfl))⟩
  | close word =>
    exact ⟨absent_close hp (by simpa [Mark.Sound] using hm) hi rest, hquiet (hletters hm)⟩
  | raw e =>
    refine ⟨absent_raw hi rest, hquiet (Quiet.append (a := "!! ") ?_ ?_)⟩
    · exact quiet_of_isHarmless rfl
    · exact DirectiveFree.quiet_append hm (by decide) (quiet_of_isHarmless rfl)
  | echo e =>
    refine ⟨absent_echo hi rest, hquiet (Quiet.append (a := "\x7b ") ?_ ?_)⟩
    · exact quiet_of_isHarmless rfl
    · exact DirectiveFree.quiet_append hm (by decide) (quiet_of_isHarmless rfl)

end Pattern

/-! ## Marks as they are read -/

/-- A call is read whole, whatever follows. -/
theorem Call.read_source (name : Text) {args : Text} (h : Balanced args) (rest : Text) :
    Call.read name ((Mark.call name args).source ++ rest)
      = some ⟨(Mark.call name args).source, some ⟨name, false, args⟩⟩ := by
  have hsource : (Mark.call name args).source ++ rest
      = ('@' :: name) ++ ('(' :: (args ++ ')' :: rest)) := by
    simp [Mark.source_call]
  rw [Call.read, hsource, after?_append, Option.bind_some, parenthesis?]
  simp only [closing?, closingFrom?_append h]
  rfl

/-- A region is read up to its closing word, whatever follows. -/
theorem Region.read_source (name : Text) {close args body rest : Text} (hne : close ≠ [])
    (hargs : Balanced args) (hbody : Along (after? · close = none) body (close ++ rest)) :
    Region.read name close ((Mark.call name args).source ++ body ++ close ++ rest)
      = some ⟨(Mark.call name args).source ++ body ++ close,
          some ⟨⟨name, false, args⟩, body, close⟩⟩ := by
  rw [List.append_assoc, List.append_assoc, Region.read, Call.read_source name hargs]
  simp only [List.drop_left, cut?_append hne hbody]
  rfl

/-- A bare word is read at the end of its line. -/
theorem Token.read_line {word : Text} (h : (Pattern.token word).isProper) (rest : Text) :
    Token.read ('@' :: word) ('@' :: word ++ ("\n" ++ rest)) = some ⟨'@' :: word, some ()⟩ := by
  have hne := Pattern.ne_nil_of_isProper h
  have hlast : isWordChar (word.getLast hne) := isWordChar_of_isWordLetter
    (Pattern.letters_of_isProper h (by simp) _ (List.getLast_mem hne))
  have hboundary : isWordBoundary ('@' :: word).getLast? ("\n" ++ rest : Text).head? = true := by
    have hline : isWordChar '\n' = false := by decide
    simp [isWordBoundary, List.getLast?_cons, List.getLast?_eq_some_getLast hne, hlast, hline]
  rw [Token.read, after?_append]
  exact if_pos hboundary

/-! ## Passes -/

/-- A rewrite together with the pattern that it looks for. -/
structure Pass where
  pattern : Pattern
  rewrite : Rewrite
  isProper : pattern.isProper = true
  run_nil : rewrite.run [] = []
  carries_self : ∀ {block : Text}, pattern.AbsentIn block → Carries rewrite.run block block

namespace Element

/-- What an element looks for. -/
def pattern : Element → Pattern
  | .calls name _ => .call name
  | .regions name _ _ => .call name
  | .token word _ => .token word.tail
  | .literal word _ => .literal word.tail

/-- Whether an element looks for the marks of a directive: its words start with `@`, and behind that
its pattern is proper. -/
def isProper : Element → Bool
  | .calls name _ => (Pattern.call name).isProper
  | .regions name _ _ => (Pattern.call name).isProper
  | .token word _ => word.head? == some '@' && (Pattern.token word.tail).isProper
  | .literal word _ => word.head? == some '@' && (Pattern.literal word.tail).isProper

variable {element : Element}

/-- A proper element has a proper pattern. -/
theorem isProper_pattern (h : element.isProper = true) : element.pattern.isProper = true := by
  cases element with
  | calls name f => exact h
  | regions name close f => exact h
  | token word new => exact (Bool.and_eq_true_iff.1 h).2
  | literal word new => exact (Bool.and_eq_true_iff.1 h).2

/-- The bare word of a proper element starts with `@`. -/
theorem eq_cons_of_isProper_token {word new : Text} (h : (token word new).isProper = true) :
    word = '@' :: word.tail :=
  List.eq_cons_of_mem_head? (eq_of_beq (Bool.and_eq_true_iff.1 h).1)

/-- The closing word of a proper element starts with `@`. -/
theorem eq_cons_of_isProper_literal {word new : Text} (h : (literal word new).isProper = true) :
    word = '@' :: word.tail :=
  List.eq_cons_of_mem_head? (eq_of_beq (Bool.and_eq_true_iff.1 h).1)

/-- Where the pattern of an element does not stand, its rewrite leaves the text alone. -/
theorem carries_self (h : element.isProper = true) {block : Text}
    (hb : element.pattern.AbsentIn block) : Carries element.rewrite.run block block := by
  cases element with
  | calls name f => exact Rewrite.carries_of_along (Call.faithful_read name) hb
  | regions name close f =>
    exact Rewrite.carries_of_along (Region.faithful_read name close)
      fun rest => (hb rest).mono fun _ => Region.read_of_call
  | token word new =>
    have hword := eq_cons_of_isProper_token h
    rw [hword] at hb ⊢
    exact Rewrite.carries_of_along (Token.faithful_read (by simp)) hb
  | literal word new =>
    have hword := eq_cons_of_isProper_literal h
    rw [hword] at hb ⊢
    exact Rewrite.carries_of_along (faithful_after? (by simp))
      fun rest => (hb rest).mono fun _ ht => Option.map_eq_none_iff.2 ht

/-- A proper element makes nothing of the empty text. -/
theorem run_rewrite_nil (h : element.isProper = true) : element.rewrite.run [] = [] := by
  cases element with
  | calls name f => rfl
  | regions name close f => rfl
  | token word new => rw [eq_cons_of_isProper_token h]; rfl
  | literal word new => rw [eq_cons_of_isProper_literal h]; rfl

end Element

namespace Pass

/-- Does what an element does. -/
def ofElement (element : Element) (h : element.isProper = true) : Pass where
  pattern := element.pattern
  rewrite := element.rewrite
  isProper := Element.isProper_pattern h
  run_nil := Element.run_rewrite_nil h
  carries_self := Element.carries_self h

/-- Do what some elements do, one after another. -/
def ofElements (elements : List Element) (h : elements.all Element.isProper = true) : List Pass :=
  elements.pmap ofElement (List.all_eq_true.1 h)

/-- Removes comments. -/
def comments : Pass where
  pattern := .comment
  rewrite := Output.comments
  isProper := rfl
  run_nil := rfl
  carries_self hb := Rewrite.carries_of_along Output.faithful_readComment hb

/-- Rewrites the tags `{!! e !!}`. -/
def raw : Pass where
  pattern := .raw
  rewrite := Output.raw
  isProper := rfl
  run_nil := rfl
  carries_self hb := Rewrite.carries_of_along (Output.faithful_readTag _ _) hb

/-- Rewrites the tags `{{ e }}`. -/
def echo (safe : Bool) : Pass where
  pattern := .echo
  rewrite := Output.echo safe
  isProper := rfl
  run_nil := rfl
  carries_self hb := Rewrite.carries_of_along (Output.faithful_readTag _ _) hb

/-- Rewrites the calls that no directive claims. -/
def leftoverCalls : Pass where
  pattern := .leftover
  rewrite := Output.leftoverCalls
  isProper := rfl
  run_nil := rfl
  carries_self hb := Rewrite.carries_of_along Output.faithful_readLeftover hb

/-- Rewrites the closing words that no directive claims. -/
def leftoverEnds : Pass where
  pattern := .leftoverEnd
  rewrite := Output.leftoverEnds
  isProper := rfl
  run_nil := rfl
  carries_self hb := Rewrite.carries_of_along Output.faithful_readLeftoverEnd hb

/-- A pass leaves a mark alone that its pattern ignores. -/
theorem carries_of_ignores (p : Pass) {m : Mark} (hm : m.Sound) (hi : p.pattern.ignores m) :
    Carries p.rewrite.run m.source m.source :=
  p.carries_self (Pattern.absentIn_mark p.isProper hm hi)

/-- A pass leaves a quiet text alone. -/
theorem carries_quiet (p : Pass) {t : Text} (ht : Quiet t) : Carries p.rewrite.run t t :=
  p.carries_self (Pattern.absentIn_quiet p.isProper ht)

/-- One pass after another. -/
def runAll : List Pass → Text → Text
  | [], text => text
  | p :: passes, text => runAll passes (p.rewrite.run text)

/-- The passes for some elements do one after another what the rewrite with all of them does. -/
theorem run_ofElements {elements : List Element} (h : elements.all Element.isProper = true)
    (text : Text) :
    (Rewrite.ofElements elements).run text = runAll (ofElements elements h) text := by
  induction elements generalizing text with
  | nil => rfl
  | cons element rest ih =>
    rw [Rewrite.run_ofElements_cons, ih (Bool.and_eq_true_iff.1 h).2]
    rfl

theorem runAll_nil : ∀ passes : List Pass, runAll passes [] = []
  | [] => rfl
  | p :: passes => by rw [runAll, p.run_nil, runAll_nil passes]

/-- Some passes and then others are all of them in order. -/
theorem runAll_append (first second : List Pass) (text : Text) :
    runAll (first ++ second) text = runAll second (runAll first text) := by
  induction first generalizing text with
  | nil => rfl
  | cons p passes ih => exact ih _

theorem carries_runAll_append {first second : List Pass} {a b c : Text}
    (h : Carries (runAll first) a b) (h' : Carries (runAll second) b c) :
    Carries (runAll (first ++ second)) a c := by
  intro rest
  rw [runAll_append, runAll_append, h, h']

theorem carries_runAll_singleton {p : Pass} {a b : Text} (h : Carries p.rewrite.run a b) :
    Carries (runAll [p]) a b :=
  h

/-- What each of the passes leaves alone, all of them do. -/
theorem carries_runAll_self {passes : List Pass} {block : Text}
    (h : ∀ p ∈ passes, Carries p.rewrite.run block block) :
    Carries (runAll passes) block block := by
  induction passes with
  | nil => exact fun _ => rfl
  | cons p passes ih =>
    exact (h p (by simp)).comp (ih fun q hq => h q (List.mem_cons_of_mem _ hq))

/-- All passes leave a quiet text alone. -/
theorem carries_runAll_quiet (passes : List Pass) {t : Text} (ht : Quiet t) :
    Carries (runAll passes) t t :=
  carries_runAll_self fun p _ => p.carries_quiet ht

/-- All passes leave a mark alone that each of them ignores. -/
theorem carries_runAll_of_ignores {passes : List Pass} {m : Mark} (hm : m.Sound)
    (hi : passes.all (·.pattern.ignores m)) : Carries (runAll passes) m.source m.source :=
  carries_runAll_self fun p hp => p.carries_of_ignores hm (List.all_eq_true.1 hi p hp)

/-- A mark that the first `i` passes ignore and the next one turns into a quiet text. -/
theorem carries_runAll {passes : List Pass} {m : Mark} (hm : m.Sound) {t : Text} (ht : Quiet t)
    (i : Nat) {p : Pass} (hget : passes[i]? = some p)
    (hi : (passes.take i).all (·.pattern.ignores m)) (hp : Carries p.rewrite.run m.source t) :
    Carries (runAll passes) m.source t := by
  have hsplit : passes = passes.take i ++ p :: passes.drop (i + 1) := by
    obtain ⟨hlt, rfl⟩ := List.getElem?_eq_some_iff.1 hget
    rw [List.getElem_cons_drop, List.take_append_drop]
  have hrun : runAll passes = fun text =>
      runAll (passes.drop (i + 1)) (p.rewrite.run (runAll (passes.take i) text)) := by
    funext text
    conv_lhs => rw [hsplit, runAll_append]
    rfl
  rw [hrun]
  exact ((carries_runAll_of_ignores hm hi).comp hp).comp (carries_runAll_quiet _ ht)

/-! ## A pass at its own mark -/

variable {name args : Text}

/-- A pass for calls replaces the call it is for. -/
theorem carries_call {f : Call → Option Text} {new : Text} (hargs : Balanced args)
    (hf : f ⟨name, false, args⟩ = some new) :
    Carries (Element.calls name f).rewrite.run (Mark.call name args).source new :=
  Rewrite.carries_of_read (Call.faithful_read name) (by simp [Mark.source_call])
    (Call.read_source name hargs) hf

/-- A pass for calls leaves a call alone for which it has no answer. -/
theorem carries_call_self {f : Call → Option Text} (hargs : Balanced args)
    (hf : f ⟨name, false, args⟩ = none) :
    Carries (Element.calls name f).rewrite.run (Mark.call name args).source
      (Mark.call name args).source :=
  Rewrite.carries_of_read_none (Call.faithful_read name) (by simp [Mark.source_call])
    (Call.read_source name hargs) hf

/-- A pass for a bare word replaces it at the end of its line. -/
theorem carries_line (word replacement : Text) (h : (Pattern.token word).isProper = true) :
    Carries (Element.token ('@' :: word) replacement).rewrite.run (Mark.line word).source
      (replacement ++ "\n") := by
  have hword : ∀ rest, Text.pieces (Token.read ('@' :: word)) (('@' :: word) ++ ("\n" ++ rest))
      = ⟨'@' :: word, some ()⟩ :: Text.pieces (Token.read ('@' :: word)) ("\n" ++ rest) :=
    fun rest => pieces_append_of_read (Token.read_line h rest) (by simp)
  have hline : Splits (Token.read ('@' :: word)) "\n" (Piece.letters "\n") :=
    splits_of_along fun _ => ⟨Token.read_of_after? rfl, trivial⟩
  have hsplit : Splits (Token.read ('@' :: word)) (Mark.line word).source
      (⟨'@' :: word, some ()⟩ :: Piece.letters "\n") := by
    intro rest
    rw [Mark.source, ← List.cons_append, List.append_assoc, hword, hline]
    rfl
  exact Rewrite.carries_of_splits (Token.faithful_read (by simp)) hsplit

/-- A pass for a closing word replaces it. -/
theorem carries_close (word replacement : Text) :
    Carries (Element.literal ('@' :: word) replacement).rewrite.run (Mark.close word).source
      replacement :=
  Rewrite.carries_of_read (a := ()) (faithful_after? (by simp)) (by simp [Mark.source])
    (fun rest => by rw [Mark.source, after?_append]; rfl) rfl

/-- The pass for raw tags shows their expression. -/
theorem carries_raw {e : Text} (he : Output.Enclosed "!!\x7d" e) :
    Carries raw.rewrite.run (Mark.raw e).source
      (Php.tag ("echo " ++ Output.coalesce e.trim ++ ";")) := by
  refine Rewrite.carries_of_read (Output.faithful_readTag _ _) (by simp [Mark.source])
    (fun rest => ?_) rfl
  have := Output.readTag_append "\x7b!!" (by decide) (by decide) he rest
  simpa [Mark.source] using this

/-- The pass for echo tags shows their expression, escaped or not. -/
theorem carries_echo (safe : Bool) {e : Text} (he : Output.Enclosed "\x7d\x7d" e) :
    Carries (echo safe).rewrite.run (Mark.echo e).source
      (Php.tag (if safe
        then "echo htmlspecialchars(" ++ Output.coalesce (e.trim ++ " or \"\"")
          ++ ", ENT_QUOTES, 'UTF-8', false);"
        else "echo " ++ Output.coalesce (e.trim ++ " or \"\"") ++ ";")) := by
  refine Rewrite.carries_of_read (Output.faithful_readTag _ _) (by simp [Mark.source])
    (fun rest => ?_) rfl
  have := Output.readTag_append "\x7b\x7b" (by decide) (by decide) he rest
  simpa [Mark.source] using this

end Pass

end Pagewright
