import Pagewright.Proofs.Template.Arguments

/-!
# Literals and how they are quoted anew

Inside a literal a backslash takes the next character with it, so the inside is made of characters
that stand bare and of pairs (`Text.Paired`). Whatever a scan looks for, in a literal it first gets
to the end of such an inside (`Text.Reads`). `Text.unquote?_eq_some_iff` says that an argument is
one literal just when it is such an inside between two quotes of one kind.

A PHP literal is quoted anew in double quotes. Whatever the inside was, the new one has every double
quote and every dollar sign in a pair (`Php.paired_requoted`), so that nothing in it ends the
literal or starts a variable. Quoting it once more changes nothing (`Php.requoted_requoted`).
-/

namespace Pagewright

namespace Text

/-- A text of characters that may stand bare, and of pairs of a backslash and any character. -/
inductive Paired (bare : Char → Prop) : Text → Prop
  | nil : Paired bare []
  | bare {c : Char} {rest : Text} (hc : bare c) (hslash : c ≠ '\\') (h : Paired bare rest) :
      Paired bare (c :: rest)
  | pair {c : Char} {rest : Text} (h : Paired bare rest) : Paired bare ('\\' :: c :: rest)

/-- It may be said of more characters that they stand alone. -/
theorem Paired.mono {bare bare' : Char → Prop} (hbare : ∀ c, bare c → bare' c) {text : Text}
    (h : Paired bare text) : Paired bare' text := by
  induction h with
  | nil => exact .nil
  | bare hc hslash _ ih => exact .bare (hbare _ hc) hslash ih
  | pair _ ih => exact .pair ih

/-- A character that may not stand bare is the second one of a pair. -/
theorem Paired.exists_backslash {bare : Char → Prop} {text : Text} (h : Paired bare text)
    {front back : Text} {c : Char} (hc : ¬bare c) (hslash : c ≠ '\\')
    (htext : text = front ++ c :: back) :
    ∃ before, front = before ++ ['\\'] ∧ Paired bare before := by
  induction h generalizing front with
  | nil => simp at htext
  | bare hd hslash' _ ih =>
    rcases List.cons_eq_append_iff.1 htext with ⟨-, heq⟩ | ⟨front, rfl, hrest⟩
    · obtain ⟨rfl, -⟩ := List.cons.inj heq
      exact absurd hd hc
    · obtain ⟨before, rfl, hbefore⟩ := ih hrest
      exact ⟨_ :: before, rfl, .bare hd hslash' hbefore⟩
  | pair _ ih =>
    rcases List.cons_eq_append_iff.1 htext with ⟨-, heq⟩ | ⟨front, rfl, hrest⟩
    · exact absurd (List.cons.inj heq).1 hslash
    · rcases List.cons_eq_append_iff.1 hrest with ⟨rfl, -⟩ | ⟨front, rfl, htail⟩
      · exact ⟨[], rfl, .nil⟩
      · obtain ⟨before, rfl, hbefore⟩ := ih htail
        exact ⟨'\\' :: _ :: before, rfl, .pair hbefore⟩

/-! ## Reading a literal -/

theorem isQuote_iff {c : Char} : isQuote c = true ↔ c = '\'' ∨ c = '"' := by
  simp [isQuote]

theorem ne_backslash_of_isQuote {c : Char} (h : isQuote c = true) : c ≠ '\\' := by
  rintro rfl
  cases h

/-- A quote opens a literal. -/
theorem next_code_of_isQuote {c : Char} (h : isQuote c = true) :
    Quoting.next .code c = .literal c :=
  if_pos h

theorem next_code_of_not_isQuote {c : Char} (h : isQuote c = false) :
    Quoting.next .code c = .code :=
  if_neg (by simp [h])

/-- A character that stands alone keeps a literal open. -/
theorem next_literal_of_bare {mark c : Char} (hslash : c ≠ '\\') (hmark : c ≠ mark) :
    (Quoting.literal mark).next c = .literal mark := by
  rw [Quoting.next, if_neg hslash, if_neg hmark]

/-- A backslash in a literal makes a pair with the next character. -/
theorem next_literal_backslash (mark : Char) :
    (Quoting.literal mark).next '\\' = .escape mark :=
  rfl

/-- The quote that has opened a literal closes it. -/
theorem next_literal_mark {mark : Char} (h : mark ≠ '\\') :
    (Quoting.literal mark).next mark = .code := by
  rw [Quoting.next, if_neg h, if_pos rfl]

/-- The literal that a state stands in is between quotes. -/
def IsMarked : Quoting → Prop
  | .code => True
  | .literal mark => isQuote mark = true
  | .escape mark => isQuote mark = true

theorem isMarked_code : IsMarked .code :=
  trivial

/-- Literals are opened by quotes only. -/
theorem IsMarked.next {state : Quoting} (h : IsMarked state) (c : Char) :
    IsMarked (state.next c) := by
  cases state with
  | code =>
    by_cases hc : isQuote c = true
    · rwa [next_code_of_isQuote hc]
    · rw [next_code_of_not_isQuote (by simpa using hc)]
      trivial
  | literal mark =>
    rcases next_inside (.inl rfl) c with ⟨hnext, -⟩ | hnext | hnext <;> rw [hnext]
    · trivial
    · exact h
    · exact h
  | escape mark => exact h

/-- The state behind characters that mean nothing to a scan. -/
def settled : Quoting → Quoting
  | .escape mark => .literal mark
  | state => state

theorem settled_settled (state : Quoting) : settled (settled state) = settled state := by
  cases state <;> rfl

theorem IsMarked.settled {state : Quoting} (h : IsMarked state) : IsMarked (settled state) := by
  cases state <;> exact h

/-- A character that is no quote and no backslash settles a pair and changes nothing else. -/
theorem next_of_plain {state : Quoting} (hstate : IsMarked state) {c : Char}
    (hquote : isQuote c = false) (hslash : c ≠ '\\') : state.next c = settled state := by
  cases state with
  | code => exact next_code_of_not_isQuote hquote
  | literal mark =>
    refine next_literal_of_bare hslash ?_
    rintro rfl
    cases hstate.symm.trans hquote
  | escape mark => rfl

/-- A literal ends at a quote. -/
theorem isQuote_of_next_code {state : Quoting} (hstate : IsMarked state) (hcode : state ≠ .code)
    {c : Char} (h : state.next c = .code) : isQuote c = true := by
  cases state with
  | code => exact absurd rfl hcode
  | literal mark =>
    by_contra hquote
    cases (next_of_plain hstate (by simpa using hquote) (by rintro rfl; cases h)).symm.trans h
  | escape mark => cases h

/-- A literal of pairs and single characters is read up to its quote. -/
theorem literalFrom?_append {mark : Char} (hmark : mark ≠ '\\') {inner : Text}
    (h : Paired (· ≠ mark) inner) :
    literalFrom? (.literal mark) (inner ++ [mark]) = some inner := by
  induction h with
  | nil =>
    rw [List.nil_append, literalFrom?, next_literal_mark hmark]
    rfl
  | bare hc hslash _ ih =>
    rw [List.cons_append, literalFrom?, next_literal_of_bare hslash hc]
    simp only [ih, Option.map_some]
  | @pair c rest _ ih =>
    have hsecond : literalFrom? (.escape mark) (c :: (rest ++ [mark])) = some (c :: rest) := by
      rw [literalFrom?, Quoting.next]
      simp only [ih, Option.map_some]
    rw [List.cons_append, List.cons_append, literalFrom?, next_literal_backslash]
    simp only [hsecond, Option.map_some]

/-- What a scan has in front of it in a given state: in a literal the rest of its inside and the
mark that ends it, and outside of literals what `code` says. Behind a backslash the scan has passed
the first half of a pair. -/
def Reads (code : Text → Prop) : Quoting → Text → Prop
  | .code, text => code text
  | .literal mark, text =>
    ∃ inner rest, Paired (· ≠ mark) inner ∧ code rest ∧ text = inner ++ mark :: rest
  | .escape mark, text =>
    ∃ inner rest, Paired (· ≠ mark) ('\\' :: inner) ∧ code rest ∧ text = inner ++ mark :: rest

/-- What a scan reads in a literal from a character on, from what it reads behind it. -/
theorem Reads.cons {code : Text → Prop} {state : Quoting} (hstate : state ≠ .code) {c : Char}
    {text : Text} (h : Reads code (state.next c) text) : Reads code state (c :: text) := by
  cases state with
  | code => exact absurd rfl hstate
  | literal mark =>
    by_cases hslash : c = '\\'
    · subst hslash
      obtain ⟨inner, rest, hinner, hrest, rfl⟩ := h
      exact ⟨'\\' :: inner, rest, hinner, hrest, rfl⟩
    · by_cases hmark : c = mark
      · subst hmark
        rw [next_literal_mark hslash] at h
        exact ⟨[], text, .nil, h, rfl⟩
      · rw [next_literal_of_bare hslash hmark] at h
        obtain ⟨inner, rest, hinner, hrest, rfl⟩ := h
        exact ⟨c :: inner, rest, .bare hmark hslash hinner, hrest, rfl⟩
  | escape mark =>
    obtain ⟨inner, rest, hinner, hrest, rfl⟩ := h
    exact ⟨c :: inner, rest, .pair hinner, hrest, rfl⟩

/-- What is read as a literal follows the grammar. -/
theorem reads_of_literalFrom? {state : Quoting} (hstate : state ≠ .code) {text inner : Text}
    (h : literalFrom? state text = some inner) : Reads (· = []) state text := by
  induction text generalizing state inner with
  | nil => cases h
  | cons c text ih =>
    rw [literalFrom?] at h
    refine .cons hstate ?_
    cases hnext : state.next c with
    | code =>
      simp only [hnext] at h
      split at h
      case isTrue hnil => exact hnil
      case isFalse => cases h
    | literal mark =>
      simp only [hnext] at h
      obtain ⟨tail, htail, -⟩ := Option.map_eq_some_iff.1 h
      exact ih (by simp) htail
    | escape mark =>
      simp only [hnext] at h
      obtain ⟨tail, htail, -⟩ := Option.map_eq_some_iff.1 h
      exact ih (by simp) htail

/-- An argument is one literal when it is an inside between two quotes of one kind. -/
theorem unquote?_eq_some_iff {argument inner : Text} :
    argument.unquote? = some inner ↔ ∃ mark, isQuote mark = true ∧
      argument.trim = mark :: (inner ++ [mark]) ∧ Paired (· ≠ mark) inner := by
  constructor
  · intro h
    rw [unquote?] at h
    split at h
    case h_1 => cases h
    case h_2 mark rest htrim =>
      split at h
      case isFalse => cases h
      case isTrue hmark =>
        obtain ⟨hrest, -⟩ := crosses_of_literalFrom? (.inl rfl) h
        obtain ⟨inner', _, hinner, rfl, hrest'⟩ := reads_of_literalFrom? (by simp) h
        obtain rfl := (List.append_inj' (hrest.symm.trans hrest') rfl).1
        exact ⟨mark, hmark, htrim.trans (congrArg _ hrest), hinner⟩
  · rintro ⟨mark, hmark, htrim, hinner⟩
    rw [unquote?, htrim]
    dsimp only
    rw [if_pos hmark]
    exact literalFrom?_append (ne_backslash_of_isQuote hmark) hinner

/-- Blanks around a literal do not count. -/
theorem unquote?_trim (argument : Text) : argument.trim.unquote? = argument.unquote? := by
  rw [unquote?, trim_trim, unquote?]

end Text

/-! ## Quoting anew -/

namespace Php

open Text

/-- Requoting takes a character for itself where it starts no pair. -/
theorem ne_backslash_of_no_pair {c : Char} {rest : Text} (hlast : c = '\\' → rest = [] → False)
    (hpair : ∀ d tail, c = '\\' → rest = d :: tail → False) : c ≠ '\\' := by
  intro hc
  cases rest with
  | nil => exact hlast hc rfl
  | cons d tail => exact hpair d tail hc rfl

/-- Every double quote and every dollar sign of a requoted text stands in a pair. -/
theorem paired_requoted (text : Text) : Paired (fun c => c ≠ '"' ∧ c ≠ '$') (requoted text) := by
  fun_induction requoted text with
  | case1 => exact .nil
  | case2 => exact .pair .nil
  | case3 rest ih => exact .bare (by decide) (by decide) ih
  | case4 c rest hc ih => exact .pair ih
  | case5 c rest _ _ hc ih => exact .pair ih
  | case6 c rest hlast hpair hc ih =>
    exact .bare (not_or.1 hc) (ne_backslash_of_no_pair hlast hpair) ih

/-- Requoting keeps the pairs that it has made. -/
theorem requoted_requoted (text : Text) : requoted (requoted text) = requoted text := by
  fun_induction requoted text with
  | case1 => rfl
  | case2 => rfl
  | case3 rest ih => rw [requoted_cons (by decide), if_neg (by decide), ih]
  | case4 c rest hc ih => rw [requoted_escape, if_neg hc, ih]
  | case5 c rest _ _ hc ih =>
    rw [requoted_escape, if_neg (by rcases hc with rfl | rfl <;> decide), ih]
  | case6 c rest hlast hpair hc ih =>
    rw [requoted_cons (ne_backslash_of_no_pair hlast hpair), if_neg hc, ih]

/-- A requoted literal is one literal: nothing inside ends it. -/
theorem unquote?_stringLiteral (inner : Text) :
    (stringLiteral inner).unquote? = some (requoted inner) := by
  have htrim : (stringLiteral inner).trim = '"' :: (requoted inner ++ ['"']) :=
    trim_eq_self (by rintro c ⟨⟩; decide) (by simp [stringLiteral, List.getLast?_cons]; decide)
  exact unquote?_eq_some_iff.2
    ⟨'"', rfl, htrim, (paired_requoted inner).mono fun c hc => hc.1⟩

/-- The code for a literal is the literal quoted anew. -/
theorem value_of_unquote? {argument inner : Text} (h : argument.unquote? = some inner) :
    value argument = stringLiteral inner := by
  rw [value, h]

/-- The code for any other argument is the argument, trimmed. -/
theorem value_of_expression {argument : Text} (h : argument.unquote? = none) :
    value argument = argument.trim := by
  rw [value, h]

/-- Quoting anew twice is quoting anew once. -/
theorem value_value (argument : Text) : value (value argument) = value argument := by
  cases h : argument.unquote? with
  | none =>
    have htrim : argument.trim.unquote? = none := (unquote?_trim argument).trans h
    rw [value_of_expression h, value_of_expression htrim, trim_trim]
  | some inner =>
    rw [value_of_unquote? h, value_of_unquote? (unquote?_stringLiteral inner), stringLiteral,
      requoted_requoted, stringLiteral]

/-- Quoting a value anew is stable and safe. A second time it changes nothing. An argument is taken
for a literal just when it is one. What comes of a literal is a single literal again, in which every
double quote and every dollar sign is the second character of a pair. -/
theorem value_stable_safe :
    (∀ argument, value (value argument) = value argument) ∧
      (∀ argument inner : Text, argument.unquote? = some inner ↔ ∃ mark, isQuote mark = true ∧
        argument.trim = mark :: (inner ++ [mark]) ∧ Paired (· ≠ mark) inner) ∧
      ∀ inner, ∃ inside, stringLiteral inner = '"' :: (inside ++ ['"']) ∧
        (stringLiteral inner).unquote? = some inside ∧
        ∀ front c back, inside = front ++ c :: back → c = '"' ∨ c = '$' →
          ∃ before, front = before ++ ['\\'] ∧ Paired (· ≠ '"') before := by
  refine ⟨value_value, fun _ _ => unquote?_eq_some_iff, fun inner =>
    ⟨requoted inner, rfl, unquote?_stringLiteral inner, fun front c back hinside hc => ?_⟩⟩
  have hbare : ¬(c ≠ '"' ∧ c ≠ '$') := fun h => hc.elim h.1 h.2
  have hslash : c ≠ '\\' := by rcases hc with rfl | rfl <;> decide
  obtain ⟨before, hfront, hbefore⟩ := (paired_requoted inner).exists_backslash hbare hslash hinside
  exact ⟨before, hfront, hbefore.mono fun c hc => hc.1⟩

/-- The quote that the literal holds behind a backslash needs none between double quotes. -/
example : value " 'it\\'s $5' " = "\"it's \\$5\"" := by decide

end Php

end Pagewright
