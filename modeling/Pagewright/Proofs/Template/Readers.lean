import Mathlib.Data.List.TakeWhile
import Pagewright.Proofs.Template.DirectiveFree

/-!
# What the rules look for

Every rule has a reader that says whether its directive stands at the head of a text. Each reader is
faithful, so the pieces that it finds make up the text (`Region.faithful_read`,
`Token.faithful_read`, `Output.faithful_readTag` and the like), and each answers `none` where the
text is silent at its head (`Call.read_of_silent`, `Text.after?_of_silent`,
`Output.readLeftoverEnd_of_silent` and the like). The last part says when the reader of one word
answers `none` at another word: the word of a directive is a whole word, so `@for` is never found
in `@foreach`.
-/

namespace Pagewright

open Text

/-! ## Readers are faithful -/

/-- The reader of a word gives back what it has read. -/
theorem Text.faithful_after? {word : Text} (hw : word ≠ []) :
    Faithful fun t : Text => (t.after? word).map fun _ => (⟨word, some ()⟩ : Piece Unit) := by
  intro text piece h
  obtain ⟨rest, hr, rfl⟩ := Option.map_eq_some_iff.1 h
  exact ⟨hw, rest, (after?_eq_some_iff.1 hr).symm⟩

/-- The reader of a bare word gives back what it has read. -/
theorem Token.faithful_read {word : Text} (hw : word ≠ []) : Faithful (Token.read word) := by
  intro text piece h
  unfold Token.read at h
  split at h
  case h_1 rest hr =>
    split at h
    · obtain rfl := Option.some.inj h
      exact ⟨hw, rest, (after?_eq_some_iff.1 hr).symm⟩
    · simp at h
  case h_2 => simp at h

/-- What is read as a call is spelled as the call. -/
theorem Call.source_of_read {name text source : Text} {call : Call}
    (h : Call.read name text = some ⟨source, some call⟩) : source = call.source := by
  unfold Call.read at h
  split at h
  · simp at h
  · split at h
    · simp only [Option.some.injEq, Piece.mk.injEq] at h
      rw [← h.1, ← h.2]
    · simp at h

/-- The reader of regions gives back what it has read. -/
theorem Region.faithful_read (name close : Text) : Faithful (Region.read name close) := by
  intro text piece h
  unfold Region.read at h
  split at h
  · simp at h
  case h_2 source hcall =>
    obtain rfl := Option.some.inj h
    exact Call.faithful_read name _ _ hcall
  case h_3 source call hcall =>
    obtain ⟨hne, tail, htext⟩ := Call.faithful_read name _ _ hcall
    obtain rfl := Call.source_of_read hcall
    split at h
    case h_1 body rest hcut =>
      obtain rfl := Option.some.inj h
      refine ⟨by simp [Region.source, Call.source, Call.opening], rest, ?_⟩
      have htail : tail = body ++ close ++ rest := by
        have := eq_append_of_cut? hcut
        rwa [← htext, List.drop_left] at this
      rw [← htext, htail, Region.source]
      simp
    case h_2 =>
      obtain rfl := Option.some.inj h
      refine ⟨?_, List.prefix_refl _⟩
      rintro rfl
      exact hne (List.append_eq_nil_iff.1 htext).1

namespace Output

theorem expressionEnd?_cons (close : Text) (c : Char) (rest : Text) :
    expressionEnd? close (c :: rest) =
      match after? (trimStart (c :: rest)) close with
      | some _ => some ([], List.takeWhile isBlank (c :: rest))
      | none =>
        if c = '\n' then none
        else (expressionEnd? close rest).map fun (e, blanks) => (c :: e, blanks) :=
  (expressionEnd?.eq_def close (c :: rest)).trans rfl

/-- An expression, the blanks behind it and the closing mark stand at the head of the text. -/
theorem eq_append_of_expressionEnd? {close text e blanks : Text}
    (h : expressionEnd? close text = some (e, blanks)) :
    ∃ rest, text = e ++ blanks ++ close ++ rest := by
  induction text generalizing e with
  | nil => cases h
  | cons c text ih =>
    rw [expressionEnd?_cons] at h
    split at h
    case h_1 rest hr =>
      obtain ⟨rfl, rfl⟩ := Prod.mk.inj (Option.some.inj h)
      refine ⟨rest, ?_⟩
      rw [List.nil_append, List.append_assoc, ← after?_eq_some_iff.1 hr]
      exact List.takeWhile_append_dropWhile.symm
    case h_2 =>
      split at h
      · simp at h
      · obtain ⟨⟨e', blanks'⟩, he, hpair⟩ := Option.map_eq_some_iff.1 h
        obtain ⟨rfl, rfl⟩ := Prod.mk.inj hpair
        obtain ⟨rest, rfl⟩ := ih he
        exact ⟨rest, by simp⟩

/-- The reader of output tags gives back what it has read. -/
theorem faithful_readTag (opening close : Text) : Faithful (readTag opening close) := by
  intro text piece h
  obtain ⟨rest, hrest, h⟩ := Option.bind_eq_some_iff.1 h
  have hsplit : rest.takeWhile isBlank ++ rest.dropWhile isBlank = rest :=
    List.takeWhile_append_dropWhile
  simp only at h
  split at h
  · simp at h
  case h_2 c tail hdrop =>
    obtain ⟨⟨e, blanks⟩, he, h⟩ := Option.bind_eq_some_iff.1 h
    obtain rfl := Option.some.inj h
    obtain ⟨behind, htail⟩ := eq_append_of_expressionEnd? he
    refine ⟨by simp, behind, ?_⟩
    have hrest' : rest = rest.takeWhile isBlank ++ c :: (e ++ blanks ++ close ++ behind) := by
      rw [← htail, ← hdrop, hsplit]
    rw [after?_eq_some_iff.1 hrest]
    conv_rhs => rw [hrest']
    simp

theorem faithful_readComment : Faithful readComment := by
  intro text piece h
  obtain ⟨rest, hrest, h⟩ := Option.bind_eq_some_iff.1 h
  obtain ⟨⟨body, behind⟩, hbody, h⟩ := Option.bind_eq_some_iff.1 h
  obtain rfl := Option.some.inj h
  refine ⟨by simp, behind, ?_⟩
  rw [after?_eq_some_iff.1 hrest, eq_append_of_cut? hbody]
  simp

theorem faithful_readLeftover : Faithful readLeftover := by
  intro text piece h
  unfold readLeftover at h
  split at h
  case h_2 => simp at h
  case h_1 rest =>
    have hsplit : rest.takeWhile isNameChar ++ rest.dropWhile isNameChar = rest :=
      List.takeWhile_append_dropWhile
    simp only at h
    split at h
    · simp at h
    split at h
    · simp at h
    case h_2 spaced tail hp =>
      have hword := Call.eq_append_of_parenthesis? hp
      have hopening : Call.opening (rest.takeWhile isNameChar) spaced <+: '@' :: rest := by
        refine ⟨tail, ?_⟩
        rw [Call.opening]
        conv_rhs => rw [← hsplit, hword]
        simp
      split at h
      · obtain rfl := Option.some.inj h
        exact ⟨by simp [Call.opening], hopening⟩
      split at h
      · obtain rfl := Option.some.inj h
        exact ⟨by simp [Call.opening], hopening⟩
      case h_2 args behind hclose =>
        split at h
        · obtain rfl := Option.some.inj h
          exact ⟨by simp [Call.opening], hopening⟩
        · obtain rfl := Option.some.inj h
          refine ⟨by simp [Call.source, Call.opening], behind, ?_⟩
          rw [Call.source, Call.opening]
          conv_rhs => rw [← hsplit, hword, eq_append_of_closing? hclose]
          simp

theorem faithful_readLeftoverEnd : Faithful readLeftoverEnd := by
  intro text piece h
  obtain ⟨rest, hrest, h⟩ := Option.bind_eq_some_iff.1 h
  simp only at h
  split at h
  · simp at h
  · obtain rfl := Option.some.inj h
    refine ⟨by simp, rest.dropWhile isNameChar, ?_⟩
    rw [after?_eq_some_iff.1 hrest]
    simp

end Output

/-! ## Silent heads -/

/-- A word with a parenthesis behind it opens a directive. -/
theorem Text.opensDirective_append_of_letters {name tail : Text}
    (hname : ∀ c ∈ name, isWordLetter c) (htail : (Call.parenthesis? tail).isSome) :
    opensDirective (name ++ tail) = true := by
  rw [opensDirective_iff, List.dropWhile_append_of_pos hname]
  obtain ⟨rest, rfl | rfl⟩ := parenthesis?_isSome_iff.1 htail
  · exact Or.inr rfl
  · exact Or.inr rfl

/-- A word that counts on its own opens a directive. -/
theorem Text.opensDirective_of_start {start : Text} (hs : start ∈ bareStarts) (rest : Text) :
    opensDirective (start ++ rest) = true := by
  have hletters : ∀ start ∈ bareStarts, start.all isWordLetter := by decide
  rw [opensDirective_iff, List.takeWhile_append_of_pos (List.all_eq_true.1 (hletters start hs))]
  exact Or.inl ⟨start, hs, List.prefix_append _ _⟩

/-- A word that counts without arguments does not stand at a silent head. -/
theorem Text.after?_of_silent {word text : Text} (hw : ∃ start ∈ bareStarts, start <+: word)
    (h : Silent text) : after? text ('@' :: word) = none := by
  rw [Option.eq_none_iff_forall_ne_some]
  intro rest hr
  obtain ⟨start, hs, tail, rfl⟩ := hw
  rw [after?_eq_some_iff.1 hr, List.cons_append, silent_at, List.append_assoc] at h
  exact Bool.false_ne_true (h.symm.trans (opensDirective_of_start hs _))

/-- No call is read at a silent head. -/
theorem Call.read_of_silent {name text : Text} (hname : ∀ c ∈ name, isWordLetter c)
    (h : Silent text) : Call.read name text = none := by
  have hnone : (text.after? ('@' :: name)).bind parenthesis? = none := by
    rw [Option.eq_none_iff_forall_ne_some]
    intro pair hp
    obtain ⟨tail, ht, hp⟩ := Option.bind_eq_some_iff.1 hp
    rw [after?_eq_some_iff.1 ht, List.cons_append, silent_at] at h
    exact Bool.false_ne_true
      (h.symm.trans (opensDirective_append_of_letters hname (by simp [hp])))
  simp [Call.read, hnone]

theorem Region.read_of_call {name close text : Text} (h : Call.read name text = none) :
    Region.read name close text = none := by
  simp [Region.read, h]

theorem Token.read_of_after? {word text : Text} (h : after? text word = none) :
    Token.read word text = none := by
  simp [Token.read, h]

namespace Output

/-- No output tag opens at a silent head. -/
theorem after?_brace_of_silent {opening text : Text} (ho : opensTag opening = true)
    (h : Silent text) : after? text ('\x7b' :: opening) = none := by
  rw [Option.eq_none_iff_forall_ne_some]
  intro rest hr
  rw [after?_eq_some_iff.1 hr, List.cons_append, silent_brace] at h
  exact Bool.false_ne_true (h.symm.trans (opensTag_append rest ho))

theorem readTag_of_after? {opening close text : Text} (h : after? text opening = none) :
    readTag opening close text = none := by
  simp [readTag, h]

theorem readComment_of_after? {text : Text} (h : after? text "\x7b\x7b--" = none) :
    readComment text = none := by
  rw [readComment, h]
  rfl

theorem isWordLetter_of_isNameChar {c : Char} (h : isNameChar c) : isWordLetter c := by
  simp only [isNameChar, isWordLetter, Char.isAlphanum, Bool.or_eq_true] at h ⊢
  rcases h with h | h
  · exact Or.inl (Or.inl h)
  · exact Or.inr h

/-- No leftover call is read at a silent head. -/
theorem readLeftover_of_silent {text : Text} (h : Silent text) : readLeftover text = none := by
  unfold readLeftover
  split
  case h_2 => rfl
  case h_1 rest =>
    have hname : ∀ c ∈ rest.takeWhile isNameChar, isWordLetter c :=
      fun c hc => isWordLetter_of_isNameChar (List.mem_takeWhile_imp hc)
    have hp : Call.parenthesis? (rest.dropWhile isNameChar) = none := by
      by_contra hne
      have hopen := opensDirective_append_of_letters hname
        (Option.isSome_iff_ne_none.2 hne)
      rw [List.takeWhile_append_dropWhile] at hopen
      exact Bool.false_ne_true (h.symm.trans hopen)
    simp [hp]

/-- No leftover closing word is read at a silent head. -/
theorem readLeftoverEnd_of_silent {text : Text} (h : Silent text) :
    readLeftoverEnd text = none := by
  have hword : ∃ start ∈ bareStarts, start <+: ("end" : Text) :=
    ⟨"end", by decide, List.prefix_refl _⟩
  have hend : after? text "@end" = none := after?_of_silent hword h
  rw [readLeftoverEnd, hend]
  rfl

end Output

/-! ## One word at another -/

namespace Text

theorem isWordChar_of_isWordLetter {c : Char} (h : isWordLetter c) : isWordChar c := by
  have hbelow : ∀ {high : UInt32}, c.val ≤ high → high.toNat < 128 → c.toNat < 128 :=
    fun h hhigh => Nat.lt_of_le_of_lt (UInt32.le_iff_toNat_le.1 h) hhigh
  have hascii : c.toNat < 128 := by
    rcases Bool.or_eq_true_iff.1 h with h | h
    · rcases Bool.or_eq_true_iff.1 h with h | hdigit
      · rcases Bool.or_eq_true_iff.1 h with hupper | hlower
        · exact hbelow (of_decide_eq_true hupper).2 (by decide)
        · exact hbelow (of_decide_eq_true (Bool.and_eq_true_iff.1 hlower).2) (by decide)
      · exact hbelow (of_decide_eq_true (Bool.and_eq_true_iff.1 hdigit).2) (by decide)
    · rw [of_decide_eq_true h]
      decide
  rw [isWordChar, if_pos hascii]
  simpa [isWordLetter] using h

/-- Whatever word is found at the head of `word ++ tail` is a start of `word`. -/
def Bounds (word tail name : Text) : Prop :=
  ∀ rest, after? (word ++ tail) name = some rest →
    ∃ more, word = name ++ more ∧ rest = more ++ tail

variable {word tail name : Text}

/-- A word that no letter follows bounds every word of letters. -/
theorem bounds_of_head (hname : ∀ c ∈ name, isWordLetter c)
    (htail : ∀ c ∈ tail.head?, isWordLetter c = false) : Bounds word tail name := by
  intro rest h
  rcases List.append_eq_append_iff.1 (after?_eq_some_iff.1 h) with ⟨x, rfl, hx⟩ | ⟨x, rfl, hx⟩
  · cases x with
    | nil => exact ⟨[], by simp, by simpa using hx.symm⟩
    | cons c x =>
      have hc := htail c (by simp [hx])
      rw [hname c (by simp)] at hc
      exact absurd hc (by decide)
  · exact ⟨x, rfl, hx⟩

theorem bounds_of_not_isPrefix (h : ¬word <+: name) : Bounds word tail name := by
  intro rest hr
  rcases List.append_eq_append_iff.1 (after?_eq_some_iff.1 hr) with ⟨x, rfl, -⟩ | ⟨x, rfl, hx⟩
  · exact absurd (List.prefix_append _ _) h
  · exact ⟨x, rfl, hx⟩

/-- At one word another one is not read, unless it is the start of the first. -/
theorem after?_at_word (hb : Bounds word tail name) (h : ¬name <+: word) :
    after? ('@' :: (word ++ tail)) ('@' :: name) = none := by
  rw [Option.eq_none_iff_forall_ne_some]
  intro rest hr
  obtain ⟨more, rfl, -⟩ := hb rest (by simpa [after?] using hr)
  exact h (List.prefix_append _ _)

end Text

/-- At a word no call is read but one of the word itself, with its parenthesis behind it. -/
theorem Call.read_at_word {word tail name : Text} (hword : ∀ c ∈ word, isWordLetter c)
    (hb : Bounds word tail name) (h : word = name → parenthesis? tail = none) :
    Call.read name ('@' :: (word ++ tail)) = none := by
  have hnone : (after? ('@' :: (word ++ tail)) ('@' :: name)).bind parenthesis? = none := by
    rw [Option.eq_none_iff_forall_ne_some]
    intro pair hp
    obtain ⟨rest, hr, hp⟩ := Option.bind_eq_some_iff.1 hp
    obtain ⟨more, rfl, rfl⟩ := hb rest (by simpa [after?] using hr)
    cases more with
    | nil => simp [h (by simp)] at hp
    | cons c more =>
      -- The character behind `name` is one more letter of the word.
      have hc := hword c (by simp)
      obtain ⟨rest, hrest | hrest⟩ := parenthesis?_isSome_iff.1 (Option.isSome_of_mem hp)
      · obtain rfl := (List.cons.inj hrest).1
        exact absurd hc (by decide)
      · obtain rfl := (List.cons.inj hrest).1
        exact absurd hc (by decide)
  simp [Call.read, hnone]

/-- At one word no other one is read. -/
theorem Token.read_at_word {word tail name : Text} (hword : ∀ c ∈ word, isWordLetter c)
    (hb : Bounds word tail name) (hne : name ≠ []) (h : word ≠ name) :
    Token.read ('@' :: name) ('@' :: (word ++ tail)) = none := by
  cases hr : after? ('@' :: (word ++ tail)) ('@' :: name) with
  | none => exact Token.read_of_after? hr
  | some rest =>
    obtain ⟨more, rfl, rfl⟩ := hb rest (by simpa [after?] using hr)
    obtain ⟨c, more, rfl⟩ := List.exists_cons_of_ne_nil (l := more) (by rintro rfl; simp at h)
    obtain ⟨last, hl⟩ : ∃ last, name.getLast? = some last := ⟨_, List.getLast?_eq_some_getLast hne⟩
    have hlast : isWordChar last :=
      isWordChar_of_isWordLetter (hword last (List.mem_append_left _ (List.mem_of_getLast? hl)))
    have hc : isWordChar c := isWordChar_of_isWordLetter (hword c (by simp))
    have hboundary : isWordBoundary ('@' :: name).getLast? (c :: more ++ tail).head? = false := by
      simp [isWordBoundary, List.getLast?_cons, hl, hlast, hc]
    rw [Token.read, hr]
    exact if_neg (Bool.eq_false_iff.1 hboundary)

end Pagewright
