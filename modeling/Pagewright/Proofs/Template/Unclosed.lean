import Pagewright.Proofs.Template.Calls

/-!
# Openings that are never closed

The opening of a directive whose parenthesis is never closed is no call, and the pass for the calls
of the directive leaves it as it stands. `Keyword.unclosed_opening_iff` says which rules go on to
leave it alone: all of them, as long as the opening does not lie inside of something else that the
rule rewrites, but for two that look at the text once more (`Keyword.Rereads`). The pass for the
bare words `@break` and `@continue` does not mind what follows them, so the word is taken out of
every such opening. And the blocks of `@push` are looked for in what the pass for single values has
made of the text, whose code may close the parenthesis.
-/

namespace Pagewright

open Text

/-- A parenthesis behind an opening has no match just when nothing closes it. -/
theorem Text.matchingParen_opening {front name back : Text} {spaced : Bool} :
    matchingParen (front ++ Call.opening name spaced ++ back)
      (byteSize front + byteSize (Call.opening name spaced) - 1) = none ↔ closing? back = none := by
  rw [matchingParen_opening_eq, Option.map_eq_none_iff]

namespace Keyword

/-! ## Passes up to what they write -/

/-- Neither of the two words is a start of the other. -/
def Apart (k : Keyword) (close : Text) : Prop :=
  '@' ∉ close ∧ ¬close <+: k.word ∧ ¬k.word <+: close

instance (k : Keyword) (close : Text) : Decidable (k.Apart close) :=
  inferInstanceAs (Decidable (_ ∧ _ ∧ _))

/-- The directives whose word counts without arguments too. -/
def isJump : Keyword → Bool
  | .break | .continue => true
  | _ => false

/-- The passes of a rule, whatever they write: calls or regions alone, calls and a closing word, the
two forms of a jump, or the two forms of `@push`. -/
inductive Shape (k : Keyword) : List Sweep → Prop where
  | calls (f : Call → Option Text) : k.isJump = false → k ≠ .push → Shape k [.calls k.word f]
  | regions (close : Text) (f : Region → Option Text) : k.isJump = false → k ≠ .push →
    k.Apart close → Shape k [.regions k.word ('@' :: close) f]
  | literal (f : Call → Option Text) (close new : Text) : k.isJump = false → k ≠ .push →
    k.Apart close → Shape k [.calls k.word f, .literal ('@' :: close) new]
  | token (f : Call → Option Text) (close new : Text) : k.isJump = false → k ≠ .push →
    k.Apart close → Shape k [.calls k.word f, .token ('@' :: close) new]
  | jump : k.isJump = true → Shape k [jumpCalls k.word, jumpToken k.word]
  | push : k = .push → Shape k [pushCalls, pushRegions]

/-- The passes of a directive have one of these shapes. -/
theorem shape_passes (dir up : Text) (k : Keyword) : Shape k (k.passes dir up) := by
  cases k with
  | «break» => exact .jump rfl
  | component => exact .regions "endcomponent" _ rfl (by decide) (by decide)
  | «continue» => exact .jump rfl
  | elseif => exact .calls _ rfl (by decide)
  | empty => exact .literal _ "endempty" _ rfl (by decide) (by decide)
  | «for» => exact .token _ "endfor" _ rfl (by decide) (by decide)
  | foreach => exact .token _ "endforeach" _ rfl (by decide) (by decide)
  | set => exact .calls _ rfl (by decide)
  | «if» => exact .literal _ "endif" _ rfl (by decide) (by decide)
  | «include» => exact .calls _ rfl (by decide)
  | push => exact .push rfl
  | «section» => exact .regions "endsection" _ rfl (by decide) (by decide)
  | stack => exact .calls _ rfl (by decide)
  | «unless» => exact .literal _ "endunless" _ rfl (by decide) (by decide)
  | «while» => exact .token _ "endwhile" _ rfl (by decide) (by decide)
  | yield => exact .calls _ rfl (by decide)

/-- A jump has a pass for calls and one for the bare word. -/
theorem passes_of_isJump (dir up : Text) {k : Keyword} (hk : k.isJump = true) :
    k.passes dir up = [jumpCalls k.word, jumpToken k.word] := by
  cases k with
  | «break» => rfl
  | «continue» => rfl
  | _ => cases hk

theorem at_not_mem_word (k : Keyword) : '@' ∉ k.word := by
  cases k <;> decide

theorem at_not_mem_opening (k : Keyword) (spaced : Bool) :
    '@' ∉ k.word ++ if spaced then [' ', '('] else ['('] := by
  cases spaced <;> simp [k.at_not_mem_word]

theorem close_not_mem_opening (k : Keyword) (spaced : Bool) : ')' ∉ Call.opening k.word spaced := by
  have hword : ')' ∉ k.word := by cases k <;> decide
  cases spaced <;> simp [Call.opening, hword]

/-- The word of an opening goes on neither into nor behind a word that is apart from it. -/
theorem Apart.not_isPrefix {k : Keyword} {close : Text} (h : k.Apart close) (rest : Text) :
    ¬close <+: k.word ++ rest := by
  intro hclose
  rcases List.prefix_or_prefix_of_prefix hclose (List.prefix_append k.word rest) with hle | hle
  · exact h.2.1 hle
  · exact h.2.2 hle

/-- Passes of these shapes are faithful. -/
theorem Shape.faithful {k : Keyword} {passes : List Sweep} (h : Shape k passes) :
    ∀ s ∈ passes, Faithful s := by
  cases h with
  | calls f => simpa using Sweep.faithful_calls k.word f
  | regions close f => simpa using Sweep.faithful_regions k.word ('@' :: close) f
  | literal f close new =>
    simpa using ⟨Sweep.faithful_calls k.word f, Sweep.faithful_literal (by simp) new⟩
  | token f close new =>
    simpa using ⟨Sweep.faithful_calls k.word f, Sweep.faithful_token (by simp) new⟩
  | jump => simpa using ⟨Sweep.faithful_calls k.word _, Sweep.faithful_token (by simp) _⟩
  | push => simpa using ⟨Sweep.faithful_calls _ _, Sweep.faithful_regions _ _ _⟩

/-- Passes of these shapes clear the opening of their directive. -/
theorem Shape.clears {k : Keyword} {passes : List Sweep} (h : Shape k passes) (spaced : Bool) :
    ∀ s ∈ passes, s.Clears '@' (Call.opening k.word spaced) := by
  have hcalls : ∀ name f, (Sweep.calls name f).Clears '@' (Call.opening k.word spaced) :=
    fun name f => Sweep.clears_calls name f (k.close_not_mem_opening spaced)
  have hopening := k.at_not_mem_opening spaced
  cases h with
  | calls f => simpa using hcalls k.word f
  | regions close f _ _ happart =>
    have hregions :
        (Sweep.regions k.word ('@' :: close) f).Clears '@' (Call.opening k.word spaced) :=
      Sweep.clears_regions k.word f happart.1 hopening (happart.not_isPrefix _)
    simpa using hregions
  | literal f close new _ _ happart =>
    simpa using ⟨hcalls k.word f, Sweep.clears_literal happart.1 new _⟩
  | token f close new _ _ happart =>
    simpa using ⟨hcalls k.word f, Sweep.clears_token happart.1 new _⟩
  | jump => simpa using ⟨hcalls k.word _, Sweep.clears_token k.at_not_mem_word _ _⟩
  | push hk =>
    subst hk
    have hregions := @Sweep.clears_regions "push" Directive.pushBlock "endpush" _ (by decide)
      hopening (Apart.not_isPrefix (by decide : Keyword.push.Apart "endpush") _)
    simpa using ⟨hcalls _ _, hregions⟩

/-! ## Openings that are taken after all -/

/-- The code for the values that are pushed closes the parenthesis of the opening. The list of
arguments that comes of it has a name, a closing word follows, and the scan for blocks comes to the
opening. -/
def ClosedByCode (a : Stretch) : Prop :=
  ∃ b args rest, pushCalls.Keeps a b ∧ closing? b.back = some (args, rest) ∧ args.bareName ≠ [] ∧
    ("@endpush" : Text) <:+: rest ∧ pushRegions.Reaches b.front (b.word ++ b.back)

/-- The rule comes back to an opening that its first pass leaves alone, and takes it for something
else. -/
def Rereads (k : Keyword) (a : Stretch) : Prop :=
  (k.isJump = true ∧ ¬(jumpCalls k.word).Covers a) ∨ (k = .push ∧ ClosedByCode a)

section Opening

variable {k : Keyword} {a : Stretch} {spaced : Bool} (hword : a.word = Call.opening k.word spaced)

include hword

/-- No pass for calls takes an opening that is never closed. -/
theorem not_takes_calls (hopen : closing? a.back = none) (f : Call → Option Text) :
    ¬(Sweep.calls k.word f).Takes a := by
  intro htakes
  obtain ⟨-, source, new, hread⟩ := (Sweep.takes_iff (Sweep.faithful_calls k.word f)).1 htakes
  obtain ⟨call, hcall, -⟩ := Sweep.of_eq_some_iff.1 hread
  rw [hword, Call.read_opening_of_not_closing hopen] at hcall
  cases congrArg Piece.value (Option.some.inj hcall)

/-- No pass for regions takes an opening that is never closed. -/
theorem not_takes_regions (hopen : closing? a.back = none) (close : Text)
    (f : Region → Option Text) : ¬(Sweep.regions k.word close f).Takes a := by
  intro htakes
  obtain ⟨-, source, new, hread⟩ :=
    (Sweep.takes_iff (Sweep.faithful_regions k.word close f)).1 htakes
  obtain ⟨region, hregion, -⟩ := Sweep.of_eq_some_iff.1 hread
  rw [hword, Region.read_opening_of_not_closing hopen] at hregion
  cases congrArg Piece.value (Option.some.inj hregion)

/-- At an opening no other word stands. -/
theorem not_isPrefix_of_apart {close : Text} (h : k.Apart close) :
    ¬ '@' :: close <+: a.word ++ a.back := by
  rw [hword, Call.opening, List.cons_append, List.cons_append, List.append_assoc,
    List.cons_prefix_cons]
  exact fun hclose => h.not_isPrefix _ hclose.2

/-- No pass for a closing word takes an opening. -/
theorem not_takes_literal {close : Text} (h : k.Apart close) (new : Text) :
    ¬(Sweep.literal ('@' :: close) new).Takes a := by
  intro htakes
  obtain ⟨-, source, new', hread⟩ :=
    (Sweep.takes_iff (Sweep.faithful_literal (by simp) new)).1 htakes
  exact not_isPrefix_of_apart hword h (Sweep.source_of_literal hread).2

/-- No pass for another bare word takes an opening. -/
theorem not_takes_token {close : Text} (h : k.Apart close) (new : Text) :
    ¬(Sweep.token ('@' :: close) new).Takes a := by
  intro htakes
  obtain ⟨-, source, new', hread⟩ := (Sweep.takes_iff (Sweep.faithful_token (by simp) new)).1 htakes
  exact not_isPrefix_of_apart hword h (Sweep.source_of_token hread).2

/-- The bare word is read at every opening of it, closed or not. -/
theorem read_jumpToken (hk : k.isJump = true) :
    jumpToken k.word (a.word ++ a.back) = some ⟨'@' :: k.word, some (Php.tag (k.word ++ ";"))⟩ := by
  have hparen : isWordBoundary ('@' :: k.word).getLast?
      ((if spaced then [' ', '('] else ['(']) ++ a.back).head? = true := by
    cases k with
    | «break» => cases spaced <;> rfl
    | «continue» => cases spaced <;> rfl
    | _ => cases hk
  have hread : Token.read ('@' :: k.word) (a.word ++ a.back) = some ⟨'@' :: k.word, some ()⟩ := by
    rw [Token.read, hword, Call.opening, List.append_assoc, after?_append]
    exact if_pos hparen
  exact Sweep.of_eq_some_iff.2 ⟨(), hread, rfl⟩

/-- The pass for the bare word of a jump stops at its opening. -/
theorem reaches_jumpToken : (jumpToken k.word).Reaches a.front (a.word ++ a.back) := by
  refine @Sweep.reaches_of_mark _ (Sweep.faithful_token (by simp) _) '@'
    (fun text piece h => ?_) _ _ ?_
  · rw [(Sweep.source_of_token h).1]
    exact k.at_not_mem_word
  · rw [hword]
    rfl

/-- The first pass of a jump leaves the opening alone unless the opening lies inside of a call. -/
theorem keeps_jumpCalls (hopen : closing? a.back = none) (hcover : ¬(jumpCalls k.word).Covers a) :
    ∃ b, (jumpCalls k.word).Keeps a b := by
  have hclears := Sweep.clears_calls k.word
    (fun call => some (Php.tag ("if (" ++ call.args ++ ") \x7b " ++ k.word ++ "; \x7d")))
    (k.close_not_mem_opening spaced)
  rcases Sweep.keeps_or_covers_or_takes (Sweep.faithful_calls k.word _) hword
    (k.at_not_mem_opening spaced) (hword ▸ hclears) with hkeeps | hcovers | htakes
  · exact hkeeps
  · exact absurd hcovers hcover
  · exact absurd htakes (not_takes_calls hword hopen _)

end Opening

/-- A block is read at an opening of `@push` when the parenthesis is closed around a name and a
closing word follows. -/
theorem read_pushRegions_iff {a : Stretch} {spaced : Bool}
    (hword : a.word = Call.opening "push" spaced) :
    (∃ source new, pushRegions (a.word ++ a.back) = some ⟨source, some new⟩) ↔
      ∃ args rest, closing? a.back = some (args, rest) ∧ args.bareName ≠ [] ∧
        ("@endpush" : Text) <:+: rest := by
  rw [hword]
  constructor
  · rintro ⟨source, new, hread⟩
    obtain ⟨region, hregion, hblock⟩ := Sweep.of_eq_some_iff.1 hread
    cases hclosing : closing? a.back with
    | none =>
      rw [Region.read_opening_of_not_closing hclosing] at hregion
      cases congrArg Piece.value (Option.some.inj hregion)
    | some pair =>
      obtain ⟨args, rest⟩ := pair
      cases hcut : cut? rest "@endpush" with
      | none =>
        rw [Region.read_opening_of_not_cut hclosing hcut] at hregion
        cases congrArg Piece.value (Option.some.inj hregion)
      | some cut =>
        obtain ⟨body, behind⟩ := cut
        rw [Region.read_opening_of_cut hclosing hcut] at hregion
        obtain rfl := Option.some.inj (congrArg Piece.value (Option.some.inj hregion))
        refine ⟨args, rest, rfl, fun hname => ?_, ⟨body, behind, (eq_append_of_cut? hcut).symm⟩⟩
        cases hblock.symm.trans (if_pos hname)
  · rintro ⟨args, rest, hclosing, hname, hclose⟩
    obtain ⟨body, behind, hcut⟩ := (exists_cut?_iff (by decide)).2 hclose
    exact ⟨_, _, Sweep.of_eq_some_iff.2 ⟨_, Region.read_opening_of_cut hclosing hcut, if_neg hname⟩⟩

/-- The passes take an opening that is never closed just when the rule rereads it. -/
theorem Shape.takes_iff {k : Keyword} {passes : List Sweep} (h : Shape k passes) {a : Stretch}
    {spaced : Bool} (hword : a.word = Call.opening k.word spaced) (hopen : closing? a.back = none) :
    Sweep.Eventually Sweep.Takes passes a ↔ k.Rereads a := by
  have hplain : k.isJump = false → k ≠ .push → ¬k.Rereads a := by
    rintro hjump hpush (⟨hk, -⟩ | ⟨hk, -⟩)
    · exact absurd (hjump.symm.trans hk) (by decide)
    · exact hpush hk
  cases h with
  | calls f hjump hpush =>
    refine iff_of_false ?_ (hplain hjump hpush)
    rintro (htakes | ⟨b, -, ⟨⟩⟩)
    exact not_takes_calls hword hopen f htakes
  | regions close f hjump hpush =>
    refine iff_of_false ?_ (hplain hjump hpush)
    rintro (htakes | ⟨b, -, ⟨⟩⟩)
    exact not_takes_regions hword hopen _ f htakes
  | literal f close new hjump hpush happart =>
    refine iff_of_false ?_ (hplain hjump hpush)
    rintro (htakes | ⟨b, hb, htakes | ⟨c, -, ⟨⟩⟩⟩)
    · exact not_takes_calls hword hopen f htakes
    · exact not_takes_literal (hb.word_eq.trans hword) happart new htakes
  | token f close new hjump hpush happart =>
    refine iff_of_false ?_ (hplain hjump hpush)
    rintro (htakes | ⟨b, hb, htakes | ⟨c, -, ⟨⟩⟩⟩)
    · exact not_takes_calls hword hopen f htakes
    · exact not_takes_token (hb.word_eq.trans hword) happart new htakes
  | jump hk =>
    have hne : a.word ≠ [] := by simp [hword, Call.opening]
    constructor
    · rintro (htakes | ⟨b, hb, -⟩)
      · exact absurd htakes (not_takes_calls hword hopen _)
      · exact .inl ⟨hk, hb.not_covers hne⟩
    · rintro (⟨-, hcover⟩ | ⟨rfl, -⟩)
      · obtain ⟨b, hb⟩ := keeps_jumpCalls hword hopen hcover
        have hb' := hb.word_eq.trans hword
        refine .inr ⟨b, hb, .inl ((Sweep.takes_iff (Sweep.faithful_token (by simp) _)).2 ?_)⟩
        exact ⟨reaches_jumpToken hb', _, _, read_jumpToken hb' hk⟩
      · cases hk
  | push hk =>
    subst hk
    constructor
    · rintro (htakes | ⟨b, hb, htakes | ⟨c, -, ⟨⟩⟩⟩)
      · exact absurd htakes (not_takes_calls hword hopen _)
      · obtain ⟨hreach, hread⟩ := (Sweep.takes_iff (Sweep.faithful_regions _ _ _)).1 htakes
        obtain ⟨args, rest, hclosing, hname, hclose⟩ :=
          (read_pushRegions_iff (hb.word_eq.trans hword)).1 hread
        exact .inr ⟨rfl, b, args, rest, hb, hclosing, hname, hclose, hreach⟩
    · rintro (⟨hk, -⟩ | ⟨-, b, args, rest, hb, hclosing, hname, hclose, hreach⟩)
      · cases hk
      · refine .inr ⟨b, hb, .inl ((Sweep.takes_iff (Sweep.faithful_regions _ _ _)).2 ⟨hreach, ?_⟩)⟩
        exact (read_pushRegions_iff (hb.word_eq.trans hword)).2
          ⟨args, rest, hclosing, hname, hclose⟩

/-- The bare word is taken out of the opening and what follows it is left standing. -/
def LosesWord (k : Keyword) (a : Stretch) (result : Text) : Prop :=
  ∃ b c rest, (jumpCalls k.word).Keeps a b ∧ b.word = '@' :: k.word ++ rest ∧
    (jumpToken k.word).Replaces ⟨b.front, '@' :: k.word, rest ++ b.back⟩ c ∧
    c.word = Php.tag (k.word ++ ";") ∧ result = c.text

/-- A jump that is never closed loses its word. -/
theorem losesWord_of_not_covers {k : Keyword} (hk : k.isJump = true) {a : Stretch} {spaced : Bool}
    (hword : a.word = Call.opening k.word spaced) (hopen : closing? a.back = none)
    (hcover : ¬(jumpCalls k.word).Covers a) :
    k.LosesWord a (Sweep.runAll [jumpCalls k.word, jumpToken k.word] a.text) := by
  obtain ⟨b, hb⟩ := keeps_jumpCalls hword hopen hcover
  have hb' := hb.word_eq.trans hword
  have hreach := reaches_jumpToken hb'
  have hread := read_jumpToken hb' hk
  rw [hb', Call.opening, List.append_assoc] at hreach hread
  obtain ⟨c, hreplaces, hc⟩ := @Sweep.Reaches.replaces _ ⟨b.front, '@' :: k.word, _⟩ hreach
    (Sweep.faithful_token (by simp) _) _ hread
  refine ⟨b, c, _, hb, hb', hreplaces, hc, ?_⟩
  rw [Sweep.runAll, Sweep.runAll, Sweep.runAll, hb.run_eq, ← hreplaces.run_eq, Stretch.text, hb',
    Call.opening, Stretch.text]
  simp only [List.append_assoc]

/-- A rule leaves an opening that is never closed as it stands, unless it lies inside of something
else that the rule rewrites, or the rule rereads it. What a jump does then is to take out its word.
-/
theorem unclosed_opening_iff (k : Keyword) (dirs : Conventions) {draft : Draft} {front back : Text}
    {spaced : Bool} (hcontent : draft.content = front ++ Call.opening k.word spaced ++ back)
    (hopen : draft.content.matchingParen
      (front.byteSize + (Call.opening k.word spaced).byteSize - 1) = none) :
    let a : Stretch := ⟨front, Call.opening k.word spaced, back⟩
    let passes := k.passes dirs.includes draft.relativePath
    let result := (((k.rule dirs).apply draft).getD draft).content
    ((∃ b, Sweep.KeepsAll passes a b ∧ result = b.text) ∨ Sweep.Eventually Sweep.Covers passes a ↔
      ¬k.Rereads a) ∧
    (k.Rereads a → Sweep.Eventually Sweep.Takes passes a ∧
      (k.isJump = true → k.LosesWord a result)) := by
  intro a passes result
  have hshape : Shape k passes := shape_passes _ _ k
  have hresult : result = Sweep.runAll passes a.text := by
    rw [Stretch.text, ← hcontent]
    exact content_rule k dirs draft
  rw [hcontent, matchingParen_opening] at hopen
  have htakes : Sweep.Eventually Sweep.Takes passes a ↔ k.Rereads a := hshape.takes_iff rfl hopen
  refine ⟨?_, fun hrereads => ⟨htakes.2 hrereads, fun hk => ?_⟩⟩
  · rw [← htakes, ← Sweep.keepsAll_or_covers_iff (k.at_not_mem_opening spaced) hshape.faithful
      (hshape.clears spaced) rfl]
    exact or_congr_left (exists_congr fun b =>
      and_iff_left_of_imp fun hb => hresult.trans hb.runAll_eq)
  · rcases hrereads with ⟨-, hcover⟩ | ⟨rfl, -⟩
    · rw [hresult, show passes = _ from passes_of_isJump _ _ hk]
      exact losesWord_of_not_covers hk rfl hopen hcover
    · cases hk

/-- The condition of a jump is never closed, and the word is taken out of it. -/
theorem unclosed_opening_iff_break :
    let draft : Draft := ⟨"@break($i > 3 x", [], [], [], []⟩
    let a : Stretch := ⟨[], "@break(", "$i > 3 x"⟩
    let passes := Keyword.break.passes "_includes" []
    let result := ((Directive.breakRule.apply draft).getD draft).content
    ¬((∃ b, Sweep.KeepsAll passes a b ∧ result = b.text) ∨ Sweep.Eventually Sweep.Covers passes a) ∧
      Keyword.break.LosesWord a result := by
  intro draft a passes result
  have hrereads : Keyword.break.Rereads a := by
    refine .inl ⟨rfl, ?_⟩
    rintro ⟨c, d, -, -, hstart, -⟩
    exact absurd hstart (Nat.not_lt_zero _)
  obtain ⟨hstands, htaken⟩ := @unclosed_opening_iff .break {} draft [] "$i > 3 x" false
    (by decide) ((@matchingParen_opening [] "break" "$i > 3 x" false).2 (by decide))
  exact ⟨fun h => hstands.1 h hrereads, (htaken hrereads).2 rfl⟩

/-- The code for a pushed value may close an opening in front of it. -/
example : closing? (" @push('a\\'', $b)\" ) x @endpush" : Text) = none ∧
    (Sweep.runAll [pushCalls, pushRegions] "@push( @push('a\\'', $b)\" ) x @endpush").head? =
      some '<' := by
  decide +kernel

end Keyword

end Pagewright
