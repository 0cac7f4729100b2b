import Mathlib.Data.List.Infix
import Pagewright.Proofs.Template.Literals
import Pagewright.Proofs.Template.Spans

/-!
# Where the first argument ends

A list of arguments is cut in two at its first comma outside of literals and brackets. What stands
outside of literals is told by a grammar (`Text.Skeleton`): a text whose literals all end in it is
made of plain characters and literals, and without the literals a bare text is left of it. On the
bare text brackets are counted, all three kinds in one count: with sign (`Text.bracketCount`), or so
that a bracket that closes nothing does not count (`Text.openBrackets`). As long as nothing closes
too much the two agree (`Text.foldl_addBracket`).

The scan for the comma knows a state and a depth instead. It stands outside of literals just when
the grammar takes what it has passed, and its depth is then the count on the bare text
(`Text.atTop_iff`). So it finds the first comma that is on top, and nothing when there is none
(`Text.splitFirst?_at_first_comma`).
-/

namespace Pagewright

namespace Text

/-! ## Outside of literals -/

/-- The text is made of plain characters and literals, and without the literals `bare` is left. -/
inductive Skeleton : (text bare : Text) → Prop
  | nil : Skeleton [] []
  | plain {c : Char} {text bare : Text} (hquote : isQuote c = false) (h : Skeleton text bare) :
      Skeleton (c :: text) (c :: bare)
  | literal {mark : Char} {inner text bare : Text} (hmark : isQuote mark = true)
      (hinner : Paired (· ≠ mark) inner) (h : Skeleton text bare) :
      Skeleton (mark :: (inner ++ mark :: text)) bare

/-- The characters that a scan meets outside of literals, less the quotes. -/
def bareFrom : Quoting → Text → Text
  | _, [] => []
  | state, c :: rest =>
    if state = .code ∧ isQuote c = false then c :: bareFrom (state.next c) rest
    else bareFrom (state.next c) rest

theorem bareFrom_cons_plain {c : Char} (hquote : isQuote c = false) (rest : Text) :
    bareFrom .code (c :: rest) = c :: bareFrom .code rest := by
  rw [bareFrom, if_pos ⟨rfl, hquote⟩, next_code_of_not_isQuote hquote]

theorem bareFrom_cons_quote {c : Char} (hquote : isQuote c = true) (rest : Text) :
    bareFrom .code (c :: rest) = bareFrom (.literal c) rest := by
  rw [bareFrom, if_neg (by simp [hquote]), next_code_of_isQuote hquote]

theorem bareFrom_cons_of_ne_code {state : Quoting} (h : state ≠ .code) (c : Char) (rest : Text) :
    bareFrom state (c :: rest) = bareFrom (state.next c) rest :=
  if_neg fun hcode => h hcode.1

/-- What is outside of literals in two texts, one behind the other, depends on where the first one
ends. -/
theorem bareFrom_append (state : Quoting) (front rest : Text) :
    bareFrom state (front ++ rest) =
      bareFrom state front ++ bareFrom (front.foldl Quoting.next state) rest := by
  induction front generalizing state with
  | nil => rfl
  | cons c front ih =>
    rw [List.cons_append, bareFrom, bareFrom, ih]
    split <;> rfl

/-- The inside of a literal is passed from quote to quote, and nothing in it is outside. -/
theorem bareFrom_of_paired {mark : Char} {inner : Text} (h : Paired (· ≠ mark) inner) :
    inner.foldl Quoting.next (.literal mark) = .literal mark ∧
      bareFrom (.literal mark) inner = [] := by
  induction h with
  | nil => exact ⟨rfl, rfl⟩
  | bare hc hslash _ ih =>
    rwa [List.foldl_cons, bareFrom_cons_of_ne_code (by simp), next_literal_of_bare hslash hc]
  | pair _ ih =>
    rwa [List.foldl_cons, List.foldl_cons, bareFrom_cons_of_ne_code (by simp),
      next_literal_backslash, bareFrom_cons_of_ne_code (by simp)]

/-- Nothing of a literal is outside of one. -/
theorem bareFrom_literal {mark : Char} (hmark : isQuote mark = true) {inner : Text}
    (h : Paired (· ≠ mark) inner) :
    (mark :: (inner ++ [mark])).foldl Quoting.next .code = .code ∧
      bareFrom .code (mark :: (inner ++ [mark])) = [] := by
  obtain ⟨hstate, hbare⟩ := bareFrom_of_paired h
  have hend := next_literal_mark (ne_backslash_of_isQuote hmark)
  constructor
  · rw [List.foldl_cons, next_code_of_isQuote hmark, List.foldl_append, hstate]
    exact hend
  · rw [bareFrom_cons_quote hmark, bareFrom_append, hstate, hbare,
      bareFrom_cons_of_ne_code (by simp), hend]
    rfl

/-- A scan that ends outside of literals has read what the grammar allows. -/
theorem reads_skeleton {state : Quoting} {text : Text}
    (h : text.foldl Quoting.next state = .code) :
    Reads (fun rest => Skeleton rest (bareFrom .code rest)) state text := by
  induction text generalizing state with
  | nil =>
    obtain rfl : state = .code := h
    exact .nil
  | cons c text ih =>
    have hrest := ih h
    by_cases hcode : state = .code
    · subst hcode
      cases hquote : isQuote c with
      | false =>
        rw [next_code_of_not_isQuote hquote] at hrest
        rw [Reads, bareFrom_cons_plain hquote]
        exact .plain hquote hrest
      | true =>
        rw [next_code_of_isQuote hquote] at hrest
        obtain ⟨inner, rest, hinner, hskeleton, rfl⟩ := hrest
        obtain ⟨hstate, hbare⟩ := bareFrom_literal hquote hinner
        have hsplit : c :: (inner ++ c :: rest) = c :: (inner ++ [c]) ++ rest := by simp
        rw [Reads, hsplit, bareFrom_append, hstate, hbare, List.nil_append, ← hsplit]
        exact .literal hquote hinner hskeleton
    · exact hrest.cons hcode

/-- The grammar says where a scan ends and what it has met outside of literals. -/
theorem skeleton_iff {text bare : Text} :
    Skeleton text bare ↔ text.foldl Quoting.next .code = .code ∧ bareFrom .code text = bare := by
  constructor
  · intro h
    induction h with
    | nil => exact ⟨rfl, rfl⟩
    | plain hquote _ ih =>
      rw [List.foldl_cons, next_code_of_not_isQuote hquote, bareFrom_cons_plain hquote, ih.2]
      exact ⟨ih.1, rfl⟩
    | @literal mark inner text bare hmark hinner _ ih =>
      obtain ⟨hstate, hbare⟩ := bareFrom_literal hmark hinner
      have hsplit : mark :: (inner ++ mark :: text) = mark :: (inner ++ [mark]) ++ text := by simp
      rwa [hsplit, List.foldl_append, bareFrom_append, hstate, hbare, List.nil_append]
  · rintro ⟨hstate, rfl⟩
    exact reads_skeleton hstate

/-! ## Brackets -/

/-- What a character adds to the count of open brackets, whatever their kind. -/
def bracketSign (c : Char) : Int :=
  if c = '(' ∨ c = '[' ∨ c = '\x7b' then 1
  else if c = ')' ∨ c = ']' ∨ c = '\x7d' then -1
  else 0

/-- The brackets that a bare text opens, less those that it closes. -/
def bracketCount : Text → Int
  | [] => 0
  | c :: rest => bracketSign c + bracketCount rest

/-- The count of open brackets behind one more character. It stays at zero where nothing is open. -/
def addBracket (depth : Nat) (c : Char) : Nat :=
  (depth + bracketSign c).toNat

/-- The brackets that are open behind a bare text, if one that closes nothing does not count. -/
def openBrackets (bare : Text) : Nat :=
  bare.foldl addBracket 0

/-- Outside of literals every bracket counts. -/
theorem bracketDepth_code (depth : Nat) (c : Char) :
    bracketDepth .code depth c = addBracket depth c := by
  rw [bracketDepth, if_pos rfl, addBracket, bracketSign]
  split_ifs <;> omega

theorem addBracket_of_isQuote {c : Char} (h : isQuote c = true) (depth : Nat) :
    addBracket depth c = depth := by
  rcases isQuote_iff.1 h with rfl | rfl <;> rfl

/-- The depth that a scan goes on with is the count on what it has met outside of literals. -/
theorem foldl_bareFrom_cons (state : Quoting) (depth : Nat) (c : Char) (rest : Text) :
    (bareFrom state (c :: rest)).foldl addBracket depth =
      (bareFrom (state.next c) rest).foldl addBracket (bracketDepth state depth c) := by
  by_cases hcode : state = .code
  · subst hcode
    rw [bracketDepth_code]
    cases hquote : isQuote c with
    | false => rw [bareFrom_cons_plain hquote, next_code_of_not_isQuote hquote, List.foldl_cons]
    | true =>
      rw [bareFrom_cons_quote hquote, next_code_of_isQuote hquote, addBracket_of_isQuote hquote]
  · rw [bareFrom_cons_of_ne_code hcode, bracketDepth, if_neg hcode]

/-- Where a bare text never closes more than is open, the two counts agree. -/
theorem foldl_addBracket {bare : Text} {depth : Nat}
    (h : ∀ front, List.IsPrefix front bare → 0 ≤ depth + bracketCount front) :
    ((bare.foldl addBracket depth : Nat) : Int) = depth + bracketCount bare := by
  induction bare generalizing depth with
  | nil => simp [bracketCount]
  | cons c bare ih =>
    have hfirst : (addBracket depth c : Int) = depth + bracketSign c := by
      have hc := h [c] (by simp)
      rw [bracketCount, bracketCount, Int.add_zero] at hc
      exact Int.toNat_of_nonneg hc
    rw [List.foldl_cons, ih, hfirst, bracketCount, Int.add_assoc]
    intro front hfront
    have hnext := h (c :: front) (List.cons_prefix_cons.2 ⟨rfl, hfront⟩)
    rw [bracketCount] at hnext
    rw [hfirst]
    omega

/-! ## The scan for the comma -/

/-- A scan that comes to a comma behind `front` stops there. -/
def AtTop (state : Quoting) (depth : Nat) (front : Text) : Prop :=
  front.foldl Quoting.next state = .code ∧ (bareFrom state front).foldl addBracket depth = 0

/-- One more character leads the scan one step on. -/
theorem atTop_cons {state : Quoting} {depth : Nat} {c : Char} {front : Text} :
    AtTop state depth (c :: front) ↔ AtTop (state.next c) (bracketDepth state depth c) front := by
  rw [AtTop, foldl_bareFrom_cons]
  rfl

/-- The scan is at the top where no bracket of the bare text is open. -/
theorem atTop_iff {front : Text} :
    AtTop .code 0 front ↔ ∃ bare, Skeleton front bare ∧ openBrackets bare = 0 := by
  constructor
  · rintro ⟨hstate, hdepth⟩
    exact ⟨_, skeleton_iff.2 ⟨hstate, rfl⟩, hdepth⟩
  · rintro ⟨bare, hskeleton, hopen⟩
    obtain ⟨hstate, rfl⟩ := skeleton_iff.1 hskeleton
    exact ⟨hstate, hopen⟩

/-- A character that is not a comma at the top is passed over. -/
theorem commaFrom?_cons {state : Quoting} {depth : Nat} {c : Char}
    (h : ¬(state = .code ∧ c = ',' ∧ depth = 0)) (rest : Text) :
    commaFrom? state depth (c :: rest) =
      (commaFrom? (state.next c) (bracketDepth state depth c) rest).map
        fun (first, rest) => (c :: first, rest) :=
  if_neg h

/-- The scan passes every comma just when it stops at none. -/
theorem commaFrom?_eq_none_iff {state : Quoting} {depth : Nat} {text : Text} :
    commaFrom? state depth text = none ↔
      ∀ front back, text = front ++ ',' :: back → ¬AtTop state depth front := by
  induction text generalizing state depth with
  | nil => simp [commaFrom?]
  | cons c text ih =>
    by_cases hstop : state = .code ∧ c = ',' ∧ depth = 0
    · rw [commaFrom?, if_pos hstop]
      obtain ⟨rfl, rfl, rfl⟩ := hstop
      exact iff_of_false (by simp) fun h => h [] text rfl ⟨rfl, rfl⟩
    · rw [commaFrom?_cons hstop, Option.map_eq_none_iff, ih]
      constructor
      · intro h front back htext hfront
        rcases List.cons_eq_append_iff.1 htext with ⟨rfl, hcons⟩ | ⟨front, rfl, hrest⟩
        · exact hstop ⟨hfront.1, (List.cons.inj hcons).1.symm, hfront.2⟩
        · exact h front back hrest (atTop_cons.1 hfront)
      · intro h front back htext hfront
        exact h (c :: front) back (congrArg _ htext) (atTop_cons.2 hfront)

/-- The scan finds the comma that it stops at when it has passed all commas before. -/
theorem commaFrom?_append {state : Quoting} {depth : Nat} {front : Text}
    (hbefore : commaFrom? state depth front = none) (htop : AtTop state depth front)
    (back : Text) : commaFrom? state depth (front ++ ',' :: back) = some (front, back) := by
  induction front generalizing state depth with
  | nil => exact if_pos ⟨htop.1, rfl, htop.2⟩
  | cons c front ih =>
    have hstop : ¬(state = .code ∧ c = ',' ∧ depth = 0) := by
      intro hstop
      rw [commaFrom?, if_pos hstop] at hbefore
      cases hbefore
    rw [commaFrom?_cons hstop, Option.map_eq_none_iff] at hbefore
    rw [List.cons_append, commaFrom?_cons hstop, ih hbefore (atTop_cons.1 htop)]
    rfl

/-! ## Arguments -/

/-- A comma stands at byte `i`, outside of literals and with no bracket open before it. -/
def TopComma (args : Text) (i : Nat) : Prop :=
  ∃ front back bare : Text, args = front ++ ',' :: back ∧ front.byteSize = i ∧
    Skeleton front bare ∧ openBrackets bare = 0

/-- A text that is one argument: its literals end in it, outside of them it closes the brackets that
it opens and no others, and its commas are all in literals or in brackets. -/
def OneArgument (text : Text) : Prop :=
  ∃ bare, Skeleton text bare ∧ (∀ front, List.IsPrefix front bare → 0 ≤ bracketCount front) ∧
    bracketCount bare = 0 ∧
    ∀ front, List.IsPrefix (front ++ [',']) bare → bracketCount front ≠ 0

/-- A comma is at the top where the scan gets to it outside of literals and brackets. -/
theorem topComma_iff {args : Text} {i : Nat} :
    TopComma args i ↔ ∃ front back : Text, args = front ++ ',' :: back ∧ front.byteSize = i ∧
      AtTop .code 0 front := by
  simp only [atTop_iff]
  constructor
  · rintro ⟨front, back, bare, hargs, hi, h⟩
    exact ⟨front, back, hargs, hi, bare, h⟩
  · rintro ⟨front, back, hargs, hi, bare, h⟩
    exact ⟨front, back, bare, hargs, hi, h⟩

/-- Nothing is cut off just when no comma is at the top. -/
theorem splitFirst?_eq_none_iff {args : Text} :
    args.splitFirst? = none ↔ ∀ i, ¬TopComma args i := by
  rw [splitFirst?, Option.map_eq_none_iff, commaFrom?_eq_none_iff]
  constructor
  · intro h i hi
    obtain ⟨front, back, hargs, -, htop⟩ := topComma_iff.1 hi
    exact h front back hargs htop
  · intro h front back hargs htop
    exact h _ (topComma_iff.2 ⟨front, back, hargs, rfl, htop⟩)

/-- Arguments are cut at a comma at the top with none before it. -/
theorem splitFirst?_append {front : Text} (hbefore : commaFrom? .code 0 front = none)
    (htop : AtTop .code 0 front) (back : Text) :
    (front ++ ',' :: back).splitFirst? = some (front.trim, back.trim) := by
  rw [splitFirst?, commaFrom?_append hbefore htop]
  rfl

/-- The cut is made at the first comma on top. -/
theorem splitFirst?_of_first {args : Text} {i : Nat} (hi : TopComma args i)
    (hfirst : ∀ j < i, ¬TopComma args j) :
    args.splitFirst? = some ((args.takeBytes i).trim, (args.dropBytes (i + 1)).trim) := by
  obtain ⟨front, back, rfl, rfl, htop⟩ := topComma_iff.1 hi
  have hbefore : commaFrom? .code 0 front = none := by
    refine commaFrom?_eq_none_iff.2 fun earlier rest hfront hearlier => ?_
    refine hfirst earlier.byteSize ?_ (topComma_iff.2
      ⟨earlier, rest ++ ',' :: back, by rw [hfront, List.append_assoc]; rfl, rfl, hearlier⟩)
    rw [hfront, byteSize_append, byteSize_cons]
    have := Char.utf8Size_pos ','
    omega
  have hbehind : (front ++ ',' :: back).dropBytes (front.byteSize + 1) = back := by
    have hsize : (front ++ [',']).byteSize = front.byteSize + 1 := by
      rw [byteSize_append]
      rfl
    rw [← hsize, List.append_cons front ',' back, dropBytes_append]
  rw [splitFirst?_append hbefore htop, takeBytes_append, hbehind]

/-- Behind a single argument the scan is at the top. -/
theorem OneArgument.atTop {text : Text} (h : OneArgument text) : AtTop .code 0 text := by
  obtain ⟨bare, hskeleton, hnonneg, hcount, -⟩ := h
  refine atTop_iff.2 ⟨bare, hskeleton, ?_⟩
  have hagree := @foldl_addBracket bare 0 (by simpa using hnonneg)
  rw [hcount] at hagree
  exact Int.ofNat_eq_zero.1 hagree

/-- The scan stops at no comma of a single argument. -/
theorem OneArgument.commaFrom?_eq_none {text : Text} (h : OneArgument text) :
    commaFrom? .code 0 text = none := by
  obtain ⟨bare, hskeleton, hnonneg, -, hcomma⟩ := h
  obtain ⟨-, rfl⟩ := skeleton_iff.1 hskeleton
  refine commaFrom?_eq_none_iff.2 fun front back htext htop => ?_
  have hbare : bareFrom .code text = bareFrom .code front ++ ',' :: bareFrom .code back := by
    rw [htext, bareFrom_append, htop.1, bareFrom_cons_plain rfl]
  have hfront : List.IsPrefix (bareFrom .code front ++ [',']) (bareFrom .code text) :=
    ⟨bareFrom .code back, by rw [hbare]; simp⟩
  -- Nothing closes too much, so the depth of zero at which the scan stops is the signed count.
  have hagree := @foldl_addBracket (bareFrom .code front) 0 fun prior hprior => by
    simpa using hnonneg prior ((hprior.trans (List.prefix_append _ _)).trans hfront)
  rw [htop.2] at hagree
  exact hcomma _ hfront (by simpa using hagree.symm)

/-- Arguments are cut in two at the first comma on top. A single argument in front of a comma is
what is cut off. In any list of arguments nothing is cut just when no comma is on top, and otherwise
the parts are what stands before and behind the first such comma, both trimmed. -/
theorem splitFirst?_at_first_comma :
    (∀ a b : Text, OneArgument a → (a ++ ',' :: b).splitFirst? = some (a.trim, b.trim)) ∧
      ∀ args : Text, (args.splitFirst? = none ↔ ∀ i, ¬TopComma args i) ∧
        ∀ i, TopComma args i → (∀ j < i, ¬TopComma args j) →
          args.splitFirst? = some ((args.takeBytes i).trim, (args.dropBytes (i + 1)).trim) :=
  ⟨fun _ b h => splitFirst?_append h.commaFrom?_eq_none h.atTop b,
    fun _ => ⟨splitFirst?_eq_none_iff, fun _ => splitFirst?_of_first⟩⟩

/-- A comma and a bracket in a literal, and two commas between brackets of which no two are
alike. -/
theorem splitFirst?_at_first_comma_nested :
    OneArgument "f('),', [1, 2\x7d)" ∧
      splitFirst? ("f('),', [1, 2\x7d)" ++ ',' :: " g(x), y") =
        some (("f('),', [1, 2\x7d)" : Text), ("g(x), y" : Text)) := by
  have hargument : OneArgument "f('),', [1, 2\x7d)" := by
    refine ⟨"f(, [1, 2\x7d)", skeleton_iff.2 (by decide), fun front hfront => ?_, by decide,
      fun front hfront => ?_⟩
    · have hnonneg : ∀ front ∈ List.inits "f(, [1, 2\x7d)".toList, 0 ≤ bracketCount front := by
        decide
      exact hnonneg front ((List.mem_inits _ _).2 hfront)
    · have hinside : ∀ front ∈ List.inits "f(, [1, 2\x7d)".toList, front.getLast? = some ',' →
          bracketCount front.dropLast ≠ 0 := by
        decide
      simpa using hinside _ ((List.mem_inits _ _).2 hfront)
  exact ⟨hargument, (splitFirst?_at_first_comma.1 _ _ hargument).trans (by decide)⟩

end Text

end Pagewright
