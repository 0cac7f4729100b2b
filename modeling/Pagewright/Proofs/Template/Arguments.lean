import Pagewright.Proofs.Template.Readers

/-!
# Arguments of well-formed calls

What the argument list of a well-formed call is read as. A quoted argument hides whatever it holds
from the search for the closing parenthesis and for the first comma (`Text.crosses_of_unquote?`), so
that it is an argument list of its own (`Text.balanced_of_crosses`), and an expression behind it is
handed over trimmed (`Text.splitFirst?_append_of_crosses`). A name between single quotes is such an
argument (`Text.unquote?_quoted`). An output tag gives its expression back without the blanks around
it (`Output.readTag_append`).
-/

namespace Pagewright

open Text

namespace Text

/-! ## Trimming -/

/-- Blanks at the head are dropped. -/
theorem trimStart_append {blanks text : Text} (h : ∀ c ∈ blanks, isBlank c) :
    (blanks ++ text).trimStart = text.trimStart := by
  rw [trimStart, List.dropWhile_append_of_pos h]
  rfl

/-- What is dropped at the end are blanks. -/
theorem trim_append_blanks (t : Text) :
    t.trim ++ (t.trimStart.reverse.takeWhile isBlank).reverse = t.trimStart := by
  rw [trim, trimEnd, ← List.reverse_append, List.takeWhile_append_dropWhile, List.reverse_reverse]

/-- A text is its trimmed part between blanks. -/
theorem exists_eq_trim (t : Text) : ∃ front back, t = front ++ t.trim ++ back ∧
    (∀ c ∈ front, isBlank c) ∧ ∀ c ∈ back, isBlank c := by
  refine ⟨t.takeWhile isBlank, (t.trimStart.reverse.takeWhile isBlank).reverse, ?_, ?_, ?_⟩
  · rw [List.append_assoc, trim_append_blanks]
    exact List.takeWhile_append_dropWhile.symm
  · exact fun c hc => List.mem_takeWhile_imp hc
  · exact fun c hc => List.mem_takeWhile_imp (List.mem_reverse.1 hc)

theorem trimStart_eq_self {t : Text} (h : ∀ c ∈ t.head?, isBlank c = false) : t.trimStart = t := by
  cases t with
  | nil => rfl
  | cons c t => exact List.dropWhile_cons_of_neg (by simp [h c rfl])

theorem trimEnd_eq_self {t : Text} (h : ∀ c ∈ t.getLast?, isBlank c = false) : t.trimEnd = t := by
  have := trimStart_eq_self (t := t.reverse) (by simpa using h)
  rw [trimStart] at this
  rw [trimEnd, this, List.reverse_reverse]

theorem trim_eq_self {t : Text} (hhead : ∀ c ∈ t.head?, isBlank c = false)
    (hlast : ∀ c ∈ t.getLast?, isBlank c = false) : t.trim = t := by
  rw [trim, trimStart_eq_self hhead, trimEnd_eq_self hlast]

/-- What has been trimmed does not start with a blank. -/
theorem isBlank_head_trim (t : Text) : ∀ c ∈ t.trim.head?, isBlank c = false := by
  intro c hc
  have := List.head?_dropWhile_not isBlank t
  rw [← trimStart, ← trim_append_blanks, List.head?_append, hc] at this
  exact this

/-- What has been trimmed does not end with a blank. -/
theorem isBlank_last_trim (t : Text) : ∀ c ∈ t.trim.getLast?, isBlank c = false := by
  intro c hc
  rw [trim, trimEnd, List.getLast?_reverse] at hc
  have := List.head?_dropWhile_not isBlank t.trimStart.reverse
  rwa [hc] at this

theorem trim_cons_blank {c : Char} (h : isBlank c) (t : Text) : trim (c :: t) = t.trim := by
  rw [trim, trim, trimStart, List.dropWhile_cons_of_pos h]
  rfl

theorem trim_trim (t : Text) : t.trim.trim = t.trim :=
  trim_eq_self (isBlank_head_trim t) (isBlank_last_trim t)

/-! ## Literals -/

/-- The characters that count outside of literals alone. -/
def isDelimiter (c : Char) : Bool :=
  c ∈ ['(', ')', '[', ']', '\x7b', '\x7d', ',']

/-- A scan gets over a text from one state to another, and outside of literals it meets neither
brackets nor commas. -/
def Crosses : Quoting → Text → Quoting → Prop
  | state, [], last => state = last
  | state, c :: rest, last =>
    (state = .code → isDelimiter c = false) ∧ Crosses (state.next c) rest last

theorem Crosses.append {state between last : Quoting} {a b : Text} (ha : Crosses state a between)
    (hb : Crosses between b last) : Crosses state (a ++ b) last := by
  induction a generalizing state with
  | nil =>
    obtain rfl : state = between := ha
    exact hb
  | cons c a ih => exact ⟨ha.1, ih ha.2⟩

/-- The search for a closing parenthesis passes over what is crossed. -/
theorem closingFrom?_of_crosses {state last : Quoting} {block : Text}
    (h : Crosses state block last) (depth : Nat) (rest : Text) :
    closingFrom? state depth (block ++ rest)
      = (closingFrom? last depth rest).map fun (args, rest) => (block ++ args, rest) := by
  induction block generalizing state with
  | nil =>
    obtain rfl : state = last := h
    exact Option.map_id'.symm
  | cons c block ih =>
    have hclose : ¬(state = .code ∧ c = ')' ∧ depth = 0) := by
      rintro ⟨hcode, rfl, -⟩
      exact absurd (h.1 hcode) (by decide)
    have hdepth : parenDepth state depth c = depth := by
      unfold parenDepth
      split
      case isFalse => rfl
      case isTrue hcode =>
        have hc := h.1 hcode
        rw [if_neg (by rintro rfl; revert hc; decide), if_neg (by rintro rfl; revert hc; decide)]
    rw [List.cons_append, closingFrom?, if_neg hclose, hdepth, ih h.2, Option.map_map]
    rfl

/-- The search for a comma passes over what is crossed. -/
theorem commaFrom?_of_crosses {state last : Quoting} {block : Text}
    (h : Crosses state block last) (depth : Nat) (rest : Text) :
    commaFrom? state depth (block ++ rest)
      = (commaFrom? last depth rest).map fun (first, rest) => (block ++ first, rest) := by
  induction block generalizing state with
  | nil =>
    obtain rfl : state = last := h
    exact Option.map_id'.symm
  | cons c block ih =>
    have hcomma : ¬(state = .code ∧ c = ',' ∧ depth = 0) := by
      rintro ⟨hcode, rfl, -⟩
      exact absurd (h.1 hcode) (by decide)
    have hdepth : bracketDepth state depth c = depth := by
      unfold bracketDepth
      split
      case isFalse => rfl
      case isTrue hcode =>
        have hc := h.1 hcode
        rw [if_neg (by rintro (rfl | rfl | rfl) <;> revert hc <;> decide),
          if_neg (by rintro (rfl | rfl | rfl) <;> revert hc <;> decide)]
    rw [List.cons_append, commaFrom?, if_neg hcomma, hdepth, ih h.2, Option.map_map]
    rfl

/-- Blanks are crossed outside of literals. -/
theorem crosses_blanks {blanks : Text} (h : ∀ c ∈ blanks, isBlank c) :
    Crosses .code blanks .code := by
  induction blanks with
  | nil => rfl
  | cons c blanks ih =>
    have hc := h c (by simp)
    have hquote : isQuote c = false := Bool.eq_false_iff.2 fun hquote => by
      rcases by simpa [isQuote] using hquote with rfl | rfl <;> exact absurd hc (by decide)
    have hdelimiter : isDelimiter c = false := Bool.eq_false_iff.2 fun hdelimiter => by
      rcases by simpa [isDelimiter] using hdelimiter with
        rfl | rfl | rfl | rfl | rfl | rfl | rfl <;> exact absurd hc (by decide)
    refine ⟨fun _ => hdelimiter, ?_⟩
    rw [Quoting.next, if_neg (by simp [hquote])]
    exact ih fun d hd => h d (List.mem_cons_of_mem _ hd)

/-- From inside of a literal one more character leads out of it, or on inside. -/
theorem next_inside {state : Quoting} {mark : Char}
    (h : state = .literal mark ∨ state = .escape mark) (c : Char) :
    state.next c = .code ∧ c = mark ∨ state.next c = .literal mark ∨
      state.next c = .escape mark := by
  rcases h with rfl | rfl
  · rw [Quoting.next]
    split
    · exact .inr (.inr rfl)
    · split
      case isTrue hc => exact .inl ⟨rfl, hc⟩
      case isFalse => exact .inr (.inl rfl)
  · exact .inr (.inl rfl)

/-- A literal is its inside and the mark that ends it. -/
theorem crosses_of_literalFrom? {state : Quoting} {mark : Char} {text inner : Text}
    (hstate : state = .literal mark ∨ state = .escape mark)
    (h : literalFrom? state text = some inner) :
    text = inner ++ [mark] ∧ Crosses state text .code := by
  induction text generalizing state inner with
  | nil => cases h
  | cons c text ih =>
    have hcode : state ≠ .code := by rcases hstate with rfl | rfl <;> nofun
    rw [literalFrom?] at h
    rcases next_inside hstate c with ⟨hnext, rfl⟩ | hnext
    · simp only [hnext] at h
      split at h
      case isFalse => cases h
      case isTrue hempty =>
        obtain rfl := Option.some.inj h
        exact ⟨by rw [hempty]; rfl, fun hstate => absurd hstate hcode, by rw [hempty]; exact hnext⟩
    · have hmap : (literalFrom? (state.next c) text).map (c :: ·) = some inner := by
        rcases hnext with hnext | hnext <;> simpa only [hnext] using h
      obtain ⟨tail, htail, rfl⟩ := Option.map_eq_some_iff.1 hmap
      obtain ⟨htext, hcrosses⟩ := ih hnext htail
      exact ⟨congrArg (c :: ·) htext, fun hstate => absurd hstate hcode, hcrosses⟩

/-- A quoted argument is its inside between two marks, and it hides its inside from every scan. -/
theorem crosses_of_unquote? {argument inner : Text} (h : argument.unquote? = some inner) :
    (∃ mark, isQuote mark = true ∧ argument.trim = mark :: (inner ++ [mark])) ∧
      Crosses .code argument .code := by
  obtain ⟨front, back, heq, hfront, hback⟩ := exists_eq_trim argument
  rw [unquote?] at h
  split at h
  case h_1 => cases h
  case h_2 mark rest htrim =>
    split at h
    case isFalse => cases h
    case isTrue hmark =>
      obtain ⟨rfl, hcrosses⟩ := crosses_of_literalFrom? (.inl rfl) h
      have hdelimiter : isDelimiter mark = false := by
        rcases by simpa [isQuote] using hmark with rfl | rfl <;> decide
      have hliteral : Crosses .code (mark :: (inner ++ [mark])) .code := by
        refine ⟨fun _ => hdelimiter, ?_⟩
        rw [Quoting.next, if_pos hmark]
        exact hcrosses
      refine ⟨⟨mark, hmark, htrim⟩, ?_⟩
      rw [heq, htrim]
      exact ((crosses_blanks hfront).append hliteral).append (crosses_blanks hback)

/-- A bare name has the quotes dropped that its literal holds. -/
theorem bareName_of_unquote? {argument inner : Text} (h : argument.unquote? = some inner) :
    argument.bareName = inner.filter fun c => !isQuote c := by
  obtain ⟨⟨mark, hmark, htrim⟩, -⟩ := crosses_of_unquote? h
  simp [bareName, htrim, hmark, List.filter_append]

/-- Blanks around an argument are not part of its bare name. -/
theorem bareName_trim (argument : Text) : argument.trim.bareName = argument.bareName := by
  rw [bareName, trim_trim, bareName]

/-- A literal alone is not cut in two. -/
theorem splitFirst?_of_crosses {argument : Text} (h : Crosses .code argument .code) :
    argument.splitFirst? = none := by
  have := commaFrom?_of_crosses h 0 []
  rw [List.append_nil] at this
  rw [splitFirst?, this]
  rfl

/-- A literal in front of a comma is cut off there. -/
theorem splitFirst?_append_of_crosses {argument : Text} (h : Crosses .code argument .code)
    (e : Text) : (argument ++ ", " ++ e).splitFirst? = some (argument.trim, e.trim) := by
  have hcomma : commaFrom? .code 0 (", " ++ e) = some ([], ' ' :: e) := rfl
  rw [splitFirst?, List.append_assoc, commaFrom?_of_crosses h, hcomma]
  simp [trim_cons_blank (c := ' ') (by decide)]

/-! ## Names between quotes -/

/-- A name between single quotes. -/
def quoted (name : Text) : Text :=
  '\'' :: (name ++ "'")

/-- Whether a text may stand between quotes as it is. -/
def isPlain (name : Text) : Bool :=
  name.all fun c => !isQuote c && c ≠ '\\'

theorem isPlain_cons {c : Char} {name : Text} (h : isPlain (c :: name)) :
    (isQuote c = false ∧ c ≠ '\\') ∧ isPlain name := by
  simpa [isPlain] using h

theorem next_of_isPlain {c : Char} (h : isQuote c = false ∧ c ≠ '\\') :
    (Quoting.literal '\'').next c = .literal '\'' := by
  have hmark : c ≠ '\'' := by
    rintro rfl
    exact absurd h.1 (by decide)
  simp [Quoting.next, h.2, hmark]

theorem trim_quoted (name : Text) : (quoted name).trim = quoted name :=
  trim_eq_self (by rintro c ⟨⟩; decide) (by simp [quoted, List.getLast?_cons]; decide)

/-- A plain name between quotes can be read back. -/
theorem unquote?_quoted {name : Text} (h : isPlain name) : (quoted name).unquote? = some name := by
  have hinside : ∀ {name : Text}, isPlain name →
      literalFrom? (.literal '\'') (name ++ "'") = some name := by
    intro name h
    induction name with
    | nil => rfl
    | cons c name ih =>
      obtain ⟨hc, hname⟩ := isPlain_cons h
      rw [List.cons_append, literalFrom?, next_of_isPlain hc]
      simp only [ih hname, Option.map_some]
  rw [unquote?, trim_quoted]
  exact hinside h

/-- A plain name between quotes is a literal. -/
theorem crosses_quoted {name : Text} (h : isPlain name) : Crosses .code (quoted name) .code :=
  (crosses_of_unquote? (unquote?_quoted h)).2

/-- A plain name between quotes has itself for a bare name. -/
theorem bareName_quoted {name : Text} (h : isPlain name) : (quoted name).bareName = name := by
  rw [bareName_of_unquote? (unquote?_quoted h), List.filter_eq_self]
  intro c hc
  have := List.all_eq_true.1 h c hc
  exact (Bool.and_eq_true_iff.1 this).1

theorem splitFirst?_quoted {name : Text} (h : isPlain name) :
    (quoted name).splitFirst? = none :=
  splitFirst?_of_crosses (crosses_quoted h)

/-- A quoted name in front of a comma is the first argument. -/
theorem splitFirst?_quoted_append {name : Text} (h : isPlain name) (e : Text) :
    (quoted name ++ ", " ++ e).splitFirst? = some (quoted name, e.trim) := by
  rw [splitFirst?_append_of_crosses (crosses_quoted h), trim_quoted]

/-! ## Argument lists that end where they are meant to -/

/-- The argument list ends where it is meant to: the parenthesis behind it closes the one before
it. -/
def Balanced (args : Text) : Prop :=
  closing? (args ++ [')']) = some (args, [])

instance : DecidablePred Balanced :=
  fun args => inferInstanceAs (Decidable (closing? (args ++ [')']) = some (args, [])))

/-- A literal is a balanced list of arguments. -/
theorem balanced_of_crosses {argument : Text} (h : Crosses .code argument .code) :
    Balanced argument := by
  rw [Balanced, closing?, closingFrom?_of_crosses h]
  simp [closingFrom?]

/-- A literal and a balanced expression make a balanced list of arguments. -/
theorem Balanced.append_of_crosses {argument e : Text} (h : Crosses .code argument .code)
    (he : Balanced e) : Balanced (argument ++ ", " ++ e) := by
  have he : closingFrom? .code 0 (e ++ [')']) = some (e, []) := he
  have hcomma : closingFrom? .code 0 (", " ++ (e ++ [')'])) = some (", " ++ e, []) := by
    simp [closingFrom?, parenDepth, Quoting.next, isQuote, he]
  rw [Balanced, closing?, List.append_assoc, List.append_assoc, closingFrom?_of_crosses h, hcomma]
  simp

theorem balanced_quoted {name : Text} (h : isPlain name) : Balanced (quoted name) :=
  balanced_of_crosses (crosses_quoted h)

theorem Balanced.quoted_append {name e : Text} (h : isPlain name) (he : Balanced e) :
    Balanced (quoted name ++ ", " ++ e) :=
  he.append_of_crosses (crosses_quoted h)

/-- A search that ends at the last parenthesis ends there whatever follows. -/
theorem closingFrom?_append {state : Quoting} {depth : Nat} {args : Text}
    (h : closingFrom? state depth (args ++ [')']) = some (args, [])) (rest : Text) :
    closingFrom? state depth (args ++ ')' :: rest) = some (args, rest) := by
  induction args generalizing state depth with
  | nil =>
    by_cases hc : state = .code ∧ ')' = ')' ∧ depth = 0
    · exact if_pos hc
    · have hnone : closingFrom? state depth [')'] = none := if_neg hc
      simp [hnone] at h
  | cons c args ih =>
    rw [List.cons_append, closingFrom?] at h ⊢
    by_cases hc : state = .code ∧ c = ')' ∧ depth = 0
    · simp [hc] at h
    · rw [if_neg hc] at h ⊢
      obtain ⟨⟨a, r⟩, ha, hpair⟩ := Option.map_eq_some_iff.1 h
      obtain ⟨hcons, rfl⟩ := Prod.mk.inj hpair
      obtain rfl := (List.cons.inj hcons).2
      rw [ih ha]
      rfl

end Text

/-! ## Expressions between tags -/

namespace Output

/-- The expression of an output tag: it is not empty, stands on one line and does not hold the
closing mark. -/
def Enclosed (close e : Text) : Prop :=
  e.trim ≠ [] ∧ '\n' ∉ e.trim ∧ ¬close <:+: e.trim

instance (close : Text) : DecidablePred (Enclosed close) :=
  fun e => inferInstanceAs (Decidable (e.trim ≠ [] ∧ '\n' ∉ e.trim ∧ ¬close <:+: e.trim))

variable {close : Text}

/-- The closing mark is not read over the end of an expression that does not hold it, since blanks
follow. -/
theorem after?_of_not_infix (hclose : ∀ c ∈ close, isBlank c = false) {e tail : Text}
    (he : ¬close <:+: e) (htail : ∀ c ∈ tail.head?, isBlank c) :
    after? (e ++ tail) close = none := by
  rw [Option.eq_none_iff_forall_ne_some]
  intro rest hr
  rcases List.append_eq_append_iff.1 (after?_eq_some_iff.1 hr) with ⟨x, rfl, hx⟩ | ⟨x, rfl, -⟩
  · cases x with
    | nil => exact he (by simp)
    | cons c x =>
      have hblank := htail c (by simp [hx])
      rw [hclose c (by simp)] at hblank
      exact absurd hblank (by decide)
  · exact he ⟨[], x, by simp⟩

/-- An expression ends in front of the blanks before the closing mark. -/
theorem expressionEnd?_append (hclose : ∀ c ∈ close, isBlank c = false) (hne : close ≠ [])
    {e blanks : Text} (hlast : ∀ c ∈ e.getLast?, isBlank c = false) (hline : '\n' ∉ e)
    (hinside : ¬close <:+: e) (hblanks : ∀ c ∈ blanks, isBlank c) (hb : blanks ≠ [])
    (rest : Text) : expressionEnd? close (e ++ (blanks ++ (close ++ rest))) = some (e, blanks) := by
  have hhead : ∀ c ∈ (close ++ rest).head?, isBlank c = false := by
    obtain ⟨c, tail, rfl⟩ := List.exists_cons_of_ne_nil hne
    rintro d ⟨⟩
    exact hclose c (by simp)
  induction e with
  | nil =>
    obtain ⟨c, tail, rfl⟩ := List.exists_cons_of_ne_nil hb
    have hstart : trimStart (c :: (tail ++ (close ++ rest))) = close ++ rest :=
      (trimStart_append hblanks).trans (trimStart_eq_self hhead)
    have htake : (c :: (tail ++ (close ++ rest))).takeWhile isBlank = c :: tail := by
      rw [← List.cons_append, List.takeWhile_append_of_pos hblanks]
      obtain ⟨d, tail', rfl⟩ := List.exists_cons_of_ne_nil hne
      simp [hclose d]
    rw [List.nil_append, List.cons_append, expressionEnd?_cons, hstart, after?_append]
    exact congrArg (fun blanks => some ([], blanks)) htake
  | cons c e ih =>
    -- Blanks at the head of what is left belong to the expression: it does not end in one.
    have hstart : trimStart (c :: (e ++ (blanks ++ (close ++ rest))))
        = trimStart (c :: e) ++ (blanks ++ (close ++ rest)) := by
      have hnonblank : (c :: e).dropWhile isBlank ≠ [] := by
        intro hnil
        have hall := List.dropWhile_eq_nil_iff.1 hnil
        have hmem := List.getLast_mem (l := c :: e) (by simp)
        have := hlast _ (List.getLast?_eq_some_getLast (by simp))
        rw [hall _ hmem] at this
        exact absurd this (by decide)
      rw [← List.cons_append, trimStart, List.dropWhile_append,
        if_neg (by simpa using hnonblank)]
      rfl
    have hnone : after? (trimStart (c :: (e ++ (blanks ++ (close ++ rest))))) close = none := by
      rw [hstart]
      refine after?_of_not_infix hclose ?_ ?_
      · exact fun h => hinside (h.trans (List.dropWhile_suffix _).isInfix)
      · obtain ⟨d, tail, rfl⟩ := List.exists_cons_of_ne_nil hb
        rintro x ⟨⟩
        exact hblanks d (by simp)
    have hlast' : ∀ d ∈ e.getLast?, isBlank d = false := by
      intro d hd
      refine hlast d ?_
      rw [List.getLast?_cons, hd]
      rfl
    rw [List.cons_append, expressionEnd?_cons, hnone]
    simp only
    rw [if_neg (by rintro rfl; simp at hline), ih hlast' (fun h => hline (by simp [h]))
      fun h => hinside (h.trans (List.suffix_cons _ _).isInfix)]
    rfl

/-- An output tag with blanks around its expression gives the trimmed expression. -/
theorem readTag_append (opening : Text) (hclose : close.any isBlank = false)
    (hne : close ≠ []) {e : Text} (he : Enclosed close e) (rest : Text) :
    readTag opening close (opening ++ (" " ++ (e ++ (" " ++ (close ++ rest)))))
      = some ⟨opening ++ (" " ++ (e ++ (" " ++ close))), some e.trim⟩ := by
  obtain ⟨front, back, heq, hfront, hback⟩ := exists_eq_trim e
  obtain ⟨c, tail, htrim⟩ := List.exists_cons_of_ne_nil he.1
  have hc : isBlank c = false := isBlank_head_trim e c (by simp [htrim])
  have hspace : ∀ blanks : Text, (∀ d ∈ blanks, isBlank d) → ∀ d ∈ ' ' :: blanks, isBlank d := by
    intro blanks h d hd
    rcases List.mem_cons.1 hd with rfl | hd
    · decide
    · exact h d hd
  have hend : expressionEnd? close (tail ++ ((back ++ " ") ++ (close ++ rest)))
      = some (tail, back ++ " ") := by
    refine expressionEnd?_append (by simpa using hclose) hne ?_ ?_ ?_ ?_ (by simp) rest
    · intro d hd
      refine isBlank_last_trim e d ?_
      rw [htrim, List.getLast?_cons, hd]
      rfl
    · exact fun h => he.2.1 (by simp [htrim, h])
    · rw [Enclosed, htrim] at he
      exact fun h => he.2.2 (h.trans (List.suffix_cons _ _).isInfix)
    · intro d hd
      rcases List.mem_append.1 hd with hd | hd
      · exact hback d hd
      · exact hspace [] (by simp) d hd
  have hrest : " " ++ (e ++ (" " ++ (close ++ rest)))
      = ' ' :: front ++ c :: (tail ++ ((back ++ " ") ++ (close ++ rest))) := by
    conv_lhs => rw [heq, htrim]
    simp
  have htake : List.takeWhile isBlank (" " ++ (e ++ (" " ++ (close ++ rest)))) = ' ' :: front := by
    rw [hrest, List.takeWhile_append_of_pos (hspace front hfront)]
    simp [hc]
  have hdrop : List.dropWhile isBlank (" " ++ (e ++ (" " ++ (close ++ rest))))
      = c :: (tail ++ ((back ++ " ") ++ (close ++ rest))) := by
    rw [hrest, List.dropWhile_append_of_pos (hspace front hfront)]
    simp [hc]
  have hpiece : opening ++ (" " ++ (e ++ (" " ++ close)))
      = opening ++ (' ' :: front) ++ c :: tail ++ (back ++ " ") ++ close := by
    conv_lhs => rw [heq, htrim]
    simp
  rw [readTag, after?_append, hpiece, htrim]
  simp only [Option.bind_eq_bind, Option.bind_some, hdrop, htake, hend]
  rfl

end Output

end Pagewright
