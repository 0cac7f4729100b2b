import Mathlib.Data.List.Basic
import Mathlib.Tactic.Common
import Pagewright.Page.FrontMatter
import Pagewright.Proofs.Template.Scan

/-!
# The settings block of a page

The settings of a page are meant to stand between two lines of three dashes. `FrontMatter.ofLines?`
reads them so, line by line. The reader itself goes by the dashes alone: the block ends at the next
three dashes, wherever they stand, less the line breaks around it (`FrontMatter.split?_eq`). The two
agree just when both rows of dashes that the reader goes by have a line of their own
(`FrontMatter.read_by_rows`).
-/

namespace Pagewright

namespace Text

/-! ## Lines -/

/-- The two ways to end a line. -/
def IsBreak (ending : Text) : Prop :=
  ending = ['\n'] ∨ ending = ['\r', '\n']

instance (ending : Text) : Decidable (IsBreak ending) :=
  inferInstanceAs (Decidable (_ ∨ _))

/-- One more character before the first line. -/
def linesAfter (c : Char) : List (Text × Text) → List (Text × Text)
  | [] => [([c], [])]
  | (line, ending) :: rest => (c :: line, ending) :: rest

/-- The lines of a text, each with the break that ends it. Only the last line may have none. -/
def lines : Text → List (Text × Text)
  | [] => []
  | '\n' :: rest => ([], ['\n']) :: lines rest
  | '\r' :: '\n' :: rest => ([], ['\r', '\n']) :: lines rest
  | c :: rest => linesAfter c (lines rest)

/-- The text that lines spell. -/
def ofLines (lines : List (Text × Text)) : Text :=
  lines.flatMap fun line => line.1 ++ line.2

/-- A character in front of some lines goes to the first of them. -/
theorem ofLines_linesAfter (c : Char) (lines : List (Text × Text)) :
    ofLines (linesAfter c lines) = c :: ofLines lines := by
  cases lines <;> rfl

/-- The lines of a text make up the text. -/
theorem ofLines_lines (text : Text) : ofLines (lines text) = text := by
  fun_induction lines text with
  | case1 => rfl
  | case2 rest ih => exact congrArg ('\n' :: ·) ih
  | case3 rest ih => exact congrArg ('\r' :: '\n' :: ·) ih
  | case4 c rest _ _ ih => rw [ofLines_linesAfter, ih]

/-- A character that ends no line goes to the line that follows. -/
theorem lines_cons {c : Char} {rest : Text} (hfeed : c ≠ '\n')
    (hreturn : c = '\r' → rest.head? ≠ some '\n') :
    lines (c :: rest) = linesAfter c (lines rest) := by
  refine lines.eq_4 c rest hfeed ?_
  rintro tail rfl rfl
  exact hreturn rfl rfl

theorem lines_eq_nil_iff {text : Text} : lines text = [] ↔ text = [] := by
  constructor
  · intro h
    rw [← ofLines_lines text, h]
    rfl
  · rintro rfl
    rfl

/-- A line break ends a line, whatever follows it. -/
theorem lines_append {front : Text} (h : front = [] ∨ front.getLast? = some '\n') (rest : Text) :
    lines (front ++ rest) = lines front ++ lines rest := by
  fun_induction lines front with
  | case1 => rfl
  | case2 tail ih =>
    have htail : tail = [] ∨ tail.getLast? = some '\n' := by
      cases tail with
      | nil => exact .inl rfl
      | cons d tail => exact .inr (by simpa using h)
    rw [List.cons_append, List.cons_append, lines, ih htail]
  | case3 tail ih =>
    have htail : tail = [] ∨ tail.getLast? = some '\n' := by
      cases tail with
      | nil => exact .inl rfl
      | cons d tail => exact .inr (by simpa using h)
    rw [List.cons_append, List.cons_append, List.cons_append, lines, ih htail]
  | case4 c tail hfeed hreturn ih =>
    cases tail with
    | nil =>
      obtain rfl : c = '\n' := by simpa using h
      exact absurd rfl hfeed
    | cons d tail =>
      have hbreak : c = '\r' → (d :: tail ++ rest).head? ≠ some '\n' := by
        rintro rfl hd
        obtain rfl : d = '\n' := by simpa using hd
        exact hreturn tail rfl rfl
      rw [List.cons_append, lines_cons hfeed hbreak, ih (.inr (by simpa using h))]
      cases hlines : lines (d :: tail) with
      | nil => cases lines_eq_nil_iff.1 hlines
      | cons line more => rfl

/-- A line ends with a line break, or it is the last one. -/
theorem ending_of_mem_lines {text : Text} {line : Text × Text} (h : line ∈ lines text) :
    line.2 = [] ∨ IsBreak line.2 := by
  fun_induction lines text generalizing line with
  | case1 => cases h
  | case2 rest ih =>
    rcases List.mem_cons.1 h with rfl | h
    · exact .inr (.inl rfl)
    · exact ih h
  | case3 rest ih =>
    rcases List.mem_cons.1 h with rfl | h
    · exact .inr (.inr rfl)
    · exact ih h
  | case4 c rest _ _ ih =>
    cases hlines : lines rest with
    | nil =>
      rw [hlines] at h
      obtain rfl := List.mem_singleton.1 h
      exact .inl rfl
    | cons first more =>
      rw [hlines] at h ih
      rcases List.mem_cons.1 h with rfl | h
      · exact @ih first List.mem_cons_self
      · exact ih (List.mem_cons_of_mem _ h)

/-- Every line that another one follows has a break at its end. -/
theorem pairwise_lines (text : Text) : (lines text).Pairwise fun line _ => IsBreak line.2 := by
  fun_induction lines text with
  | case1 => exact .nil
  | case2 rest ih => exact .cons (fun _ _ => .inl rfl) ih
  | case3 rest ih => exact .cons (fun _ _ => .inr rfl) ih
  | case4 c rest _ _ ih =>
    cases hlines : lines rest with
    | nil => exact List.pairwise_singleton _ _
    | cons first more =>
      rw [hlines] at ih
      exact .cons (fun other hother => List.rel_of_pairwise_cons ih hother) ih.of_cons

theorem ofLines_append (first second : List (Text × Text)) :
    ofLines (first ++ second) = ofLines first ++ ofLines second :=
  List.flatMap_append

/-- Lines that all have a break at their end spell a text that ends a line. -/
theorem getLast?_ofLines {lines : List (Text × Text)} (h : ∀ line ∈ lines, IsBreak line.2) :
    ofLines lines = [] ∨ (ofLines lines).getLast? = some '\n' := by
  rcases List.eq_nil_or_concat' lines with rfl | ⟨front, line, rfl⟩
  · exact .inl rfl
  · right
    have hlast : ofLines [line] = line.1 ++ line.2 := by simp [ofLines]
    rw [ofLines_append, hlast]
    rcases h line (by simp) with hline | hline <;> simp [hline]

/-- The lines of a text stand in it. -/
theorem infix_of_mem_lines {text : Text} {line : Text × Text} (h : line ∈ lines text) :
    line.1 <:+: text := by
  obtain ⟨front, back, hlines⟩ := List.append_of_mem h
  have htext := ofLines_lines text
  rw [hlines, ofLines_append] at htext
  exact ⟨ofLines front, line.2 ++ ofLines back, by simpa [ofLines] using htext⟩

end Text

namespace FrontMatter

open Text

/-! ## Rows of dashes -/

/-- Three dashes. -/
def row : Text := "---"

/-- What stands between the first two rows of dashes and what stands behind them, in a text that
starts with dashes. -/
def betweenRows? (text : Text) : Option (Text × Text) :=
  (afterDashes? text).bind (cut? · row)

/-- A text without the line break at its end, of which a part is enough. -/
def dropLastBreak : Text → Text
  | [] => []
  | c :: rest =>
    if IsBreak (c :: rest) ∨ c :: rest = ['\r'] then [] else c :: dropLastBreak rest

/-- The settings between two lines of three dashes, the first one being the first line of the text,
and the body behind them. -/
def ofLines? (text : Text) : Option (Text × Text) :=
  match text.lines with
  | [] => none
  | (first, ending) :: rest =>
    if first = row ∧ ending ≠ [] then
      match rest.dropWhile fun line => line.1 ≠ row with
      | [] => none
      | _ :: behind =>
        some (dropLastBreak (ofLines (rest.takeWhile fun line => line.1 ≠ row)), ofLines behind)
    else none

/-- A part of a text that counts as one line break. -/
def IsPassed (dropped : Text) : Prop :=
  dropped = [] ∨ IsBreak dropped ∨ dropped = ['\r']

/-- What is dropped at the head is a line break, or nothing. -/
theorem exists_dropBreak (text : Text) :
    ∃ dropped, IsPassed dropped ∧ text = dropped ++ dropBreak text := by
  rcases text with _ | ⟨c, _ | ⟨d, rest⟩⟩
  · exact ⟨[], .inl rfl, rfl⟩
  · by_cases hreturn : c = '\r'
    · exact ⟨['\r'], .inr (.inr rfl), by simp [dropBreak, after?, hreturn]⟩
    · by_cases hfeed : c = '\n'
      · exact ⟨['\n'], .inr (.inl (.inl rfl)), by simp [dropBreak, after?, hfeed]⟩
      · exact ⟨[], .inl rfl, by simp [dropBreak, after?, hreturn, hfeed]⟩
  · by_cases hreturn : c = '\r'
    · by_cases hfeed : d = '\n'
      · exact ⟨['\r', '\n'], .inr (.inl (.inr rfl)), by simp [dropBreak, after?, hreturn, hfeed]⟩
      · exact ⟨['\r'], .inr (.inr rfl), by simp [dropBreak, after?, hreturn, hfeed]⟩
    · by_cases hfeed : c = '\n'
      · exact ⟨['\n'], .inr (.inl (.inl rfl)), by simp [dropBreak, after?, hfeed]⟩
      · exact ⟨[], .inl rfl, by simp [dropBreak, after?, hreturn, hfeed]⟩

/-- Dropping a break in front of a row of dashes leaves the row alone. -/
theorem dropBreak_append_row (front rest : Text) :
    dropBreak (front ++ (row ++ rest)) = dropBreak front ++ (row ++ rest) := by
  have hrow : row ++ rest = '-' :: '-' :: '-' :: rest := rfl
  rw [hrow]
  rcases front with _ | ⟨c, _ | ⟨d, front⟩⟩
  · rfl
  · by_cases hreturn : c = '\r'
    · simp [dropBreak, after?, hreturn]
    · by_cases hfeed : c = '\n' <;> simp [dropBreak, after?, hreturn, hfeed]
  · by_cases hreturn : c = '\r'
    · by_cases hfeed : d = '\n' <;> simp [dropBreak, after?, hreturn, hfeed]
    · by_cases hfeed : c = '\n' <;> simp [dropBreak, after?, hreturn, hfeed]

theorem dropBreak_of_isPassed {dropped : Text} (h : IsPassed dropped) : dropBreak dropped = [] := by
  rcases h with rfl | (rfl | rfl) | rfl <;> rfl

theorem dropLastBreak_of_isPassed {dropped : Text} (h : IsPassed dropped) :
    dropLastBreak dropped = [] := by
  rcases h with rfl | (rfl | rfl) | rfl <;> rfl

/-- Something stands behind three dashes when the text starts with them. -/
theorem afterDashes?_eq_some_iff {text rest : Text} :
    afterDashes? text = some rest ↔ text = row ++ rest :=
  after?_eq_some_iff

/-- Dashes do not start inside of a line break. -/
theorem along_of_isPassed {dropped : Text} (h : IsPassed dropped) (rest : Text) :
    Along (after? · row = none) dropped rest := by
  rcases h with rfl | (rfl | rfl) | rfl
  · trivial
  · exact ⟨rfl, trivial⟩
  · exact ⟨rfl, rfl, trivial⟩
  · exact ⟨rfl, trivial⟩

/-- The block ends at the next three dashes. -/
theorem closing?_eq (text : Text) :
    closing? text = (cut? text row).map fun found =>
      (dropLastBreak found.1, dropBreak found.2) := by
  induction text with
  | nil => rfl
  | cons c text ih =>
    rw [closing?]
    obtain ⟨dropped, hpassed, htext⟩ := exists_dropBreak (c :: text)
    cases hafter : afterDashes? (dropBreak (c :: text)) with
    | some body =>
      rw [afterDashes?_eq_some_iff.1 hafter] at htext
      rw [htext, cut?_append (by decide) (along_of_isPassed hpassed _)]
      simp [dropLastBreak_of_isPassed hpassed]
    | none =>
      have hfront : ∀ front behind, c :: text = front ++ (row ++ behind) → ¬IsPassed front := by
        intro front behind heq hfront
        rw [heq, dropBreak_append_row, dropBreak_of_isPassed hfront, List.nil_append,
          afterDashes?_eq_some_iff.2 rfl] at hafter
        cases hafter
      rw [cut?]
      cases hrow : after? (c :: text) row with
      | some rest =>
        exact absurd (.inl rfl) (hfront [] rest (afterDashes?_eq_some_iff.1 hrow))
      | none =>
        simp only [ih]
        cases hcut : cut? text row with
        | none => rfl
        | some found =>
          have htext := eq_append_of_cut? hcut
          have hpassed := hfront (c :: found.1) found.2 (by rw [htext]; simp)
          have hkeeps : dropLastBreak (c :: found.1) = c :: dropLastBreak found.1 :=
            if_neg fun h => hpassed (.inr h)
          simp [hkeeps]

/-- The first two rows of dashes, and nothing else, say where the block is. -/
theorem split?_eq (text : Text) :
    split? text = (betweenRows? text).map fun found =>
      (dropLastBreak (dropBreak found.1), dropBreak found.2) := by
  rw [split?, betweenRows?]
  cases afterDashes? text with
  | none => rfl
  | some rest =>
    rw [Option.bind_some, Option.bind_some, closing?_eq]
    cases hcut : cut? rest row with
    | none =>
      obtain ⟨dropped, -, hrest⟩ := exists_dropBreak rest
      have hnone := (cut?_eq_none_iff (by decide)).1 hcut
      rw [(cut?_eq_none_iff (by decide)).2 fun hinside =>
        hnone (hinside.trans ⟨dropped, [], by simpa using hrest.symm⟩)]
      rfl
    | some found =>
      obtain ⟨front, behind⟩ := found
      obtain ⟨dropped, -, hfront⟩ := exists_dropBreak front
      have halong := along_of_cut? hcut
      rw [hfront] at halong
      have hrest := eq_append_of_cut? hcut
      rw [hrest, List.append_assoc, dropBreak_append_row, cut?_append (by decide)
        (along_append.1 halong).2]
      rfl

/-! ## Rows on lines of their own -/

/-- A text starts with the end of a line. -/
def StartsWithBreak (text : Text) : Prop :=
  ∃ ending rest, IsBreak ending ∧ text = ending ++ rest

/-- A row of dashes with a line break behind it is a line. -/
theorem lines_row {ending : Text} (h : IsBreak ending) (rest : Text) :
    lines (row ++ (ending ++ rest)) = (row, ending) :: lines rest := by
  rcases h with rfl | rfl <;> rfl

/-- A line break at the head is dropped. -/
theorem dropBreak_of_isBreak {ending : Text} (h : IsBreak ending) (rest : Text) :
    dropBreak (ending ++ rest) = rest := by
  rcases h with rfl | rfl <;> simp [dropBreak, after?]

/-- Both rows of dashes have a line of their own. -/
structure OnLines (front behind : Text) : Prop where
  opened : StartsWithBreak front
  started : front.getLast? = some '\n'
  ended : behind = [] ∨ StartsWithBreak behind

/-- Line by line, the block ends at the next three dashes if these have a line of their own. -/
theorem ofLines?_of_onLines {text front behind : Text}
    (h : betweenRows? text = some (front, behind))
    (hlines : OnLines front behind) :
    ofLines? text = some (dropLastBreak (dropBreak front), dropBreak behind) := by
  obtain ⟨rest, hrest, hcut⟩ := Option.bind_eq_some_iff.1 h
  obtain ⟨⟨ending, inner, hending, rfl⟩, hstarted, hended⟩ := hlines
  obtain ⟨close, body, hbehind, hrow⟩ : ∃ close body, dropBreak behind = body ∧
      lines (row ++ behind) = (row, close) :: lines body := by
    rcases hended with rfl | ⟨close, body, hclose, rfl⟩
    · exact ⟨[], [], rfl, rfl⟩
    · exact ⟨close, body, dropBreak_of_isBreak hclose body, lines_row hclose body⟩
  have hinner : inner = [] ∨ inner.getLast? = some '\n' := by
    cases inner with
    | nil => exact .inl rfl
    | cons c inner => exact .inr (by simpa using hstarted)
  have htext : lines text = (row, ending) :: (lines inner ++ (row, close) :: lines body) := by
    rw [afterDashes?_eq_some_iff.1 hrest, eq_append_of_cut? hcut, List.append_assoc,
      List.append_assoc, lines_row hending, lines_append hinner, hrow]
  have hother : ∀ line ∈ lines inner, decide (line.1 ≠ row) = true := by
    intro line hline
    refine decide_eq_true fun heq => not_isInfix_of_along (by decide) (along_of_cut? hcut) ?_
    exact heq ▸ (infix_of_mem_lines hline).trans (List.suffix_append _ _).isInfix
  have hne : ending ≠ [] := by rcases hending with rfl | rfl <;> simp
  rw [ofLines?, htext]
  simp only [hne, ne_eq, not_false_eq_true, and_self, if_true]
  rw [List.dropWhile_append_of_pos hother, List.takeWhile_append_of_pos hother]
  simp [ofLines_lines, dropBreak_of_isBreak hending, hbehind]

/-- A block that is found by lines stands between two lines of dashes. -/
theorem lines_of_ofLines? {text block body : Text} (h : ofLines? text = some (block, body)) :
    ∃ ending between close behind,
      lines text = (row, ending) :: (between ++ (row, close) :: behind) ∧ ending ≠ [] ∧
      block = dropLastBreak (ofLines between) := by
  unfold ofLines? at h
  split at h
  · cases h
  case h_2 first ending rest hlines =>
    split at h
    case isFalse => cases h
    case isTrue hfirst =>
      obtain ⟨rfl, hne⟩ := hfirst
      split at h
      · cases h
      case h_2 line behind hdrop =>
        cases h
        have hhead := List.head?_dropWhile_not (fun line => decide (line.1 ≠ row)) rest
        rw [hdrop] at hhead
        have hrow : line.1 = row := by simpa using hhead
        refine ⟨ending, _, line.2, behind, ?_, hne, rfl⟩
        have hline : (row, line.2) :: behind =
            rest.dropWhile fun line => decide (line.1 ≠ row) := by
          rw [hdrop, ← hrow]
        rw [hlines, hline, List.takeWhile_append_dropWhile]

/-- What is read line by line stands between two rows of dashes on lines of their own. -/
theorem exists_of_ofLines? {text block body : Text} (h : ofLines? text = some (block, body)) :
    ∃ ending inner behind, IsBreak ending ∧ text = row ++ (ending ++ (inner ++ (row ++ behind))) ∧
      (inner = [] ∨ inner.getLast? = some '\n') ∧ (behind = [] ∨ StartsWithBreak behind) ∧
      block = dropLastBreak inner := by
  obtain ⟨ending, between, close, behind, hlines, hne, hblock⟩ := lines_of_ofLines? h
  have htext := ofLines_lines text
  have hpairs := pairwise_lines text
  rw [hlines] at htext hpairs
  obtain ⟨hfirst, hpairs⟩ := List.pairwise_cons.1 hpairs
  obtain ⟨-, hclose, hbetween⟩ := List.pairwise_append.1 hpairs
  refine ⟨ending, ofLines between, close ++ ofLines behind, hfirst (row, close) (by simp), ?_,
    getLast?_ofLines fun line hline => hbetween line hline (row, close) (by simp), ?_, hblock⟩
  · rw [← htext]
    simp [ofLines]
  · cases behind with
    | nil =>
      have hmem : (row, close) ∈ lines text := by simp [hlines]
      rcases ending_of_mem_lines hmem with hnil | hbreak
      · exact .inl (by simpa [ofLines] using hnil)
      · exact .inr ⟨close, [], hbreak, rfl⟩
    | cons line behind =>
      exact .inr ⟨close, _, List.rel_of_pairwise_cons hclose List.mem_cons_self, rfl⟩

/-- What is dropped at the end is a line break, or nothing. -/
theorem exists_dropLastBreak (text : Text) :
    ∃ dropped, IsPassed dropped ∧ text = dropLastBreak text ++ dropped := by
  induction text with
  | nil => exact ⟨[], .inl rfl, rfl⟩
  | cons c text ih =>
    by_cases h : IsBreak (c :: text) ∨ c :: text = ['\r']
    · exact ⟨c :: text, .inr h, by rw [dropLastBreak, if_pos h, List.nil_append]⟩
    · obtain ⟨dropped, hpassed, htext⟩ := ih
      refine ⟨dropped, hpassed, ?_⟩
      rw [dropLastBreak, if_neg h, List.cons_append, ← htext]

/-- Dashes do not start in what is left of a text, nor in the line break behind it. -/
theorem not_isInfix_of_dropLastBreak {text : Text} (h : ¬row <:+: dropLastBreak text) :
    ¬row <:+: text := by
  obtain ⟨dropped, hpassed, htext⟩ := exists_dropLastBreak text
  have halong := along_of_isPassed hpassed []
  have htail : row.tail = ['-', '-'] := rfl
  have hdropped : ∀ c ∈ dropped, c ∉ row.tail := by
    rw [htail]
    rcases hpassed with rfl | (rfl | rfl) | rfl <;> simp
  rw [htext]
  cases dropped with
  | nil => rwa [List.append_nil]
  | cons c dropped =>
    exact not_isInfix_of_along (by decide)
      (along_append.2 ⟨along_of_mark c h (hdropped c List.mem_cons_self) rfl, halong⟩)

/-- A text that ends with a line break, and has no row of dashes in it, makes none with what
follows. -/
theorem along_of_ended {text : Text} (hended : text = [] ∨ text.getLast? = some '\n')
    (h : ¬row <:+: text) (rest : Text) : Along (after? · row = none) text rest := by
  rcases List.eq_nil_or_concat' text with rfl | ⟨front, c, rfl⟩
  · trivial
  · obtain rfl : c = '\n' := by simpa using hended
    refine along_append.2 ⟨along_of_mark '\n' (fun hinside => ?_) (by decide) rfl, rfl, trivial⟩
    exact h (hinside.trans (List.prefix_append _ _).isInfix)

/-- The block is the one between lines of dashes just when the rows of dashes are such lines. -/
theorem split?_eq_ofLines?_iff (text : Text) :
    split? text = ofLines? text ↔ ∀ front behind,
      betweenRows? text = some (front, behind) → OnLines front behind := by
  constructor
  · intro h front behind hfound
    rw [split?_eq, hfound] at h
    obtain ⟨ending, inner, back, hending, htext, hinner, hback, hblock⟩ := exists_of_ofLines? h.symm
    obtain ⟨rest, hrest, hcut⟩ := Option.bind_eq_some_iff.1 hfound
    obtain rfl := List.append_cancel_left ((afterDashes?_eq_some_iff.1 hrest).symm.trans htext)
    by_cases hdashes : row <:+: inner
    · -- The block that was read by lines holds dashes, and the other one does not.
      exfalso
      refine not_isInfix_of_dropLastBreak (fun hinside => ?_) hdashes
      obtain ⟨dropped, -, hfront⟩ := exists_dropBreak front
      obtain ⟨dropped', -, hmiddle⟩ := exists_dropLastBreak (dropBreak front)
      rw [← hblock] at hinside
      refine not_isInfix_of_along (by decide) (along_of_cut? hcut) ?_
      rw [hfront, hmiddle]
      exact hinside.trans ⟨dropped, dropped', by simp⟩
    · have hsame := cut?_append (by decide) (along_append.2
        ⟨along_of_isPassed (.inr (.inl hending)) _, along_of_ended hinner hdashes (row ++ back)⟩)
      rw [List.append_assoc, hcut] at hsame
      cases hsame
      refine ⟨⟨ending, inner, hending, rfl⟩, ?_, hback⟩
      rcases hinner with rfl | hlast
      · rcases hending with rfl | rfl <;> rfl
      · rw [List.getLast?_append, hlast]
        rfl
  · intro h
    cases hfound : betweenRows? text with
    | some found =>
      rw [split?_eq, hfound, ofLines?_of_onLines hfound (h _ _ hfound)]
      rfl
    | none =>
      rw [split?_eq, hfound]
      cases hlines : ofLines? text with
      | none => rfl
      | some found =>
        obtain ⟨ending, inner, back, -, htext, -⟩ := exists_of_ofLines? hlines
        rw [betweenRows?, afterDashes?_eq_some_iff.2 htext, Option.bind_some,
          cut?_eq_none_iff (by decide)] at hfound
        exact absurd ⟨ending ++ inner, back, by simp⟩ hfound

/-- The settings of a page are read from between the first two rows of dashes, less a line break on
either side, and the body from behind them; a text without two such rows is all body. This is the
block between lines of dashes just when both rows have a line of their own. -/
theorem read_by_rows (text : Text) :
    read text = (betweenRows? text).elim (.ok ([], text)) (fun found =>
        (settings (dropLastBreak (dropBreak found.1))).map (·, dropBreak found.2)) ∧
      (split? text = ofLines? text ↔ ∀ front behind,
        betweenRows? text = some (front, behind) → OnLines front behind) := by
  refine ⟨?_, split?_eq_ofLines?_iff text⟩
  rw [read, split?_eq]
  cases betweenRows? text <;> rfl

/-- Dashes inside of a value end the block. -/
example : split? "---\ntitle: a---b\n---\nbody" = some ("title: a".toList, "b\n---\nbody".toList) ∧
    ofLines? "---\ntitle: a---b\n---\nbody" = some ("title: a---b".toList, "body".toList) := by
  decide

end FrontMatter

end Pagewright
