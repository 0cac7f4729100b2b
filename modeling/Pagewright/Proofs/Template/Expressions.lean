import Mathlib.Data.List.Flatten
import Pagewright.Proofs.Template.Literals
import Pagewright.Proofs.Template.Passes
import Pagewright.Proofs.Template.Spans

/-!
# The literals of an expression that is shown

An expression in an output tag is not parsed, and `a or b` in it is rewritten wherever the words
stand. The literals of an expression (`Text.literals`) are read by the same scan as everywhere else.
Rewriting takes no literal away and adds none, but it rewrites each of them like the code around it
(`Text.literals_coalesce`). So the code for a tag holds the literals of its expression as they are
just when ` or ` stands in none of them (`Output.literals_of_shown`).
-/

namespace Pagewright

open Output (coalesce)

namespace Text

/-! ## The literals of a text -/

/-- The literals that end in a text, with their quotes. In a literal, `opened` is the part of it
that has been passed. -/
def literalsFrom : (state : Quoting) → (opened text : Text) → List Text
  | _, _, [] => []
  | state, opened, c :: rest =>
    if state = .code then literalsFrom (state.next c) [c] rest
    else if state.next c = .code then (opened ++ [c]) :: literalsFrom .code [] rest
    else literalsFrom (state.next c) (opened ++ [c]) rest

/-- The literals of a text, in order. One that does not end in it is left out. -/
def literals (text : Text) : List Text :=
  literalsFrom .code [] text

/-- Every literal of the text ends in it. -/
def Closed (text : Text) : Prop :=
  text.foldl Quoting.next .code = .code

instance (text : Text) : Decidable (Closed text) :=
  inferInstanceAs (Decidable (_ = _))

theorem literalsFrom_code (opened text : Text) :
    literalsFrom .code opened text = literals text := by
  cases text <;> rfl

/-- Where all literals are closed, those of what follows come behind them. -/
theorem literalsFrom_append {state : Quoting} {text : Text}
    (h : text.foldl Quoting.next state = .code) (opened rest : Text) :
    literalsFrom state opened (text ++ rest) = literalsFrom state opened text ++ literals rest := by
  induction text generalizing state opened with
  | nil =>
    obtain rfl : state = .code := h
    exact literalsFrom_code opened rest
  | cons c text ih =>
    rw [List.cons_append, literalsFrom, literalsFrom]
    split
    case isTrue => exact ih h _
    case isFalse =>
      split
      case isTrue hnext => rw [ih (hnext ▸ h), List.cons_append]
      case isFalse => exact ih h _

theorem literals_append {text : Text} (h : Closed text) (rest : Text) :
    literals (text ++ rest) = literals text ++ literals rest :=
  literalsFrom_append h [] rest

theorem Closed.append {text rest : Text} (h : Closed text) (hrest : Closed rest) :
    Closed (text ++ rest) := by
  rw [Closed, List.foldl_append, h, hrest]

/-! ## Words without quotes -/

/-- A character that is no quote goes to the literal that is open. -/
theorem literalsFrom_cons_of_plain {state : Quoting} (hstate : IsMarked state) {c : Char}
    (hc : isQuote c = false ∧ c ≠ '\\') (opened rest : Text) :
    literalsFrom state opened (c :: rest) = literalsFrom (settled state) (opened ++ [c]) rest := by
  rw [literalsFrom, next_of_plain hstate hc.1 hc.2]
  cases state with
  | code => exact (literalsFrom_code [c] rest).trans (literalsFrom_code _ rest).symm
  | literal mark => rfl
  | escape mark => rfl

/-- A word without quotes becomes part of the literal that it stands in. -/
theorem literalsFrom_word_append {word : Text} (hword : isPlain word) (hne : word ≠ [])
    {state : Quoting} (hstate : IsMarked state) (opened rest : Text) :
    literalsFrom state opened (word ++ rest) =
      literalsFrom (settled state) (opened ++ word) rest := by
  induction word generalizing state opened with
  | nil => exact absurd rfl hne
  | cons c word ih =>
    obtain ⟨hc, hrest⟩ := isPlain_cons hword
    rw [List.cons_append, literalsFrom_cons_of_plain hstate hc]
    by_cases hnil : word = []
    · rw [hnil, List.nil_append]
    · rw [ih hrest hnil hstate.settled, settled_settled, List.append_assoc, List.singleton_append]

/-- A word without quotes leaves a literal open or closed as it was. -/
theorem foldl_next_word {word : Text} (hword : isPlain word) (hne : word ≠ []) {state : Quoting}
    (hstate : IsMarked state) : word.foldl Quoting.next state = settled state := by
  induction word generalizing state with
  | nil => exact absurd rfl hne
  | cons c word ih =>
    obtain ⟨hc, hrest⟩ := isPlain_cons hword
    rw [List.foldl_cons, next_of_plain hstate hc.1 hc.2]
    by_cases hnil : word = []
    · rw [hnil, List.foldl_nil]
    · rw [ih hrest hnil hstate.settled, settled_settled]

/-! ## Rewriting ` or ` -/

/-- The rewriting goes over a text by single characters and by the words that it rewrites. -/
theorem coalesce_induction {motive : Text → Prop} (nil : motive [])
    (letter : ∀ (c : Char) (rest : Text), after? (c :: rest) " or " = none → motive rest →
      motive (c :: rest))
    (found : ∀ rest : Text, motive rest → motive (" or " ++ rest)) (text : Text) :
    motive text := by
  refine pieces_induction (faithful_after? (show (" or " : Text) ≠ [] by decide)) nil ?_ ?_ text
  · intro c rest hread hrest
    exact letter c rest (Option.map_eq_none_iff.1 hread) hrest
  · intro piece rest hread hrest
    obtain ⟨_, -, rfl⟩ := Option.map_eq_some_iff.1 hread
    exact found rest hrest

/-- A quote is never part of what is rewritten, and so the rewriting stops in front of it. -/
theorem coalesce_append_quote {c : Char} (hc : isQuote c = true) (text rest : Text) :
    coalesce (text ++ c :: rest) = coalesce text ++ c :: coalesce rest := by
  have hword : c ∉ (" or " : Text) := by
    rcases isQuote_iff.1 hc with rfl | rfl <;> decide
  induction text using coalesce_induction with
  | nil =>
    refine coalesce_cons (Option.eq_none_iff_forall_ne_some.2 fun found hfound => hword ?_)
    rw [(List.cons.inj (after?_eq_some_iff.1 hfound)).1]
    exact List.mem_cons_self
  | letter d text hnone ih =>
    have hafter : after? (d :: (text ++ c :: rest)) " or " = none := by
      refine Option.eq_none_iff_forall_ne_some.2 fun found hfound => ?_
      have heq : (d :: text) ++ c :: rest = " or " ++ found := after?_eq_some_iff.1 hfound
      rcases List.append_eq_append_iff.1 heq with ⟨x, hx, hrest⟩ | ⟨x, hx, -⟩
      · cases x with
        | nil =>
          rw [← List.append_nil (d :: text), ← hx] at hnone
          cases hnone
        | cons b x =>
          obtain ⟨rfl, -⟩ := List.cons.inj hrest
          exact hword (hx ▸ by simp)
      · rw [after?_eq_some_iff.2 hx] at hnone
        cases hnone
    rw [List.cons_append, coalesce_cons hafter, ih, coalesce_cons hnone, List.cons_append]
  | found text ih => rw [List.append_assoc, coalesce_or, ih, coalesce_or, List.append_assoc]

/-- The scan stands in the same state behind a text and behind what it is rewritten to. -/
theorem foldl_next_coalesce {state : Quoting} (hstate : IsMarked state) (text : Text) :
    (coalesce text).foldl Quoting.next state = text.foldl Quoting.next state := by
  induction text using coalesce_induction generalizing state with
  | nil => rfl
  | letter c text hnone ih =>
    rw [coalesce_cons hnone, List.foldl_cons, List.foldl_cons, ih (hstate.next c)]
  | found text ih =>
    rw [coalesce_or, List.foldl_append, List.foldl_append,
      foldl_next_word (by decide) (by decide) hstate,
      foldl_next_word (by decide) (by decide) hstate, ih hstate.settled]

/-- Rewriting ` or ` closes and opens no literal. -/
theorem Closed.coalesce {text : Text} (h : Closed text) : Closed (coalesce text) :=
  (foldl_next_coalesce isMarked_code text).trans h

theorem literalsFrom_coalesce {state : Quoting} (hstate : IsMarked state)
    {opened opened' text : Text}
    (h : state ≠ .code → coalesce (opened ++ text) = opened' ++ coalesce text) :
    literalsFrom state opened' (coalesce text) = (literalsFrom state opened text).map coalesce := by
  induction text using coalesce_induction generalizing state opened opened' with
  | nil => rfl
  | letter c text hnone ih =>
    have hc := coalesce_cons hnone
    rw [hc, literalsFrom, literalsFrom]
    split
    case isTrue => exact ih (hstate.next c) fun _ => hc
    case isFalse hcode =>
      have hopened := h hcode
      rw [hc] at hopened
      split
      case isTrue hnext =>
        -- The literal ends here, and what was passed of it is what the rewriting left of it.
        have hquote := isQuote_of_next_code hstate hcode hnext
        rw [coalesce_append_quote hquote] at hopened
        obtain rfl := List.append_cancel_right hopened
        rw [List.map_cons, coalesce_append_quote hquote, ih isMarked_code fun hne => absurd rfl hne]
        rfl
      case isFalse =>
        refine ih (hstate.next c) fun _ => ?_
        rw [List.append_assoc, List.append_assoc, List.singleton_append, List.singleton_append,
          hopened]
  | found text ih =>
    rw [coalesce_or, literalsFrom_word_append (by decide) (by decide) hstate,
      literalsFrom_word_append (by decide) (by decide) hstate]
    refine ih hstate.settled fun hsettled => ?_
    have hcode : state ≠ .code := fun hcode => hsettled (by rw [hcode]; rfl)
    rw [List.append_assoc, h hcode, coalesce_or, List.append_assoc]

/-- The literals are rewritten one by one. -/
theorem literals_coalesce (text : Text) :
    literals (coalesce text) = (literals text).map coalesce :=
  literalsFrom_coalesce isMarked_code fun hcode => absurd rfl hcode

/-- A text without ` or ` stays what it is, and any other has fewer letters `o` behind the
rewriting. -/
theorem coalesce_cases (text : Text) :
    (¬" or " <:+: text ∧ coalesce text = text) ∨
      (" or " <:+: text ∧ (coalesce text).count 'o' < text.count 'o') := by
  induction text using coalesce_induction with
  | nil => exact .inl ⟨by decide, rfl⟩
  | letter c text hnone ih =>
    have hstart : ¬" or " <+: c :: text := by
      rintro ⟨rest, hrest⟩
      rw [← hrest, after?_append] at hnone
      cases hnone
    have hinside : " or " <:+: c :: text ↔ " or " <:+: text := by
      rw [List.infix_cons_iff, or_iff_right hstart]
    rw [hinside, coalesce_cons hnone, List.cons_inj_right, List.count_cons, List.count_cons,
      Nat.add_lt_add_iff_right]
    exact ih
  | found text ih =>
    have hle : (coalesce text).count 'o' ≤ text.count 'o' := by
      rcases ih with ⟨-, heq⟩ | ⟨-, hlt⟩
      · rw [heq]
      · exact hlt.le
    refine .inr ⟨⟨[], text, rfl⟩, ?_⟩
    rw [coalesce_or, List.count_append, List.count_append]
    exact Nat.lt_of_lt_of_le (Nat.add_lt_add_right (by decide) _) (Nat.add_le_add_left hle _)

/-- Literals without an ` or ` stay what they are, and otherwise some letters are lost. -/
theorem map_coalesce_cases (words : List Text) :
    ((∀ word ∈ words, ¬" or " <:+: word) ∧ words.map coalesce = words) ∨
      ((∃ word ∈ words, " or " <:+: word) ∧
        (words.map coalesce).flatten.count 'o' < words.flatten.count 'o') := by
  induction words with
  | nil => exact .inl ⟨by simp, rfl⟩
  | cons word words ih =>
    rw [List.forall_mem_cons, List.map_cons, List.flatten_cons, List.flatten_cons,
      List.count_append, List.count_append]
    rcases coalesce_cases word with ⟨hnot, heq⟩ | ⟨hinside, hlt⟩
    · rw [heq]
      rcases ih with ⟨hnots, hwords⟩ | ⟨⟨word', hword', hinside⟩, hlt⟩
      · exact .inl ⟨⟨hnot, hnots⟩, by rw [hwords]⟩
      · exact .inr ⟨⟨word', List.mem_cons_of_mem _ hword', hinside⟩, Nat.add_lt_add_left hlt _⟩
    · have hle : (words.map coalesce).flatten.count 'o' ≤ words.flatten.count 'o' := by
        rcases ih with ⟨-, hwords⟩ | ⟨-, hlt⟩
        · rw [hwords]
        · exact hlt.le
      exact .inr ⟨⟨word, List.mem_cons_self, hinside⟩, Nat.add_lt_add_of_lt_of_le hlt hle⟩

/-- Words are all found again among the rewritten ones when none of them is rewritten. The words
`extra` that follow cannot stand in for one that is: the letter `o` is missing. -/
theorem sublist_map_coalesce_iff {words extra : List Text} (hextra : 'o' ∉ extra.flatten) :
    words.Sublist (words.map coalesce ++ extra) ↔ ∀ word ∈ words, ¬" or " <:+: word := by
  rcases map_coalesce_cases words with ⟨hnot, heq⟩ | ⟨⟨word, hword, hinside⟩, hlt⟩
  · rw [heq]
    exact iff_of_true (List.sublist_append_left _ _) hnot
  · refine iff_of_false (fun hsub => ?_) fun hnot => hnot word hword hinside
    have hcount := hsub.flatten.count_le 'o'
    rw [List.flatten_append, List.count_append, List.count_eq_zero.2 hextra] at hcount
    omega

end Text

/-! ## The code for an output tag -/

namespace Output

open Text

/-- Code around an expression adds the literals of its own behind those of the expression. -/
theorem literals_tag (front : Text) {e : Text} (hfront : Closed front ∧ literals front = [])
    (he : Closed e) (back : Text) :
    literals (Php.tag (front ++ coalesce e ++ back)) =
      (literals e).map coalesce ++ literals (back ++ " ?>") := by
  have htag : Php.tag (front ++ coalesce e ++ back) =
      "<?php " ++ (front ++ coalesce e ++ back) ++ " ?>" := rfl
  have hopening : Closed "<?php " ∧ literals "<?php " = [] := by decide
  rw [htag, List.append_assoc, List.append_assoc, List.append_assoc, literals_append hopening.1,
    hopening.2, literals_append hfront.1, hfront.2, literals_append he.coalesce, literals_coalesce]
  rfl

/-- The code for a raw tag has the literals of the expression, rewritten. -/
theorem literals_raw {e : Text} (he : Closed e) :
    literals (Php.tag ("echo " ++ coalesce e ++ ";")) = (literals e).map coalesce := by
  have hback : literals (";" ++ " ?>") = [] := by decide
  rw [literals_tag _ (by decide) he, hback, List.append_nil]

/-- The empty literal stands behind the expression for the case that it is not set. -/
theorem literals_map_coalesce_default {e : Text} (he : Closed e) :
    (literals (e ++ " or \"\"")).map coalesce = (literals e).map coalesce ++ [("\"\"" : Text)] := by
  have hdefault : (literals " or \"\"").map coalesce = [("\"\"" : Text)] := by decide
  rw [literals_append he, List.map_append, hdefault]

/-- The code for an echo has two literals more if the output is escaped, and else one. -/
theorem literals_echo (safe : Bool) {e : Text} (he : Closed e) :
    literals (Php.tag (if safe
        then "echo htmlspecialchars(" ++ coalesce (e ++ " or \"\"")
          ++ ", ENT_QUOTES, 'UTF-8', false);"
        else "echo " ++ coalesce (e ++ " or \"\"") ++ ";")) =
      (literals e).map coalesce ++
        (if safe then ["\"\"", "'UTF-8'"] else ["\"\""] : List Text) := by
  have hclosed : Closed (e ++ " or \"\"") := he.append (by decide)
  cases safe with
  | false => exact (literals_raw hclosed).trans (literals_map_coalesce_default he)
  | true =>
    have hback : literals (", ENT_QUOTES, 'UTF-8', false);" ++ " ?>") = [("'UTF-8'" : Text)] := by
      decide
    rw [if_pos rfl, literals_tag _ (by decide) hclosed, hback,
      literals_map_coalesce_default he, List.append_assoc, List.singleton_append, if_pos rfl]

/-- An expression without one of the characters of the closing mark is enclosed. -/
theorem enclosed_of_not_mem {close e : Text} (htrim : e.trim = e) (hne : e ≠ [])
    (hline : '\n' ∉ e) {c : Char} (hc : c ∈ close) (he : c ∉ e) : Enclosed close e := by
  rw [Enclosed, htrim]
  exact ⟨hne, hline, fun hinside => he (hinside.subset hc)⟩

/-- The code for an output tag has the literals of its expression in their order, each with ` or `
rewritten inside it, and then those of the code around it. So the literals of the expression are
kept as they are just when ` or ` stands in none of them. -/
theorem literals_of_shown {e : Text} (htrim : e.trim = e) (hne : e ≠ []) (hline : '\n' ∉ e)
    (hbrace : '\x7d' ∉ e) (hclosed : Closed e) :
    (∃ php, Carries raw.run ("\x7b!! " ++ e ++ " !!\x7d") php ∧
        literals php = (literals e).map coalesce ∧
        ((literals e).Sublist (literals php) ↔ ∀ l ∈ literals e, ¬" or " <:+: l)) ∧
      ∀ safe : Bool, ∃ php, Carries (echo safe).run ("\x7b\x7b " ++ e ++ " \x7d\x7d") php ∧
        literals php = (literals e).map coalesce ++
          (if safe then ["\"\"", "'UTF-8'"] else ["\"\""] : List Text) ∧
        ((literals e).Sublist (literals php) ↔ ∀ l ∈ literals e, ¬" or " <:+: l) := by
  have hraw : Enclosed "!!\x7d" e := enclosed_of_not_mem htrim hne hline (by decide) hbrace
  have hecho : Enclosed "\x7d\x7d" e := enclosed_of_not_mem htrim hne hline (by decide) hbrace
  refine ⟨⟨_, Pass.carries_raw hraw, ?_⟩, fun safe => ⟨_, Pass.carries_echo safe hecho, ?_⟩⟩
  · rw [htrim, literals_raw hclosed]
    refine ⟨rfl, ?_⟩
    rw [← List.append_nil ((literals e).map coalesce)]
    exact sublist_map_coalesce_iff (by decide)
  · rw [htrim, literals_echo safe hclosed]
    exact ⟨rfl, sublist_map_coalesce_iff (by cases safe <;> decide)⟩

/-- What is said in quotes is not shown as it was written. -/
theorem literals_of_shown_or :
    ¬(literals "'this or that'").Sublist
      (literals ((echo true).run "\x7b\x7b 'this or that' \x7d\x7d")) := by
  obtain ⟨-, hecho⟩ :=
    literals_of_shown (show trim "'this or that'" = _ by decide) (by decide) (by decide) (by decide)
      (by decide)
  obtain ⟨php, hcarries, -, hkept⟩ := hecho true
  have hsource : ("\x7b\x7b 'this or that' \x7d\x7d" : Text) =
      "\x7b\x7b " ++ "'this or that'" ++ " \x7d\x7d" := by decide
  rw [hsource, hcarries.run_eq rfl, hkept]
  exact fun hnone => hnone "'this or that'" (by decide) ⟨"'this", "that'", by decide⟩

end Output

end Pagewright
