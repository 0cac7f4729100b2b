import Pagewright.Proofs.Page.Embedding
import Pagewright.Proofs.Template.Literals

/-!
# The address of a page in its program

The program of a page holds the address of the page in a double-quoted literal. What such a literal
stands for depends on the variables of the running page, so it is a parameter here: a reading keeps
the characters that mean nothing between double quotes (`Php.Reading`), and follows the rules for
pairs with a backslash (`Php.Reading.Decodes`). `Php.decoded` is the reading that knows these rules
and no others.

An address may hold anything. Its quotes, dollar signs and backslashes are each put behind a
backslash, so that every reading gives the address back (`Assembly.value_quotedUrl`). Doing this in
one pass comes to the same as three replacements one after the other, backslashes first
(`Assembly.quotedUrl_eq_replace`).
-/

namespace Pagewright

open Text

/-- Replacing a word of one character goes character by character. -/
theorem Text.replace_singleton (mark : Char) (text replacement : Text) :
    text.replace [mark] replacement =
      text.flatMap fun c => if c = mark then replacement else [c] := by
  have hmark : [mark] ≠ [] := List.cons_ne_nil _ _
  induction text with
  | nil => exact replace_nil hmark _
  | cons c text ih =>
    by_cases hc : c = mark
    · subst hc
      rw [← List.singleton_append, replace_append hmark, ih, List.singleton_append,
        List.flatMap_cons, if_pos rfl]
    · rw [replace_cons_of_after?_eq_none hmark (by simp [after?, hc]), ih, List.flatMap_cons,
        if_neg hc, List.singleton_append]

/-! ## What a literal stands for -/

namespace Php

/-- Whether a character stands for itself between double quotes, whatever is around it. -/
def isBare (c : Char) : Bool :=
  c ≠ '\\' && c ≠ '"' && c ≠ '$' && c ≠ '\x7b'

/-- What the inside of a double-quoted literal stands for at some point of a running page. -/
structure Reading where
  value : Text → Text
  bare {c : Char} (h : isBare c = true) (rest : Text) : value (c :: rest) = c :: value rest

/-- The reading takes a backslash for what it is to PHP in front of the three characters that need
one, and a brace for itself where no variable follows. -/
structure Reading.Decodes (reading : Reading) : Prop where
  nil : reading.value [] = []
  pair {c : Char} (h : c = '\\' ∨ c = '"' ∨ c = '$') (rest : Text) :
    reading.value ('\\' :: c :: rest) = c :: reading.value rest
  brace {rest : Text} (h : rest.head? ≠ some '$') :
    reading.value ('\x7b' :: rest) = '\x7b' :: reading.value rest

/-- The inside of a literal without the backslashes before `\`, `"` and `$`; all else is kept. -/
def unescaped : Text → Text
  | [] => []
  | '\\' :: c :: rest =>
    if c = '\\' ∨ c = '"' ∨ c = '$' then c :: unescaped rest else '\\' :: c :: unescaped rest
  | c :: rest => c :: unescaped rest

theorem unescaped_cons {c : Char} (h : c ≠ '\\') (rest : Text) :
    unescaped (c :: rest) = c :: unescaped rest := by
  conv_lhs => unfold unescaped
  split
  case h_1 heq => cases heq
  case h_2 heq => exact absurd (List.cons.inj heq).1 h
  case h_3 heq =>
    obtain ⟨rfl, rfl⟩ := List.cons.inj heq
    rfl

/-- A backslash in front of a special character stands for that character. -/
theorem unescaped_pair {c : Char} (h : c = '\\' ∨ c = '"' ∨ c = '$') (rest : Text) :
    unescaped ('\\' :: c :: rest) = c :: unescaped rest := by
  rw [unescaped, if_pos h]

/-- A bare character is none of those that a literal reads in its own way. -/
theorem ne_of_isBare {c : Char} (h : isBare c = true) :
    c ≠ '\\' ∧ c ≠ '"' ∧ c ≠ '$' ∧ c ≠ '\x7b' := by
  simpa [isBare, and_assoc] using h

/-- The reading that knows the three pairs and no variables. -/
def decoded : Reading where
  value := unescaped
  bare h rest := unescaped_cons (ne_of_isBare h).1 rest

/-- Decoding the pairs is one of the readings that a literal may have. -/
theorem decodes_decoded : decoded.Decodes where
  nil := rfl
  pair := unescaped_pair
  brace _ := unescaped_cons (by decide) _

end Php

/-! ## The address -/

namespace Assembly

open Php

/-- A special character of an address gets a backslash. -/
theorem quotedUrl_cons_special {c : Char} (h : c = '\\' ∨ c = '"' ∨ c = '$') (url : Text) :
    quotedUrl (c :: url) = '\\' :: c :: quotedUrl url := by
  rw [quotedUrl, List.flatMap_cons, if_pos (by simpa [or_assoc] using h)]
  rfl

theorem quotedUrl_cons_plain {c : Char} (h : ¬(c = '\\' ∨ c = '"' ∨ c = '$')) (url : Text) :
    quotedUrl (c :: url) = c :: quotedUrl url := by
  rw [quotedUrl, List.flatMap_cons, if_neg (by simpa [or_assoc] using h)]
  rfl

/-- A quoted address never starts with a dollar sign. -/
theorem head?_quotedUrl (url : Text) : (quotedUrl url).head? ≠ some '$' := by
  cases url with
  | nil => nofun
  | cons c url =>
    by_cases hc : c = '\\' ∨ c = '"' ∨ c = '$'
    · rw [quotedUrl_cons_special hc]
      simp
    · rw [quotedUrl_cons_plain hc]
      intro h
      exact hc (.inr (.inr (Option.some.inj h)))

/-- Every reading that decodes gives an address back as it was. -/
theorem value_quotedUrl {reading : Reading} (h : reading.Decodes) (url : Text) :
    reading.value (quotedUrl url) = url := by
  induction url with
  | nil => exact h.nil
  | cons c url ih =>
    by_cases hc : c = '\\' ∨ c = '"' ∨ c = '$'
    · rw [quotedUrl_cons_special hc, h.pair hc, ih]
    · rw [quotedUrl_cons_plain hc]
      by_cases hbrace : c = '\x7b'
      · rw [hbrace, h.brace (head?_quotedUrl url), ih]
      · have hbare : isBare c = true := by
          simpa [isBare, hbrace, and_assoc] using hc
        rw [reading.bare hbare, ih]

/-- In a quoted address every quote and every dollar sign is the second half of a pair, and no
backslash stands alone. -/
theorem paired_quotedUrl (url : Text) : Paired (fun c => c ≠ '"' ∧ c ≠ '$') (quotedUrl url) := by
  induction url with
  | nil => exact .nil
  | cons c url ih =>
    by_cases hc : c = '\\' ∨ c = '"' ∨ c = '$'
    · rw [quotedUrl_cons_special hc]
      exact .pair ih
    · rw [quotedUrl_cons_plain hc]
      rw [not_or, not_or] at hc
      exact .bare hc.2 hc.1 ih

/-- The quotes and dollar signs get their backslashes when those of the address have theirs. -/
theorem quotedUrl_eq_replace (url : Text) :
    quotedUrl url = ((url.replace "\\" "\\\\").replace "\"" "\\\"").replace "$" "\\$" := by
  have hone (mark : Char) (text : Text) := replace_singleton mark text ['\\', mark]
  change quotedUrl url =
    ((url.replace ['\\'] ['\\', '\\']).replace ['"'] ['\\', '"']).replace ['$'] ['\\', '$']
  rw [hone, hone, hone, List.flatMap_assoc, List.flatMap_assoc, quotedUrl]
  refine congrArg (List.flatMap · url) (funext fun c => ?_)
  by_cases hslash : c = '\\'
  · subst hslash
    rfl
  by_cases hquote : c = '"'
  · subst hquote
    rfl
  by_cases hdollar : c = '$'
  · subst hdollar
    rfl
  simp [hslash, hquote, hdollar]

/-- The address stands behind the settings and the code for the request. -/
theorem exists_program_eq_url (draft : Draft) (facts : Facts) :
    ∃ tail, program draft facts =
      opening facts ++ "<?php ob_start(); ?>" ++ settingsText draft.settings
        ++ "<?php $page = json_decode(ob_get_clean()); ?>\n<?php " ++ requestCode
        ++ " $page->url = \"" ++ quotedUrl facts.url ++ "\"; $page->modified = "
        ++ Json.ofInt facts.modified ++ ";" ++ tail := by
  have hgroup : ∀ (first rest before content after layout last : List Text) (settings url : Text),
      first ++ settings :: url :: rest ++ before ++ content ++ after ++ layout ++ last
        = first ++ settings :: url :: (rest ++ before ++ content ++ after ++ layout ++ last) := by
    intros
    simp only [List.append_assoc, List.cons_append]
  have hstart : Php.tag "ob_start();" = "<?php ob_start(); ?>" := rfl
  have hdecode : Php.tag "$page = json_decode(ob_get_clean());"
      = "<?php $page = json_decode(ob_get_clean()); ?>" := rfl
  have hbreak : ("<?php $page = json_decode(ob_get_clean()); ?>\n<?php " : Text)
      = "<?php $page = json_decode(ob_get_clean()); ?>" ++ ("\n" ++ "<?php ") := rfl
  rw [program, parts, hgroup, intercalate_eq _ (List.cons_ne_nil _ _), joined_opening,
    List.intercalate_cons_of_ne_nil (List.cons_ne_nil _ _),
    List.intercalate_cons_of_ne_nil (by
      simp only [ne_eq, List.append_eq_nil_iff, List.cons_ne_nil, false_and, not_false_eq_true]),
    hstart, hdecode, hbreak]
  simp only [List.append_assoc]
  exact ⟨_, rfl⟩

/-- The address of a page survives its literal, whatever it is. The literal stands in the program
behind the code for the request; its inside is the address with three replacements made one after
the other. No quote and no dollar sign in it stands without a backslash before it, no backslash is
left without a second half, and decoding it gives the address back, by the rules for the three pairs
as by everything that PHP may know besides. -/
theorem program_url_survives (draft : Draft) (facts : Facts) :
    let inside := ((facts.url.replace "\\" "\\\\").replace "\"" "\\\"").replace "$" "\\$"
    (∃ tail, program draft facts =
      opening facts ++ "<?php ob_start(); ?>" ++ settingsText draft.settings
        ++ "<?php $page = json_decode(ob_get_clean()); ?>\n<?php " ++ requestCode
        ++ " $page->url = \"" ++ inside ++ "\"; $page->modified = "
        ++ Json.ofInt facts.modified ++ ";" ++ tail) ∧
      Paired (fun c => c ≠ '"' ∧ c ≠ '$') inside ∧
      unescaped inside = facts.url ∧
      ∀ reading : Reading, reading.Decodes → reading.value inside = facts.url := by
  intro inside
  have hinside : inside = quotedUrl facts.url := (quotedUrl_eq_replace facts.url).symm
  rw [hinside]
  exact ⟨exists_program_eq_url draft facts, paired_quotedUrl facts.url,
    value_quotedUrl decodes_decoded facts.url, fun _ h => value_quotedUrl h facts.url⟩

end Assembly

end Pagewright
