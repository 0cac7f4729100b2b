import Pagewright.Proofs.Page.Sections
import Pagewright.Proofs.Yaml.Values

/-!
# Settings inside the program of a page

The settings of a page stand in its program as JSON, between two pieces of PHP. Replacing `<?` in
the JSON text is the same as spelling its strings in another way (`Assembly.settingsText_eq`):
numbers and marks hold no `<`, and no string ends between a `<` and its `?`. The reader takes this
spelling like any other (`Assembly.spelling_spelled`), and nothing in it opens PHP
(`Assembly.not_opens_shielded`).
-/

namespace Pagewright

namespace Assembly

open Json

/-! ## Text that does not open PHP -/

/-- A text in which a `<` that would open PHP is written by its code. -/
def shielded : Text → Text
  | [] => []
  | '<' :: '?' :: rest => "\\u003c?" ++ shielded rest
  | c :: rest => c :: shielded rest

/-- A `<` stays what it is where no `?` follows, and so does every other character. -/
theorem shielded_cons {c : Char} {rest : Text} (h : c = '<' → rest.head? ≠ some '?') :
    shielded (c :: rest) = c :: shielded rest := by
  rw [shielded.eq_def]
  split
  case h_1 heq => cases heq
  case h_2 heq =>
    cases heq
    exact absurd rfl (h rfl)
  case h_3 heq =>
    cases heq
    rfl

/-- Replacing every opening of PHP in a text shields it. -/
theorem replace_eq_shielded (text : Text) : text.replace "<?" "\\u003c?" = shielded text := by
  fun_induction shielded text with
  | case1 => exact Text.replace_nil (by decide) _
  | case2 rest ih =>
    rw [← ih]
    exact Text.replace_append (by decide) rest "\\u003c?"
  | case3 c rest hnot ih =>
    have hafter : Text.after? (c :: rest) "<?" = none := by
      refine Option.eq_none_iff_forall_ne_some.2 fun t ht => ?_
      have heq := Text.after?_eq_some_iff.1 ht
      exact hnot t (List.cons.inj heq).1 (List.cons.inj heq).2
    rw [Text.replace_cons_of_after?_eq_none (by decide) hafter, ih]

/-- A text without `<` is shielded as it is. -/
theorem shielded_append_of_not_mem {text : Text} (h : '<' ∉ text) (rest : Text) :
    shielded (text ++ rest) = text ++ shielded rest := by
  induction text with
  | nil => rfl
  | cons c text ih =>
    obtain ⟨hc, htext⟩ := not_or.1 (List.mem_cons.not.1 h)
    rw [List.cons_append, shielded_cons fun heq => absurd heq.symm hc, ih htext]
    rfl

/-- Nothing that opens PHP goes beyond the quote that ends a string. -/
theorem shielded_append_quote (text rest : Text) :
    shielded (text ++ '"' :: rest) = shielded text ++ '"' :: shielded rest := by
  fun_induction shielded text with
  | case1 => exact shielded_cons (by simp)
  | case2 text ih =>
    rw [List.append_assoc, ← ih]
    rfl
  | case3 c text hnot ih =>
    rw [List.cons_append, List.cons_append, ← ih]
    refine shielded_cons ?_
    rintro rfl
    cases text with
    | nil => simp
    | cons d text =>
      rintro ⟨⟩
      exact hnot text rfl rfl

/-- A question mark stands at the head of a shielded text only if it did before. -/
theorem head?_shielded {text : Text} (h : (shielded text).head? = some '?') :
    text.head? = some '?' := by
  fun_induction shielded text with
  | case1 => cases h
  | case2 text ih => cases h
  | case3 c text hnot ih => exact h

/-- Whether a text holds what opens PHP. -/
def Opens (text : Text) : Prop :=
  ("<?" : Text) <:+: text

instance (text : Text) : Decidable (Opens text) :=
  inferInstanceAs (Decidable (_ <:+: _))

/-- A character in front opens no PHP unless it makes an opening with the next one. -/
theorem not_opens_cons {c : Char} {text : Text} (hc : c = '<' → text.head? ≠ some '?')
    (h : ¬Opens text) : ¬Opens (c :: text) := by
  rw [Opens, List.infix_cons_iff]
  rintro (⟨rest, heq⟩ | hinfix)
  · cases heq
    exact hc rfl rfl
  · exact h hinfix

/-- A text without `<` in front opens no PHP. -/
theorem not_opens_append {word text : Text} (hword : '<' ∉ word) (h : ¬Opens text) :
    ¬Opens (word ++ text) := by
  induction word with
  | nil => exact h
  | cons c word ih =>
    obtain ⟨hc, hword⟩ := not_or.1 (List.mem_cons.not.1 hword)
    exact not_opens_cons (fun heq => absurd heq.symm hc) (ih hword)

/-- Nothing opens PHP in a shielded text. -/
theorem not_opens_shielded (text : Text) : ¬Opens (shielded text) := by
  fun_induction shielded text with
  | case1 => simp [Opens]
  | case2 text ih => exact not_opens_append (by decide) ih
  | case3 c text hnot ih =>
    refine not_opens_cons ?_ ih
    rintro rfl hhead
    obtain ⟨rest, rfl⟩ := List.head?_eq_some_iff.1 (head?_shielded hhead)
    exact hnot rest rfl rfl

/-! ## Settings -/

/-- How a string stands in the program of a page. -/
def spelled (s : Text) : Text :=
  shielded (inside s)

theorem head?_escaped {c : Char} (h : (escaped c).head? = some '?') : c = '?' := by
  unfold escaped at h
  split_ifs at h
  all_goals simp_all [codeEscape]

/-- A question mark stands at the head of a written text only if it did before. -/
theorem head?_inside {s : Text} (h : (inside s).head? = some '?') : s.head? = some '?' := by
  cases s with
  | nil => cases h
  | cons c s =>
    have hsome : (escaped c).head?.isSome = true := by
      unfold escaped
      split_ifs <;> rfl
    rw [inside_cons, List.head?_append, Option.or_of_isSome hsome] at h
    rw [head?_escaped h]
    rfl

theorem not_mem_codeEscape {c : Char} (h : c.toNat < 0x20) : '<' ∉ codeEscape c := by
  have hdigit : ∀ n < 16, '<' ≠ Nat.digitChar n := by decide
  have hhigh := hdigit (c.toNat / 16) (by omega)
  have hlow := hdigit (c.toNat % 16) (by omega)
  simp [codeEscape, hhigh, hlow]

/-- The escape of a character holds no `<` unless it is one. -/
theorem not_mem_escaped {c : Char} (h : c ≠ '<') : '<' ∉ escaped c := by
  unfold escaped
  split_ifs with _ _ _ _ _ _ _ hcode
  iterate 7 decide
  · exact not_mem_codeEscape hcode
  · simpa using h.symm

/-- The shielded spelling is read back. -/
theorem spelling_spelled : Spelling spelled := by
  intro s rest
  fun_induction shielded s with
  | case1 => rfl
  | case2 s ih =>
    have hunit : unit? '0' '0' '3' 'c' = some 0x3c := rfl
    have hmark : readString ('?' :: (spelled s ++ '"' :: rest)) = some ('?' :: s, rest) := by
      rw [readString_plain (by decide) (by decide) (by decide), ih]
      rfl
    have hread := readString_unit hunit rfl rfl ('?' :: (spelled s ++ '"' :: rest))
    rw [hmark] at hread
    exact hread
  | case3 c s hnot ih =>
    have hspelled : spelled (c :: s) = escaped c ++ spelled s := by
      rw [spelled, inside_cons]
      by_cases hc : c = '<'
      · subst hc
        refine shielded_cons fun _ hhead => ?_
        obtain ⟨t, rfl⟩ := List.head?_eq_some_iff.1 (head?_inside hhead)
        exact hnot t rfl rfl
      · exact shielded_append_of_not_mem (not_mem_escaped hc) _
    rw [hspelled, List.append_assoc, readString_escaped, ih]
    rfl

theorem not_mem_source (n : Numeral) : '<' ∉ n.source := by
  have hdigits (d : Digits) : '<' ∉ d.text := fun h => absurd (d.isDigit _ h) (by decide)
  have hfraction : '<' ∉ n.fractionText := by
    rw [Numeral.fractionText]
    cases n.fraction <;> simp [hdigits]
  have hexponent : '<' ∉ n.exponentText := by
    rw [Numeral.exponentText]
    cases n.exponent with
    | none => simp
    | some e => cases h : e.1 <;> simp [h, hdigits]
  cases h : n.negative <;>
    simp [Numeral.source, Numeral.unsigned, h, hdigits, hfraction, hexponent]

/-- A quoted text is shielded inside. -/
theorem shielded_quoted (s rest : Text) :
    shielded (quotedWith inside s ++ rest) = quotedWith spelled s ++ shielded rest := by
  rw [quotedWith_append, quotedWith_append, shielded_cons (by simp), shielded_append_quote]
  rfl

mutual

/-- A written value is shielded by shielding the texts in it. -/
theorem shielded_value (value : Value) (rest : Text) :
    shielded (value.jsonWith inside ++ rest) = value.jsonWith spelled ++ shielded rest := by
  cases value with
  | null => exact shielded_append_of_not_mem (by decide) rest
  | bool b => cases b <;> exact shielded_append_of_not_mem (by decide) rest
  | int i =>
    rw [Value.jsonWith, Value.jsonWith, ← source_ofInt]
    exact shielded_append_of_not_mem (not_mem_source _) rest
  | float x =>
    obtain ⟨n, hsource, -⟩ := exists_numeral_of_float x
    rw [Value.jsonWith, Value.jsonWith, ← hsource]
    exact shielded_append_of_not_mem (not_mem_source n) rest
  | text s => exact shielded_quoted s rest
  | list items =>
    rw [list_append, list_append, shielded_cons (by simp), shielded_items items,
      shielded_cons (by simp)]
  | record fields =>
    rw [record_append, record_append, shielded_cons (by simp), shielded_fields fields,
      shielded_cons (by simp)]

theorem shielded_items (items : List Value) (rest : Text) :
    shielded (jsonItemsWith inside items ++ rest)
      = jsonItemsWith spelled items ++ shielded rest := by
  cases items with
  | nil => rfl
  | cons value items =>
    cases items with
    | nil => exact shielded_value value rest
    | cons next items =>
      rw [items_cons_append, items_cons_append, shielded_value value, shielded_cons (by simp),
        shielded_items (next :: items)]

theorem shielded_fields (fields : Settings) (rest : Text) :
    shielded (jsonFieldsWith inside fields ++ rest)
      = jsonFieldsWith spelled fields ++ shielded rest := by
  cases fields with
  | nil => rfl
  | cons field fields =>
    obtain ⟨name, value⟩ := field
    cases fields with
    | nil =>
      rw [field_append, field_append, shielded_quoted, shielded_cons (by simp),
        shielded_value value]
    | cons next fields =>
      rw [fields_cons_append, fields_cons_append, shielded_quoted, shielded_cons (by simp),
        shielded_value value, shielded_cons (by simp), shielded_fields (next :: fields)]

end

/-- The settings stand in the program like in JSON, their strings shielded. -/
theorem settingsText_eq (settings : Settings) :
    settingsText settings = (Value.record settings).jsonWith spelled := by
  have hshielded := shielded_value (.record settings) []
  rw [List.append_nil, Value.jsonWith_inside] at hshielded
  rw [settingsText, replace_eq_shielded, Settings.json, hshielded]
  exact List.append_nil _

/-- The reader takes the settings from the program as it takes them from JSON. -/
theorem readWithin_settingsText (limit : Nat) (settings : Settings) :
    readWithin limit (settingsText settings) = (Value.record settings).reread limit ∧
      readWithin limit settings.json = (Value.record settings).reread limit := by
  rw [settingsText_eq, Settings.json, ← Value.jsonWith_inside]
  exact ⟨readWithin_jsonWith spelling_spelled limit _, readWithin_jsonWith spelling_inside limit _⟩

/-- The code in front of the settings: where the whole output is passed through a function, it is
captured from the start. -/
def opening (facts : Facts) : Text :=
  if facts.buffer.isSome then "<?php ob_start(); ?>\n" else []

/-- The first part of a program is there when the output is passed through a function. -/
theorem joined_opening (facts : Facts) :
    joined (if facts.buffer.isSome then [Php.tag "ob_start();"] else []) = opening facts := by
  rw [opening]
  split <;> rfl

/-- The settings are captured in the first part of a program, or in the second behind the opening of
the buffer. -/
theorem exists_parts_eq_settings (draft : Draft) (facts : Facts) :
    ∃ rest, rest ≠ [] ∧ parts draft facts =
      (if facts.buffer.isSome then [Php.tag "ob_start();"] else [])
        ++ (Php.tag "ob_start();" ++ settingsText draft.settings
          ++ Php.tag "$page = json_decode(ob_get_clean());") :: rest := by
  have hgroup : ∀ (first rest before content after layout last : List Text) (settings : Text),
      first ++ settings :: rest ++ before ++ content ++ after ++ layout ++ last
        = first ++ settings :: (rest ++ before ++ content ++ after ++ layout ++ last) := by
    intros
    simp only [List.append_assoc, List.cons_append]
  refine ⟨_, ?_, hgroup _ _ _ _ _ _ _ _⟩
  simp only [ne_eq, List.append_eq_nil_iff, List.cons_ne_nil, false_and, not_false_eq_true]

/-- The settings stand in the program between the start of a capture and what decodes it. -/
theorem exists_program_eq_settings (draft : Draft) (facts : Facts) :
    ∃ tail, program draft facts =
      opening facts ++ "<?php ob_start(); ?>" ++ settingsText draft.settings
        ++ "<?php $page = json_decode" ++ tail := by
  obtain ⟨rest, hrest, hparts⟩ := exists_parts_eq_settings draft facts
  have hstart : Php.tag "ob_start();" = "<?php ob_start(); ?>" := rfl
  have hdecode : Php.tag "$page = json_decode(ob_get_clean());"
      = "<?php $page = json_decode" ++ "(ob_get_clean()); ?>" := rfl
  refine ⟨"(ob_get_clean()); ?>" ++ ("\n" ++ List.intercalate "\n" rest), ?_⟩
  rw [program, hparts, intercalate_eq _ (List.cons_ne_nil _ _), joined_opening,
    List.intercalate_cons_of_ne_nil hrest, hdecode, hstart]
  simp only [List.append_assoc]

/-- The settings of a page stand in its program between two pieces of code, and nothing in them
opens PHP. To the reader they are what their plain JSON is, to whatever depth it reads. Settings
within that depth it takes back as they were, each double as it is read, and what a text has for
settings is within the depth of the reader that it went through. -/
theorem program_embeds_settings (draft : Draft) (facts : Facts) :
    (∃ tail, program draft facts =
      opening facts ++ "<?php ob_start(); ?>" ++ settingsText draft.settings
        ++ "<?php $page = json_decode" ++ tail) ∧
      ¬Opens (settingsText draft.settings) ∧
      read? (settingsText draft.settings) = read? draft.settings.json ∧
      (∀ limit,
        readWithin limit (settingsText draft.settings) = readWithin limit draft.settings.json ∧
          ((Value.record draft.settings).Within limit →
            readWithin limit (settingsText draft.settings)
              = some ((Value.record draft.settings).mapDoubles Binary64.reread))) ∧
      ∀ text body, FrontMatter.read text = .ok (draft.settings, body) →
        (Value.record draft.settings).Within Yaml.maxDepth := by
  have hsame (limit : Nat) : readWithin limit (settingsText draft.settings)
      = readWithin limit draft.settings.json :=
    (readWithin_settingsText limit draft.settings).1.trans
      (readWithin_settingsText limit draft.settings).2.symm
  refine ⟨exists_program_eq_settings draft facts, ?_, ?_, fun limit => ⟨hsame limit, ?_⟩,
    fun text body => FrontMatter.within_read⟩
  · rw [settingsText, replace_eq_shielded]
    exact not_opens_shielded _
  · rw [read?_eq_readWithin, read?_eq_readWithin, hsame]
  · intro hwithin
    rw [(readWithin_settingsText limit draft.settings).1]
    exact hwithin.reread

/-- Settings that open PHP in a name and in a text. -/
def marked : Settings :=
  [("<?", .text "a<?php"), ("list", .list [.int (-1), .float ⟨false, Nat.pow 2 52, -53⟩, .null])]

/-- A text with such settings. -/
def markedText : Text :=
  "---\nlist: [-1, 0.5, ~]\n\"<?\": \"a<?php\"\n---\nx"

/-- Settings with an opening of PHP in them are shielded, and come back when they are read. -/
theorem program_embeds_settings_marked :
    (Value.record marked).Within 2 ∧ Opens marked.json ∧ ¬Opens (settingsText marked) ∧
      readWithin 2 (settingsText marked)
        = some ((Value.record marked).mapDoubles Binary64.reread) ∧
      ∃ settings body, FrontMatter.read markedText = .ok (settings, body) ∧
        (Value.record settings).Within Yaml.maxDepth := by
  have hwithin : (Value.record marked).Within 2 := by decide
  have hopens : Opens marked.json := by decide
  have hread : (FrontMatter.read markedText).toOption.isSome = true := by decide +kernel
  obtain ⟨-, hnot, -, hback, -⟩ := program_embeds_settings { content := [], settings := marked }
    { url := [], modified := 0 }
  refine ⟨hwithin, hopens, hnot, (hback 2).2 hwithin, ?_⟩
  cases hfound : FrontMatter.read markedText with
  | error e =>
    rw [hfound] at hread
    cases hread
  | ok found =>
    obtain ⟨-, -, -, -, hsound⟩ := program_embeds_settings { content := [], settings := found.1 }
      { url := [], modified := 0 }
    exact ⟨found.1, found.2, rfl, hsound markedText found.2 hfound⟩

end Assembly

end Pagewright
