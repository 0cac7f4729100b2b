import Pagewright.Proofs.Template.Scan

/-!
# Texts without directives

`Text.Silent` says that neither a directive nor an output tag stands at the head of a text: an `@`
is followed by no word that counts without arguments and by no argument list, and a brace by no
other brace and by no two exclamation marks. A text is directive-free when this holds at each of its
places (`Text.DirectiveFree`). Parts of such a text are directive-free too
(`Text.DirectiveFree.of_infix`), and so are its two rewritings as a PHP literal
(`Text.DirectiveFree.value`) and with ` or ` replaced (`Text.DirectiveFree.coalesce`).

The end of a directive-free text may still be the start of a directive that the text behind it
completes. `Text.Stops` names the texts that complete none, and a block that needs no such care is
`Text.Quiet`: whatever follows it, no directive starts inside it.
-/

namespace Pagewright

namespace Text

/-! ## The head of a text -/

/-- The letters, digits and underscores that the word of a directive is made of. -/
def isWordLetter (c : Char) : Bool :=
  c.isAlphanum || c = '_'

/-- How the words start that count without an argument list. -/
def bareStarts : List Text :=
  ["end", "break", "continue", "else"]

/-- Whether an `@` before the text makes it a directive. -/
def opensDirective (text : Text) : Bool :=
  bareStarts.any (·.isPrefixOf (text.takeWhile isWordLetter))
    || (Call.parenthesis? (text.dropWhile isWordLetter)).isSome

/-- Whether a brace before the text makes it an output tag. -/
def opensTag : Text → Bool
  | '\x7b' :: _ => true
  | '!' :: '!' :: _ => true
  | _ => false

/-- Neither a directive nor an output tag stands at the head of the text. -/
def Silent : Text → Prop
  | '@' :: rest => opensDirective rest = false
  | '\x7b' :: rest => opensTag rest = false
  | _ => True

instance : DecidablePred Silent
  | [] => inferInstanceAs (Decidable True)
  | c :: rest => by
    unfold Silent
    split <;> infer_instance

instance decidableAlong {p : Text → Prop} [DecidablePred p] :
    ∀ block rest, Decidable (Along p block rest)
  | [], _ => inferInstanceAs (Decidable True)
  | c :: block, rest =>
    have : Decidable (Along p block rest) := decidableAlong block rest
    inferInstanceAs (Decidable (p (c :: (block ++ rest)) ∧ Along p block rest))

/-- No directive and no output tag stands anywhere in the text. -/
def DirectiveFree (text : Text) : Prop :=
  Along Silent text []

instance : DecidablePred DirectiveFree :=
  fun text => inferInstanceAs (Decidable (Along Silent text []))

/-- Whatever follows the block, no directive and no output tag starts inside it. -/
def Quiet (block : Text) : Prop :=
  ∀ rest, Along Silent block rest

theorem silent_at {rest : Text} : Silent ('@' :: rest) ↔ opensDirective rest = false := Iff.rfl

theorem silent_brace {rest : Text} : Silent ('\x7b' :: rest) ↔ opensTag rest = false := Iff.rfl

/-- Only an `@` or a brace can open something. -/
theorem silent_cons {c : Char} (hat : c ≠ '@') (hbrace : c ≠ '\x7b') (rest : Text) :
    Silent (c :: rest) := by
  unfold Silent
  split
  · simp_all
  · simp_all
  · trivial

/-- A parenthesis follows, or a space and then a parenthesis. -/
theorem parenthesis?_isSome_iff {text : Text} :
    (Call.parenthesis? text).isSome ↔
      ∃ rest, text = '(' :: rest ∨ text = ' ' :: '(' :: rest := by
  constructor
  · intro h
    obtain ⟨⟨spaced, rest⟩, hp⟩ := Option.isSome_iff_exists.1 h
    refine ⟨rest, ?_⟩
    cases spaced
    · exact Or.inl (by simpa using Call.eq_append_of_parenthesis? hp)
    · exact Or.inr (by simpa using Call.eq_append_of_parenthesis? hp)
  · rintro ⟨rest, rfl | rfl⟩ <;> rfl

/-- A directive is opened by a word that counts on its own, or by one with a parenthesis behind it.
-/
theorem opensDirective_iff {text : Text} :
    opensDirective text = true ↔
      (∃ start ∈ bareStarts, start <+: text.takeWhile isWordLetter) ∨
        (Call.parenthesis? (text.dropWhile isWordLetter)).isSome := by
  simp [opensDirective]

theorem opensTag_iff {text : Text} :
    opensTag text = true ↔ ∃ rest, text = '\x7b' :: rest ∨ text = '!' :: '!' :: rest := by
  constructor
  · intro h
    unfold opensTag at h
    split at h
    · exact ⟨_, Or.inl rfl⟩
    · exact ⟨_, Or.inr rfl⟩
    · simp at h
  · rintro ⟨rest, rfl | rfl⟩ <;> rfl

/-! ## Parts of a text -/

theorem takeWhile_prefix_append (u v : Text) :
    u.takeWhile isWordLetter <+: (u ++ v).takeWhile isWordLetter := by
  rw [List.takeWhile_append]
  split
  · exact (List.takeWhile_prefix _).trans (List.prefix_append _ _)
  · exact List.prefix_refl _

/-- What opens a directive still does with more text behind it. -/
theorem opensDirective_append {u : Text} (v : Text) (h : opensDirective u = true) :
    opensDirective (u ++ v) = true := by
  rw [opensDirective_iff] at h ⊢
  rcases h with ⟨start, hstart, hu⟩ | h
  · exact Or.inl ⟨start, hstart, hu.trans (takeWhile_prefix_append u v)⟩
  · obtain ⟨rest, hrest⟩ := parenthesis?_isSome_iff.1 h
    have hne : u.dropWhile isWordLetter ≠ [] := by rcases hrest with h | h <;> simp [h]
    rw [List.dropWhile_append, if_neg (by simpa using hne)]
    refine Or.inr (parenthesis?_isSome_iff.2 ⟨rest ++ v, ?_⟩)
    rcases hrest with h | h <;> simp [h]

theorem opensTag_append {u : Text} (v : Text) (h : opensTag u = true) :
    opensTag (u ++ v) = true := by
  rw [opensTag_iff] at h ⊢
  obtain ⟨rest, rfl | rfl⟩ := h
  · exact ⟨rest ++ v, Or.inl rfl⟩
  · exact ⟨rest ++ v, Or.inr rfl⟩

/-- The start of a silent text is silent. -/
theorem Silent.of_append {t v : Text} (hne : t ≠ []) (h : Silent (t ++ v)) : Silent t := by
  obtain ⟨c, u, rfl⟩ := List.exists_cons_of_ne_nil hne
  rw [List.cons_append] at h
  by_cases hat : c = '@'
  · subst hat
    rw [silent_at, ← Bool.not_eq_true] at h ⊢
    exact fun hu => h (opensDirective_append v hu)
  · by_cases hbrace : c = '\x7b'
    · subst hbrace
      rw [silent_brace, ← Bool.not_eq_true] at h ⊢
      exact fun hu => h (opensTag_append v hu)
    · exact silent_cons hat hbrace u

theorem Along.silent_of_append {block u v : Text} (h : Along Silent block (u ++ v)) :
    Along Silent block u := by
  induction block with
  | nil => trivial
  | cons c block ih =>
    refine ⟨Silent.of_append (v := v) (by simp) ?_, ih h.2⟩
    simpa using h.1

/-- A part of a text without directives has none. -/
theorem DirectiveFree.of_infix {part text : Text} (h : DirectiveFree text) (hp : part <:+: text) :
    DirectiveFree part := by
  obtain ⟨front, back, rfl⟩ := hp
  have hpart : Along Silent (front ++ part) ([] ++ back) := by
    simpa using (along_append.1 h).1
  exact (along_append.1 hpart.silent_of_append).2.silent_of_append

/-! ## What may follow -/

/-- The text completes no directive and no output tag that starts before it. -/
def Stops : Text → Prop
  | [] => False
  | c :: rest =>
    isWordLetter c = false ∧ c ≠ '(' ∧ c ≠ '\x7b' ∧ c ≠ '!' ∧ (c = ' ' → rest.head?.any (· ≠ '('))

instance : DecidablePred Stops
  | [] => .isFalse id
  | c :: rest => inferInstanceAs (Decidable (isWordLetter c = false ∧ c ≠ '(' ∧ c ≠ '\x7b' ∧
      c ≠ '!' ∧ (c = ' ' → rest.head?.any (· ≠ '('))))

theorem Stops.append {text : Text} (h : Stops text) (rest : Text) : Stops (text ++ rest) := by
  cases text with
  | nil => exact h.elim
  | cons c tail =>
    refine ⟨h.1, h.2.1, h.2.2.1, h.2.2.2.1, fun hc => ?_⟩
    have htail := h.2.2.2.2 hc
    cases tail with
    | nil => simp at htail
    | cons d tail => simpa using htail

/-- Where a word stops no parenthesis follows. -/
theorem Stops.not_parenthesis {rest : Text} (h : Stops rest) :
    ¬(Call.parenthesis? rest).isSome := by
  intro hp
  obtain ⟨tail, rfl | rfl⟩ := parenthesis?_isSome_iff.1 hp
  · exact h.2.1 rfl
  · simpa using h.2.2.2.2 rfl

/-- No directive is opened by text that stops it. -/
theorem opensDirective_append_of_stops {u rest : Text} (h : opensDirective u = false)
    (hs : Stops rest) : opensDirective (u ++ rest) = false := by
  rw [← Bool.not_eq_true, opensDirective_iff] at h ⊢
  obtain ⟨c, tail, rfl⟩ : ∃ c tail, rest = c :: tail := by
    cases rest with
    | nil => exact hs.elim
    | cons c tail => exact ⟨c, tail, rfl⟩
  have htake : (u ++ c :: tail).takeWhile isWordLetter = u.takeWhile isWordLetter := by
    rw [List.takeWhile_append]
    split
    case isTrue hl => simp [hs.1, List.IsPrefix.eq_of_length (List.takeWhile_prefix _) hl]
    case isFalse => rfl
  rw [htake, List.dropWhile_append]
  rintro (hstart | hp)
  · exact h (Or.inl hstart)
  · split at hp
    case isTrue =>
      rw [List.dropWhile_cons_of_neg (by simp [hs.1])] at hp
      exact hs.not_parenthesis hp
    case isFalse hne =>
      -- The opening lies inside `u`, or its space is the last character of `u`.
      obtain ⟨d, v, hv⟩ := List.exists_cons_of_ne_nil (mt List.isEmpty_iff.2 hne)
      rw [hv] at hp h
      obtain ⟨r, hr | hr⟩ := parenthesis?_isSome_iff.1 hp
      · obtain rfl := (List.cons.inj hr).1
        exact h (Or.inr rfl)
      · obtain ⟨rfl, htail⟩ := List.cons.inj hr
        cases v with
        | nil => exact hs.2.1 (List.cons.inj htail).1
        | cons x v =>
          obtain rfl := (List.cons.inj htail).1
          exact h (Or.inr rfl)

theorem opensTag_append_of_stops {u rest : Text} (h : opensTag u = false) (hs : Stops rest) :
    opensTag (u ++ rest) = false := by
  rw [← Bool.not_eq_true, opensTag_iff] at h ⊢
  rintro ⟨r, hr⟩
  match u, rest, hs with
  | [], c :: tail, hs =>
    rcases hr with hr | hr
    · exact hs.2.2.1 (List.cons.inj hr).1
    · exact hs.2.2.2.1 (List.cons.inj hr).1
  | [d], c :: tail, hs =>
    rcases hr with hr | hr
    · exact h ⟨[], Or.inl (by rw [(List.cons.inj hr).1])⟩
    · exact hs.2.2.2.1 (List.cons.inj (List.cons.inj hr).2).1
  | d :: x :: v, c :: tail, hs =>
    rcases hr with hr | hr
    · exact h ⟨x :: v, Or.inl (by rw [(List.cons.inj hr).1])⟩
    · obtain ⟨rfl, htail⟩ := List.cons.inj hr
      exact h ⟨v, Or.inr (by rw [(List.cons.inj htail).1])⟩

/-- A directive-free text stays so before a text that completes nothing. -/
theorem DirectiveFree.along {text rest : Text} (h : DirectiveFree text) (hs : Stops rest) :
    Along Silent text rest := by
  induction text with
  | nil => trivial
  | cons c text ih =>
    refine ⟨?_, ih h.2⟩
    have hc := h.1
    rw [List.append_nil] at hc
    by_cases hat : c = '@'
    · subst hat
      exact opensDirective_append_of_stops hc hs
    · by_cases hbrace : c = '\x7b'
      · subst hbrace
        exact opensTag_append_of_stops hc hs
      · exact silent_cons hat hbrace _

/-! ## Quiet blocks -/

theorem Quiet.append {a b : Text} (ha : Quiet a) (hb : Quiet b) : Quiet (a ++ b) :=
  fun rest => along_append.2 ⟨ha _, hb rest⟩

/-- A quiet block has no directives. -/
theorem Quiet.directiveFree {block : Text} (h : Quiet block) : DirectiveFree block :=
  h []

theorem Quiet.flatMap {β : Type} {block : β → Text} :
    ∀ {items : List β}, (∀ b ∈ items, Quiet (block b)) → Quiet (items.flatMap block)
  | [], _ => fun _ => trivial
  | b :: items, h => by
    rw [List.flatMap_cons]
    exact (h b (by simp)).append (Quiet.flatMap fun c hc => h c (List.mem_cons_of_mem _ hc))

/-- A directive-free text together with a quiet block that completes nothing. -/
theorem DirectiveFree.quiet_append {text block : Text} (h : DirectiveFree text)
    (hs : Stops block) (hb : Quiet block) : Quiet (text ++ block) :=
  fun rest => along_append.2 ⟨h.along (hs.append rest), hb rest⟩

/-- A block without `@` and braces is quiet. -/
theorem quiet_of_forall {block : Text} (h : ∀ c ∈ block, c ≠ '@' ∧ c ≠ '\x7b') : Quiet block :=
  fun _ => along_of_forall fun c hc t => silent_cons (h c hc).1 (h c hc).2 t

/-- Whether a text has no `@`, and a space behind every brace that opens. -/
def isHarmless : Text → Bool
  | [] => true
  | c :: rest => c ≠ '@' && (c ≠ '\x7b' || rest.head? = some ' ') && isHarmless rest

/-- A harmless block is quiet. -/
theorem quiet_of_isHarmless {block : Text} (h : isHarmless block = true) : Quiet block := by
  intro rest
  induction block with
  | nil => trivial
  | cons c block ih =>
    simp only [isHarmless, Bool.and_eq_true, Bool.or_eq_true, decide_eq_true_eq] at h
    refine ⟨?_, ih h.2⟩
    by_cases hbrace : c = '\x7b'
    · subst hbrace
      obtain ⟨tail, rfl⟩ : ∃ tail, block = ' ' :: tail := by
        cases block with
        | nil => simp at h
        | cons d tail => exact ⟨tail, by simpa using h.1.2⟩
      rfl
    · exact silent_cons h.1.1 hbrace _

/-! ## Rewritings -/

/-- The characters that directives and output tags are recognised by, less the space. -/
def isSignal (c : Char) : Bool :=
  isWordLetter c || c = '@' || c = '(' || c = '\x7b' || c = '!'

/-- A rewriting that neither moves nor adds any of the characters that directives and output tags
are recognised by. -/
structure Keeps (rewrite : Text → Text) : Prop where
  cons : ∀ {c : Char} (t : Text), isSignal c → rewrite (c :: t) = c :: rewrite t
  head : ∀ {c : Char} {t u : Text}, isSignal c → rewrite t = c :: u →
    ∃ t', t = c :: t' ∧ u = rewrite t'
  space : ∀ {t u : Text}, rewrite t = ' ' :: '(' :: u → ∃ t', t = ' ' :: '(' :: t'

namespace Keeps

variable {rewrite : Text → Text} (h : Keeps rewrite)

include h

/-- Such a rewriting leaves the word at the head alone. -/
theorem span_eq (t : Text) : (rewrite t).takeWhile isWordLetter = t.takeWhile isWordLetter ∧
    (rewrite t).dropWhile isWordLetter = rewrite (t.dropWhile isWordLetter) := by
  have hnone : ∀ s : Text, (∀ c t', s = c :: t' → isWordLetter c = false) →
      (rewrite s).takeWhile isWordLetter = [] ∧
        (rewrite s).dropWhile isWordLetter = rewrite s := by
    intro s hs
    cases hr : rewrite s with
    | nil => simp
    | cons d u =>
      have hd : isWordLetter d = false := by
        by_contra hd
        obtain ⟨t', rfl, -⟩ := h.head (by simp [isSignal, Bool.not_eq_false _ ▸ hd]) hr
        exact hd (hs d t' rfl)
      simp [hd]
  induction t with
  | nil => simpa using hnone [] (by simp)
  | cons c t ih =>
    cases hc : isWordLetter c with
    | true =>
      rw [h.cons t (by simp [isSignal, hc])]
      simpa [hc] using ih
    | false =>
      have := hnone (c :: t) (by rintro d t' ⟨⟩; exact hc)
      simpa [hc] using this

/-- It opens no directive. -/
theorem opensDirective_eq {t : Text} (ht : opensDirective t = false) :
    opensDirective (rewrite t) = false := by
  rw [← Bool.not_eq_true, opensDirective_iff] at ht ⊢
  rw [(h.span_eq t).1, (h.span_eq t).2]
  rintro (hstart | hp)
  · exact ht (Or.inl hstart)
  · refine ht (Or.inr (parenthesis?_isSome_iff.2 ?_))
    obtain ⟨u, hu | hu⟩ := parenthesis?_isSome_iff.1 hp
    · obtain ⟨t', ht', -⟩ := h.head (by decide) hu
      exact ⟨t', Or.inl ht'⟩
    · obtain ⟨t', ht'⟩ := h.space hu
      exact ⟨t', Or.inr ht'⟩

/-- It opens no output tag. -/
theorem opensTag_eq {t : Text} (ht : opensTag t = false) : opensTag (rewrite t) = false := by
  rw [← Bool.not_eq_true, opensTag_iff] at ht ⊢
  rintro ⟨u, hu | hu⟩
  · obtain ⟨t', ht', -⟩ := h.head (by decide) hu
    exact ht ⟨t', Or.inl ht'⟩
  · obtain ⟨t', rfl, hu'⟩ := h.head (by decide) hu
    obtain ⟨t'', rfl, -⟩ := h.head (by decide) hu'.symm
    exact ht ⟨t'', Or.inr rfl⟩

/-- It keeps a silent text silent. -/
theorem silent {c : Char} {t : Text} (ht : Silent (c :: t)) : Silent (c :: rewrite t) := by
  by_cases hat : c = '@'
  · subst hat
    exact h.opensDirective_eq ht
  · by_cases hbrace : c = '\x7b'
    · subst hbrace
      exact h.opensTag_eq ht
    · exact silent_cons hat hbrace _

end Keeps

/-- Requoting puts a backslash in front of a double quote and of a dollar sign. -/
theorem requoted_cons {c : Char} (hc : c ≠ '\\') (t : Text) :
    Php.requoted (c :: t)
      = if c = '"' ∨ c = '$' then '\\' :: c :: Php.requoted t else c :: Php.requoted t := by
  rw [Php.requoted]
  · exact fun h => absurd h hc
  · exact fun _ _ h => absurd h hc

/-- Requoting takes the backslash from a single quote and leaves every other pair alone. -/
theorem requoted_escape (c : Char) (t : Text) :
    Php.requoted ('\\' :: c :: t)
      = if c = '\'' then '\'' :: Php.requoted t else '\\' :: c :: Php.requoted t := by
  rw [Php.requoted]

/-- How a requoted text starts: with a character of the text, unless that is a quote, a dollar sign
or a backslash. -/
theorem requoted_eq_cons {t u : Text} {c : Char} (h : Php.requoted t = c :: u) :
    c = '\\' ∨ c = '\'' ∨ ∃ t', t = c :: t' ∧ u = Php.requoted t' := by
  match t with
  | [] => simp [Php.requoted] at h
  | ['\\'] => exact Or.inl (List.cons.inj h).1.symm
  | '\\' :: d :: t =>
    rw [requoted_escape] at h
    split at h
    · exact Or.inr (Or.inl (List.cons.inj h).1.symm)
    · exact Or.inl (List.cons.inj h).1.symm
  | d :: t =>
    by_cases hd : d = '\\'
    · subst hd
      cases t with
      | nil => exact Or.inl (List.cons.inj h).1.symm
      | cons x t =>
        rw [requoted_escape] at h
        split at h
        · exact Or.inr (Or.inl (List.cons.inj h).1.symm)
        · exact Or.inl (List.cons.inj h).1.symm
    · rw [requoted_cons hd] at h
      split at h
      · exact Or.inl (List.cons.inj h).1.symm
      · obtain ⟨rfl, rfl⟩ := List.cons.inj h
        exact Or.inr (Or.inr ⟨t, rfl, rfl⟩)

/-- Requoting is such a rewriting. -/
theorem keeps_requoted : Keeps Php.requoted where
  cons {c} t hc := by
    rw [requoted_cons (by rintro rfl; simp [isSignal, isWordLetter] at hc),
      if_neg (by rintro (rfl | rfl) <;> simp [isSignal, isWordLetter] at hc)]
  head {c t u} hc h := by
    rcases requoted_eq_cons h with rfl | rfl | ht
    · simp [isSignal, isWordLetter] at hc
    · simp [isSignal, isWordLetter] at hc
    · exact ht
  space {t u} h := by
    obtain h | h | ⟨t', rfl, ht'⟩ := requoted_eq_cons h
    · simp at h
    · simp at h
    · obtain h | h | ⟨t'', rfl, -⟩ := requoted_eq_cons ht'.symm
      · simp at h
      · simp at h
      · exact ⟨t'', rfl⟩

/-- Requoting brings in no directive. -/
theorem DirectiveFree.requoted {t : Text} (h : DirectiveFree t) :
    DirectiveFree (Php.requoted t) := by
  have hsilent : ∀ {c : Char} {t : Text}, Silent (c :: (t ++ [])) →
      Silent (c :: (Php.requoted t ++ [])) := by
    intro c t hc
    rw [List.append_nil] at hc ⊢
    exact keeps_requoted.silent hc
  have hback : ∀ t, Silent ('\\' :: t) := silent_cons (by decide) (by decide)
  fun_induction Php.requoted t with
  | case1 => trivial
  | case2 => exact ⟨hback _, hback _, trivial⟩
  | case3 t ih => exact ⟨silent_cons (by decide) (by decide) _, ih h.2.2⟩
  | case4 c t hc ih => exact ⟨hback _, hsilent h.2.1, ih h.2.2⟩
  | case5 c t _ _ hc ih => exact ⟨hback _, hsilent h.1, ih h.2⟩
  | case6 c t _ _ hc ih => exact ⟨hsilent h.1, ih h.2⟩

/-- What has been trimmed stands in the text. -/
theorem trim_isInfix (t : Text) : t.trim <:+: t := by
  obtain ⟨front, hfront⟩ := List.dropWhile_suffix (l := t) isBlank
  obtain ⟨back, hback⟩ := List.dropWhile_suffix (l := t.trimStart.reverse) isBlank
  refine ⟨front, back.reverse, ?_⟩
  have htrim : t.trim ++ back.reverse = t.trimStart := by
    have := congrArg List.reverse hback
    rwa [List.reverse_append, List.reverse_reverse] at this
  rw [List.append_assoc, htrim]
  exact hfront

theorem eq_append_of_literalFrom? {state : Quoting} {text inner : Text}
    (h : literalFrom? state text = some inner) : ∃ mark, text = inner ++ [mark] := by
  induction text generalizing state inner with
  | nil => simp [literalFrom?] at h
  | cons c text ih =>
    unfold literalFrom? at h
    split at h
    · split at h
      case isTrue hnil =>
        obtain rfl := Option.some.inj h
        exact ⟨c, by simp [hnil]⟩
      case isFalse => simp at h
    · obtain ⟨tail, ht, rfl⟩ := Option.map_eq_some_iff.1 h
      obtain ⟨mark, rfl⟩ := ih ht
      exact ⟨mark, rfl⟩

/-- What stands between the quotes stands in the argument. -/
theorem infix_of_unquote? {argument inner : Text} (h : argument.unquote? = some inner) :
    inner <:+: argument := by
  refine List.IsInfix.trans ?_ (trim_isInfix argument)
  unfold unquote? at h
  split at h
  · simp at h
  case h_2 mark rest htrim =>
    split at h
    · obtain ⟨last, rfl⟩ := eq_append_of_literalFrom? h
      exact ⟨[mark], [last], by simp [htrim]⟩
    · simp at h

/-- The code for a value brings in no directive. -/
theorem DirectiveFree.value {t : Text} (h : DirectiveFree t) : DirectiveFree (Php.value t) := by
  unfold Php.value
  split
  case h_1 inner hinner =>
    have hquote : Quiet ['"'] := quiet_of_isHarmless rfl
    have hinside : DirectiveFree (Php.requoted inner) :=
      (h.of_infix (infix_of_unquote? hinner)).requoted
    exact (hquote.append (hinside.quiet_append (by decide) hquote)).directiveFree
  case h_2 => exact h.of_infix (trim_isInfix t)

theorem coalesce_cons {c : Char} {t : Text} (h : after? (c :: t) " or " = none) :
    Output.coalesce (c :: t) = c :: Output.coalesce t :=
  replace_cons_of_after?_eq_none (by decide) h _

theorem coalesce_or (t : Text) :
    Output.coalesce (" or " ++ t) = " ?? " ++ Output.coalesce t :=
  replace_append (by decide) t _

/-- How a text with ` or ` replaced starts: with a character of the text, unless that is the space
before an ` or `. -/
theorem coalesce_eq_cons {t u : Text} {c : Char} (h : Output.coalesce t = c :: u) :
    (c = ' ' ∧ u.head? = some '?') ∨ ∃ t', t = c :: t' ∧ u = Output.coalesce t' := by
  cases t with
  | nil => simp [Output.coalesce, replace_nil] at h
  | cons d t =>
    cases ha : after? (d :: t) " or " with
    | some rest =>
      rw [after?_eq_some_iff.1 ha, coalesce_or] at h
      obtain ⟨rfl, rfl⟩ := List.cons.inj h
      exact Or.inl ⟨rfl, rfl⟩
    | none =>
      rw [coalesce_cons ha] at h
      obtain ⟨rfl, rfl⟩ := List.cons.inj h
      exact Or.inr ⟨t, rfl, rfl⟩

/-- Rewriting ` or ` is such a rewriting. -/
theorem keeps_coalesce : Keeps Output.coalesce where
  cons {c} t hc := by
    refine coalesce_cons ?_
    have hne : c ≠ ' ' := by rintro rfl; simp [isSignal, isWordLetter] at hc
    exact if_neg hne
  head {c t u} hc h := by
    rcases coalesce_eq_cons h with ⟨rfl, -⟩ | ht
    · simp [isSignal, isWordLetter] at hc
    · exact ht
  space {t u} h := by
    obtain ⟨-, h⟩ | ⟨t', rfl, ht'⟩ := coalesce_eq_cons h
    · simp at h
    · obtain ⟨h, -⟩ | ⟨t'', rfl, -⟩ := coalesce_eq_cons ht'.symm
      · simp at h
      · exact ⟨t'', rfl⟩

/-- Rewriting ` or ` brings in no directive. -/
theorem DirectiveFree.coalesce {t : Text} (h : DirectiveFree t) :
    DirectiveFree (Output.coalesce t) := by
  match t with
  | [] => exact h
  | c :: t =>
    cases ha : after? (c :: t) " or " with
    | some rest =>
      have heq := after?_eq_some_iff.1 ha
      have hrest : DirectiveFree rest := h.of_infix ⟨" or ", [], by simp [heq]⟩
      have hlen : rest.length < t.length + 1 := by
        rw [← List.length_cons, heq, List.length_append]
        exact Nat.lt_add_of_pos_left (by decide)
      rw [heq, coalesce_or]
      exact along_append.2 ⟨quiet_of_isHarmless rfl _, hrest.coalesce⟩
    | none =>
      rw [coalesce_cons ha]
      refine ⟨?_, DirectiveFree.coalesce h.2⟩
      have hc := h.1
      rw [List.append_nil] at hc ⊢
      exact keeps_coalesce.silent hc
termination_by t.length

end Text

end Pagewright
