import Mathlib.Data.List.Nodup
import Pagewright.Proofs.Template.Calls
import Pagewright.Proofs.Template.Fragments
import Pagewright.Proofs.Template.Keywords

/-!
# What the report says

A rule that answers has changed something. That is plain where a rule cuts something out or adds
something at the end. Most rules replace, though, some of them twice, and a replacement might give
back what was there. It cannot: everything that is replaced starts with `@` or with a brace, and
what is put in its place with `<`, which comes before both. So at the first place where the new text
differs from the old one it has the smaller character (`Text.Below`), however often something is
replaced (`Rewrite.Lowers`).

The compiler reports the rules that answer, so its report names exactly the stages that changed a
text (`Compiler.compile_report_exact`).
-/

namespace Pagewright

open Text

/-! ## Rewritten pieces -/

namespace Piece

variable {α : Type} {f : α → Option Text}

/-- A piece without an answer is kept in front of what is rewritten behind it. -/
theorem rewrite?_cons_of_none {piece : Piece α} (h : piece.value.bind f = none)
    (pieces : List (Piece α)) :
    rewrite? f (piece :: pieces) = (rewrite? f pieces).map (piece.source ++ ·) := by
  have hany : ((values (piece :: pieces)).any fun a => (f a).isSome)
      = (values pieces).any fun a => (f a).isSome := by
    cases hvalue : piece.value with
    | none => simp [values, hvalue]
    | some a =>
      have ha : f a = none := by simpa [hvalue] using h
      simp [values, hvalue, ha]
  rw [rewrite?, rewrite?, hany, rewrite_cons, rewritten_of_none h]
  split <;> rfl

/-- What holds of each replacement, whatever is done to the text behind it, holds of the text. -/
theorem rel_of_rewrite? {R : Text → Text → Prop} {pieces : List (Piece α)}
    (copied : ∀ front new old, R new old → R (front ++ new) (front ++ old))
    (replaced : ∀ source a code, ⟨source, some a⟩ ∈ pieces → f a = some code →
      ∀ new old, new = old ∨ R new old → R (code ++ new) (source ++ old))
    {new : Text} (h : rewrite? f pieces = some new) : R new (sources pieces) := by
  induction pieces generalizing new with
  | nil => cases h
  | cons piece pieces ih =>
    have ih' : ∀ {tail}, rewrite? f pieces = some tail → R tail (sources pieces) :=
      ih fun source a code hmem => replaced source a code (List.mem_cons_of_mem _ hmem)
    rw [sources_cons]
    cases hcode : piece.value.bind f with
    | none =>
      rw [rewrite?_cons_of_none hcode] at h
      obtain ⟨tail, htail, rfl⟩ := Option.map_eq_some_iff.1 h
      exact copied _ _ _ (ih' htail)
    | some code =>
      obtain ⟨source, value⟩ := piece
      obtain ⟨a, rfl, ha⟩ := Option.bind_eq_some_iff.1 hcode
      have hrewritten : rewritten f ⟨source, some a⟩ = code := by simp [rewritten, ha]
      rw [eq_rewrite_of_rewrite? h, rewrite_cons, hrewritten]
      refine replaced source a code List.mem_cons_self ha _ _ ?_
      rw [← getD_rewrite?]
      cases htail : rewrite? f pieces with
      | none => exact .inl rfl
      | some tail => exact .inr (ih' htail)

end Piece

/-! ## Smaller texts -/

/-- Where the texts differ first, the left one has the smaller character, or it ends there. -/
def Text.Below (new old : Text) : Prop :=
  List.Lex (fun c d : Char => c.toNat < d.toNat) new old

namespace Text

theorem Below.trans {a b c : Text} (hab : Below a b) (hbc : Below b c) : Below a c :=
  List.lex_trans Nat.lt_trans hab hbc

/-- A smaller text is another one. -/
theorem Below.ne {new old : Text} (h : Below new old) : new ≠ old := by
  rintro rfl
  exact List.lex_irrefl (fun c => Nat.lt_irrefl c.toNat) _ h

/-- A text in front changes nothing about which one is smaller. -/
theorem Below.append_left (front : Text) {new old : Text} (h : Below new old) :
    Below (front ++ new) (front ++ old) := by
  induction front with
  | nil => exact h
  | cons c front ih => exact .cons ih

/-- The text starts with the mark of a directive or of an output tag. -/
def Marked (text : Text) : Prop :=
  text.head? = some '@' ∨ text.head? = some '\x7b'

theorem marked_append {text : Text} (hne : text ≠ []) (rest : Text) :
    Marked (text ++ rest) ↔ text.Marked := by
  obtain ⟨c, tail, rfl⟩ := List.exists_cons_of_ne_nil hne
  exact Iff.rfl

/-- A text that starts with a marked word is marked. -/
theorem marked_of_after? {text word rest : Text} (hne : word ≠ []) (hword : word.Marked)
    (h : after? text word = some rest) : text.Marked := by
  rw [after?_eq_some_iff.1 h]
  exact (marked_append hne rest).2 hword

/-- Code is smaller than anything that is marked. -/
theorem below_of_marked {code source : Text} (hcode : code.head? = some '<')
    (hsource : source.Marked) (new old : Text) : Below (code ++ new) (source ++ old) := by
  obtain ⟨code, rfl⟩ := List.head?_eq_some_iff.1 hcode
  rcases hsource with h | h <;> obtain ⟨source, rfl⟩ := List.head?_eq_some_iff.1 h
  · exact .rel (by decide)
  · exact .rel (by decide)

end Text

namespace Rewrite

/-- The rewrite never answers with the text that it was given. -/
def Exact (rewrite : Rewrite) : Prop :=
  ∀ text new, rewrite text = some new → new ≠ text

/-- Whatever the rewrite answers is below the text that it was given. -/
def Lowers (rewrite : Rewrite) : Prop :=
  ∀ text new, rewrite text = some new → Below new text

/-- A rewrite that makes texts smaller changes them. -/
theorem Lowers.exact {rewrite : Rewrite} (h : rewrite.Lowers) : rewrite.Exact :=
  fun text new hnew => (h text new hnew).ne

/-- Two rewrites that make texts smaller do so one after the other. -/
theorem Lowers.andThen {first second : Rewrite} (hfirst : first.Lowers) (hsecond : second.Lowers) :
    (first.andThen second).Lowers := by
  intro text new h
  simp only [Rewrite.andThen] at h
  cases honce : first text with
  | none =>
    rw [honce, Option.or_none] at h
    exact hsecond text new h
  | some once =>
    have hbelow := hfirst text once honce
    rw [honce, Option.getD_some] at h
    cases htwice : second once with
    | none =>
      rw [htwice, Option.none_or] at h
      exact Option.some.inj h ▸ hbelow
    | some twice =>
      rw [htwice, Option.some_or] at h
      exact Option.some.inj h ▸ (hsecond once twice htwice).trans hbelow

/-- Every answer starts a tag. -/
def Opens {α : Type} (f : α → Option Text) : Prop :=
  ∀ a code, f a = some code → code.head? = some '<'

/-- The reader finds something only at a mark. -/
def ReadsMarks {α : Type} (read : Text → Option (Piece α)) : Prop :=
  ∀ text piece, read text = some piece → text.Marked

variable {α : Type} {f : α → Option Text} {read : Text → Option (Piece α)}

/-- Replacing marked pieces by code makes a text smaller. -/
theorem lowers_pieces (hread : Faithful read) (hmarks : ReadsMarks read) (hf : Opens f) :
    Lowers fun text => Piece.rewrite? f (text.pieces read) := by
  intro text new h
  rw [← sources_pieces hread text]
  refine Piece.rel_of_rewrite? (fun front _ _ => Below.append_left front) ?_ h
  intro source a code hmem hcode new old _
  obtain ⟨before, after, hpieces⟩ := List.append_of_mem hmem
  have hfound := read_of_pieces hread hpieces
  have hmarked := (marked_append (hread _ _ hfound).1 _).1 (hmarks _ _ hfound)
  exact below_of_marked (hf a code hcode) hmarked new old

/-- What is cut out of a text is missing. -/
theorem exact_cut (hread : Faithful read) (hf : ∀ a code, f a = some code → code = []) :
    Exact fun text => Piece.rewrite? f (text.pieces read) := by
  intro text new h
  have hlength : new.length < (Piece.sources (text.pieces read)).length := by
    refine @Piece.rel_of_rewrite? _ _ (fun new old => new.length < old.length) _ ?_ ?_ _ h
    · intro front new old hlt
      rw [List.length_append, List.length_append]
      omega
    · intro source a code hmem hcode new old htail
      have hpos : 0 < source.length :=
        List.length_pos_iff.2 (source_ne_nil_of_pieces hread hmem)
      rw [hf a code hcode, List.nil_append, List.length_append]
      rcases htail with rfl | hlt <;> omega
  rw [sources_pieces hread] at hlength
  rintro rfl
  exact Nat.lt_irrefl _ hlength

/-! ## The four kinds of replacement -/

/-- Calls are marked. -/
theorem readsMarks_call (name : Text) : ReadsMarks (Call.read name) := by
  intro text piece h
  obtain ⟨spaced, back, htext, -⟩ := Call.exists_of_read h
  exact .inl (htext ▸ rfl)

theorem readsMarks_region (name close : Text) : ReadsMarks (Region.read name close) := by
  intro text piece h
  cases hcall : Call.read name text with
  | none => cases (Region.read_of_call hcall).symm.trans h
  | some call => exact readsMarks_call name text call hcall

theorem lowers_calls (name : Text) {f : Call → Option Text} (hf : Opens f) :
    (calls name f).Lowers :=
  lowers_pieces (Call.faithful_read name) (readsMarks_call name) hf

theorem lowers_regions (name close : Text) {f : Region → Option Text} (hf : Opens f) :
    (regions name close f).Lowers :=
  lowers_pieces (Region.faithful_read name close) (readsMarks_region name close) hf

theorem lowers_token {word code : Text} (hword : word.head? = some '@')
    (hcode : code.head? = some '<') : (token word code).Lowers := by
  obtain ⟨word, rfl⟩ := List.head?_eq_some_iff.1 hword
  refine lowers_pieces (Token.faithful_read (List.cons_ne_nil _ _)) (fun text piece h => ?_)
    fun a new hnew => Option.some.inj hnew ▸ hcode
  cases hafter : after? text ('@' :: word) with
  | none => cases (Token.read_of_after? hafter).symm.trans h
  | some rest => exact marked_of_after? (List.cons_ne_nil _ _) (.inl rfl) hafter

theorem lowers_literal {word code : Text} (hword : word.head? = some '@')
    (hcode : code.head? = some '<') : (literal word code).Lowers := by
  obtain ⟨word, rfl⟩ := List.head?_eq_some_iff.1 hword
  refine lowers_pieces (faithful_after? (List.cons_ne_nil _ _)) (fun text piece h => ?_)
    fun a new hnew => Option.some.inj hnew ▸ hcode
  obtain ⟨rest, hafter, -⟩ := Option.map_eq_some_iff.1 h
  exact marked_of_after? (List.cons_ne_nil _ _) (.inl rfl) hafter

/-- The rewrite with some elements lowers the text where each of them does. -/
theorem lowers_ofElements {elements : List Element}
    (h : ∀ element ∈ elements, element.rewrite.Lowers) : (ofElements elements).Lowers :=
  ofElements_induction (fun _ _ h => by cases h) Lowers.andThen h

end Rewrite

/-! ## The rules -/

open Rewrite

namespace Directive

theorem opens_loopHead (kind : LoopKind) : Opens fun call : Call => loopHead kind call.args := by
  intro call code h
  simp only [loopHead] at h
  split at h
  · exact Option.some.inj h ▸ rfl
  · split at h
    · cases h
    · exact Option.some.inj h ▸ rfl

theorem opens_setCall : Opens setCall := by
  intro call code h
  obtain ⟨⟨key, value⟩, -, h⟩ := Option.bind_eq_some_iff.1 h
  obtain ⟨name, -, h⟩ := Option.bind_eq_some_iff.1 h
  obtain ⟨-, ⟨⟩⟩ := Option.ite_none_left_eq_some.1 h
  rfl

theorem opens_includeCall (dir up : Text) : Opens (includeCall dir up) := by
  intro call code h
  unfold includeCall at h
  cases hsplit : call.args.splitFirst? with
  | none =>
    rw [hsplit] at h
    obtain ⟨-, ⟨⟩⟩ := Option.ite_none_left_eq_some.1 h
    rfl
  | some pair =>
    rw [hsplit] at h
    obtain ⟨-, ⟨⟩⟩ := Option.ite_none_left_eq_some.1 h
    rfl

theorem opens_pushCall : Opens pushCall := by
  intro call code h
  obtain ⟨⟨name, value⟩, -, h⟩ := Option.bind_eq_some_iff.1 h
  obtain ⟨-, ⟨⟩⟩ := Option.ite_none_left_eq_some.1 h
  rfl

theorem opens_pushBlock : Opens pushBlock := by
  intro block code h
  obtain ⟨-, ⟨⟩⟩ := Option.ite_none_left_eq_some.1 h
  rfl

theorem opens_stackCall : Opens stackCall := by
  intro call code h
  obtain ⟨name, -, h⟩ := Option.bind_eq_some_iff.1 h
  obtain ⟨-, ⟨⟩⟩ := Option.ite_none_left_eq_some.1 h
  rfl

theorem opens_yieldCall : Opens yieldCall := by
  intro call code h
  obtain ⟨name, -, rfl⟩ := Option.map_eq_some_iff.1 h
  rfl

theorem opens_component (dir up : Text) : Opens (component dir up) := by
  intro region code h
  obtain ⟨-, ⟨⟩⟩ := Option.ite_none_left_eq_some.1 h
  rfl

end Directive

namespace Rule

/-- Where the rule answers, the content is another one afterwards. -/
def Exact (rule : Rule) : Prop :=
  ∀ draft next, rule.apply draft = some next → next.content ≠ draft.content

/-- A rule for the content is exact if its rewrite is. -/
theorem exact_ofContent (name : Text) {rewrite : Text → Rewrite} (h : ∀ up, (rewrite up).Exact) :
    (ofContent name rewrite).Exact := by
  intro draft next hnext
  obtain ⟨content, hcontent, rfl⟩ := Option.map_eq_some_iff.1 hnext
  exact h _ _ _ hcontent

theorem exact_ofRewrite (name : Text) {rewrite : Rewrite} (h : rewrite.Exact) :
    (ofRewrite name rewrite).Exact :=
  exact_ofContent name fun _ => h

/-- The rule for sections makes the content shorter. -/
theorem exact_sectionRule : Directive.sectionRule.Exact := by
  intro draft next hnext
  obtain ⟨content, hcontent, rfl⟩ := Option.map_eq_some_iff.1 hnext
  refine exact_cut (Region.faithful_read _ _) (fun region code hcode => ?_) _ _ hcontent
  obtain ⟨-, -, rfl⟩ := Option.map_eq_some_iff.1 hcode
  rfl

end Rule

namespace Directive

/-- Both elements of a condition make the text smaller. -/
theorem lowers_conditional (name : Text) {close : Text} (hclose : close.head? = some '@')
    (condition : Text → Text) :
    ∀ element ∈ conditional name close condition, element.rewrite.Lowers :=
  List.forall_mem_cons.2 ⟨lowers_calls name fun _ _ h => Option.some.inj h ▸ rfl,
    List.forall_mem_singleton.2 (lowers_literal hclose rfl)⟩

/-- Both elements of a jump make the text smaller. -/
theorem lowers_jump (word : Text) : ∀ element ∈ jump word, element.rewrite.Lowers :=
  List.forall_mem_cons.2 ⟨lowers_calls word fun _ _ h => Option.some.inj h ▸ rfl,
    List.forall_mem_singleton.2 (lowers_token rfl rfl)⟩

/-- Both elements of a loop make the text smaller. -/
theorem lowers_loop (kind : LoopKind) :
    ∀ element ∈ loopElements kind, element.rewrite.Lowers :=
  List.forall_mem_cons.2 ⟨lowers_calls kind.word (opens_loopHead kind),
    List.forall_mem_singleton.2 (lowers_token rfl rfl)⟩

end Directive

namespace Keyword

open Directive

/-- Each element of a rule that keeps the content in the text lowers it. -/
theorem lowers_elements (dir up : Text) {k : Keyword} (hk : k ≠ .section) :
    ∀ element ∈ k.elements dir up, element.rewrite.Lowers := by
  cases k with
  | «break» => exact lowers_jump "break"
  | component => exact List.forall_mem_singleton.2 (lowers_regions _ _ (opens_component dir up))
  | «continue» => exact lowers_jump "continue"
  | elseif =>
    exact List.forall_mem_singleton.2 (lowers_calls _ fun _ _ h => Option.some.inj h ▸ rfl)
  | empty =>
    rw [elements]
    exact lowers_conditional _ rfl _
  | «for» => exact lowers_loop .for
  | foreach => exact lowers_loop .foreach
  | set => exact List.forall_mem_singleton.2 (lowers_calls _ opens_setCall)
  | «if» => exact lowers_conditional _ rfl _
  | «include» => exact List.forall_mem_singleton.2 (lowers_calls _ (opens_includeCall dir up))
  | push =>
    exact List.forall_mem_cons.2 ⟨lowers_calls _ opens_pushCall,
      List.forall_mem_singleton.2 (lowers_regions _ _ opens_pushBlock)⟩
  | «section» => exact absurd rfl hk
  | stack => exact List.forall_mem_singleton.2 (lowers_calls _ opens_stackCall)
  | «unless» =>
    rw [elements]
    exact lowers_conditional _ rfl _
  | «while» => exact lowers_loop .while
  | yield => exact List.forall_mem_singleton.2 (lowers_calls _ opens_yieldCall)

/-- The rule of a directive changes the content where it answers. -/
theorem exact_rule (dirs : Conventions) (k : Keyword) : (k.rule dirs).Exact := by
  by_cases hk : k = .section
  · subst hk
    exact Rule.exact_sectionRule
  · rw [rule_eq dirs hk]
    exact Rule.exact_ofContent _ fun up => (lowers_ofElements (lowers_elements _ up hk)).exact

end Keyword

namespace Output

/-- Removing comments makes the text shorter. -/
theorem exact_comments : comments.Exact :=
  exact_cut faithful_readComment fun _ _ h => (Option.some.inj h).symm

theorem readsMarks_tag {opening : Text} (hopening : opening.head? = some '\x7b') (close : Text) :
    ReadsMarks (readTag opening close) := by
  intro text piece h
  obtain ⟨rest, hafter, -⟩ := Option.bind_eq_some_iff.1 h
  exact marked_of_after? (by rintro rfl; cases hopening) (.inr hopening) hafter

theorem lowers_raw : raw.Lowers :=
  lowers_pieces (faithful_readTag _ _) (readsMarks_tag rfl _) fun _ _ h => Option.some.inj h ▸ rfl

theorem lowers_echo (safe : Bool) : (echo safe).Lowers :=
  lowers_pieces (faithful_readTag _ _) (readsMarks_tag rfl _) fun _ _ h => Option.some.inj h ▸ rfl

theorem lowers_leftoverCalls : leftoverCalls.Lowers := by
  refine lowers_pieces faithful_readLeftover (fun text piece h => ?_)
    fun _ _ h => Option.some.inj h ▸ rfl
  unfold readLeftover at h
  split at h
  · exact .inl rfl
  · cases h

theorem lowers_leftoverEnds : leftoverEnds.Lowers := by
  refine lowers_pieces faithful_readLeftoverEnd (fun text piece h => ?_)
    fun _ _ h => Option.some.inj h ▸ rfl
  obtain ⟨rest, hafter, -⟩ := Option.bind_eq_some_iff.1 h
  exact marked_of_after? (by decide) (.inl rfl) hafter

/-- Closing a tag makes the text longer. -/
theorem exact_closeTag : Rewrite.Exact Php.closeTag := by
  intro text new h
  unfold Php.closeTag at h
  split at h
  · obtain rfl := Option.some.inj h
    simp
  · cases h

end Output

/-- Every rule of a compiler without extensions changes the content where it answers. -/
theorem Compiler.exact_rules (options : CompileOptions) {rule : Rule}
    (h : rule ∈ Output.commentRule :: (⟨options, []⟩ : Compiler).rules) : rule.Exact := by
  simp only [rules, List.append_nil, List.mem_cons, List.mem_append, finalRules,
    List.not_mem_nil, or_false] at h
  rcases h with rfl | hbuiltin | rfl | rfl | rfl | rfl
  · exact Rule.exact_ofRewrite _ Output.exact_comments
  · obtain rfl | ⟨k, rfl⟩ := Keyword.exists_rule_eq hbuiltin
    · exact Rule.exact_ofRewrite _ (lowers_token rfl rfl).exact
    · exact k.exact_rule options.dirs
  · exact Rule.exact_ofRewrite _ Output.lowers_raw.exact
  · exact Rule.exact_ofRewrite _
      (Output.lowers_leftoverCalls.andThen Output.lowers_leftoverEnds).exact
  · exact Rule.exact_ofRewrite _ (Output.lowers_echo options.safeOutput).exact
  · exact Rule.exact_ofRewrite _ Output.exact_closeTag

/-! ## One stage -/

/-- From one draft to the other the content has changed, or a fragment before it, or there is one
more of them. -/
def Draft.TextsDiffer (old new : Draft) : Prop :=
  new.content ≠ old.content ∨
    (∃ (i : Nat) (text : Text), old.before[i]? = some text ∧ new.before[i]? ≠ some text) ∨
    old.before.length < new.before.length

/-- Two drafts differ in their texts when their contents or their fragments do. -/
theorem Draft.textsDiffer_iff {old new : Draft} :
    TextsDiffer old new ↔ new.content ≠ old.content ∨ new.before ≠ old.before := by
  refine or_congr_right ⟨?_, fun hne => ?_⟩
  · rintro (⟨i, text, hold, hnew⟩ | hlength) hsame
    · exact hnew (hsame ▸ hold)
    · exact absurd (hsame ▸ hlength) (Nat.lt_irrefl _)
  · by_contra hkept
    rw [not_or, Nat.not_lt] at hkept
    refine hne (List.ext_getElem? fun i => ?_)
    cases hold : old.before[i]? with
    | none => exact List.getElem?_eq_none (hkept.2.trans (List.getElem?_eq_none_iff.1 hold))
    | some text => exact by_contra fun hnew => hkept.1 ⟨i, text, hold, hnew⟩

namespace Rule

variable {rule : Rule}

/-- A rule is applied to every fragment, and what it puts in front of one comes behind all of them.
-/
theorem onFragments_all (rule : Rule) (draft : Draft) :
    rule.onFragments draft draft.before.length =
      (draft.before.map (fun text =>
          ((rule.apply (draft.fragment text)).map Draft.content).getD text)
        ++ draft.before.flatMap (fun text =>
          ((rule.apply (draft.fragment text)).map Draft.before).getD []),
        draft.before.any fun text => (rule.apply (draft.fragment text)).isSome) := by
  simp [onFragments, Function.comp_def, List.flatMap_map]

/-- The fragments are others afterwards just when the rule answers for one of them. -/
theorem onFragments_iff (h : rule.Exact) (draft : Draft) :
    (rule.onFragments draft draft.before.length).2 = true ↔
      (rule.onFragments draft draft.before.length).1 ≠ draft.before := by
  rw [onFragments_all]
  constructor
  · intro hany hsame
    obtain ⟨text, htext, hsome⟩ := List.any_eq_true.1 hany
    obtain ⟨next, hnext⟩ := Option.isSome_iff_exists.1 hsome
    -- What is added stands behind the fragments that were there, so it cannot hide the change.
    have hmap := List.append_inj_left (hsame.trans (List.append_nil _).symm) (List.length_map _)
    have hfixed := List.map_inj_left.1 (hmap.trans (List.map_id _).symm) text htext
    rw [hnext] at hfixed
    exact h _ _ hnext hfixed
  · intro hne
    by_contra hany
    have hnone : ∀ text ∈ draft.before, rule.apply (draft.fragment text) = none := by
      simpa using hany
    have hkept : ∀ text ∈ draft.before,
        ((rule.apply (draft.fragment text)).map Draft.content).getD text = id text :=
      fun text htext => by rw [hnone text htext]; rfl
    have hadded : ∀ text ∈ draft.before,
        ((rule.apply (draft.fragment text)).map Draft.before).getD [] = [] :=
      fun text htext => by rw [hnone text htext]; rfl
    refine hne ?_
    rw [List.map_congr_left hkept, List.map_id, List.flatMap_eq_nil_iff.2 hadded, List.append_nil]

/-- A stage is reported just when it changes a text. -/
theorem step_iff (h : rule.Exact) (draft : Draft) :
    (rule.step draft).2 = true ↔ draft.TextsDiffer (rule.step draft).1 := by
  rw [Draft.textsDiffer_iff]
  cases hnext : rule.apply draft with
  | none =>
    simpa [step, hnext] using onFragments_iff h draft
  | some next =>
    simp [step, hnext, h draft next hnext]

/-- A rule answers just when what comes of it is another draft. -/
theorem apply_iff (h : rule.Exact) (draft : Draft) :
    rule.apply draft ≠ none ↔ (rule.apply draft).getD draft ≠ draft := by
  cases hnext : rule.apply draft with
  | none => simp
  | some next => simpa using fun hsame : next = draft => h draft next hnext (hsame ▸ rfl)

end Rule

/-! ## All stages -/

namespace Compiler

/-- What rules report is added to the report. -/
theorem report_runRules (rules : List Rule) (draft : Draft) (report : List Text) :
    (runRules rules ⟨draft, report⟩).report = report ++ (runRules rules ⟨draft, []⟩).report := by
  induction rules generalizing draft report with
  | nil => exact (List.append_nil report).symm
  | cons rule rules ih =>
    simp only [runRules, List.nil_append]
    cases (rule.step draft).2 with
    | false => exact ih _ report
    | true => rw [if_pos rfl, if_pos rfl, ih, ih _ [rule.name], List.append_assoc]

/-- The report names rules in the order in which they run. -/
theorem report_sublist (rules : List Rule) (draft : Draft) :
    (runRules rules ⟨draft, []⟩).report.Sublist (rules.map Rule.name) := by
  induction rules generalizing draft with
  | nil => exact .slnil
  | cons rule rules ih =>
    simp only [runRules]
    rw [report_runRules]
    split
    · exact (ih _).cons_cons _
    · exact (ih _).cons _

/-- The report names no rule that has not run. -/
theorem not_mem_report {rules : List Rule} {name : Text} (h : name ∉ rules.map Rule.name)
    (draft : Draft) : name ∉ (runRules rules ⟨draft, []⟩).report :=
  fun hmem => h ((report_sublist rules draft).subset hmem)

/-- Where no two rules have the same name, a name in the report stands for the rule that has it. -/
theorem mem_report_iff {rules : List Rule} (hnames : (rules.map Rule.name).Nodup) {count : Nat}
    {rule : Rule} (h : rules[count]? = some rule) (draft : Draft) :
    rule.name ∈ (runRules rules ⟨draft, []⟩).report ↔
      (rule.step (runRules (rules.take count) ⟨draft, []⟩).draft).2 = true := by
  obtain ⟨before, after, rfl, rfl⟩ : ∃ before after,
      rules = before ++ rule :: after ∧ before.length = count := by
    obtain ⟨hlt, rfl⟩ := List.getElem?_eq_some_iff.1 h
    refine ⟨rules.take count, rules.drop (count + 1), ?_, List.length_take_of_le hlt.le⟩
    rw [← List.drop_eq_getElem_cons hlt, List.take_append_drop]
  rw [List.map_append, List.map_cons, List.nodup_middle, List.nodup_cons, List.mem_append,
    not_or] at hnames
  obtain ⟨⟨hbefore, hafter⟩, -⟩ := hnames
  rw [List.take_left, runRules_append]
  simp only [runRules]
  rw [report_runRules, List.mem_append, or_iff_left (not_mem_report hafter _)]
  cases (rule.step (runRules before ⟨draft, []⟩).draft).2 with
  | false => exact iff_of_false (not_mem_report hbefore draft) Bool.false_ne_true
  | true => exact iff_of_true (List.mem_append_right _ List.mem_cons_self) rfl

/-- The next rule leads from one draft to the next. -/
theorem draftAfter_succ {compiler : Compiler} {count : Nat} {rule : Rule}
    (h : compiler.rules[count]? = some rule) (draft : Draft) (output : Path) :
    compiler.draftAfter draft output (count + 1)
      = (rule.step (compiler.draftAfter draft output count)).1 := by
  have hrule : (compiler.rules.drop count).take 1 = [rule] := by
    simp [List.take_one, h]
  rw [draftAfter_add, hrule, runRules_draft]
  rfl

/-- The draft when `count` stages are through, the removal of comments being the first one. -/
def reached (compiler : Compiler) (draft : Draft) (output : Path) : (count : Nat) → Draft
  | 0 => draft
  | count + 1 => compiler.draftAfter draft output count

/-- The report starts with the removal of comments. -/
theorem report_compile (compiler : Compiler) (draft : Draft) (output : Path) :
    (compiler.compile draft output).report = (runRules [Output.commentRule] ⟨draft, []⟩).report
      ++ (runRules compiler.rules ⟨compiler.draftAfter draft output 0, []⟩).report :=
  report_runRules _ _ _

/-- No two stages have the same name. -/
theorem nodup_stages (options : CompileOptions) :
    ((Output.commentRule :: (⟨options, []⟩ : Compiler).rules).map Rule.name).Nodup := by
  have hnames : (Output.commentRule :: (⟨options, []⟩ : Compiler).rules).map Rule.name
      = ("comments" : Text) :: (builtinNames ++
        (["escaped-output", "generic-call", "interpolation", "close-tag"] : List Text)) := rfl
  rw [hnames]
  decide

/-- A stage is reported just when it answers, for the content or for a fragment. -/
theorem mem_report_compile_iff {options : CompileOptions} {count : Nat} {rule : Rule}
    (h : (Output.commentRule :: (⟨options, []⟩ : Compiler).rules)[count]? = some rule)
    (draft : Draft) (output : Path) :
    let compiler : Compiler := ⟨options, []⟩
    rule.name ∈ (compiler.compile draft output).report ↔
      (rule.step (compiler.reached draft output count)).2 = true := by
  intro compiler
  obtain ⟨hcomments, hnames⟩ := List.nodup_cons.1 (nodup_stages options)
  rw [report_compile, List.mem_append]
  cases count with
  | zero =>
    obtain rfl : Output.commentRule = rule := Option.some.inj h
    rw [or_iff_left (not_mem_report hcomments _)]
    exact @mem_report_iff [Output.commentRule] (List.nodup_singleton _) 0 _ rfl draft
  | succ count =>
    have hcount : compiler.rules[count]? = some rule := h
    have hname : rule.name ∉ [Output.commentRule].map Rule.name := by
      intro hmem
      rw [List.map_singleton, List.mem_singleton] at hmem
      exact hcomments (hmem ▸ List.mem_map_of_mem (List.mem_of_getElem? hcount))
    have hdraft : (runRules (compiler.rules.take count)
        ⟨compiler.draftAfter draft output 0, []⟩).draft =
          compiler.draftAfter draft output count := by
      have hadd := compiler.draftAfter_add draft output 0 count
      rwa [List.drop_zero, Nat.zero_add, eq_comm] at hadd
    rw [or_iff_right (not_mem_report hname draft), mem_report_iff hnames hcount, hdraft, reached]

/-- The next stage gets the texts that a stage leaves. -/
theorem textsDiffer_reached {options : CompileOptions} {count : Nat} {rule : Rule}
    (h : (Output.commentRule :: (⟨options, []⟩ : Compiler).rules)[count]? = some rule)
    (draft : Draft) (output : Path) :
    let compiler : Compiler := ⟨options, []⟩
    let entered := compiler.reached draft output count
    entered.TextsDiffer (rule.step entered).1 ↔
      entered.TextsDiffer (compiler.reached draft output (count + 1)) := by
  intro compiler entered
  cases count with
  | zero =>
    obtain rfl : Output.commentRule = rule := Option.some.inj h
    rfl
  | succ count =>
    have hcount : compiler.rules[count]? = some rule := h
    rw [reached, draftAfter_succ hcount]
    rfl

/-- The report of a compiler without extensions is exact. It names stages in their order, none of
them twice, and a stage is named just when it has changed the content or a fragment before it, or
added one. A rule answers just when what comes of it is another draft. -/
theorem compile_report_exact (options : CompileOptions) (draft : Draft) (output : Path) :
    let compiler : Compiler := ⟨options, []⟩
    let stages := Output.commentRule :: compiler.rules
    let report := (compiler.compile draft output).report
    report.Sublist (stages.map Rule.name) ∧ report.Nodup ∧
      (∀ count rule, stages[count]? = some rule →
        (rule.name ∈ report ↔ (compiler.reached draft output count).TextsDiffer
          (compiler.reached draft output (count + 1)))) ∧
      ∀ rule ∈ stages, ∀ draft,
        rule.apply draft ≠ none ↔ (rule.apply draft).getD draft ≠ draft := by
  intro compiler stages report
  have hsublist : report.Sublist (stages.map Rule.name) := by
    rw [show report = _ from report_compile compiler draft output]
    exact (report_sublist [Output.commentRule] draft).append (report_sublist compiler.rules _)
  refine ⟨hsublist, (nodup_stages options).sublist hsublist, ?_, ?_⟩
  · intro count rule hrule
    have hexact := exact_rules options (List.mem_of_getElem? hrule)
    exact (mem_report_compile_iff hrule draft output).trans
      ((Rule.step_iff hexact _).trans (textsDiffer_reached hrule draft output))
  · intro rule hrule
    exact Rule.apply_iff (exact_rules options hrule)

end Compiler

end Pagewright
