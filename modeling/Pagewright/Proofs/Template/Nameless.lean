import Pagewright.Proofs.Template.Arguments
import Pagewright.Proofs.Template.Keywords

/-!
# Calls without a name

Six directives name a partial, a section or a stack, and so does a slot in the body of a component.
An argument that is blank or holds nothing but quotes is no name (`Text.bareName_eq_nil_iff`).

`Directive.nameless_call_iff` says what becomes of a call without a name. `@component` and
`@section` leave it as it stands. Each of the others asks for something weaker than a name
(`Keyword.TakesNameless`): an include for any text at all, `@yield` and `@stack` for a literal, and
the blocks of `@push` for a name made of all the arguments, which a value without a name still has.
Slots ask for nothing (`Directive.takes_slot_iff`). The code for such a call then has an empty name
in it, or the arguments in the place of one (`Keyword.NamelessCode`).
-/

namespace Pagewright

open Text

/-! ## Name arguments -/

namespace Text

/-- The first of several arguments, or the only one. -/
def firstArgument (args : Text) : Text :=
  (args.splitFirst?.map Prod.fst).getD args

/-- What stands before the first comma is the first argument. -/
theorem firstArgument_of_split {args first rest : Text}
    (h : args.splitFirst? = some (first, rest)) : args.firstArgument = first := by
  rw [firstArgument, h]
  rfl

theorem firstArgument_of_not_split {args : Text} (h : args.splitFirst? = none) :
    args.firstArgument = args := by
  rw [firstArgument, h]
  rfl

/-- No name is left of an argument that is blank or holds nothing but quotes. -/
theorem bareName_eq_nil_iff {argument : Text} :
    argument.bareName = [] ↔ ∀ c ∈ argument.trim, isQuote c = true := by
  simp [bareName, List.filter_eq_nil_iff]

/-- A comma is found only where there is one. -/
theorem comma_mem_of_commaFrom? {state : Quoting} {depth : Nat} {text : Text} {pair : Text × Text}
    (h : commaFrom? state depth text = some pair) : ',' ∈ text := by
  induction text generalizing state depth pair with
  | nil => cases h
  | cons c text ih =>
    rw [commaFrom?] at h
    split at h
    case isTrue hc => simp [hc.2.1]
    case isFalse =>
      obtain ⟨tail, htail, -⟩ := Option.map_eq_some_iff.1 h
      exact List.mem_cons_of_mem _ (ih htail)

/-- Several arguments are never read as an empty name: a comma stands between them. -/
theorem bareName_ne_nil_of_split {args : Text} (h : args.splitFirst? ≠ none) :
    args.bareName ≠ [] := by
  obtain ⟨pair, hpair⟩ := Option.ne_none_iff_exists'.1 h
  obtain ⟨found, hfound, -⟩ := Option.map_eq_some_iff.1 hpair
  have hcomma := comma_mem_of_commaFrom? hfound
  obtain ⟨front, back, heq, hfront, hback⟩ := exists_eq_trim args
  have htrim : ',' ∈ args.trim := by
    rw [heq, List.mem_append, List.mem_append] at hcomma
    rcases hcomma with (hcomma | hcomma) | hcomma
    · exact absurd (hfront _ hcomma) (by decide)
    · exact hcomma
    · exact absurd (hback _ hcomma) (by decide)
  intro hname
  exact absurd (bareName_eq_nil_iff.1 hname _ htrim) (by decide)

end Text

/-! ## Calls with all of their arguments -/

namespace Sweep

theorem eventually_singleton {P : Sweep → Stretch → Prop} {s : Sweep} {a : Stretch} :
    Eventually P [s] a ↔ P s a := by
  simp [Eventually]

/-- The pass looks for the calls of `name`, alone or up to a closing word. -/
inductive Reads (name : Text) : Sweep → Prop where
  | calls (f : Call → Option Text) : Reads name (.calls name f)
  | regions (close : Text) (f : Region → Option Text) : Reads name (.regions name close f)

/-- A pass that reads calls of a name is faithful. -/
theorem Reads.faithful {name : Text} {s : Sweep} (h : Reads name s) : Faithful s := by
  cases h with
  | calls f => exact faithful_calls name f
  | regions close f => exact faithful_regions name close f

section Closed

variable {name args : Text} {spaced : Bool} {a : Stretch}
  (hword : a.word = Call.source ⟨name, spaced, args⟩) (hargs : Balanced args)

include hword hargs

/-- The word of the stretch is read as a call. -/
theorem read_call :
    Call.read name (a.word ++ a.back) = some ⟨a.word, some ⟨name, spaced, args⟩⟩ := by
  have hback : closing? (args ++ ')' :: a.back) = some (args, a.back) := closingFrom?_append hargs _
  rw [hword, ← Call.opening_append_of_closing hback, Call.read_opening_of_closing hback]

/-- With the closing word behind it, it is read as a region. -/
theorem read_region_of_cut {close body behind : Text}
    (hcut : cut? a.back close = some (body, behind)) :
    Region.read name close (a.word ++ a.back) =
      some ⟨a.word ++ body ++ close, some ⟨⟨name, spaced, args⟩, body, close⟩⟩ := by
  have hback : closing? (args ++ ')' :: a.back) = some (args, a.back) := closingFrom?_append hargs _
  rw [hword, ← Call.opening_append_of_closing hback, Region.read_opening_of_cut hback hcut]
  rfl

/-- A region that is read ends at the first closing word behind the call. -/
theorem cut_of_read_region {close source : Text} {region : Region}
    (h : Region.read name close (a.word ++ a.back) = some ⟨source, some region⟩) :
    ∃ body behind, cut? a.back close = some (body, behind) ∧ source = a.word ++ body ++ close ∧
      region = ⟨⟨name, spaced, args⟩, body, close⟩ := by
  have hback : closing? (args ++ ')' :: a.back) = some (args, a.back) := closingFrom?_append hargs _
  cases hcut : cut? a.back close with
  | none =>
    rw [hword, ← Call.opening_append_of_closing hback,
      Region.read_opening_of_not_cut hback hcut] at h
    cases congrArg Piece.value (Option.some.inj h)
  | some cut =>
    obtain ⟨body, behind⟩ := cut
    rw [read_region_of_cut hword hargs hcut] at h
    cases Option.some.inj h
    exact ⟨body, behind, rfl, rfl, rfl⟩

/-- A call is taken where the scan comes to it and there is something to write for it. -/
theorem takes_calls_iff (f : Call → Option Text) :
    (calls name f).Takes a ↔ (calls name f).Reaches a.front (a.word ++ a.back) ∧
      ∃ new, f ⟨name, spaced, args⟩ = some new := by
  rw [takes_iff (faithful_calls name f)]
  refine and_congr_right fun _ => ⟨?_, ?_⟩
  · rintro ⟨source, new, hread⟩
    obtain ⟨call, hcall, hnew⟩ := of_eq_some_iff.1 hread
    rw [read_call hword hargs] at hcall
    cases Option.some.inj hcall
    exact ⟨new, hnew⟩
  · rintro ⟨new, hnew⟩
    exact ⟨_, new, of_eq_some_iff.2 ⟨_, read_call hword hargs, hnew⟩⟩

/-- A call opens a region that is taken where the scan comes to it, a closing word follows, and
there is something to write for the two. -/
theorem takes_regions_iff (close : Text) (f : Region → Option Text) :
    (regions name close f).Takes a ↔ (regions name close f).Reaches a.front (a.word ++ a.back) ∧
      ∃ body behind new, cut? a.back close = some (body, behind) ∧
        f ⟨⟨name, spaced, args⟩, body, close⟩ = some new := by
  rw [takes_iff (faithful_regions name close f)]
  refine and_congr_right fun _ => ⟨?_, ?_⟩
  · rintro ⟨source, new, hread⟩
    obtain ⟨region, hregion, hnew⟩ := of_eq_some_iff.1 hread
    obtain ⟨body, behind, hcut, -, rfl⟩ := cut_of_read_region hword hargs hregion
    exact ⟨body, behind, new, hcut, hnew⟩
  · rintro ⟨body, behind, new, hcut, hnew⟩
    exact ⟨_, new, of_eq_some_iff.2 ⟨_, read_region_of_cut hword hargs hcut, hnew⟩⟩

/-- What is replaced starts with the call. -/
theorem Reads.isPrefix {s : Sweep} (h : Reads name s) {source new : Text}
    (hread : s (a.word ++ a.back) = some ⟨source, some new⟩) : a.word <+: source := by
  cases h with
  | calls f =>
    obtain ⟨call, hcall, -⟩ := of_eq_some_iff.1 hread
    rw [read_call hword hargs] at hcall
    cases Option.some.inj hcall
    exact List.prefix_rfl
  | regions close f =>
    obtain ⟨region, hregion, -⟩ := of_eq_some_iff.1 hread
    obtain ⟨body, behind, -, rfl, -⟩ := cut_of_read_region hword hargs hregion
    exact (List.prefix_append _ _).trans (List.prefix_append _ _)

/-- Passes that look for calls of a name keep such a call, or meet it from elsewhere, just when
none of them takes it. -/
theorem keepsAll_or_meets_iff {passes : List Sweep} (hpasses : ∀ s ∈ passes, Reads name s) :
    (∃ b, KeepsAll passes a b) ∨ Eventually Meets passes a ↔ ¬Eventually Takes passes a := by
  have hne : ∀ b : Stretch, b.word = Call.source ⟨name, spaced, args⟩ → b.word ≠ [] := by
    intro b hb
    simp [hb, Call.source]
  refine keepsAll_or_eventually_iff (fun s hs => (hpasses s hs).faithful) (fun s hs b hb => ?_)
    (fun s hs b c hb hkeeps => ?_) hword
  · exact keeps_or_meets_iff (hpasses s hs).faithful (hne b hb)
      fun source new => (hpasses s hs).isPrefix hb hargs
  · rintro ⟨c, d, hreplaces, hover, -⟩
    exact hkeeps.not_overlaps hreplaces hover

/-- What is written for a call that is taken stands in the result. -/
theorem Takes.exists_code_calls {f : Call → Option Text} (h : (calls name f).Takes a) :
    ∃ code, f ⟨name, spaced, args⟩ = some code ∧ code <:+: (calls name f).run a.text := by
  obtain ⟨-, code, hcode⟩ := (takes_calls_iff hword hargs f).1 h
  exact ⟨code, hcode, h.isInfix (faithful_calls name f)
    (of_eq_some_iff.2 ⟨_, read_call hword hargs, hcode⟩)⟩

/-- What is written for a region that is taken stands in the result. -/
theorem Takes.exists_code_regions {close : Text} {f : Region → Option Text}
    (h : (regions name close f).Takes a) :
    ∃ body code, f ⟨⟨name, spaced, args⟩, body, close⟩ = some code ∧
      code <:+: (regions name close f).run a.text := by
  obtain ⟨-, body, behind, code, hcut, hcode⟩ := (takes_regions_iff hword hargs close f).1 h
  exact ⟨body, code, hcode, h.isInfix (faithful_regions name close f)
    (of_eq_some_iff.2 ⟨_, read_region_of_cut hword hargs hcut, hcode⟩)⟩

end Closed

end Sweep

/-! ## Code for a call without a name -/

theorem Php.isInfix_tag (code : Text) : code <:+: Php.tag code :=
  ⟨"<?php ", " ?>", rfl⟩

/-- Without a name the code for a file names `.php`. -/
theorem Php.filePath_of_nameless {name : Text} (h : name.bareName = []) (up dir : Text) :
    (up ++ "/" ++ dir ++ "/.php\"" : Text) <:+: Php.filePath up dir name := by
  have hpath : Php.filePath up dir name = "dirname(__FILE__) . \"" ++ up ++ "/" ++ dir ++ "/"
      ++ (name.bareName.map fun c => if c = '.' then '/' else c) ++ ".php\"" := rfl
  rw [hpath, h]
  exact ⟨"dirname(__FILE__) . \"", [], by simp⟩

namespace Directive

/-- The code for an include starts with the path of the partial, and it is written unless nothing
at all stands in the place of the name. -/
theorem exists_includeCall_eq (dir up : Text) (call : Call) :
    ∃ tail : Text, includeCall dir up call = if call.args.firstArgument.trim = [] then none else
      some (Php.tag
        ("if (file_exists(" ++ Php.filePath up dir call.args.firstArgument.trim ++ tail)) := by
  cases h : call.args.splitFirst? with
  | none =>
    refine ⟨")) \x7b " ++ ("include " ++ (Php.filePath up dir call.args.trim ++ "; \x7d")), ?_⟩
    simp only [includeCall, h, firstArgument_of_not_split h, List.append_assoc]
  | some pair =>
    obtain ⟨first, vars⟩ := pair
    have htrim : first.trim = first := by
      obtain ⟨found, -, hfound⟩ := Option.map_eq_some_iff.1 h
      rw [← (Prod.mk.inj hfound).1, trim_trim]
    refine ⟨")) \x7b " ++ ("ob_start(); extract(" ++ (vars ++ ("); include "
      ++ (Php.filePath up dir first ++ "; echo ob_get_clean(); \x7d")))), ?_⟩
    simp only [includeCall, h, firstArgument_of_split h, htrim, List.append_assoc]

/-- An include is rewritten when there is some text for its name. -/
theorem includeCall_isSome_iff {dir up : Text} {call : Call} :
    (∃ code, includeCall dir up call = some code) ↔ call.args.firstArgument.trim ≠ [] := by
  obtain ⟨tail, htail⟩ := exists_includeCall_eq dir up call
  rw [htail]
  split
  case isTrue h => simp [h]
  case isFalse h => simp [h]

/-- The path in the code for an include without a name has no name in it either. -/
theorem isInfix_of_includeCall {dir up code : Text} {call : Call}
    (h : includeCall dir up call = some code) (hname : call.args.firstArgument.bareName = []) :
    (up ++ "/" ++ dir ++ "/.php\"" : Text) <:+: code := by
  obtain ⟨tail, htail⟩ := exists_includeCall_eq dir up call
  rw [htail] at h
  split at h
  case isTrue => cases h
  case isFalse =>
    obtain rfl := Option.some.inj h
    rw [← bareName_trim] at hname
    refine (Php.filePath_of_nameless hname up dir).trans (List.IsInfix.trans ?_ (Php.isInfix_tag _))
    exact ⟨"if (file_exists(", tail, rfl⟩

/-- A yield is rewritten when its argument is a literal. -/
theorem yieldCall_isSome_iff {call : Call} :
    (∃ code, yieldCall call = some code) ↔ ∃ key, call.args.unquote? = some key := by
  simp [yieldCall, Option.map_eq_some_iff]

theorem stackCall_of_unquote {call : Call} {key : Text} (h : call.args.unquote? = some key)
    (hkey : key ≠ []) :
    stackCall call = some (Php.tag ("echo join(\"\", $stacks[\"" ++ key ++ "\"] ?? []);")) :=
  Option.bind_eq_some_iff.2 ⟨key, h, if_neg hkey⟩

/-- A stack is rewritten only if its argument is a literal with something in it. -/
theorem unquote_of_stackCall {call : Call} {code : Text} (h : stackCall call = some code) :
    ∃ key, call.args.unquote? = some key ∧ key ≠ [] := by
  obtain ⟨key, hkey, hcode⟩ := Option.bind_eq_some_iff.1 h
  refine ⟨key, hkey, fun hnil => ?_⟩
  rw [if_pos hnil] at hcode
  cases hcode

/-- A component is run just when it has a name. -/
theorem component_isSome_iff {dir up : Text} {region : Region} :
    (∃ code, component dir up region = some code) ↔ region.args.bareName ≠ [] := by
  rw [← bareName_trim]
  constructor
  · rintro ⟨code, hcode⟩ hname
    cases hcode.symm.trans (if_pos hname)
  · intro hname
    exact Option.ne_none_iff_exists'.1 fun hnone => by cases hnone.symm.trans (if_neg hname)

/-- A value is not pushed without a name. -/
theorem pushCall_of_nameless {call : Call} (h : call.args.firstArgument.bareName = []) :
    pushCall call = none := by
  cases hsplit : call.args.splitFirst? with
  | none => simp [pushCall, hsplit]
  | some pair =>
    rw [firstArgument_of_split hsplit] at h
    simp [pushCall, hsplit, h]

/-- A fragment that the rule for sections adds captures under a name. -/
theorem before_sectionRule {draft : Draft} {fragment : Text}
    (h : fragment ∈ ((sectionRule.apply draft).getD draft).before) :
    fragment ∈ draft.before ∨ ∃ name body, name ≠ [] ∧ fragment = capture name body := by
  cases happly : sectionRule.apply draft with
  | none =>
    rw [happly] at h
    exact .inl h
  | some result =>
    rw [happly] at h
    obtain ⟨content, -, rfl⟩ := Option.map_eq_some_iff.1 happly
    rcases List.mem_append.1 h with hbefore | hnew
    · exact .inl hbefore
    · obtain ⟨region, -, hregion⟩ := List.mem_filterMap.1 hnew
      rw [sectionCapture] at hregion
      split at hregion
      case isTrue => cases hregion
      case isFalse hname => exact .inr ⟨_, _, hname, (Option.some.inj hregion).symm⟩

end Directive

namespace Keyword

/-- The directives that name a partial, a section or a stack. -/
def isNamed : Keyword → Bool
  | .component | .include | .push | .section | .stack | .yield => true
  | _ => false

/-- The argument that a directive takes for a name. -/
def nameArgument (args : Text) : Keyword → Text
  | .include | .push => args.firstArgument
  | _ => args

/-- The rule takes a call although it has no name. An include is taken when there is anything in
the place of the name, `@yield` when it is a literal, and `@stack` when that literal holds
something. A value without a name is not pushed, but the scan for blocks takes all of its arguments
for the name. -/
def TakesNameless (dir up args : Text) (a : Stretch) : Keyword → Prop
  | .include => args.firstArgument.trim ≠ [] ∧
    (Sweep.calls "include" (Directive.includeCall dir up)).Reaches a.front (a.word ++ a.back)
  | .yield => (∃ key, args.unquote? = some key) ∧
    (Sweep.calls "yield" Directive.yieldCall).Reaches a.front (a.word ++ a.back)
  | .stack => (∃ key, args.unquote? = some key ∧ key ≠ []) ∧
    (Sweep.calls "stack" Directive.stackCall).Reaches a.front (a.word ++ a.back)
  | .push => args.splitFirst? ≠ none ∧ ∃ b, pushCalls.Keeps a b ∧ ("@endpush" : Text) <:+: b.back ∧
    pushRegions.Reaches b.front (b.word ++ b.back)
  | _ => False

/-- The code for a call without a name. A path has no file name, and the key of a section or of a
stack is empty or made of quotes; for a block the key is all of the arguments. -/
def NamelessCode (dir up args code : Text) : Keyword → Prop
  | .include => (up ++ "/" ++ dir ++ "/.php\"" : Text) <:+: code
  | .yield => ∃ key, args.unquote? = some key ∧ (∀ c ∈ key, isQuote c = true) ∧
    code = Php.tag ("echo $sections[\"" ++ key ++ "\"] ?? \"\";")
  | .stack => ∃ key, args.unquote? = some key ∧ (∀ c ∈ key, isQuote c = true) ∧
    code = Php.tag ("echo join(\"\", $stacks[\"" ++ key ++ "\"] ?? []);")
  | .push => ∃ body, code = Php.tag "ob_start();" ++ "\n" ++ body ++ "\n"
    ++ Directive.pushValue args.bareName "ob_get_clean()"
  | _ => False

/-- The passes of the directives with names read calls of their word. -/
theorem reads_passes {k : Keyword} (hk : k.isNamed = true) (dir up : Text) :
    ∀ s ∈ k.passes dir up, Sweep.Reads k.word s := by
  cases k with
  | component => exact List.forall_mem_singleton.2 (.regions _ _)
  | «include» => exact List.forall_mem_singleton.2 (.calls _)
  | push => exact List.forall_mem_cons.2 ⟨.calls _, List.forall_mem_singleton.2 (.regions _ _)⟩
  | «section» => exact List.forall_mem_singleton.2 (.regions _ _)
  | stack => exact List.forall_mem_singleton.2 (.calls _)
  | yield => exact List.forall_mem_singleton.2 (.calls _)
  | _ => cases hk

/-- A literal without a bare name holds nothing but quotes. -/
theorem quotes_of_unquote {args key : Text} (hname : args.bareName = [])
    (h : args.unquote? = some key) : ∀ c ∈ key, isQuote c = true := by
  rw [bareName_of_unquote? h, List.filter_eq_nil_iff] at hname
  simpa using hname

/-- A value without a name is passed over by the scan for values, and then it is taken for the start
of a block, with all of its arguments for the name. -/
theorem eventually_takes_push_iff {args : Text} {spaced : Bool} {a : Stretch}
    (hword : a.word = Call.source ⟨"push", spaced, args⟩) (hargs : Balanced args)
    (hname : args.firstArgument.bareName = []) :
    Sweep.Eventually Sweep.Takes [pushCalls, pushRegions] a ↔
      args.splitFirst? ≠ none ∧ ∃ b, pushCalls.Keeps a b ∧ ("@endpush" : Text) <:+: b.back ∧
        pushRegions.Reaches b.front (b.word ++ b.back) := by
  -- Of a single argument nothing is left for the name of a block either.
  have hsplit : args.bareName ≠ [] ↔ args.splitFirst? ≠ none := by
    refine ⟨fun hne hsplit => hne ?_, bareName_ne_nil_of_split⟩
    rwa [firstArgument_of_not_split hsplit] at hname
  constructor
  · rintro (htakes | ⟨b, hb, htakes | ⟨c, -, ⟨⟩⟩⟩)
    · obtain ⟨-, code, hcode⟩ := (Sweep.takes_calls_iff hword hargs _).1 htakes
      cases hcode.symm.trans (Directive.pushCall_of_nameless hname)
    · obtain ⟨hreach, body, behind, code, hcut, hcode⟩ :=
        (Sweep.takes_regions_iff (hb.word_eq.trans hword) hargs _ _).1 htakes
      refine ⟨hsplit.1 fun hnil => ?_, b, hb, ?_, hreach⟩
      · cases hcode.symm.trans (if_pos hnil)
      · exact (exists_cut?_iff (by decide)).1 ⟨body, behind, hcut⟩
  · rintro ⟨hsome, b, hb, hclose, hreach⟩
    obtain ⟨body, behind, hcut⟩ := (exists_cut?_iff (by decide)).2 hclose
    refine .inr ⟨b, hb, .inl ((Sweep.takes_regions_iff (hb.word_eq.trans hword) hargs _ _).2 ?_)⟩
    exact ⟨hreach, body, behind, _, hcut, if_neg (hsplit.2 hsome)⟩

section Nameless

variable {k : Keyword} {args : Text} {spaced : Bool} {a : Stretch}
  (hword : a.word = Call.source ⟨k.word, spaced, args⟩) (hargs : Balanced args)
  (hname : (k.nameArgument args).bareName = [])

include hword hargs hname

/-- When one of the passes of a directive takes a call without a name. -/
theorem eventually_takes_iff (hk : k.isNamed = true) (dir up : Text) :
    Sweep.Eventually Sweep.Takes (k.passes dir up) a ↔ k.TakesNameless dir up args a := by
  cases k with
  | component =>
    refine iff_of_false ?_ id
    rintro (htakes | ⟨b, -, ⟨⟩⟩)
    obtain ⟨-, body, behind, code, -, hcode⟩ := (Sweep.takes_regions_iff hword hargs _ _).1 htakes
    exact Directive.component_isSome_iff.1 ⟨code, hcode⟩ hname
  | «include» =>
    refine Sweep.eventually_singleton.trans ((Sweep.takes_calls_iff hword hargs _).trans ?_)
    rw [Directive.includeCall_isSome_iff]
    exact and_comm
  | push => exact eventually_takes_push_iff hword hargs hname
  | «section» =>
    refine iff_of_false ?_ id
    rintro (htakes | ⟨b, -, ⟨⟩⟩)
    obtain ⟨-, body, behind, code, -, hcode⟩ := (Sweep.takes_regions_iff hword hargs _ _).1 htakes
    obtain ⟨captured, hcaptured, -⟩ := Option.map_eq_some_iff.1 hcode
    cases hcaptured.symm.trans (if_pos hname)
  | stack =>
    refine Sweep.eventually_singleton.trans ((Sweep.takes_calls_iff hword hargs _).trans ?_)
    refine and_comm.trans (and_congr_left fun _ => ⟨?_, ?_⟩)
    · rintro ⟨code, hcode⟩
      exact Directive.unquote_of_stackCall hcode
    · rintro ⟨key, hkey, hne⟩
      exact ⟨_, Directive.stackCall_of_unquote hkey hne⟩
  | yield =>
    refine Sweep.eventually_singleton.trans ((Sweep.takes_calls_iff hword hargs _).trans ?_)
    rw [Directive.yieldCall_isSome_iff]
    exact and_comm
  | _ => cases hk

/-- What is written for a call without a name stands in the result. -/
theorem exists_namelessCode (hk : k.isNamed = true) {dir up : Text}
    (h : k.TakesNameless dir up args a) :
    ∃ code, code <:+: Sweep.runAll (k.passes dir up) a.text ∧ k.NamelessCode dir up args code := by
  have htakes := (eventually_takes_iff hword hargs hname hk dir up).2 h
  cases k with
  | «include» =>
    obtain ⟨code, hcode, hinfix⟩ :=
      (Sweep.eventually_singleton.1 htakes).exists_code_calls hword hargs
    exact ⟨code, hinfix, Directive.isInfix_of_includeCall hcode hname⟩
  | push =>
    rcases htakes with htakes | ⟨b, hb, htakes | ⟨c, -, ⟨⟩⟩⟩
    · obtain ⟨code, hcode, -⟩ := htakes.exists_code_calls hword hargs
      cases hcode.symm.trans (Directive.pushCall_of_nameless hname)
    · obtain ⟨body, code, hcode, hinfix⟩ :=
        htakes.exists_code_regions (hb.word_eq.trans hword) hargs
      refine ⟨code, by rwa [← hb.run_eq] at hinfix, body, ?_⟩
      exact (Option.some.inj (hcode.symm.trans (if_neg (bareName_ne_nil_of_split h.1))))
  | stack =>
    obtain ⟨code, hcode, hinfix⟩ :=
      (Sweep.eventually_singleton.1 htakes).exists_code_calls hword hargs
    obtain ⟨⟨key, hkey, hne⟩, -⟩ := h
    rw [Directive.stackCall_of_unquote hkey hne] at hcode
    exact ⟨code, hinfix, key, hkey, quotes_of_unquote hname hkey, (Option.some.inj hcode).symm⟩
  | yield =>
    obtain ⟨code, hcode, hinfix⟩ :=
      (Sweep.eventually_singleton.1 htakes).exists_code_calls hword hargs
    obtain ⟨key, hkey, hcode⟩ := Option.map_eq_some_iff.1 hcode
    exact ⟨code, hinfix, key, hkey, quotes_of_unquote hname hkey, hcode.symm⟩
  | _ => exact h.elim

end Nameless

end Keyword

/-! ## Slots -/

theorem Text.isInfix_intercalate {part sep : Text} {parts : List Text} (h : part ∈ parts) :
    part <:+: List.intercalate sep parts := by
  induction parts with
  | nil => cases h
  | cons first parts ih =>
    cases parts with
    | nil =>
      obtain rfl := List.mem_singleton.1 h
      exact ⟨[], [], by simp [List.intercalate]⟩
    | cons second parts =>
      rw [List.intercalate_cons_cons]
      rcases List.mem_cons.1 h with rfl | hrest
      · exact ⟨[], sep ++ List.intercalate sep (second :: parts), by simp⟩
      · exact (ih hrest).trans (List.suffix_append _ _).isInfix

namespace Directive

/-- The pass that takes the slots with a value out of a body. -/
def slotCalls : Sweep :=
  .calls "slot" fun call => (slotValue call).map fun _ => []

/-- The pass that takes the slots with a body out of a body. -/
def slotRegions : Sweep :=
  .regions "slot" "@endslot" fun _ => some []

/-- The code that hands over what is left of a body. -/
def slotContent (content : Text) : Text :=
  Php.tag "ob_start();" ++ content ++ Php.tag "$slot->content = ob_get_clean();"

/-- The code for a component hands over each slot that is taken out of the body, and the rest. -/
theorem isInfix_component {dir up code : Text} {region : Region}
    (h : component dir up region = some code) :
    slotContent (Sweep.runAll [slotCalls, slotRegions] region.body) <:+: code ∧
    (∀ call ∈ Piece.values (Call.pieces "slot" region.body), ∀ value, slotValue call = some value →
      value <:+: code) ∧
    ∀ block ∈ Piece.values (Region.pieces "slot" "@endslot" (slotCalls.run region.body)),
      slotBlock block <:+: code := by
  have hbody : slotCalls.run region.body =
      Piece.rewrite (fun call => (slotValue call).map fun _ => [])
        (Call.pieces "slot" region.body) :=
    Sweep.run_of region.body
  have hcontent : Sweep.runAll [slotCalls, slotRegions] region.body =
      Piece.rewrite (fun _ => some [])
        (Region.pieces "slot" "@endslot" (slotCalls.run region.body)) :=
    Sweep.run_of (slotCalls.run region.body)
  have hname : region.args.trim.bareName ≠ [] := by
    rw [bareName_trim]
    exact component_isSome_iff.1 ⟨code, h⟩
  obtain rfl := Option.some.inj (h.symm.trans (if_neg hname))
  rw [hcontent, hbody]
  refine ⟨?_, fun call hcall value hvalue => ?_, fun block hblock => ?_⟩ <;>
    refine isInfix_intercalate (List.mem_append_left _ ?_)
  · exact List.mem_append_left _ (List.mem_append_left _ (.tail _ (.tail _ (.head _))))
  · exact List.mem_append_left _ (List.mem_append_right _
      (List.mem_filterMap.2 ⟨call, hcall, hvalue⟩))
  · exact List.mem_append_right _ (List.mem_map.2 ⟨block, hblock, rfl⟩)

/-- The slot is taken with a value. -/
def TakenAsValue (args : Text) (a : Stretch) : Prop :=
  args.splitFirst? ≠ none ∧ slotCalls.Reaches a.front (a.word ++ a.back)

/-- The slot is taken with the body behind it. -/
def TakenAsBlock (a : Stretch) : Prop :=
  ∃ b, slotCalls.Keeps a b ∧ ("@endslot" : Text) <:+: b.back ∧
    slotRegions.Reaches b.front (b.word ++ b.back)

section Slot

variable {args : Text} {spaced : Bool} {a : Stretch}
  (hword : a.word = Call.source ⟨"slot", spaced, args⟩) (hargs : Balanced args)

include hword hargs

/-- Nothing is asked of the name of a slot. -/
theorem takes_slot_iff : Sweep.Eventually Sweep.Takes [slotCalls, slotRegions] a ↔
    TakenAsValue args a ∨ TakenAsBlock a := by
  have hvalue : slotCalls.Takes a ↔ TakenAsValue args a := by
    refine (Sweep.takes_calls_iff hword hargs _).trans (and_comm.trans (and_congr_left fun _ => ?_))
    simp [slotValue, Option.ne_none_iff_exists']
  have hblock : ∀ b, slotCalls.Keeps a b → (slotRegions.Takes b ↔
      ("@endslot" : Text) <:+: b.back ∧ slotRegions.Reaches b.front (b.word ++ b.back)) := by
    intro b hb
    refine (Sweep.takes_regions_iff (hb.word_eq.trans hword) hargs _ _).trans
      (and_comm.trans (and_congr_left fun _ => ?_))
    rw [← exists_cut?_iff (by decide)]
    simp
  refine or_congr hvalue (exists_congr fun b => and_congr_right fun hb => ?_)
  exact Sweep.eventually_singleton.trans (hblock b hb)

/-- A slot with a value becomes a property of its name, whether it has one or not. -/
theorem isInfix_of_takenAsValue {dir up code : Text} {region : Region}
    (htext : a.text = region.body) (h : component dir up region = some code)
    (hname : args.firstArgument.bareName = []) (htaken : TakenAsValue args a) :
    ∃ value, Php.tag ("$slot-> = " ++ value ++ " ?? \"\";") <:+: code := by
  obtain ⟨hsome, hreach⟩ := htaken
  obtain ⟨⟨first, value⟩, hsplit⟩ := Option.ne_none_iff_exists'.1 hsome
  have hmem := hreach.mem_values (Call.faithful_read _) (Sweep.read_call hword hargs)
  rw [← List.append_assoc, ← Stretch.text, htext] at hmem
  have hcode := (isInfix_component h).2.1 _ hmem _ (Option.map_eq_some_iff.2 ⟨_, hsplit, rfl⟩)
  rw [firstArgument_of_split hsplit] at hname
  refine ⟨Php.value value, ?_⟩
  simpa [hname] using hcode

/-- A slot with a body becomes a property of its name, whether it has one or not. -/
theorem isInfix_of_takenAsBlock {dir up code : Text} {region : Region}
    (htext : a.text = region.body) (h : component dir up region = some code)
    (htaken : TakenAsBlock a) :
    Php.tag ("$slot->" ++ args.bareName ++ " = ob_get_clean();") <:+: code := by
  obtain ⟨b, hb, hclose, hreach⟩ := htaken
  obtain ⟨body, behind, hcut⟩ := (exists_cut?_iff (by decide)).2 hclose
  have hmem := hreach.mem_values (Region.faithful_read _ _)
    (Sweep.read_region_of_cut (hb.word_eq.trans hword) hargs hcut)
  rw [← List.append_assoc, ← Stretch.text, ← hb.run_eq, htext] at hmem
  refine List.IsInfix.trans ?_ ((isInfix_component h).2.2 _ hmem)
  exact ⟨Php.tag "ob_start();" ++ body, [], List.append_nil _⟩

end Slot

/-- A call without a name is left as it stands, unless the rule replaces something that overlaps
it, or takes it after all and writes code without a name. Sections are captured under names alone.
A slot without a name in the body of a component is taken as soon as the scan comes to it and it has
a value or is closed. -/
theorem nameless_call_iff (dirs : Conventions) {args : Text} (hargs : Balanced args)
    (spaced : Bool) :
    (∀ (k : Keyword) (draft : Draft) (front back : Text), k.isNamed = true →
      (k.nameArgument args).bareName = [] →
      draft.content = front ++ Call.source ⟨k.word, spaced, args⟩ ++ back →
      let a : Stretch := ⟨front, Call.source ⟨k.word, spaced, args⟩, back⟩
      let passes := k.passes dirs.includes draft.relativePath
      let result := ((k.rule dirs).apply draft).getD draft
      ((∃ b, Sweep.KeepsAll passes a b ∧ result.content = b.text) ∨
        Sweep.Eventually Sweep.Meets passes a ↔
          ¬k.TakesNameless dirs.includes draft.relativePath args a) ∧
      (k.TakesNameless dirs.includes draft.relativePath args a → ∃ code, code <:+: result.content ∧
        k.NamelessCode dirs.includes draft.relativePath args code)) ∧
    (∀ (draft : Draft) (fragment : Text),
      fragment ∈ ((Directive.sectionRule.apply draft).getD draft).before →
      fragment ∈ draft.before ∨ ∃ name body, name ≠ [] ∧ fragment = capture name body) ∧
    ∀ (up : Text) (region : Region) (code front back : Text), args.firstArgument.bareName = [] →
      region.body = front ++ Call.source ⟨"slot", spaced, args⟩ ++ back →
      component dirs.includes up region = some code →
      let a : Stretch := ⟨front, Call.source ⟨"slot", spaced, args⟩, back⟩
      let passes := [slotCalls, slotRegions]
      ((∃ b, Sweep.KeepsAll passes a b ∧ slotContent b.text <:+: code) ∨
        Sweep.Eventually Sweep.Meets passes a ↔ ¬(TakenAsValue args a ∨ TakenAsBlock a)) ∧
      (TakenAsValue args a → ∃ value, Php.tag ("$slot-> = " ++ value ++ " ?? \"\";") <:+: code) ∧
      (TakenAsBlock a →
        Php.tag ("$slot->" ++ args.bareName ++ " = ob_get_clean();") <:+: code) := by
  refine ⟨?_, fun draft fragment => before_sectionRule, ?_⟩
  · intro k draft front back hk hname hcontent a passes result
    have hresult : result.content = Sweep.runAll passes a.text := by
      rw [Stretch.text, ← hcontent]
      exact Keyword.content_rule k dirs draft
    refine ⟨?_, fun htaken => ?_⟩
    · rw [← Keyword.eventually_takes_iff rfl hargs hname hk,
        ← Sweep.keepsAll_or_meets_iff rfl hargs (Keyword.reads_passes hk _ _)]
      exact or_congr_left (exists_congr fun b =>
        and_iff_left_of_imp fun hb => hresult.trans hb.runAll_eq)
    · rw [hresult]
      exact Keyword.exists_namelessCode rfl hargs hname hk htaken
  · intro up region code front back hname hbody hcode a passes
    have hpasses : ∀ s ∈ passes, Sweep.Reads "slot" s :=
      List.forall_mem_cons.2 ⟨.calls _, List.forall_mem_singleton.2 (.regions _ _)⟩
    refine ⟨?_, isInfix_of_takenAsValue rfl hargs hbody.symm hcode hname,
      isInfix_of_takenAsBlock rfl hargs hbody.symm hcode⟩
    rw [← takes_slot_iff rfl hargs, ← Sweep.keepsAll_or_meets_iff rfl hargs hpasses]
    refine or_congr_left (exists_congr fun b => and_iff_left_of_imp fun hb => ?_)
    rw [← hb.runAll_eq, Stretch.text, ← hbody]
    exact (isInfix_component hcode).1

/-- A partial and a slot are named by a pair of quotes: the one is included from a path without a
file name, and the other becomes a property without a name. -/
theorem nameless_call_iff_quotes :
    let draft : Draft := ⟨"@include('', $x)", [], [], [], []⟩
    let a : Stretch := ⟨[], "@include('', $x)", []⟩
    let passes := Keyword.include.passes "_includes" []
    let result := ((includeRule "_includes").apply draft).getD draft
    let region : Region := ⟨⟨"component", false, "'box'"⟩, "@slot('', $x)", "@endcomponent"⟩
    ¬((∃ b, Sweep.KeepsAll passes a b ∧ result.content = b.text) ∨
      Sweep.Eventually Sweep.Meets passes a) ∧
    (∃ code, code <:+: result.content ∧ ("/_includes/.php\"" : Text) <:+: code) ∧
    ∃ code value, component "_includes" [] region = some code ∧
      Php.tag ("$slot-> = " ++ value ++ " ?? \"\";") <:+: code := by
  intro draft a passes result region
  obtain ⟨hcalls, -, hslots⟩ := nameless_call_iff {} (by decide : Balanced "'', $x") false
  have htaken : Keyword.include.TakesNameless "_includes" [] "'', $x" a := ⟨by decide, [], rfl, rfl⟩
  obtain ⟨hstands, hcode⟩ := hcalls .include draft [] [] rfl (by decide) (by decide)
  obtain ⟨code, hcomponent⟩ := (@component_isSome_iff "_includes" [] region).2 (by decide)
  obtain ⟨value, hvalue⟩ := (hslots [] region code [] [] (by decide) (by decide) hcomponent).2.1
    ⟨by decide, [], rfl, rfl⟩
  exact ⟨fun h => hstands.1 h htaken, hcode htaken, code, value, hcomponent, hvalue⟩

end Directive

end Pagewright
