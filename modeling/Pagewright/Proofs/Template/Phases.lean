import Pagewright.Proofs.Template.Items

/-!
# Phases

The passes that rewrite flat items come in three phases, between which components, pushed blocks and
sections are put together. Every flat item belongs to one phase (`Template.Flat.phase`), and that
phase turns it into its PHP and leaves the items of later phases alone, while PHP that is there
already goes through unchanged (`Template.Flat.carries`).

What is put around flat items goes through the passes as well. `Template.Congruent` names the
relations between texts that go through all PHP which components and blocks add, so that one
induction over the items serves to carry them through a phase and to say that no pattern stands in
them.
-/

namespace Pagewright

open Text

namespace Template

/-! ## The passes of each phase -/

open Pass (ofElement ofElements) in
open Directive in
/-- The passes that rewrite flat items, those of each rule together. Phase 0 runs before components
are put together, phase 1 between that and pushed blocks, phase 2 when sections have been taken
out. -/
def rulePasses (target : Target) : Nat → List (List Pass)
  | 0 => [[.comments], ofElements breakElements rfl]
  | 1 =>
    [ofElements continueElements rfl,
      ofElements elseElements rfl,
      ofElements elseifElements rfl,
      ofElements emptyElements rfl,
      ofElements (loopElements .for) rfl,
      ofElements (loopElements .foreach) rfl,
      ofElements setElements rfl,
      ofElements ifElements rfl,
      ofElements (includeElements target.dir target.up) rfl,
      [ofElement pushCalls rfl]]
  | 2 =>
    [ofElements stackElements rfl,
      ofElements unlessElements rfl,
      ofElements (loopElements .while) rfl,
      ofElements yieldElements rfl,
      [.raw],
      [.leftoverCalls, .leftoverEnds],
      [.echo target.safe]]
  | _ => []

/-- The passes of a phase, in order. -/
def passes (target : Target) (k : Nat) : List Pass :=
  (rulePasses target k).flatten

/-- The phase in which a flat item is rewritten. -/
def Flat.phase : Flat → Nat
  | chunk _ | breakIf _ | breakLine => 0
  | ifNot _ | endUnless | whileLoop _ | endWhile | stack _ | yield _ | raw _ | echo _ => 2
  | _ => 1

/-! ## What the directives make of well-formed arguments -/

/-- A loop other than `foreach` takes any clause. -/
theorem loopHead_eq (kind : LoopKind) (e : Text) (h : kind ≠ .foreach) :
    Directive.loopHead kind e = some (Php.tag (kind.word ++ " (" ++ loopClause e ++ ") :")) := by
  unfold Directive.loopHead loopClause
  cases e.cut? " as " with
  | some pair => simp
  | none => simp [h]

/-- The clause of a `foreach` is taken apart at its `as`. -/
theorem loopHead_clause (c : Clause) :
    Directive.loopHead .foreach (c.source ++ " as " ++ c.binding)
      = some (Php.tag ("foreach (" ++ c.source.trim ++ " as " ++ c.binding.trim ++ ") :")) := by
  have hword : LoopKind.foreach.word ++ " (" = ("foreach (" : Text) := by decide
  rw [Directive.loopHead, cut?_clause]
  simp only [hword]

/-- A name and an expression are cut at the comma between them. -/
theorem splitFirst?_named (n : Name) (e : Expr) :
    (named n e).splitFirst? = some (quoted n.text, e.text.trim) :=
  splitFirst?_quoted_append n.isPlain e.text

/-- The code for a quoted name is that for the file of the site. -/
theorem filePath_quoted (target : Target) (n : Name) :
    Php.filePath target.up target.dir (quoted n.text) = target.file n := by
  unfold Php.filePath Target.file
  rw [bareName_quoted n.isPlain]

/-- A setting becomes an assignment to the page. -/
theorem setCall_named (name : Text) (n : Name) (e : Expr) :
    Directive.setCall ⟨name, false, named n e⟩
      = some (Php.tag ("$page->" ++ n.text ++ " = " ++ e.text.trim ++ ";")) := by
  simp only [Directive.setCall, splitFirst?_named, unquote?_quoted n.isPlain, if_neg n.ne_nil,
    Option.bind_eq_bind, Option.bind_some]

/-- An include without values becomes the code for its file. -/
theorem includeCall_quoted (target : Target) (name : Text) (n : Name) :
    Directive.includeCall target.dir target.up ⟨name, false, quoted n.text⟩
      = some ((Flat.includeFile n).php target) := by
  have hne : quoted n.text ≠ [] := by simp [quoted]
  simp only [Directive.includeCall, splitFirst?_quoted n.isPlain, trim_quoted, if_neg hne,
    filePath_quoted, Flat.php]
  simp

/-- An include with values becomes the code for its file and the values. -/
theorem includeCall_named (target : Target) (name : Text) (n : Name) (e : Expr) :
    Directive.includeCall target.dir target.up ⟨name, false, named n e⟩
      = some ((Flat.includeWith n e).php target) := by
  have hne : quoted n.text ≠ [] := by simp [quoted]
  simp only [Directive.includeCall, splitFirst?_named, if_neg hne, filePath_quoted, Flat.php]
  simp

/-- A pushed value becomes the code that pushes it. -/
theorem pushCall_named (name : Text) (n : Name) (e : Expr) :
    Directive.pushCall ⟨name, false, named n e⟩
      = some (Php.tag (onStack n (Php.value e.text.trim))) := by
  unfold Directive.pushCall Directive.pushValue onStack
  simp only [splitFirst?_named, bareName_quoted n.isPlain, if_neg n.ne_nil, Option.bind_eq_bind,
    Option.bind_some]

theorem pushCall_quoted (name : Text) (n : Name) :
    Directive.pushCall ⟨name, false, quoted n.text⟩ = none := by
  simp only [Directive.pushCall, splitFirst?_quoted n.isPlain, Option.bind_eq_bind,
    Option.bind_none]

theorem stackCall_quoted (name : Text) (n : Name) :
    Directive.stackCall ⟨name, false, quoted n.text⟩
      = some (Php.tag ("echo join(\"\", $stacks[\"" ++ n.text ++ "\"] ?? []);")) := by
  simp only [Directive.stackCall, unquote?_quoted n.isPlain, if_neg n.ne_nil, Option.bind_eq_bind,
    Option.bind_some]

theorem yieldCall_quoted (name : Text) (n : Name) :
    Directive.yieldCall ⟨name, false, quoted n.text⟩
      = some (Php.tag ("echo $sections[\"" ++ n.text ++ "\"] ?? \"\";")) := by
  simp only [Directive.yieldCall, unquote?_quoted n.isPlain, Option.map_some]

theorem slotValue_named (name : Text) (n : Name) (e : Expr) :
    Directive.slotValue ⟨name, false, named n e⟩
      = some (Php.tag ("$slot->" ++ n.text ++ " = " ++ Php.value e.text.trim ++ " ?? \"\";")) := by
  simp only [Directive.slotValue, splitFirst?_named, bareName_quoted n.isPlain, Option.map_some]

theorem slotValue_quoted (name : Text) (n : Name) :
    Directive.slotValue ⟨name, false, quoted n.text⟩ = none := by
  simp only [Directive.slotValue, splitFirst?_quoted n.isPlain, Option.map_none]

/-! ## Flat items -/

/-- Each flat item is turned into its PHP in its own phase. -/
theorem Flat.carries_own {target : Target} (h : target.Sound) (f : Flat) :
    Carries (Pass.runAll (passes target f.phase)) f.source (f.php target) := by
  have hm := f.sound_mark
  have ht := f.quiet_php h
  cases f with
  | chunk c => exact Pass.carries_runAll_quiet _ ht
  | ifThen e => exact Pass.carries_runAll hm ht 11 rfl rfl (Pass.carries_call e.balanced rfl)
  | elseIf e => exact Pass.carries_runAll hm ht 3 rfl rfl (Pass.carries_call e.balanced rfl)
  | ifNot e =>
    exact Pass.carries_runAll hm ht 1 rfl rfl
      (Pass.carries_call e.balanced (by simp [Flat.php]))
  | empty e =>
    exact Pass.carries_runAll hm ht 4 rfl rfl
      (Pass.carries_call e.balanced (by simp [Flat.php]))
  | endIf => exact Pass.carries_runAll hm ht 12 rfl rfl (Pass.carries_close _ _)
  | endUnless => exact Pass.carries_runAll hm ht 2 rfl rfl (Pass.carries_close _ _)
  | endEmpty => exact Pass.carries_runAll hm ht 5 rfl rfl (Pass.carries_close _ _)
  | forLoop e =>
    exact Pass.carries_runAll hm ht 6 rfl rfl
      (Pass.carries_call e.balanced (loopHead_eq .for _ (by decide)))
  | whileLoop e =>
    exact Pass.carries_runAll hm ht 3 rfl rfl
      (Pass.carries_call e.balanced (loopHead_eq .while _ (by decide)))
  | foreach c =>
    exact Pass.carries_runAll hm ht 8 rfl rfl
      (Pass.carries_call c.balanced (loopHead_clause c))
  | breakIf e =>
    exact Pass.carries_runAll hm ht 1 rfl rfl
      (Pass.carries_call e.balanced (by simp [Flat.php]))
  | continueIf e =>
    exact Pass.carries_runAll hm ht 0 rfl rfl
      (Pass.carries_call e.balanced (by simp [Flat.php]))
  | breakLine => exact Pass.carries_runAll hm ht 2 rfl rfl (Pass.carries_line _ _ rfl)
  | continueLine => exact Pass.carries_runAll hm ht 1 rfl rfl (Pass.carries_line _ _ rfl)
  | elseLine => exact Pass.carries_runAll hm ht 2 rfl rfl (Pass.carries_line _ _ rfl)
  | endFor => exact Pass.carries_runAll hm ht 7 rfl rfl (Pass.carries_line _ _ rfl)
  | endForeach => exact Pass.carries_runAll hm ht 9 rfl rfl (Pass.carries_line _ _ rfl)
  | endWhile => exact Pass.carries_runAll hm ht 4 rfl rfl (Pass.carries_line _ _ rfl)
  | set n e =>
    exact Pass.carries_runAll hm ht 10 rfl rfl
      (Pass.carries_call (balanced_named n e) (setCall_named _ n e))
  | includeFile n =>
    exact Pass.carries_runAll hm ht 13 rfl rfl
      (Pass.carries_call (balanced_quoted n.isPlain) (includeCall_quoted target _ n))
  | includeWith n e =>
    exact Pass.carries_runAll hm ht 13 rfl rfl
      (Pass.carries_call (balanced_named n e) (includeCall_named target _ n e))
  | push n e =>
    exact Pass.carries_runAll hm ht 14 rfl rfl
      (Pass.carries_call (balanced_named n e) (pushCall_named _ n e))
  | stack n =>
    exact Pass.carries_runAll hm ht 0 rfl rfl
      (Pass.carries_call (balanced_quoted n.isPlain) (stackCall_quoted _ n))
  | yield n =>
    exact Pass.carries_runAll hm ht 5 rfl rfl
      (Pass.carries_call (balanced_quoted n.isPlain) (yieldCall_quoted _ n))
  | raw e => exact Pass.carries_runAll hm ht 6 rfl rfl (Pass.carries_raw e.enclosed)
  | echo e => exact Pass.carries_runAll hm ht 9 rfl rfl (Pass.carries_echo _ e.enclosed)

theorem Flat.phase_lt (f : Flat) : f.phase < 3 := by
  cases f <;> simp [phase]

/-- A flat item as it stands before phase `k`. -/
def Flat.markAt (target : Target) (k : Nat) (f : Flat) : Mark :=
  if f.phase < k then .text (f.php target) else f.mark

/-- The text of a flat item before phase `k`. -/
def Flat.textAt (target : Target) (k : Nat) (f : Flat) : Text :=
  (f.markAt target k).source

/-- Before the first phase nothing has been rewritten. -/
theorem Flat.textAt_zero (target : Target) : Flat.textAt target 0 = Flat.source := by
  funext f
  rw [textAt, markAt, if_neg (Nat.not_lt_zero _), Flat.source]

/-- After the last phase all has been rewritten. -/
theorem Flat.textAt_three (target : Target) : Flat.textAt target 3 = Flat.php target := by
  funext f
  rw [textAt, markAt, if_pos f.phase_lt, Mark.source]

theorem Flat.sound_markAt {target : Target} (h : target.Sound) (k : Nat) (f : Flat) :
    (f.markAt target k).Sound := by
  unfold markAt
  split
  · exact f.quiet_php h
  · exact f.sound_mark

/-- A pattern that ignores all items of later phases stands in none of the texts. -/
theorem Flat.absentIn_textAt {target : Target} (h : target.Sound) {k : Nat} {p : Pattern}
    (hp : p.isProper) (hi : ∀ f : Flat, k ≤ f.phase → p.ignores f.mark) (f : Flat) :
    p.AbsentIn (f.textAt target k) := by
  refine Pattern.absentIn_mark hp (f.sound_markAt h k) ?_
  unfold markAt
  split
  · cases p <;> rfl
  · exact hi f (by omega)

/-- The passes of a phase ignore the items of later ones. -/
theorem Flat.ignored_before {target : Target} {f : Flat} {k : Nat} (hk : k < f.phase) :
    (passes target k).all (·.pattern.ignores f.mark) = true := by
  have hlt := f.phase_lt
  obtain rfl | rfl : k = 0 ∨ k = 1 := by omega
  · cases f <;> simp [phase] at hk <;> rfl
  · cases f <;> simp [phase] at hk <;> rfl

/-- Phase `k` turns the flat items of that phase into their PHP and leaves the others alone. -/
theorem Flat.carries {target : Target} (h : target.Sound) (k : Nat) (f : Flat) :
    Carries (Pass.runAll (passes target k)) (f.textAt target k) (f.textAt target (k + 1)) := by
  unfold textAt markAt
  rcases Nat.lt_trichotomy f.phase k with hlt | rfl | hgt
  · rw [if_pos hlt, if_pos (by omega)]
    exact Pass.carries_runAll_quiet _ (f.quiet_php h)
  · rw [if_neg (by omega), if_pos (by omega)]
    exact f.carries_own h
  · rw [if_neg (by omega), if_neg (by omega)]
    exact Pass.carries_runAll_of_ignores f.sound_mark (ignored_before hgt)

/-! ## PHP around flat items -/

/-- A relation between texts that goes through whatever PHP is put around them. -/
structure Congruent (P : Text → Text → Prop) : Prop where
  nil : P [] []
  append : ∀ {a b c d}, P a b → P c d → P (a ++ c) (b ++ d)
  tag : ∀ {code}, Quiet code → P (Php.tag code) (Php.tag code)
  line : P "\n" "\n"

namespace Congruent

variable {P : Text → Text → Prop} (hP : Congruent P)

include hP

theorem flatMap {β : Type} {f g : β → Text} (h : ∀ x, P (f x) (g x)) :
    ∀ items : List β, P (items.flatMap f) (items.flatMap g)
  | [] => hP.nil
  | x :: items => by
    rw [List.flatMap_cons, List.flatMap_cons]
    exact hP.append (h x) (flatMap h items)

/-- A capture goes through if what is captured does. -/
theorem captured {a b code : Text} (h : P a b) (hcode : Quiet code) :
    P (Template.captured a code) (Template.captured b code) :=
  have hstart : P (Php.tag "ob_start();") (Php.tag "ob_start();") :=
    hP.tag (quiet_of_isHarmless rfl)
  hP.append (hP.append (hP.append (hP.append hstart hP.line) h) hP.line) (hP.tag hcode)

variable {target : Target} (ht : target.Sound) {w v : Flat → Text} (h : ∀ f, P (w f) (v f))

include h

/-- What a part leaves in the text goes through if the flat items do. -/
theorem content (part : Part) : P (part.content w) (part.content v) := by
  cases part with
  | flat f => exact h f
  | slot n e => exact hP.nil
  | slotBlock n body => exact hP.nil

omit h in
theorem valueLine (part : Part) : P part.valueLine part.valueLine := by
  cases part with
  | flat f => exact hP.nil
  | slot n e =>
    have hvalue : DirectiveFree (Php.value e.text.trim) := (e.free.of_infix (trim_isInfix _)).value
    exact hP.append (hP.tag (quiet_around (((quiet_of_isHarmless rfl).append n.quiet).append
      (quiet_of_isHarmless rfl)) hvalue rfl (by decide))) hP.line
  | slotBlock n body => exact hP.nil

/-- The line for a slot with a body goes through if the flat items do. -/
theorem blockLine (part : Part) : P (part.blockLine w) (part.blockLine v) := by
  cases part with
  | flat f => exact hP.nil
  | slot n e => exact hP.nil
  | slotBlock n body =>
    exact hP.append (hP.append (hP.append (hP.tag (quiet_of_isHarmless rfl)) (hP.flatMap h body))
      (hP.tag (((quiet_of_isHarmless rfl).append n.quiet).append (quiet_of_isHarmless rfl))))
      hP.line

include ht

/-- A component that has been put together goes through if the flat items do. -/
theorem componentPhp (n : Name) (parts : List Part) :
    P (Template.componentPhp target w n parts) (Template.componentPhp target v n parts) := by
  have hfile := ht.quiet_file n
  refine hP.append (hP.append (hP.append (hP.append (hP.append (hP.append (hP.append (hP.append
    (hP.append (hP.append ?_ hP.line) ?_) hP.line) ?_) ?_) ?_) hP.line) ?_) ?_) ?_
  · exact hP.tag (quiet_of_isHarmless rfl)
  · exact hP.tag (quiet_of_isHarmless rfl)
  · exact hP.tag (quiet_of_isHarmless rfl)
  · exact hP.flatMap (hP.content h) parts
  · exact hP.tag (quiet_of_isHarmless rfl)
  · exact hP.flatMap hP.valueLine parts
  · exact hP.flatMap (hP.blockLine h) parts
  · exact hP.tag (((((quiet_of_isHarmless rfl).append hfile).append
      (quiet_of_isHarmless rfl)).append hfile).append (quiet_of_isHarmless rfl))

/-- An item inside of a section goes through if the flat items do. -/
theorem inner (i : Inner) : P (i.php target w) (i.php target v) := by
  cases i with
  | flat f => exact h f
  | push n body =>
    have hvalue : Quiet "ob_get_clean()" := quiet_of_isHarmless rfl
    exact hP.captured (hP.flatMap h body) (quiet_onStack n hvalue.directiveFree)
  | component n parts => exact hP.componentPhp ht h n parts

end Congruent

/-- What is carried by passes goes through PHP around it. -/
theorem congruent_runAll (passes : List Pass) : Congruent (Carries (Pass.runAll passes)) where
  nil := carries_nil
  append := Carries.append
  tag h := Pass.carries_runAll_quiet passes (quiet_tag h)
  line := Pass.carries_runAll_quiet passes (quiet_of_isHarmless rfl)

/-- That a pattern stands nowhere goes through PHP around it. -/
theorem congruent_absentIn {p : Pattern} (hp : p.isProper) :
    Congruent fun a _ => p.AbsentIn a where
  nil := fun _ => trivial
  append := Pattern.AbsentIn.append
  tag h := Pattern.absentIn_quiet hp (quiet_tag h)
  line := Pattern.absentIn_quiet hp (quiet_of_isHarmless rfl)

end Template

end Pagewright
