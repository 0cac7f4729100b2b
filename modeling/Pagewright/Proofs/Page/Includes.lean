import Pagewright.Proofs.Disk.Resolve
import Pagewright.Proofs.Page.Address
import Pagewright.Proofs.Page.Output
import Pagewright.Proofs.Template.Fragments

/-!
# Where includes lead

The code of a page names other files by a path that starts in the directory of the page, climbs to
the root of the outputs and goes down from there. The climb has one `/..` for every name of a
directory in the output path. Repeated slashes and dots in that path are no names, so that the climb
ends at the root and never goes above it (`Path.below?_wayUp`), and all stages of the compiler know
the same climb (`Compiler.relativePath_draftAfter`).

What stands behind the climb is then read from the root (`Path.leadsLike_climb`). This is so by the
names of the path alone, and also on every disk on which the page is at its place, where each step
of the climb needs a directory to start from.
-/

namespace Pagewright

open Text

namespace Path

open Segments

/-! ## Counting from the start of a path -/

/-- The place that one more step leads to, counted from a start that it does not leave. -/
def descend? (place : Place) : Component → Option Place
  | .root => none
  | .current => some place
  | .parent => if place = [] then none else some place.dropLast
  | .normal name => some (place ++ [name])

/-- The place that a path leads to, counted from its start; `none` for one that goes above it. -/
def below? (path : Path) : Option Place :=
  path.components.foldlM descend? []

/-- The text that climbs over some directories. -/
def climb (count : Nat) : Text :=
  (List.replicate count ("/.." : Text)).flatten

theorem climb_succ (count : Nat) : climb (count + 1) = '/' :: ".." ++ climb count :=
  rfl

/-- What stands behind a slash adds its steps. -/
theorem steps_append_slash (text rest : Text) :
    (⟨text ++ '/' :: rest⟩ : Path).steps = (⟨text⟩ : Path).steps ++ (⟨rest⟩ : Path).steps := by
  rw [steps, parts_append, names_append]
  rfl

/-- A climb adds steps up. -/
theorem steps_append_climb (text : Text) (count : Nat) :
    (⟨text ++ climb count⟩ : Path).steps =
      (⟨text⟩ : Path).steps ++ List.replicate count .parent := by
  induction count generalizing text with
  | zero => simp [climb]
  | succ count ih =>
    have hup : (⟨".."⟩ : Path).steps = [.parent] := by decide
    rw [climb_succ, ← List.append_assoc, ih, steps_append_slash, hup, List.append_assoc,
      List.replicate_succ, List.singleton_append]

/-- A climb changes no lead. -/
theorem lead_append_climb {text : Text} {count : Nat} (h : text = [] → count = 0) :
    (⟨text ++ climb count⟩ : Path).lead = (⟨text⟩ : Path).lead := by
  cases count with
  | zero => simp [climb]
  | succ count =>
    rw [climb_succ, List.cons_append]
    exact lead_append_slash (fun hnil => absurd (h hnil) (Nat.succ_ne_zero count)) _

theorem isAbsolute_append {text : Text} (h : (⟨text⟩ : Path).isAbsolute = true) (rest : Text) :
    (⟨text ++ rest⟩ : Path).isAbsolute = true := by
  cases text with
  | nil => cases h
  | cons c text => exact h

/-- A relative path makes nothing absolute. -/
theorem isAbsolute_of_join {path child : Path} (hchild : child.isAbsolute = false)
    (h : (path.join child).isAbsolute = true) : path.isAbsolute = true := by
  have hpath : path.text ≠ [] := by
    intro htext
    rw [join_of_text_eq_nil htext hchild, hchild] at h
    cases h
  rwa [← lead_eq_root_iff, ← lead_join hpath hchild, lead_eq_root_iff]

/-! ## Down and up again -/

/-- Names lead down. -/
theorem foldlM_descend?_normal (place names : Place) :
    (names.map .normal).foldlM descend? place = some (place ++ names) := by
  induction names generalizing place with
  | nil => simp
  | cons name names ih =>
    rw [List.map_cons, List.foldlM_cons]
    exact (ih (place ++ [name])).trans (by simp)

/-- As many steps up as there are names lead back. -/
theorem foldlM_descend?_parent (place names : Place) :
    (List.replicate names.length .parent).foldlM descend? (place ++ names) = some place := by
  induction names using List.reverseRecOn with
  | nil => simp
  | append_singleton names name ih =>
    have hup : descend? (place ++ (names ++ [name])) .parent = some (place ++ names) := by
      rw [← List.append_assoc, descend?, if_neg (by simp), List.dropLast_concat]
    rw [List.length_append, List.length_singleton, List.replicate_succ, List.foldlM_cons, hup]
    exact ih

/-- The steps down some directories and up as many. -/
def downAndUp (names : Place) : List Component :=
  names.map .normal ++ List.replicate names.length .parent

/-- Down and up again leads back. -/
theorem foldlM_descend?_downAndUp (place names : Place) :
    (downAndUp names).foldlM descend? place = some place := by
  rw [downAndUp, List.foldlM_append, foldlM_descend?_normal]
  exact foldlM_descend?_parent place names

/-- Steps that never go above their start lead to the same place when nothing stops them there. -/
theorem foldl_nextPlace_of_foldlM {steps : List Component} {place target : Place}
    (h : steps.foldlM descend? place = some target) : steps.foldl nextPlace place = target := by
  induction steps generalizing place with
  | nil => exact Option.some.inj h
  | cons c steps ih =>
    rw [List.foldlM_cons] at h
    obtain ⟨next, hnext, h⟩ := Option.bind_eq_some_iff.1 h
    have hplace : nextPlace place c = next := by
      cases c with
      | root => cases hnext
      | current => exact Option.some.inj hnext
      | parent => exact Option.some.inj (Option.ite_none_left_eq_some.1 hnext).2
      | normal name => exact Option.some.inj hnext
    rw [List.foldl_cons, hplace]
    exact ih h

end Path

namespace Disk

open Pagewright.Path Segments

variable {disk : Disk}

/-- Segments that mean nothing do not matter on the way to a directory. -/
theorem foldlM_step_of_follow {body : List Text} {place target : Place}
    (h : (names body).foldlM disk.follow place = .ok target) (htarget : disk.IsDir target) :
    body.foldlM disk.step place = .ok target := by
  induction body generalizing place with
  | nil => exact h
  | cons segment body ih =>
    cases hsegment : Component.ofSegment? segment with
    | some c =>
      have hnames : names (segment :: body) = c :: names body := List.filterMap_cons_some hsegment
      rw [hnames, List.foldlM_cons, bind_eq_ok_iff] at h
      obtain ⟨next, hnext, h⟩ := h
      rw [List.foldlM_cons, step_of_ofSegment? hsegment, hnext]
      exact ih h
    | none =>
      have hmeant : isMeant segment = false := by simp [isMeant, hsegment]
      rw [names_cons_of_not_isMeant hmeant] at h
      have hplace : disk.IsDir place := isDir_of_foldlM_follow h htarget List.nil_prefix
      rw [List.foldlM_cons, step_of_not_isMeant hmeant hplace]
      exact ih h

/-- On a disk, too, as many steps up as there are directories lead back. -/
theorem foldlM_follow_parent {place names : Place} {name : Text}
    (h : disk.Descends place (names ++ [name])) :
    (List.replicate names.length .parent).foldlM disk.follow (place ++ names) = .ok place := by
  induction names using List.reverseRecOn generalizing name with
  | nil => simp [pure, Except.pure]
  | append_singleton names last ih =>
    obtain ⟨hfront, hdir, -⟩ := descends_concat.1 h
    have hup : disk.follow (place ++ (names ++ [last])) .parent = .ok (place ++ names) :=
      follow_eq_ok_iff.2 ⟨hdir, rfl, by rw [← List.append_assoc, nextPlace, List.dropLast_concat]⟩
    rw [List.length_append, List.length_singleton, List.replicate_succ, List.foldlM_cons, hup]
    exact ih hfront

/-- Where one can go down, one comes back. -/
theorem foldlM_follow_downAndUp {place names : Place} {name : Text}
    (h : disk.Descends place (names ++ [name])) :
    (downAndUp names).foldlM disk.follow place = .ok place := by
  rw [downAndUp, List.foldlM_append, bind_eq_ok_iff]
  exact ⟨_, foldlM_follow_normal.2 ⟨(descends_concat.1 h).1, rfl⟩, foldlM_follow_parent h⟩

/-- Steps that go on from a directory by names can be taken back to it. -/
theorem exists_foldlM_follow_downAndUp {steps : List Component} {names target : Place} {name : Text}
    (h : (steps ++ (names ++ [name]).map Component.normal).foldlM disk.follow [] = .ok target) :
    ∃ top, disk.IsDir top ∧ steps.foldlM disk.follow [] = .ok top ∧
      (steps ++ downAndUp names).foldlM disk.follow [] = .ok top := by
  rw [List.foldlM_append, bind_eq_ok_iff] at h
  obtain ⟨top, htop, hdown⟩ := h
  have hdescends := (foldlM_follow_normal.1 hdown).1
  refine ⟨top, ?_, htop, ?_⟩
  · simpa using hdescends.isDir List.nil_prefix
  · rw [List.foldlM_append, bind_eq_ok_iff]
    exact ⟨top, htop, foldlM_follow_downAndUp hdescends⟩

/-- Once a path has come to a directory, what follows is read from there. -/
theorem resolve_append_slash {front rest : Text} {place : Place}
    (habsolute : (⟨front⟩ : Path).isAbsolute = true)
    (hfront : (⟨front⟩ : Path).steps.foldlM disk.follow [] = .ok place) (hdir : disk.IsDir place)
    (hfits : (⟨front ++ '/' :: rest⟩ : Path).Fits) :
    disk.resolve ⟨front ++ '/' :: rest⟩ = (parts '/' rest).foldlM disk.step place := by
  rw [resolve_of_fits (isAbsolute_append habsolute _) hfits, parts_append, List.foldlM_append,
    foldlM_step_of_follow hfront hdir]
  rfl

end Disk

namespace Path

open Segments

/-! ## The way up -/

/-- Seen from a page, one path leads where another one leads: by their names, from wherever they
start, and on every disk that has the page, unless one of them is too long for it. -/
structure LeadsLike (path target page : Path) : Prop where
  place (base : Place) : path.steps.foldl nextPlace base = target.steps.foldl nextPlace base
  resolve {disk : Disk} {place : Place} (habsolute : page.isAbsolute = true)
    (hpage : disk.resolve page = .ok place) (hpath : path.Fits) (htarget : target.Fits) :
    disk.resolve path = disk.resolve target

section Output

variable {output : Path} {last : Text}
  (hbelow : ∀ c ∈ output.components, c = .current ∨ ∃ name, c = .normal name)
  (hlast : output.components.getLast? = some (.normal last))

include hbelow hlast

/-- An output path stays below its start: it names some directories and then a file, and the way up
climbs over these directories. -/
theorem exists_steps_eq_output :
    output.isAbsolute = false ∧ ∃ dirs : Place,
      output.steps = dirs.map .normal ++ [.normal last] ∧ output.wayUp = climb dirs.length := by
  have hsteps : ∀ c ∈ output.steps, ∃ name, c = .normal name := by
    intro c hc
    have hmem : c ∈ output.components := by
      rw [components_eq]
      exact List.mem_append_right _ hc
    rcases hbelow c hmem with rfl | hname
    · rcases eq_parent_or_normal_of_mem_names hc with h | ⟨name, -, h⟩ <;> cases h
    · exact hname
  have hrelative : output.isAbsolute = false := by
    rw [Bool.eq_false_iff, ne_eq, ← root_mem_components_iff]
    intro hroot
    rcases hbelow _ hroot with h | ⟨name, h⟩ <;> cases h
  rw [← fileName?_eq_some_iff_components, fileName?_eq_some_iff] at hlast
  obtain ⟨front, hfront⟩ := List.getLast?_eq_some_iff.1 hlast
  have hnormal : ∀ c ∈ front, ∃ name, c = .normal name := fun c hc =>
    hsteps c (hfront ▸ List.mem_append_left _ hc)
  obtain ⟨dirs, rfl⟩ := exists_names_of_normal hnormal
  have hne : output.steps ≠ [] := by simp [hfront]
  obtain ⟨dir, hdir, -, hdirSteps⟩ := exists_parent? hne
  rw [hfront, List.dropLast_concat] at hdirSteps
  refine ⟨hrelative, dirs, hfront, ?_⟩
  rw [wayUp, hdir, Option.map_some, Option.getD_some, components_eq, hdirSteps, climb]
  cases dir.lead <;> simp [List.filter_map, Function.comp_def, List.flatMap_def, List.map_const']

/-- From the directory of an output path, the way up ends at the start and never goes above it. -/
theorem below?_wayUp :
    ∃ dir, output.parent? = some dir ∧ (⟨dir.text ++ output.wayUp⟩ : Path).below? = some [] := by
  obtain ⟨hrelative, dirs, hsteps, hup⟩ := exists_steps_eq_output hbelow hlast
  have hne : output.steps ≠ [] := by simp [hsteps]
  obtain ⟨dir, hdir, hlead, hdirSteps⟩ := exists_parent? hne
  rw [hsteps, List.dropLast_concat] at hdirSteps
  have hempty : dir.text = [] → dirs.length = 0 := by
    intro htext
    by_contra hdirs
    exact text_ne_nil_of_steps (by simpa [hdirSteps] using hdirs) htext
  have hroot : dir.lead ≠ .root := by
    rw [hlead, ne_eq, lead_eq_root_iff, hrelative]
    nofun
  refine ⟨dir, hdir, ?_⟩
  rw [hup, below?, components_eq, lead_append_climb hempty, steps_append_climb, hdirSteps]
  have hback := foldlM_descend?_downAndUp [] dirs
  cases h : dir.lead with
  | root => exact absurd h hroot
  | current => exact hback
  | none => exact hback

/-- What stands behind the way up is read from the root of the outputs. -/
theorem leadsLike_climb (root : Path) :
    ∃ dir, (root.join output).parent? = some dir ∧ ∀ rest : Text,
      LeadsLike ⟨dir.text ++ output.wayUp ++ '/' :: rest⟩ ⟨root.text ++ '/' :: rest⟩
        (root.join output) := by
  obtain ⟨hrelative, dirs, hsteps, hup⟩ := exists_steps_eq_output hbelow hlast
  have hpage : (root.join output).steps = root.steps ++ dirs.map .normal ++ [.normal last] := by
    rw [steps_join root hrelative, hsteps, List.append_assoc]
  have hne : (root.join output).steps ≠ [] := by simp [hpage]
  obtain ⟨dir, hdir, hlead, hdirSteps⟩ := exists_parent? hne
  rw [hpage, List.dropLast_concat] at hdirSteps
  have hclimb : (⟨dir.text ++ output.wayUp⟩ : Path).steps = root.steps ++ downAndUp dirs := by
    rw [hup, steps_append_climb, hdirSteps, downAndUp, List.append_assoc]
  refine ⟨dir, hdir, fun rest => ⟨fun base => ?_, ?_⟩⟩
  · rw [steps_append_slash, hclimb, steps_append_slash, List.foldl_append, List.foldl_append,
      foldl_nextPlace_of_foldlM (foldlM_descend?_downAndUp _ dirs), List.foldl_append]
  · intro disk place habsolute hresolve hpath htarget
    have hroot : root.isAbsolute = true := isAbsolute_of_join hrelative habsolute
    have hdirAbsolute : dir.isAbsolute = true := by
      rwa [← lead_eq_root_iff, hlead, lead_eq_root_iff]
    have hfollow := Disk.foldlM_follow_of_resolve habsolute hresolve
    rw [steps_join root hrelative, hsteps, ← List.map_singleton, ← List.map_append] at hfollow
    obtain ⟨top, hisDir, htop, hback⟩ := Disk.exists_foldlM_follow_downAndUp hfollow
    rw [← hclimb] at hback
    rw [Disk.resolve_append_slash (isAbsolute_append hdirAbsolute _) hback hisDir hpath,
      Disk.resolve_append_slash hroot htop hisDir htarget]

end Output

end Path

/-! ## The climb in the compiler -/

namespace Rule

/-- The rule does not change where the page will be. -/
def KeepsPlace (rule : Rule) : Prop :=
  ∀ draft : Draft, (rule.step draft).1.relativePath = draft.relativePath

/-- A rule for the content leaves the place of the page alone. -/
theorem keepsPlace_ofContent (name : Text) (rewrite : Text → Rewrite) :
    (ofContent name rewrite).KeepsPlace := by
  intro draft
  rw [step_ofContent]
  rfl

theorem keepsPlace_ofRewrite (name : Text) (rewrite : Rewrite) :
    (ofRewrite name rewrite).KeepsPlace :=
  keepsPlace_ofContent name fun _ => rewrite

/-- So does the rule for sections. -/
theorem keepsPlace_sectionRule : Directive.sectionRule.KeepsPlace := by
  intro draft
  cases hnext : Directive.sectionRule.apply draft with
  | none => simp [step, hnext]
  | some next =>
    obtain ⟨content, -, rfl⟩ := Option.map_eq_some_iff.1 hnext
    simp [step, hnext]

end Rule

namespace Compiler

open Rule

/-- No rule of a compiler changes the place of the page. -/
theorem keepsPlace_rules (options : CompileOptions) :
    ∀ rule ∈ (ofOptions options).rules, rule.KeepsPlace := by
  have hbuiltin : ∀ rule ∈ builtinRules options.dirs, rule.KeepsPlace := by
    intro rule hrule
    rcases builtinRules_cases hrule with ⟨name, rewrite, rfl⟩ | rfl
    · exact keepsPlace_ofContent name rewrite
    · exact keepsPlace_sectionRule
  have hextensions : ∀ rule ∈ (ofOptions options).extensions, rule.KeepsPlace := by
    intro rule hrule
    obtain ⟨directive, -, rfl⟩ := List.mem_map.1 hrule
    exact keepsPlace_ofRewrite _ _
  have hfinal : ∀ rule ∈ finalRules options, rule.KeepsPlace := by
    simp only [finalRules, List.forall_mem_cons]
    refine ⟨?_, ?_, ?_, ?_, List.forall_mem_nil _⟩ <;> exact keepsPlace_ofRewrite _ _
  intro rule hrule
  rcases List.mem_append.1 hrule with hrule | hrule
  · exact (List.mem_append.1 hrule).elim (hbuiltin rule) (hextensions rule)
  · exact hfinal rule hrule

/-- Rules that leave the place alone do so one after another. -/
theorem foldl_keepsPlace {rules : List Rule} (h : ∀ rule ∈ rules, rule.KeepsPlace) (draft : Draft) :
    (rules.foldl (fun draft rule => (rule.step draft).1) draft).relativePath
      = draft.relativePath := by
  induction rules generalizing draft with
  | nil => rfl
  | cons rule rules ih =>
    obtain ⟨hrule, hrules⟩ := List.forall_mem_cons.1 h
    exact (ih hrules (rule.step draft).1).trans (hrule draft)

/-- Every rule of a compiler finds the way up from the page that it works on. -/
theorem relativePath_draftAfter (options : CompileOptions) (draft : Draft) (output : Path)
    (count : Nat) :
    ((ofOptions options).draftAfter draft output count).relativePath = output.wayUp := by
  simp only [draftAfter, runRules_draft]
  exact foldl_keepsPlace
    (fun rule hrule => keepsPlace_rules options rule (List.mem_of_mem_take hrule)) _

end Compiler

/-! ## The files that a page names -/

namespace Php

/-- The reading that takes every character for itself. -/
def Reading.asWritten : Reading where
  value := id
  bare _ _ := rfl

/-- Bare characters at the head of a literal stand for themselves. -/
theorem Reading.value_append (reading : Reading) {front : Text}
    (h : ∀ c ∈ front, isBare c = true) (rest : Text) :
    reading.value (front ++ rest) = front ++ reading.value rest := by
  induction front with
  | nil => rfl
  | cons c front ih =>
    obtain ⟨hc, hfront⟩ := List.forall_mem_cons.1 h
    rw [List.cons_append, reading.bare hc, ih hfront, List.cons_append]

/-- The characters of a climb are bare. -/
theorem isBare_of_mem_climb {count : Nat} {c : Char} (h : c ∈ Path.climb count) :
    isBare c = true := by
  obtain ⟨up, hup, hc⟩ := List.mem_flatten.1 h
  rw [List.eq_of_mem_replicate hup] at hc
  have hc' : c = '/' ∨ c = '.' := by simpa using hc
  rcases hc' with rfl | rfl <;> rfl

/-- The path that an expression stands for in a page, when it is the directory of the page and a
literal behind it. -/
def fileNamed? (reading : Reading) (page : Path) (code : Text) : Option Path := do
  let dir ← page.parent?
  let literal ← code.after? "dirname(__FILE__) . \""
  if literal.getLast? = some '"' then some ⟨dir.text ++ reading.value literal.dropLast⟩ else none

/-- The code for a file of the site names the file that the climb leads to from the directory of the
page. -/
theorem fileNamed?_filePath (reading : Reading) {page dir : Path} (hdir : page.parent? = some dir)
    {up : Text} (hup : ∀ c ∈ up, isBare c = true) (folder name : Text) :
    fileNamed? reading page (filePath up folder name) =
      some ⟨dir.text ++ up ++ '/' :: reading.value (folder ++ "/"
        ++ (name.bareName.map fun c => if c = '.' then '/' else c) ++ ".php")⟩ := by
  generalize hinside : folder ++ "/"
    ++ (name.bareName.map fun c => if c = '.' then '/' else c) ++ ".php" = inside
  have hcode : filePath up folder name =
      "dirname(__FILE__) . \"" ++ (up ++ '/' :: inside ++ ['"']) := by
    have hpath : filePath up folder name = "dirname(__FILE__) . \"" ++ up ++ ['/'] ++ folder ++ "/"
        ++ (name.bareName.map fun c => if c = '.' then '/' else c) ++ (".php" ++ ['"']) := rfl
    rw [hpath, ← hinside]
    simp only [List.append_assoc, List.cons_append, List.nil_append]
  have hvalue : reading.value (up ++ '/' :: inside) = up ++ '/' :: reading.value inside := by
    rw [reading.value_append hup, reading.bare rfl]
  rw [fileNamed?, hdir, hcode, after?_append]
  change (if (up ++ '/' :: inside ++ ['"']).getLast? = some '"' then _ else none) = _
  rw [List.getLast?_concat, if_pos rfl, List.dropLast_concat, hvalue, List.append_assoc]

end Php

/-- Includes lead from the root of the outputs, wherever the page is. For an output path that stays
below its start and ends in the name of a file, the way up leads from the directory of the path to
the start, and not above it on the way. All rules of a compiler see this way up, and so does what is
made of the compiled page.

The code for a file in a page at this path then stands for a file below the root: the one at
`dir/name.php`, where the name has no quotes and slashes for its dots. If a literal is not read as
it is written, it is the one at whatever the literal stands for. -/
theorem Path.includes_lead_from_root {output : Path} {last : Text}
    (hbelow : ∀ c ∈ output.components, c = .current ∨ ∃ name, c = .normal name)
    (hlast : output.components.getLast? = some (.normal last)) :
    (∃ dir, output.parent? = some dir ∧ (⟨dir.text ++ output.wayUp⟩ : Path).below? = some []) ∧
      (∀ options draft,
        ((Compiler.ofOptions options).compile draft output).draft.relativePath = output.wayUp ∧
          ∀ count, ((Compiler.ofOptions options).draftAfter draft output count).relativePath
            = output.wayUp) ∧
      ∀ (root : Path) (dir name : Text),
        let page := root.join output
        let code := Php.filePath output.wayUp dir name
        let file := dir ++ "/" ++ (name.bareName.map fun c => if c = '.' then '/' else c) ++ ".php"
        (∃ path, Php.fileNamed? .asWritten page code = some path ∧
          path.LeadsLike ⟨root.text ++ "/" ++ file⟩ page) ∧
        ∀ reading, ∃ path, Php.fileNamed? reading page code = some path ∧
          path.LeadsLike ⟨root.text ++ "/" ++ reading.value file⟩ page := by
  refine ⟨below?_wayUp hbelow hlast, fun options draft => ⟨?_, ?_⟩, fun root dir name => ?_⟩
  · rw [← Compiler.draftAfter_length]
    exact Compiler.relativePath_draftAfter options draft output _
  · exact Compiler.relativePath_draftAfter options draft output
  · intro page code file
    obtain ⟨place, hplace, hleads⟩ := leadsLike_climb hbelow hlast root
    obtain ⟨-, dirs, -, hup⟩ := exists_steps_eq_output hbelow hlast
    have hbare : ∀ c ∈ output.wayUp, Php.isBare c = true := by
      rw [hup]
      exact fun c => Php.isBare_of_mem_climb
    have hslash (rest : Text) : root.text ++ "/" ++ rest = root.text ++ '/' :: rest :=
      List.append_assoc _ _ _
    have hall (reading : Php.Reading) : ∃ path, Php.fileNamed? reading page code = some path ∧
        path.LeadsLike ⟨root.text ++ "/" ++ reading.value file⟩ page := by
      refine ⟨_, Php.fileNamed?_filePath reading hplace hbare dir name, ?_⟩
      rw [hslash]
      exact hleads _
    exact ⟨hall .asWritten, hall⟩

/-- A name with a dot in it, from a page two directories down. -/
theorem Path.includes_lead_from_root_dotted :
    let output : Path := ⟨"./a//b/./i.php"⟩
    let page := (⟨"/w"⟩ : Path).join output
    let path : Path := ⟨"/w/./a//b/../../_includes/x/nav.php"⟩
    let nav : Place := ["w", "_includes", "x", "nav.php"]
    let disk : Disk :=
      { entries := [
          (["w"], .directory 0), (["w", "a"], .directory 0), (["w", "a", "b"], .directory 0),
          (["w", "_includes"], .directory 0), (["w", "_includes", "x"], .directory 0)] }
    output.components = [.current, .normal "a", .normal "b", .normal "i.php"] ∧
      Php.fileNamed? .asWritten page (Php.filePath output.wayUp "_includes" "'x.nav'") = some path ∧
      path.place = nav ∧
      disk.resolve page = .ok ["w", "a", "b", "i.php"] ∧
      disk.resolve path = disk.resolve ⟨"/w/_includes/x/nav.php"⟩ := by
  intro output page path nav disk
  have hcomponents : output.components = [.current, .normal "a", .normal "b", .normal "i.php"] := by
    decide +kernel
  have hcode : Php.fileNamed? .asWritten page (Php.filePath output.wayUp "_includes" "'x.nav'")
      = some path := by
    decide +kernel
  have hpage : disk.resolve page = .ok ["w", "a", "b", "i.php"] := by
    rfl
  have hbelow : ∀ c ∈ output.components, c = .current ∨ ∃ name, c = .normal name := by
    simp [hcomponents]
  have hlast : output.components.getLast? = some (.normal "i.php") := by
    rw [hcomponents]
    rfl
  obtain ⟨other, hother, hleads⟩ :=
    ((includes_lead_from_root hbelow hlast).2.2 ⟨"/w"⟩ "_includes" "'x.nav'").1
  cases hcode.symm.trans hother
  refine ⟨hcomponents, hcode, ?_, hpage, ?_⟩
  · exact (hleads.place []).trans (by decide +kernel)
  · exact hleads.resolve rfl hpage ⟨by decide +kernel, by decide +kernel⟩
      ⟨by decide +kernel, by decide +kernel⟩

end Pagewright
