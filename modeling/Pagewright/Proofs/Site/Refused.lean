import Mathlib.Data.List.Infix
import Pagewright.Proofs.Site.Loading
import Pagewright.Proofs.Site.Stages

/-!
# Builds that are refused

Before it writes anything, a build looks at the whole site: the source directory has to be there,
every template has to be one that can be loaded, and no two files may be meant for the same place.
`Config.Refuses` says that something of this is wrong, and `Config.buildIn_cases` that the errors of
such a build are its own: the tasks of a build fail with another one.

All that such a build has done by then is making its output directory. Files are as before, and what
is new are directories on the way to the output directory (`Config.refused_keeps_files`). Whether
the output directory is the only one of them (`Config.AtMostOutput`) depends on whether the others
were there before (`Config.Approached`).
-/

namespace Pagewright

open Disk

/-- The errors of a build that finds something wrong with its site. -/
def BuildError.isRefusal : BuildError → Bool
  | .sourceMissing _ => true
  | .outsideSource _ => true
  | .unreadablePage .. => true
  | .invalidPage .. => true
  | .collision .. => true
  | _ => false

/-- The tasks of a build fail with an error of their own. -/
theorem Task.eq_failed_of_runAll {schedule : Schedule} {config : Config} {compiler : Compiler}
    {dependencies : Option Int} {tasks : List Task} {summary : Summary} {world : World}
    {error : BuildError}
    (h : ((runAll schedule config compiler dependencies tasks summary).exec world).1 =
      .error error) : error = .failed := by
  induction tasks generalizing summary world with
  | nil => cases h
  | cons task tasks ih =>
    rw [exec_runAll_cons] at h
    cases hrun : (task.run config compiler dependencies).exec world with
    | mk result world' =>
      rw [hrun] at h
      cases result with
      | error cause =>
        cases h
        rfl
      | ok written => exact ih h

namespace Config

open Pagewright.Path Work Location

variable {config : Config} {world world' : World}

/-! ## Why a build is refused -/

/-- Something is wrong with the site: the source directory is not there, a template cannot be
loaded, or two files are meant for the same place. -/
inductive Refuses (config : Config) (world : World) : Prop
  | missing (source : world.disk.isDirectory config.source = false)
  | unloaded {start : World} {path : Path} {error : BuildError}
      (prepares : config.prepareOutput.exec world = (.ok (), start))
      (mem : path ∈ config.siteFiles start.disk) (template : isTemplate path = true)
      (fails : config.loadPage start.disk path = .error error)
  | collides {start : World} {pages : List (Path × Page)} {statics : List Path}
      (prepares : config.prepareOutput.exec world = (.ok (), start))
      (finds : config.Finds start.disk pages statics)
      (collides : collision? [] (config.entries pages statics) ≠ none)

/-- A page that cannot be loaded is a reason to refuse the site. -/
theorem isRefusal_of_loadPage {disk : Disk} {path : Path} {error : BuildError}
    (h : config.loadPage disk path = .error error) : error.isRefusal = true := by
  unfold loadPage sourcePath at h
  cases hrelative : path.relativeTo? config.source with
  | none =>
    rw [hrelative] at h
    cases h
    rfl
  | some source =>
    simp only [hrelative, bind, Except.bind] at h
    split at h
    · cases h
      rfl
    · split at h
      · cases h
      · cases h
        rfl

/-- A build that cannot make its output directory fails in another way. -/
theorem not_refuses_of_prepareOutput (hsource : world.disk.isDirectory config.source = true)
    {error : BuildError} (h : config.prepareOutput.exec world = (.error error, world')) :
    ¬config.Refuses world ∧ error.isRefusal = false := by
  constructor
  · rintro (hmissing | ⟨hprepares, -, -, -⟩ | ⟨hprepares, -, -⟩)
    · cases hsource.symm.trans hmissing
    · cases h.symm.trans hprepares
    · cases h.symm.trans hprepares
  · rw [exec_prepareOutput] at h
    split at h
    · split at h
      · cases h
      · cases h
        rfl
    · cases h
      rfl

/-- A site whose templates have all been loaded, and whose files have places of their own. -/
theorem not_refuses_of_finds (hsource : world.disk.isDirectory config.source = true)
    (hprepare : config.prepareOutput.exec world = (.ok (), world'))
    {pages : List (Path × Page)} {statics : List Path}
    (hfinds : config.Finds world'.disk pages statics)
    (hnone : collision? [] (config.entries pages statics) = none) : ¬config.Refuses world := by
  rintro (hmissing | ⟨hprepares, hmem, htemplate, hfails⟩ | ⟨hprepares, hfinds', hcollides⟩)
  · cases hsource.symm.trans hmissing
  · cases hprepare.symm.trans hprepares
    obtain ⟨page, hpage⟩ := hfinds.exists_page hmem htemplate
    cases hpage.symm.trans hfails
  · cases hprepare.symm.trans hprepares
    obtain ⟨rfl, rfl⟩ := hfinds.unique hfinds'
    exact hcollides hnone

/-- A build fails with an error of its own when something is wrong with the site. It has then done
nothing at all if the source directory is missing, and otherwise nothing since the output directory
was made. In any other case it fails with another error, if it does. -/
theorem buildIn_cases (schedule : Schedule) (config : Config) (world : World) :
    (config.Refuses world ∧
        (∃ error, error.isRefusal = true ∧
          ((config.buildIn schedule).exec world).1 = .error error) ∧
        (world.disk.isDirectory config.source = false ∧
            ((config.buildIn schedule).exec world).2 = world ∨
          config.prepareOutput.exec world = (.ok (), ((config.buildIn schedule).exec world).2))) ∨
      (¬config.Refuses world ∧
        ∀ error, ((config.buildIn schedule).exec world).1 = .error error →
          error.isRefusal = false) := by
  have hgoes := goes_buildIn schedule config world
  generalize (config.buildIn schedule).exec world = outcome at hgoes ⊢
  obtain ⟨result, world'⟩ := outcome
  cases hgoes with
  | missing source => exact .inl ⟨.missing source, ⟨_, rfl, rfl⟩, .inl ⟨source, rfl⟩⟩
  | unprepared source prepares =>
    obtain ⟨hnot, herror⟩ := not_refuses_of_prepareOutput source prepares
    refine .inr ⟨hnot, fun other hother => ?_⟩
    cases hother
    exact herror
  | unloaded prepares mem template fails =>
    exact .inl ⟨.unloaded prepares mem template fails, ⟨_, isRefusal_of_loadPage fails, rfl⟩,
      .inr prepares⟩
  | collides prepares finds refused =>
    exact .inl ⟨.collides prepares finds (Option.ne_none_iff_exists'.2 ⟨_, refused⟩),
      ⟨_, rfl, rfl⟩, .inr prepares⟩
  | ran source prepares finds accepted result_eq =>
    refine .inr ⟨not_refuses_of_finds source prepares finds accepted, fun error herror => ?_⟩
    rw [Task.eq_failed_of_runAll (result_eq.symm.trans herror)]
    rfl

/-- Without a source directory, a build does nothing. -/
theorem buildIn_missing {schedule : Schedule}
    (h : world.disk.isDirectory config.source = false) :
    ((config.buildIn schedule).exec world).2 = world := by
  rw [buildIn, exec_disk_bind, h]
  rfl

/-! ## What a refused build leaves -/

/-- Steps without a way up lead further down. -/
theorem isPrefix_foldl_nextPlace {steps : List Component} (h : Component.parent ∉ steps)
    (place : Place) : List.IsPrefix place (steps.foldl nextPlace place) := by
  induction steps generalizing place with
  | nil => exact List.prefix_rfl
  | cons c steps ih =>
    rw [List.mem_cons, not_or] at h
    refine List.IsPrefix.trans ?_ (ih h.2 (nextPlace place c))
    cases c with
    | parent => exact absurd rfl h.1
    | normal name => exact List.prefix_append _ _
    | root => exact List.prefix_rfl
    | current => exact List.prefix_rfl

/-- A directory that is new has nothing in it, unless the path goes back from inside it. -/
theorem get?_below_of_adds {disk disk' : Disk} {path : Path} {base : Place}
    (hadds : Adds (OnWay base path) disk disk') (hsound : disk.Sound)
    (hparent : Component.parent ∉ path.steps)
    (hnone : disk.get? (path.steps.foldl nextPlace base) = none) {rest : Place}
    (hrest : rest ≠ []) :
    disk'.get? (path.steps.foldl nextPlace base ++ rest) = none := by
  refine Option.eq_none_iff_forall_ne_some.2 fun entry hentry => ?_
  rcases hadds.adds _ _ hentry with hold | ⟨⟨front, ⟨tail, htail⟩, hplace⟩, -⟩
  · obtain ⟨modified, hdir⟩ := hsound.isDir_of_append hrest hold
    cases hnone.symm.trans hdir
  · have hback : Component.parent ∉ tail := fun hmem =>
      hparent (htail ▸ List.mem_append_right _ hmem)
    have hle := (isPrefix_foldl_nextPlace hback (front.foldl nextPlace base)).length_le
    rw [← List.foldl_append, htail, ← hplace, List.length_append] at hle
    exact hrest (List.length_eq_zero_iff.1 (by omega))

/-- Of all that is on a disk afterwards, at most the output directory is new, and then it is
empty. -/
def AtMostOutput (config : Config) (disk disk' : Disk) : Prop :=
  ∀ place entry, disk'.get? place = some entry → disk.get? place = some entry ∨
    place = disk.placeOf config.output ∧ ∀ rest ≠ [], disk'.get? (place ++ rest) = none

/-- The directories that the path of the output directory leads through are all there. -/
def Approached (config : Config) (disk : Disk) : Prop :=
  ∀ place, OnWay (disk.start config.output) config.output place →
    place = disk.placeOf config.output ∨ disk.get? place ≠ none

/-- Where only the output directory is missing, only this one is made. -/
theorem AtMostOutput.of_adds {disk disk' : Disk} (hsound : disk.Sound)
    (hadds : Adds (OnWay (disk.start config.output) config.output) disk disk')
    (happroached : config.Approached disk) : config.AtMostOutput disk disk' := by
  have hnew : ∀ {place entry}, disk'.get? place = some entry → disk.get? place = none →
      place = disk.placeOf config.output := by
    intro place entry hentry hnone
    rcases hadds.adds place entry hentry with hold | ⟨hway, -⟩
    · cases hnone.symm.trans hold
    · exact (happroached place hway).resolve_right (not_not.2 hnone)
  intro place entry hentry
  cases hget : disk.get? place with
  | some old => exact .inl ((hadds.keeps _ _ hget).symm.trans hentry)
  | none =>
    refine .inr ⟨hnew hentry hget, fun rest hrest => ?_⟩
    refine Option.eq_none_iff_forall_ne_some.2 fun inner hinner => hrest ?_
    cases hbelow : disk.get? (place ++ rest) with
    | some old =>
      obtain ⟨modified, hdir⟩ := hsound.isDir_of_append hrest hbelow
      cases hget.symm.trans hdir
    | none => exact List.append_right_eq_self.1 ((hnew hinner hbelow).trans (hnew hentry hget).symm)

/-- All directories on the way of the output directory are there once it has been made, so those
that were missing are new. -/
theorem Approached.of_createAll {disk disk' : Disk}
    (hcreate : disk.createAll config.output = .ok disk')
    (h : config.AtMostOutput disk disk') : config.Approached disk := by
  intro place hway
  by_cases hnil : config.output.text = []
  · left
    obtain ⟨front, hfront, rfl⟩ := hway
    have hsteps : config.output.steps = [] := by
      rw [steps, hnil]
      rfl
    rw [hsteps, List.prefix_nil] at hfront
    rw [hfront, placeOf, hsteps]
  · obtain ⟨modified, hdir⟩ := isDir_onWay_of_createAll hnil hcreate hway
    rcases h place _ hdir with hold | ⟨houtput, -⟩
    · exact .inr (by simp [hold])
    · exact .inl houtput

section Refused

variable {schedule : Schedule} (hclean : config.clean = false) (hrefuses : config.Refuses world)

include hclean hrefuses

/-- A build that is refused has found no source directory, or it has made its output directory. -/
theorem disk_of_refuses :
    world.disk.isDirectory config.source = false ∧
        ((config.buildIn schedule).exec world).2.disk = world.disk ∨
      world.disk.createAll config.output = .ok ((config.buildIn schedule).exec world).2.disk := by
  rcases buildIn_cases schedule config world with ⟨-, -, ⟨hmissing, hworld⟩ | hprepare⟩ | ⟨hnot, -⟩
  · exact .inl ⟨hmissing, by rw [hworld]⟩
  · obtain ⟨cleared, disk, hcleared, hcreate, hworld⟩ := exec_prepareOutput_eq_ok_iff.1 hprepare
    rw [eq_of_cleared hclean hcleared] at hcreate
    right
    rw [hworld]
    exact hcreate
  · exact absurd hrefuses hnot

/-- What a build that is refused has added are directories on the way to its output directory. -/
theorem adds_of_refuses : Adds (OnWay (world.disk.start config.output) config.output) world.disk
    ((config.buildIn schedule).exec world).2.disk := by
  rcases disk_of_refuses hclean hrefuses with ⟨-, hdisk⟩ | hcreate
  · rw [hdisk]
    exact Adds.refl _ _
  · exact adds_onWay_of_createAll hcreate

/-- A build that is refused makes at most its output directory when it does not even find the source
directory, or when only the output directory is missing. -/
theorem atMostOutput_iff (hsound : world.disk.Sound) :
    config.AtMostOutput world.disk ((config.buildIn schedule).exec world).2.disk ↔
      world.disk.isDirectory config.source = false ∨ config.Approached world.disk := by
  constructor
  · intro hatMost
    rcases disk_of_refuses hclean hrefuses with ⟨hmissing, -⟩ | hcreate
    · exact .inl hmissing
    · exact .inr (.of_createAll hcreate hatMost)
  · rintro (hmissing | happroached)
    · rw [buildIn_missing hmissing]
      exact fun _ _ hentry => .inl hentry
    · exact .of_adds hsound (adds_of_refuses hclean hrefuses) happroached

end Refused

/-- A build that is not to empty its output directory refuses a site with something wrong in it and
leaves every file as it was, with its bytes and its time. It fails with an error of its own in this
case and in no other. All that is new are directories on the way to the output directory. There is
more than this directory among them if others on its way were missing as well. If it is new itself,
it is empty, unless its path goes back from inside it. -/
theorem refused_keeps_files (hclean : config.clean = false) (schedule : Schedule) (world : World) :
    (config.Refuses world ↔ ∃ error, error.isRefusal = true ∧
        ((config.buildIn schedule).exec world).1 = .error error) ∧
      (config.Refuses world →
        (∀ place, ((config.buildIn schedule).exec world).2.disk.file? place =
          world.disk.file? place) ∧
        Adds (OnWay (world.disk.start config.output) config.output) world.disk
          ((config.buildIn schedule).exec world).2.disk ∧
        (world.disk.Sound →
          (config.AtMostOutput world.disk ((config.buildIn schedule).exec world).2.disk ↔
            world.disk.isDirectory config.source = false ∨ config.Approached world.disk)) ∧
        (world.disk.Sound → Component.parent ∉ config.output.steps →
          world.disk.get? (world.disk.placeOf config.output) = none → ∀ rest ≠ [],
            ((config.buildIn schedule).exec world).2.disk.get?
              (world.disk.placeOf config.output ++ rest) = none)) := by
  refine ⟨⟨fun hrefuses => ?_, fun hfails => ?_⟩, fun hrefuses => ?_⟩
  · rcases buildIn_cases schedule config world with ⟨-, hfails, -⟩ | ⟨hnot, -⟩
    · exact hfails
    · exact absurd hrefuses hnot
  · obtain ⟨error, hrefusal, hresult⟩ := hfails
    rcases buildIn_cases schedule config world with ⟨hrefuses, -, -⟩ | ⟨-, hother⟩
    · exact hrefuses
    · cases hrefusal.symm.trans (hother error hresult)
  · have hadds : Adds _ _ ((config.buildIn schedule).exec world).2.disk :=
      adds_of_refuses hclean hrefuses
    exact ⟨hadds.file?, hadds, atMostOutput_iff hclean hrefuses, fun hsound hparent hnone _ =>
      get?_below_of_adds hadds hsound hparent hnone⟩

/-- The second of two pages is not to stay below the output directory. -/
def strayDisk : Disk :=
  { entries := [
      (["source".toList], .directory 0),
      (["source".toList, "a.blade".toList], .file ⟨Text.utf8 "x".toList, 3⟩),
      (["source".toList, "b.blade".toList],
        .file ⟨Text.utf8 "---\npermalink: ../b.php\n---\nx".toList, 4⟩)]
    now := 5 }

def strayConfig (output : Path) : Config :=
  { source := pathOf ["source".toList], output }

/-- The disk once the output directory has been made. -/
def strayStart (output : Path) : Disk :=
  ((strayConfig output).prepareOutput.exec { disk := strayDisk }).2.disk

/-- Wherever the output directory is made, the second page is found, and it cannot be loaded. -/
theorem refuses_stray {output : Path}
    (hprepare : ((strayConfig output).prepareOutput.exec { disk := strayDisk }).1.toOption =
      some ())
    (hsound : (strayStart output).Sound)
    (hfind : ((strayStart output).find (pathOf ["source".toList])).toOption =
      some (["source".toList], .directory 0))
    (hfile : ((strayStart output).file? ["source".toList, "b.blade".toList]).isSome = true)
    (houtside : (pathOf ["source".toList, "b.blade".toList]).startsWith output = false)
    (hload : ((strayConfig output).loadPage (strayStart output)
      (pathOf ["source".toList, "b.blade".toList])).toOption = none) :
    (strayConfig output).Refuses { disk := strayDisk } := by
  obtain ⟨file, hfile⟩ := Option.isSome_iff_exists.1 hfile
  obtain ⟨error, hfails⟩ := exists_error_of_toOption hload
  have hmem := (mem_files_pathOf hsound (eq_ok_of_toOption hfind)).2
    ⟨["b.blade".toList], file, hfile, rfl, by decide +kernel⟩
  have hsite : pathOf ["source".toList, "b.blade".toList] ∈
      (strayConfig output).siteFiles (strayStart output) :=
    List.mem_filter.2 ⟨hmem, by rw [strayConfig, houtside]; rfl⟩
  exact .unloaded (Prod.ext (eq_ok_of_toOption hprepare) rfl) hsite (by decide +kernel) hfails

/-- A page that is refused while only the output directory is missing. -/
def besideConfig : Config :=
  strayConfig (pathOf ["public".toList])

/-- A page that is not to stay below the output directory, which is the only one that is missing. -/
theorem refused_keeps_files_stray :
    (∃ error, error.isRefusal = true ∧
        (besideConfig.build.exec { disk := strayDisk }).1 = .error error) ∧
      (∀ place, (besideConfig.build.exec { disk := strayDisk }).2.disk.file? place =
        strayDisk.file? place) ∧
      Adds (OnWay [] besideConfig.output) strayDisk
        (besideConfig.build.exec { disk := strayDisk }).2.disk ∧
      besideConfig.AtMostOutput strayDisk (besideConfig.build.exec { disk := strayDisk }).2.disk ∧
      ∀ rest ≠ [], (besideConfig.build.exec { disk := strayDisk }).2.disk.get?
        (["public".toList] ++ rest) = none := by
  have hkeeps := @refused_keeps_files besideConfig rfl .serial { disk := strayDisk }
  have hrefuses : besideConfig.Refuses { disk := strayDisk } := by
    refine refuses_stray ?_ ?_ ?_ ?_ ?_ ?_ <;> decide +kernel
  have happroached : besideConfig.Approached strayDisk := by
    have hfronts : ∀ front ∈ besideConfig.output.steps.inits,
        front.foldl nextPlace [] = strayDisk.placeOf besideConfig.output ∨
          strayDisk.get? (front.foldl nextPlace []) ≠ none := by decide +kernel
    rintro _ ⟨front, hfront, rfl⟩
    exact hfronts front ((List.mem_inits _ _).2 hfront)
  obtain ⟨hfiles, hadds, hatMost, hempty⟩ := hkeeps.2 hrefuses
  exact ⟨hkeeps.1.1 hrefuses, hfiles, hadds, (hatMost (by decide +kernel)).2 (.inr happroached),
    hempty (by decide +kernel) (by decide +kernel) (by decide +kernel)⟩

/-- The same page, with an output directory on a roundabout way. -/
def roundaboutConfig : Config :=
  strayConfig ⟨"/nope/../pub".toList⟩

/-- The build is refused, and it has made a directory that is not the output directory. -/
theorem refused_makes_nope :
    roundaboutConfig.clean = false ∧ roundaboutConfig.Refuses { disk := strayDisk } ∧
      strayDisk.get? ["nope".toList] = none ∧
      (roundaboutConfig.build.exec { disk := strayDisk }).2.disk.IsDir ["nope".toList] ∧
      ¬roundaboutConfig.AtMostOutput strayDisk
        (roundaboutConfig.build.exec { disk := strayDisk }).2.disk := by
  have hrefuses : roundaboutConfig.Refuses { disk := strayDisk } := by
    refine refuses_stray ?_ ?_ ?_ ?_ ?_ ?_ <;> decide +kernel
  have hmade : ((strayDisk.createAll roundaboutConfig.output).toOption.bind
      fun disk => disk.get? ["nope".toList]) = some (.directory 5) := by decide +kernel
  have hnone : strayDisk.get? ["nope".toList] = none := by decide +kernel
  rcases disk_of_refuses rfl hrefuses with ⟨hmissing, -⟩ | hcreate
  · exact absurd hmissing (by decide +kernel)
  · have hnope : (roundaboutConfig.build.exec { disk := strayDisk }).2.disk.get?
        ["nope".toList] = some (.directory 5) := by
      rwa [hcreate] at hmade
    refine ⟨rfl, hrefuses, hnone, ⟨5, hnope⟩, fun hatMost => ?_⟩
    rcases hatMost _ _ hnope with hold | ⟨houtput, -⟩
    · cases hnone.symm.trans hold
    · exact absurd houtput (by decide +kernel)

end Config

end Pagewright
