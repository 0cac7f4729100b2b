import Pagewright.Proofs.Site.Collision
import Pagewright.Proofs.Site.Tasks

/-!
# The stages of a build

A build makes its output directory, reads the pages, looks for collisions and does its tasks, in the
way that a schedule shares them out. It may stop at any stage (`Config.Goes`), and every law about
builds goes back to that: what it takes to succeed (`Config.ends_buildIn_iff`), and that the disk is
left as one of the stages has left it (`Config.leaves_buildIn`).

Making the output directory leaves what lies outside of it as it is (`Config.Prepares`). If it is to
be emptied, then only when it is found: directories that its path leads through are made afterwards
(`Config.exec_prepareOutput`).
-/

namespace Pagewright

open Disk

namespace Config

open Pagewright.Path Work Location

variable {config : Config} {world world' : World} {disk' : Disk} {summary : Summary}

/-! ## Loading the pages -/

/-- Loading a page changes nothing. -/
theorem exec_loadPage (disk : Disk) (config : Config) (path : Path) (world : World) :
    (return (path, ← config.loadPage disk path) : Work BuildError (Path × Page)).exec world =
      ((config.loadPage disk path).map fun page => (path, page), world) := by
  cases hload : config.loadPage disk path <;> rfl

theorem exec_loadPage_iff {disk : Disk} {path : Path} {found : Path × Page} :
    (return (path, ← config.loadPage disk path) : Work BuildError (Path × Page)).exec world =
        (.ok found, world') ↔
      world' = world ∧ found.1 = path ∧ config.loadPage disk path = .ok found.2 := by
  rw [exec_loadPage]
  cases hload : config.loadPage disk path with
  | error e => simp [Except.map]
  | ok page =>
    obtain ⟨path', page'⟩ := found
    simp [Except.map]
    grind

/-- Pages have been loaded when each of them has been, and nothing has changed. -/
theorem exec_loadPages_iff {disk : Disk} {templates : List Path} {pages : List (Path × Page)} :
    (templates.mapM fun path => return (path, ← config.loadPage disk path) :
      Work BuildError (List (Path × Page))).exec world = (.ok pages, world') ↔
      world' = world ∧ pages.map Prod.fst = templates ∧
        ∀ found ∈ pages, config.loadPage disk found.1 = .ok found.2 := by
  induction templates generalizing pages world' with
  | nil =>
    rw [List.mapM_nil, List.map_eq_nil_iff]
    constructor
    · intro h
      cases h
      exact ⟨rfl, rfl, nofun⟩
    · rintro ⟨rfl, rfl, -⟩
      rfl
  | cons path templates ih =>
    rw [List.mapM_cons, exec_bind_eq_ok_iff]
    constructor
    · rintro ⟨⟨_, page⟩, _, hfound, h⟩
      obtain ⟨rfl, rfl, hpage⟩ := exec_loadPage_iff.1 hfound
      obtain ⟨rest, between, hrest, hpure⟩ := exec_bind_eq_ok_iff.1 h
      obtain ⟨rfl, rfl, hloads⟩ := ih.1 hrest
      cases hpure
      exact ⟨rfl, rfl, List.forall_mem_cons.2 ⟨hpage, hloads⟩⟩
    · rintro ⟨rfl, hpages, hloads⟩
      obtain ⟨⟨_, page⟩, rest, rfl, rfl, hrest⟩ := List.map_eq_cons_iff.1 hpages
      obtain ⟨hpage, hloads⟩ := List.forall_mem_cons.1 hloads
      exact ⟨_, _, exec_loadPage_iff.2 ⟨rfl, rfl, hpage⟩,
        exec_bind_eq_ok_iff.2 ⟨rest, _, ih.2 ⟨rfl, hrest, hloads⟩, rfl⟩⟩

/-- Loading pages changes nothing, and when it fails, then with the error of one of them. -/
theorem exec_loadPages {disk : Disk} {templates : List Path}
    {result : Except BuildError (List (Path × Page))}
    (h : (templates.mapM fun path => return (path, ← config.loadPage disk path) :
      Work BuildError (List (Path × Page))).exec world = (result, world')) :
    world' = world ∧ ∀ error, result = .error error →
      ∃ path ∈ templates, config.loadPage disk path = .error error := by
  induction templates generalizing result with
  | nil =>
    cases h
    exact ⟨rfl, nofun⟩
  | cons path templates ih =>
    rw [List.mapM_cons, exec_bind, exec_loadPage] at h
    cases hload : config.loadPage disk path with
    | error cause =>
      rw [hload] at h
      cases h
      refine ⟨rfl, fun error herror => ⟨path, List.mem_cons_self, ?_⟩⟩
      cases herror
      exact hload
    | ok page =>
      rw [hload] at h
      simp only [Except.map, exec_bind] at h
      split at h
      case h_1 hrest =>
        cases h
        exact ⟨(ih hrest).1, nofun⟩
      case h_2 hrest =>
        cases h
        obtain ⟨hworld, hfails⟩ := ih hrest
        refine ⟨hworld, fun error herror => ?_⟩
        cases herror
        obtain ⟨other, hother, hcause⟩ := hfails _ rfl
        exact ⟨other, List.mem_cons_of_mem _ hother, hcause⟩

/-- There is only one way to find the pages, since loading is a function. -/
theorem Finds.unique {disk : Disk} {pages pages' : List (Path × Page)}
    {statics statics' : List Path} (h : config.Finds disk pages statics)
    (h' : config.Finds disk pages' statics') :
    pages = pages' ∧ statics = statics' := by
  have hpages := exec_loadPages_iff.2
    ⟨(rfl : ({ disk } : World) = { disk }), h.templates, h.loads⟩
  have hpages' := exec_loadPages_iff.2
    ⟨(rfl : ({ disk } : World) = { disk }), h'.templates, h'.loads⟩
  cases hpages.symm.trans hpages'
  exact ⟨rfl, h.statics.trans h'.statics.symm⟩

/-- Every template that is found has been loaded. -/
theorem Finds.exists_page {disk : Disk} {pages : List (Path × Page)} {statics : List Path}
    (h : config.Finds disk pages statics) {path : Path} (hmem : path ∈ config.siteFiles disk)
    (htemplate : isTemplate path = true) : ∃ page, config.loadPage disk path = .ok page := by
  have hpath := h.templates ▸ List.mem_filter.2 ⟨hmem, htemplate⟩
  obtain ⟨found, hfound, rfl⟩ := List.mem_map.1 hpath
  exact ⟨found.2, h.loads found hfound⟩

/-! ## How a build can go -/

/-- Telling what a build has done changes neither its result nor the disk. -/
theorem exec_logSummary (work : Work BuildError Summary) (world : World) :
    ((do let summary ← work; logSummary summary; return summary).exec world).1 =
        (work.exec world).1 ∧
      ((do let summary ← work; logSummary summary; return summary).exec world).2.disk =
        (work.exec world).2.disk := by
  rw [exec_bind]
  cases work.exec world with
  | mk result world' =>
    cases result with
    | error error => exact ⟨rfl, rfl⟩
    | ok summary =>
      simp only [logSummary]
      split <;> exact ⟨rfl, rfl⟩

/-- The ways that a build can go: how far it gets, what comes of it and the world that it leaves. -/
inductive Goes (schedule : Schedule) (config : Config) (world : World) :
    Except BuildError Summary → World → Prop
  | missing (source : world.disk.isDirectory config.source = false) :
      Goes schedule config world (.error (.sourceMissing config.source)) world
  | unprepared {world' : World} {error : BuildError}
      (source : world.disk.isDirectory config.source = true)
      (prepares : config.prepareOutput.exec world = (.error error, world')) :
      Goes schedule config world (.error error) world'
  | unloaded {world' : World} {path : Path} {error : BuildError}
      (prepares : config.prepareOutput.exec world = (.ok (), world'))
      (mem : path ∈ config.siteFiles world'.disk) (template : isTemplate path = true)
      (fails : config.loadPage world'.disk path = .error error) :
      Goes schedule config world (.error error) world'
  | collides {world' : World} {pages : List (Path × Page)} {statics : List Path}
      {first second output : Path} (prepares : config.prepareOutput.exec world = (.ok (), world'))
      (finds : config.Finds world'.disk pages statics)
      (refused : collision? [] (config.entries pages statics) = some (first, second, output)) :
      Goes schedule config world (.error (.collision first second output)) world'
  | ran {world' world'' : World} {pages : List (Path × Page)} {statics : List Path}
      {result : Except BuildError Summary}
      (source : world.disk.isDirectory config.source = true)
      (prepares : config.prepareOutput.exec world = (.ok (), world'))
      (finds : config.Finds world'.disk pages statics)
      (accepted : collision? [] (config.entries pages statics) = none)
      (result_eq : result = ((Task.runAll schedule config config.compiler
        (config.modified? world'.disk) (schedule.order (tasks pages statics)) {}).exec world').1)
      (disk_eq : world''.disk = ((Task.runAll schedule config config.compiler
        (config.modified? world'.disk) (schedule.order (tasks pages statics)) {}).exec
          world').2.disk) :
      Goes schedule config world result world''

/-- A build goes in one of these ways. -/
theorem goes_buildIn (schedule : Schedule) (config : Config) (world : World) :
    config.Goes schedule world ((config.buildIn schedule).exec world).1
      ((config.buildIn schedule).exec world).2 := by
  rw [buildIn, exec_disk_bind]
  cases hsource : world.disk.isDirectory config.source with
  | false => exact .missing hsource
  | true =>
    rw [Bool.not_true, if_neg Bool.false_ne_true, exec_bind]
    cases hprepare : config.prepareOutput.exec world with
    | mk result world' =>
      cases result with
      | error error => exact .unprepared hsource hprepare
      | ok _ =>
        dsimp only
        rw [exec_disk_bind, List.partition_eq_filter_filter, exec_bind]
        cases hload : (List.mapM _ _ : Work BuildError (List (Path × Page))).exec world' with
        | mk loaded world'' =>
          obtain ⟨rfl, herrors⟩ := exec_loadPages hload
          cases loaded with
          | error error =>
            obtain ⟨path, hpath, hfails⟩ := herrors error rfl
            obtain ⟨hmem, htemplate⟩ := List.mem_filter.1 hpath
            exact .unloaded hprepare hmem htemplate hfails
          | ok pages =>
            obtain ⟨-, htemplates, hloads⟩ := exec_loadPages_iff.1 hload
            have hfinds : config.Finds world''.disk pages _ := ⟨htemplates, hloads, rfl⟩
            dsimp only
            split
            case h_1 first second output hsome => exact .collides hprepare hfinds hsome
            case h_2 hnone =>
              obtain ⟨hresult, hdisk⟩ := exec_logSummary
                (Task.runAll schedule config config.compiler (config.modified? world''.disk)
                  (schedule.order (tasks pages _)) {}) world''
              exact .ran hsource hprepare hfinds hnone hresult hdisk

/-- A build checks that the source is there, makes the output directory, reads the pages, looks for
collisions and does the tasks. -/
theorem ends_buildIn_iff {schedule : Schedule} :
    (config.buildIn schedule).Ends world summary disk' ↔
      world.disk.isDirectory config.source = true ∧
      ∃ world' pages statics, config.prepareOutput.exec world = (.ok (), world') ∧
        config.Finds world'.disk pages statics ∧
        collision? [] (config.entries pages statics) = none ∧
        (Task.runAll schedule config config.compiler (config.modified? world'.disk)
          (schedule.order (tasks pages statics)) {}).Ends world' summary disk' := by
  have hgoes := goes_buildIn schedule config world
  constructor
  · rintro ⟨world', hexec, rfl⟩
    rw [hexec] at hgoes
    cases hgoes with
    | ran source prepares finds accepted result_eq disk_eq =>
      exact ⟨source, _, _, _, prepares, finds, accepted,
        ends_of_toOption (by rw [← result_eq]; rfl) disk_eq.symm⟩
  · rintro ⟨hsource, start, pages, statics, hprepare, hfinds, hnone, between, hrun, rfl⟩
    generalize hexec : (config.buildIn schedule).exec world = outcome at hgoes
    obtain ⟨result, world'⟩ := outcome
    -- Each stage is a function, so the build cannot have gone another way.
    cases hgoes with
    | missing source => cases hsource.symm.trans source
    | unprepared _ prepares => cases hprepare.symm.trans prepares
    | unloaded prepares mem template fails =>
      cases hprepare.symm.trans prepares
      obtain ⟨page, hpage⟩ := hfinds.exists_page mem template
      cases hpage.symm.trans fails
    | collides prepares finds refused =>
      cases hprepare.symm.trans prepares
      obtain ⟨rfl, rfl⟩ := hfinds.unique finds
      cases hnone.symm.trans refused
    | ran _ prepares finds _ result_eq disk_eq =>
      cases hprepare.symm.trans prepares
      obtain ⟨rfl, rfl⟩ := hfinds.unique finds
      rw [hrun] at result_eq disk_eq
      exact ⟨world', hexec.trans (Prod.ext result_eq rfl), disk_eq⟩

/-! ## The output directory -/

/-- The disk without the output directory, if it is to be emptied and is found. -/
def cleared (disk : Disk) (config : Config) : Except Disk.Error Disk :=
  if config.clean && disk.holds config.output then disk.removeAll config.output else .ok disk

/-- The output directory is cleared if it is to be, and then made. -/
theorem exec_prepareOutput (config : Config) (world : World) :
    config.prepareOutput.exec world =
      match config.cleared world.disk with
      | .ok cleared =>
        match cleared.createAll config.output with
        | .ok disk => (.ok (), { world with disk })
        | .error error =>
          (.error (.createOutput config.output error), { world with disk := cleared })
      | .error error => (.error (.clearOutput config.output error), world) := by
  unfold prepareOutput cleared
  rw [exec_disk_bind]
  cases config.clean && world.disk.holds config.output with
  | false => exact exec_change _ _ _
  | true =>
    simp only [if_true]
    rw [exec_bind, exec_change]
    cases hremove : world.disk.removeAll config.output with
    | error error => rfl
    | ok cleared => exact exec_change _ _ _

/-- It has been prepared when both have succeeded. -/
theorem exec_prepareOutput_eq_ok_iff :
    config.prepareOutput.exec world = (.ok (), world') ↔
      ∃ cleared disk, config.cleared world.disk = .ok cleared ∧
        cleared.createAll config.output = .ok disk ∧ world' = { world with disk } := by
  rw [exec_prepareOutput]
  cases hcleared : config.cleared world.disk with
  | error error => simp
  | ok cleared => cases hcreate : cleared.createAll config.output <;> simp [hcreate, eq_comm]

/-- Emptying the output directory removes what lies below it, if it is found. -/
theorem cleared_eq_ok (habsolute : config.output.isAbsolute = true) {disk cleared : Disk}
    (h : config.cleared disk = .ok cleared) :
    config.clean = true ∧ disk.holds config.output = true ∧
        cleared = disk.erase config.output.place ∨
      (config.clean && disk.holds config.output) = false ∧ cleared = disk := by
  unfold Config.cleared at h
  cases hfound : config.clean && disk.holds config.output with
  | false =>
    rw [hfound] at h
    cases h
    exact .inr ⟨rfl, rfl⟩
  | true =>
    rw [hfound, if_pos rfl] at h
    obtain ⟨hclean, hholds⟩ := (Bool.and_eq_true _ _).mp hfound
    obtain ⟨⟨place, entry⟩, hfind, hremove⟩ := bind_eq_ok_iff.1 h
    obtain rfl := eq_place_of_resolve habsolute (find_eq_ok_iff.1 hfind).1
    cases entry with
    | file file => cases hremove
    | directory modified =>
      cases hremove
      exact .inl ⟨hclean, hholds, rfl⟩

/-- Clearing the output directory keeps a disk sound. -/
theorem sound_of_cleared (habsolute : config.output.isAbsolute = true) {disk cleared : Disk}
    (h : config.cleared disk = .ok cleared) (hsound : disk.Sound) : cleared.Sound := by
  rcases cleared_eq_ok habsolute h with ⟨-, -, rfl⟩ | ⟨-, rfl⟩
  · exact hsound.erase _
  · exact hsound

/-- Clearing the output directory leaves the files outside of it alone. -/
theorem file?_of_cleared (habsolute : config.output.isAbsolute = true) {disk cleared : Disk}
    (h : config.cleared disk = .ok cleared) {place : Place}
    (hplace : ¬List.IsPrefix config.output.place place) :
    cleared.file? place = disk.file? place := by
  rcases cleared_eq_ok habsolute h with ⟨-, -, rfl⟩ | ⟨-, rfl⟩
  · rw [file?_erase, if_neg hplace]
  · rfl

/-- Clearing the output directory leaves the directories outside of it alone. -/
theorem isDir_of_cleared (habsolute : config.output.isAbsolute = true) {disk cleared : Disk}
    (h : config.cleared disk = .ok cleared) {place : Place}
    (hplace : ¬List.IsPrefix config.output.place place) (hdir : disk.IsDir place) :
    cleared.IsDir place := by
  rcases cleared_eq_ok habsolute h with ⟨-, -, rfl⟩ | ⟨-, rfl⟩
  · exact isDir_erase hplace hdir
  · exact hdir

/-- Nothing is cleared unless it is to be. -/
theorem eq_of_cleared (hclean : config.clean = false) {disk cleared : Disk}
    (h : config.cleared disk = .ok cleared) : cleared = disk := by
  rw [Config.cleared, hclean] at h
  exact (Except.ok.inj h).symm

/-- The output directory has been made, and what lies outside of it is as before. -/
structure Prepares (config : Config) (disk start : Disk) : Prop where
  opens : start.Opens config.output
  sound : disk.Sound → start.Sound
  file? : ∀ place, ¬List.IsPrefix config.output.place place → start.file? place = disk.file? place
  isDir : ∀ place, ¬List.IsPrefix config.output.place place → disk.IsDir place → start.IsDir place
  adds : config.clean = false → Adds (fun _ => True) disk start

/-- A disk on which the output directory has been made is prepared. -/
theorem prepares_of_exec (habsolute : config.output.isAbsolute = true)
    (h : config.prepareOutput.exec world = (.ok (), world')) :
    config.Prepares world.disk world'.disk := by
  obtain ⟨cleared, disk, hcleared, hcreate, rfl⟩ := exec_prepareOutput_eq_ok_iff.1 h
  obtain ⟨hadds, hopens⟩ := adds_of_createAll habsolute hcreate
  refine ⟨hopens, fun hsound => hadds.sound (sound_of_cleared habsolute hcleared hsound),
    fun place hplace => ?_, fun place hplace hdir => ?_, fun hclean => ?_⟩
  · exact (hadds.file? place).trans (file?_of_cleared habsolute hcleared hplace)
  · exact hadds.isDir (isDir_of_cleared habsolute hcleared hplace hdir)
  · exact eq_of_cleared hclean hcleared ▸ hadds

/-- An output directory has no files when it has been made, if it was found and emptied or had none
before. -/
theorem file?_of_clear (habsolute : config.output.isAbsolute = true)
    (hclear : config.clean = true ∧ world.disk.holds config.output = true ∨
      ∀ place, List.IsPrefix config.output.place place → world.disk.file? place = none)
    (h : config.prepareOutput.exec world = (.ok (), world')) {place : Place}
    (hplace : List.IsPrefix config.output.place place) : world'.disk.file? place = none := by
  obtain ⟨cleared, disk, hcleared, hcreate, rfl⟩ := exec_prepareOutput_eq_ok_iff.1 h
  refine ((adds_of_createAll habsolute hcreate).1.file? place).trans ?_
  rcases cleared_eq_ok habsolute hcleared with ⟨-, -, rfl⟩ | ⟨hfound, rfl⟩
  · rw [file?_erase, if_pos hplace]
  · exact hclear.resolve_left (by simpa using hfound) place hplace

/-! ## What a build leaves -/

/-- How far a build gets, and the disk that it leaves. -/
inductive Leaves (schedule : Schedule) (config : Config) (world : World) : Disk → Prop
  | unstarted : Leaves schedule config world world.disk
  | cleared {cleared : Disk} (clears : config.cleared world.disk = .ok cleared) :
      Leaves schedule config world cleared
  | prepared {world' : World} (prepares : config.prepareOutput.exec world = (.ok (), world')) :
      Leaves schedule config world world'.disk
  | ran {world' : World} {pages : List (Path × Page)} {statics : List Path}
      (source : world.disk.isDirectory config.source = true)
      (prepares : config.prepareOutput.exec world = (.ok (), world'))
      (finds : config.Finds world'.disk pages statics)
      (accepted : collision? [] (config.entries pages statics) = none) :
      Leaves schedule config world
        ((Task.runAll schedule config config.compiler (config.modified? world'.disk)
          (schedule.order (tasks pages statics)) {}).exec world').2.disk

variable {schedule : Schedule}

/-- A build that cannot make its output directory leaves what it has cleared. -/
theorem leaves_of_prepareOutput {error : BuildError}
    (h : config.prepareOutput.exec world = (.error error, world')) :
    config.Leaves schedule world world'.disk := by
  rw [exec_prepareOutput] at h
  cases hcleared : config.cleared world.disk with
  | error error =>
    rw [hcleared] at h
    cases h
    exact .unstarted
  | ok cleared =>
    rw [hcleared] at h
    cases hcreate : cleared.createAll config.output with
    | error error =>
      simp only [hcreate] at h
      cases h
      exact .cleared hcleared
    | ok disk =>
      simp only [hcreate] at h
      cases h

/-- Whether a build succeeds or not, what it leaves is what one of its stages leaves. -/
theorem leaves_buildIn (schedule : Schedule) (config : Config) (world : World) :
    config.Leaves schedule world ((config.buildIn schedule).exec world).2.disk := by
  have hgoes := goes_buildIn schedule config world
  generalize (config.buildIn schedule).exec world = outcome at hgoes ⊢
  obtain ⟨result, world'⟩ := outcome
  cases hgoes with
  | missing source => exact .unstarted
  | unprepared source prepares => exact leaves_of_prepareOutput prepares
  | unloaded prepares => exact .prepared prepares
  | collides prepares => exact .prepared prepares
  | ran source prepares finds accepted _ disk_eq =>
    rw [disk_eq]
    exact .ran source prepares finds accepted

/-- Whatever a build leaves is sound. -/
theorem Leaves.sound {disk' : Disk} (habsolute : config.output.isAbsolute = true)
    (h : config.Leaves schedule world disk') (hsound : world.disk.Sound) : disk'.Sound := by
  cases h with
  | unstarted => exact hsound
  | cleared clears => exact sound_of_cleared habsolute clears hsound
  | prepared prepares => exact (prepares_of_exec habsolute prepares).sound hsound
  | ran source prepares finds accepted =>
    exact Task.runAll_induction (fun _ _ _ _ _ hdisk htries =>
      htries.sound (isAbsolute_join habsolute _) hdisk)
      ((prepares_of_exec habsolute prepares).sound hsound)

end Config

end Pagewright
