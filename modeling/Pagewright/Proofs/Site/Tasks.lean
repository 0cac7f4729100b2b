import Pagewright.Proofs.Disk.Walk
import Pagewright.Proofs.Site.Work
import Pagewright.Site.Build

/-!
# Tasks

A task finds that there is nothing to do, or it makes a directory and stores its file there. Either
of the two may fail (`Task.Tries`), and what has been done by then stays. A task that works on a
file outside of the output directory and writes below it (`Task.Sited`) stores its file there and
changes nothing else (`Task.Effect`), whatever the tasks before it have done.

From that it follows what becomes of a list of tasks. Whatever every task keeps is kept by all of
them, also when one fails (`Task.runAll_induction`). When all of them have been done, each has its
output in place (`Task.done_of_runAll`), and in a build that skips nothing the order of the tasks
does not matter (`Task.exists_runAll_of_perm`).
-/

namespace Pagewright

open Disk

/-- Every task is done in its turn, and nothing else is. -/
theorem Schedule.mem_order_iff (schedule : Schedule) {task : Task} {tasks : List Task} :
    task ∈ schedule.order tasks ↔ task ∈ tasks :=
  (schedule.perm tasks).mem_iff

/-! ## Trying to store a file -/

namespace Config

open Work

variable {world world' : World}

/-- Making the parents of a file gives a disk with them, or fails. -/
theorem exec_createParent (target : Path) (world : World) :
    ∃ failure : Disk.Error → BuildError, (createParent target).exec world =
      match world.disk.parented target with
      | .ok disk => (.ok (), { world with disk })
      | .error error => (.error (failure error), world) := by
  unfold createParent parented
  cases target.parent? with
  | none => exact ⟨fun _ => .failed, rfl⟩
  | some parent => exact ⟨_, exec_change _ _ _⟩

/-- Make the directory of a path and store a file there. -/
def storing (target : Path) (store : Disk → Except Disk.Error Disk)
    (failure : Disk.Error → BuildError) : Work BuildError Bool := do
  createParent target
  Work.change store failure
  return true

/-- Storing a file fails without a change, or with the parents made, or has stored the file. -/
theorem exec_storing {target : Path} {store : Disk → Except Disk.Error Disk}
    {failure : Disk.Error → BuildError} {result : Except BuildError Bool}
    (h : (storing target store failure).exec world = (result, world')) :
    result.toOption = none ∧ world'.disk = world.disk ∨
      ∃ between, world.disk.parented target = .ok between ∧
        (result.toOption = none ∧ world'.disk = between ∨
          result.toOption = some true ∧ store between = .ok world'.disk) := by
  obtain ⟨refusal, hparent⟩ := exec_createParent target world
  unfold storing at h
  rw [exec_bind, hparent] at h
  cases hparented : world.disk.parented target with
  | error error =>
    rw [hparented] at h
    cases h
    exact .inl ⟨rfl, rfl⟩
  | ok between =>
    simp only [hparented, exec_bind, exec_change] at h
    refine .inr ⟨between, rfl, ?_⟩
    cases hstore : store between with
    | error error =>
      rw [hstore] at h
      cases h
      exact .inl ⟨rfl, rfl⟩
    | ok disk =>
      rw [hstore] at h
      cases h
      exact .inr ⟨rfl, rfl⟩

/-- Storing succeeds when the parents can be made and then the file can be stored. -/
theorem ends_storing {target : Path} {store : Disk → Except Disk.Error Disk}
    {failure : Disk.Error → BuildError} {between disk' : Disk}
    (hparented : world.disk.parented target = .ok between) (hstore : store between = .ok disk') :
    (storing target store failure).Ends world true disk' := by
  obtain ⟨refusal, hparent⟩ := exec_createParent target world
  rw [hparented] at hparent
  unfold storing
  exact ends_bind_iff.2 ⟨(), _, hparent, ends_change_bind_iff.2
    ⟨disk', hstore, ends_pure_iff.2 ⟨rfl, rfl⟩⟩⟩

end Config

/-! ## Single tasks -/

namespace Task

open Pagewright.Path Work

/-- The file that a task works on. -/
def path : Task → Path
  | .compile path _ => path
  | .copy path => path

/-- Where a task writes, counted from the output directory. -/
def output (config : Config) : Task → Path
  | .compile _ page => page.output
  | .copy path => (path.relativeTo? config.source).getD path

/-- Where a task writes. -/
def target (config : Config) (task : Task) : Path :=
  config.output.join (task.output config)

/-- What a task depends on besides its file. Only pages depend on anything else. -/
def needs (dependencies : Option Int) : Task → Option Int
  | .compile .. => dependencies
  | .copy _ => none

/-- Whether the output of a task is newer than what it comes from. -/
def isCurrent (config : Config) (dependencies : Option Int) (task : Task) (disk : Disk) : Bool :=
  disk.isUpToDate task.path (task.target config) (task.needs dependencies)

/-- Store the file of a task in a directory that has been made since the disk was `disk`. -/
def store (config : Config) (compiler : Compiler) (disk : Disk) :
    Task → Disk → Except Disk.Error Disk
  | .compile path page => fun between => between.write (config.output.join page.output)
      (page.render compiler (disk.seconds path)).text.utf8
  | .copy path => fun between =>
      between.copy path (config.output.join ((path.relativeTo? config.source).getD path))

/-- What can come of trying to do a task: whether it has written anything, unless it has failed, and
the disk afterwards. -/
inductive Tries (config : Config) (compiler : Compiler) (dependencies : Option Int) (task : Task)
    (disk : Disk) : Option Bool → Disk → Prop
  | skips (clean : config.clean = false)
      (current : task.isCurrent config dependencies disk = true) :
      Tries config compiler dependencies task disk (some false) disk
  | fails : Tries config compiler dependencies task disk none disk
  | stops {between : Disk} (parented : disk.parented (task.target config) = .ok between) :
      Tries config compiler dependencies task disk none between
  | stores {between disk' : Disk} (parented : disk.parented (task.target config) = .ok between)
      (stored : task.store config compiler disk between = .ok disk') :
      Tries config compiler dependencies task disk (some true) disk'

section Tries

variable {config : Config} {compiler : Compiler} {dependencies : Option Int} {task : Task}
  {world world' : World} {result : Except BuildError Bool}

/-- To store the file of a task is to try the task. -/
theorem tries_of_storing (task : Task) {disk : Disk} {failure : Disk.Error → BuildError}
    (h : (Config.storing (task.target config) (task.store config compiler disk) failure).exec
      world = (result, world')) (hdisk : world.disk = disk) :
    task.Tries config compiler dependencies disk result.toOption world'.disk := by
  subst hdisk
  rcases Config.exec_storing h with ⟨hnone, hdisk⟩ | ⟨between, hparented, hrest⟩
  · rw [hnone, hdisk]
    exact .fails
  · rcases hrest with ⟨hnone, hdisk⟩ | ⟨htrue, hstore⟩
    · rw [hnone, hdisk]
      exact .stops hparented
    · rw [htrue]
      exact .stores hparented hstore

/-- Writing a page tries its task. -/
theorem tries_of_writePage {path : Path} {page : Page}
    (h : (config.writePage compiler dependencies config.clean path page).exec world =
      (result, world')) :
    (Task.compile path page).Tries config compiler dependencies world.disk result.toOption
      world'.disk := by
  unfold Config.writePage at h
  rw [exec_disk_bind] at h
  cases hskip : !config.clean &&
    world.disk.isUpToDate path (config.output.join page.output) dependencies with
  | true =>
    rw [hskip, if_pos rfl] at h
    cases h
    rw [Bool.and_eq_true, Bool.not_eq_true'] at hskip
    exact .skips hskip.1 hskip.2
  | false =>
    rw [hskip, if_neg Bool.false_ne_true] at h
    simp only at h
    split at h <;> split at h
    · rw [exec_log_bind, exec_log_bind] at h
      exact tries_of_storing (.compile path page) h rfl
    · rw [exec_log_bind] at h
      exact tries_of_storing (.compile path page) h rfl
    · rw [exec_log_bind] at h
      exact tries_of_storing (.compile path page) h rfl
    · exact tries_of_storing (.compile path page) h rfl

/-- Copying a file tries its task. -/
theorem tries_of_copyStatic {path : Path}
    (h : (config.copyStatic config.clean path).exec world = (result, world')) :
    (Task.copy path).Tries config compiler dependencies world.disk result.toOption
      world'.disk := by
  unfold Config.copyStatic Config.sourcePath at h
  cases hrelative : path.relativeTo? config.source with
  | none =>
    rw [hrelative] at h
    cases h
    exact .fails
  | some relative =>
    have htarget : target config (.copy path) = config.output.join relative := by
      rw [target, output, hrelative, Option.getD_some]
    rw [hrelative, exec_lift_bind, exec_disk_bind] at h
    cases hskip : !config.clean &&
      world.disk.isUpToDate path (config.output.join relative) none with
    | true =>
      rw [hskip, if_pos rfl] at h
      cases h
      rw [Bool.and_eq_true, Bool.not_eq_true', ← htarget] at hskip
      exact .skips hskip.1 hskip.2
    | false =>
      rw [hskip, if_neg Bool.false_ne_true] at h
      simp only [← htarget] at h
      split at h
      · rw [exec_log_bind] at h
        exact tries_of_storing (.copy path) h rfl
      · exact tries_of_storing (.copy path) h rfl

/-- Whatever a task does is one of the ways to try it. -/
theorem tries_of_exec (h : (task.run config compiler dependencies).exec world = (result, world')) :
    task.Tries config compiler dependencies world.disk result.toOption world'.disk := by
  cases task with
  | compile path page => exact tries_of_writePage h
  | copy path => exact tries_of_copyStatic h

/-- Storing the file of a task comes to writing its target once or more. -/
theorem store_induction {P : Disk → Prop} {disk between disk' : Disk}
    (hstep : ∀ before bytes after, P before →
      before.write (task.target config) bytes = .ok after → P after)
    (hbetween : P between) (h : task.store config compiler disk between = .ok disk') : P disk' := by
  cases task with
  | compile path page => exact hstep _ _ _ hbetween h
  | copy path =>
    obtain ⟨emptied, bytes, hempty, hwrite⟩ := exists_write_of_copy h
    exact hstep _ _ _ (hstep _ _ _ hbetween hempty) hwrite

section Kept

variable {disk disk' : Disk} {written : Option Bool}
  (habsolute : (task.target config).isAbsolute = true)
  (h : task.Tries config compiler dependencies disk written disk')

include habsolute h

/-- Trying a task keeps a disk sound. -/
theorem Tries.sound (hsound : disk.Sound) : disk'.Sound := by
  cases h with
  | skips => exact hsound
  | fails => exact hsound
  | stops parented => exact (adds_of_parented habsolute parented).sound hsound
  | stores parented stored =>
    exact store_induction (fun _ _ _ hbefore hwrite => hbefore.write habsolute hwrite)
      ((adds_of_parented habsolute parented).sound hsound) stored

/-- No directory goes when a task is tried. -/
theorem Tries.isDir {place : Place} (hdir : disk.IsDir place) : disk'.IsDir place := by
  cases h with
  | skips => exact hdir
  | fails => exact hdir
  | stops parented => exact (adds_of_parented habsolute parented).isDir hdir
  | stores parented stored =>
    exact store_induction (P := fun disk => disk.IsDir place)
      (fun _ _ _ hbefore hwrite => isDir_write hwrite hbefore)
      ((adds_of_parented habsolute parented).isDir hdir) stored

/-- A task changes no file but its target, and no directory. -/
theorem Tries.file? {place : Place}
    (hplace : place ≠ (task.target config).place ∨ disk.IsDir place) :
    disk'.file? place = disk.file? place := by
  cases h with
  | skips => rfl
  | fails => rfl
  | stops parented => exact (adds_of_parented habsolute parented).file? place
  | stores parented stored =>
    have hadds := adds_of_parented habsolute parented
    refine (store_induction (P := fun after => after.file? place = disk.file? place ∧
      (place ≠ (task.target config).place ∨ after.IsDir place)) ?_ ?_ stored).1
    · rintro before bytes after ⟨hfile, hbefore⟩ hwrite
      exact ⟨(file?_write habsolute hwrite hbefore).trans hfile,
      hbefore.imp_right (isDir_write hwrite)⟩
    · exact ⟨hadds.file? place, hplace.imp_right hadds.isDir⟩

end Kept

/-- A task can be done when the parents can be made and its file can be stored. -/
theorem ends_of_storing (task : Task) {disk between disk' : Disk}
    {failure : Disk.Error → BuildError}
    (hdisk : world.disk = disk) (hparented : disk.parented (task.target config) = .ok between)
    (hstore : task.store config compiler disk between = .ok disk') :
    (Config.storing (task.target config) (task.store config compiler disk) failure).Ends world true
      disk' :=
  Config.ends_storing (hdisk ▸ hparented) hstore

/-- In a build that skips nothing, a task is done when its file can be stored. -/
theorem ends_run_of_store {between disk' : Disk} (hclean : config.clean = true)
    (hrelative : ∀ path, task = .copy path → (path.relativeTo? config.source).isSome = true)
    (hparented : world.disk.parented (task.target config) = .ok between)
    (hstore : task.store config compiler world.disk between = .ok disk') :
    (task.run config compiler dependencies).Ends world true disk' := by
  cases task with
  | compile path page =>
    rw [run, hclean]
    unfold Config.writePage
    rw [ends_disk_bind_iff]
    simp only [Bool.not_true, Bool.false_and, Bool.false_eq_true, if_false]
    split <;> split
    · rw [ends_log_bind_iff, ends_log_bind_iff]
      exact ends_of_storing (.compile path page) rfl hparented hstore
    · rw [ends_log_bind_iff]
      exact ends_of_storing (.compile path page) rfl hparented hstore
    · rw [ends_log_bind_iff]
      exact ends_of_storing (.compile path page) rfl hparented hstore
    · exact ends_of_storing (.compile path page) rfl hparented hstore
  | copy path =>
    obtain ⟨relative, hsome⟩ := Option.isSome_iff_exists.1 (hrelative path rfl)
    have htarget : config.output.join relative = target config (.copy path) := by
      rw [target, output, hsome, Option.getD_some]
    rw [run, hclean]
    unfold Config.copyStatic Config.sourcePath
    rw [hsome, ends_lift_bind_iff]
    refine ⟨relative, rfl, ?_⟩
    simp only [Bool.not_true, Bool.false_and, Bool.false_eq_true, if_false, htarget]
    rw [ends_disk_bind_iff]
    split
    · rw [ends_log_bind_iff]
      exact ends_of_storing (.copy path) rfl hparented hstore
    · exact ends_of_storing (.copy path) rfl hparented hstore

end Tries

end Task

/-! ## Tasks below the output directory -/

namespace Disk

/-- A file that can be reached as before has the same time. -/
theorem Reaches.modified?_eq {disk disk' : Disk} {place : Place} {file : File}
    (h : disk.Reaches place file) (h' : disk'.Reaches place file)
    (hnames : ∀ name ∈ place, IsName name) :
    disk'.modified? (pathOf place) = disk.modified? (pathOf place) := by
  unfold modified?
  by_cases haskable : Askable place
  · rw [(h.find_iff hnames).2 ⟨haskable, rfl⟩, (h'.find_iff hnames).2 ⟨haskable, rfl⟩]
  · cases hfind : disk.find (pathOf place) with
    | ok found => exact absurd ((h.find_iff hnames).1 hfind).1 haskable
    | error e =>
      cases hfind' : disk'.find (pathOf place) with
      | ok found => exact absurd ((h'.find_iff hnames).1 hfind').1 haskable
      | error e' => rfl

end Disk

/-- The output directory of a configuration is there and is not the root. -/
structure Config.Ready (config : Config) (start : Disk) : Prop where
  isAbsolute : config.output.isAbsolute = true
  steps_ne_nil : config.output.steps ≠ []
  opens : start.Opens config.output

namespace Task

open Pagewright.Path Work

/-- The names that lead from the output directory to the file that a task writes. -/
def names (config : Config) (task : Task) : Place :=
  (task.output config).place

/-- The place of the file that a task writes. -/
def targetPlace (config : Config) (task : Task) : Place :=
  config.output.place ++ task.names config

/-- What a task writes, going by the disk at the start. -/
def bytes (start : Disk) (config : Config) : Task → List UInt8
  | .compile path page => (page.render config.compiler (start.seconds path)).text.utf8
  | .copy path => (start.file? path.place).elim [] File.bytes

/-- No name and no path that a task needs is too long. -/
structure Able (config : Config) (task : Task) : Prop where
  fits : (task.target config).Fits
  size_le : ∀ name ∈ task.names config, name.byteSize ≤ maxName
  askable : ∀ path, task = .copy path → Askable path.place

/-- A task works on a file that lies outside of the output directory, and writes below it. -/
structure Sited (config : Config) (start : Disk) (place : Place) (file : File) (task : Task) :
    Prop where
  path_eq : task.path = pathOf place
  reaches : start.Reaches place file
  isName : ∀ name ∈ place, IsName name
  outside : ¬List.IsPrefix config.output.place place
  tight : (task.output config).Tight
  components : (task.output config).components = (task.names config).map .normal

/-- What a task does: nothing when its output is newer than its file, nothing but making directories
when it fails, and otherwise it writes its file. -/
inductive Effect (config : Config) (dependencies : Option Int) (start : Disk) (task : Task)
    (disk : Disk) : Option Bool → Disk → Prop
  | skips (clean : config.clean = false)
      (current : task.isCurrent config dependencies disk = true) :
      Effect config dependencies start task disk (some false) disk
  | fails {disk' : Disk} (adds : Adds (fun _ => True) disk disk') :
      Effect config dependencies start task disk none disk'
  | writes {disk' : Disk} (able : task.Able config)
      (free : disk.Free config.output.place (task.names config))
      (puts : Puts config.output.place (task.names config) (task.bytes start config) disk disk') :
      Effect config dependencies start task disk (some true) disk'

section Sited

variable {config : Config} {start disk disk' : Disk} {place : Place} {file : File} {task : Task}
  {dependencies : Option Int} {result : Option Bool}

theorem Sited.isAbsolute (h : task.Sited config start place file) :
    (task.output config).isAbsolute = false := by
  rw [← Bool.not_eq_true, ← lead_eq_root_iff, (lead_steps_of_components h.components).1]
  simp

/-- The output of a task is a path of names. -/
theorem Sited.steps (h : task.Sited config start place file) :
    (task.output config).steps = (task.names config).map .normal :=
  (lead_steps_of_components h.components).2

/-- The target of a task is an absolute path below the output directory. -/
theorem Sited.target (hready : config.Ready start) (h : task.Sited config start place file) :
    (task.target config).isAbsolute = true ∧ (task.target config).Tight ∧
      (task.target config).steps = config.output.steps ++ (task.names config).map .normal := by
  refine ⟨isAbsolute_join hready.isAbsolute _, tight_join _ h.isAbsolute h.tight, ?_⟩
  rw [Task.target, steps_join _ h.isAbsolute, h.steps]

/-- The output of a task has a last name. -/
theorem Sited.exists_names (h : task.Sited config start place file) :
    ∃ dirs name, task.names config = dirs ++ [name] := by
  have hne : task.names config ≠ [] := by
    intro hnil
    have hsteps := h.steps
    rw [hnil] at hsteps
    exact h.tight.steps_ne_nil hsteps
  exact (List.eq_nil_or_concat' _).resolve_left hne

/-- A file that is copied lies below the source directory: the rest of its path would otherwise
start at the root. -/
theorem Sited.relativeTo? (h : task.Sited config start place file) :
    ∀ path, task = .copy path → (path.relativeTo? config.source).isSome = true := by
  rintro path rfl
  cases hrelative : path.relativeTo? config.source with
  | some relative => rfl
  | none =>
    have habsolute := h.isAbsolute
    rw [output, hrelative, Option.getD_none, show path = pathOf place from h.path_eq] at habsolute
    cases habsolute

/-- No task writes the file that it is for. -/
theorem Sited.other (h : task.Sited config start place file) : place ≠ task.targetPlace config :=
  fun heq => h.outside (heq ▸ List.prefix_append _ _)

/-- As long as nothing outside of the output directory has changed, a task writes what it would have
written at the start. -/
theorem Sited.effect (hready : config.Ready start) (h : task.Sited config start place file)
    (hkept : Kept config.output.place start disk)
    (htries : task.Tries config config.compiler dependencies disk result disk') :
    task.Effect config dependencies start disk result disk' := by
  obtain ⟨habsolute, htight, hsteps⟩ := h.target hready
  have hreaches := hkept.reaches h.reaches h.outside
  cases htries with
  | skips clean current => exact .skips clean current
  | fails => exact .fails (Adds.refl _ _)
  | stops parented => exact .fails (adds_of_parented habsolute parented)
  | stores parented stored =>
    obtain ⟨dirs, name, hnames⟩ := h.exists_names
    rw [hnames] at hsteps
    have hopens := hready.opens.mono hkept.isDir
    cases task with
    | compile path page =>
      obtain rfl : path = pathOf place := h.path_eq
      have hseconds : disk.seconds (pathOf place) = start.seconds (pathOf place) := by
        rw [seconds, seconds, h.reaches.modified?_eq hreaches h.isName]
      rw [store, hseconds] at stored
      obtain ⟨hfits, hsize, hfree, hputs⟩ :=
        puts_of_write hready.steps_ne_nil hopens habsolute hsteps parented stored
      rw [← hnames] at hsize hfree hputs
      exact .writes ⟨hfits, hsize, nofun⟩ hfree hputs
    | copy path =>
      obtain rfl : path = pathOf place := h.path_eq
      have hbytes : bytes start config (.copy (pathOf place)) = file.bytes := by
        rw [bytes, place_pathOf h.isName, h.reaches.file?, Option.elim_some]
      obtain ⟨haskable, hfits, hsize, hfree, hputs⟩ := puts_of_copy hready.steps_ne_nil hopens
        habsolute hsteps hreaches h.isName (hnames ▸ h.other) parented stored
      rw [← hnames] at hsize hfree hputs
      rw [← hbytes] at hputs
      refine .writes ⟨hfits, hsize, ?_⟩ hfree hputs
      rintro _ ⟨⟩
      rwa [place_pathOf h.isName]

/-- In a build that skips nothing, a task can be done when nothing is in its way. -/
theorem Sited.exists_ends {world : World} (hready : config.Ready start)
    (h : task.Sited config start place file) (hclean : config.clean = true)
    (hkept : Kept config.output.place start world.disk) (hable : task.Able config)
    (hfree : world.disk.Free config.output.place (task.names config)) :
    ∃ disk', (task.run config config.compiler dependencies).Ends world true disk' := by
  obtain ⟨habsolute, htight, hsteps⟩ := h.target hready
  obtain ⟨dirs, name, hnames⟩ := h.exists_names
  have hopens := hready.opens.mono hkept.isDir
  have hsize := hable.size_le
  rw [hnames] at hsteps hsize hfree
  cases task with
  | compile path page =>
    obtain ⟨between, disk', hbetween, hwrite⟩ := exists_write hready.steps_ne_nil hopens habsolute
      htight hsteps hable.fits hsize hfree
        (page.render config.compiler (world.disk.seconds path)).text.utf8
    exact ⟨disk', ends_run_of_store hclean h.relativeTo? hbetween hwrite⟩
  | copy path =>
    obtain rfl : path = pathOf place := h.path_eq
    have haskable := hable.askable _ rfl
    rw [place_pathOf h.isName] at haskable
    obtain ⟨between, disk', hbetween, hcopy⟩ := exists_copy hready.steps_ne_nil hopens habsolute
      htight hsteps (hkept.reaches h.reaches h.outside) h.isName (hnames ▸ h.other) haskable
      hable.fits hsize hfree
    exact ⟨disk', ends_run_of_store hclean h.relativeTo? hbetween hcopy⟩

/-- The target of a task leads to its place. -/
theorem Sited.place_target (hready : config.Ready start) (h : task.Sited config start place file) :
    (task.target config).place = task.targetPlace config :=
  place_below (h.target hready).2.2

/-- The output of a task is taken to be newer than its file when it is a file that was changed
later, but it can be a directory as well. -/
theorem Sited.current (hready : config.Ready start) (h : task.Sited config start place file)
    (hkept : Kept config.output.place start disk)
    (hcurrent : task.isCurrent config dependencies disk = true) :
    (∃ old, disk.file? (task.targetPlace config) = some old ∧ file.modified ≤ old.modified ∧
      (task.needs dependencies).all (· ≤ old.modified) = true) ∨
      disk.IsDir (task.targetPlace config) := by
  have hreaches := hkept.reaches h.reaches h.outside
  unfold isCurrent isUpToDate at hcurrent
  split at hcurrent
  case h_2 => cases hcurrent
  case h_1 source target hsource htarget =>
    obtain ⟨hle, hneeds⟩ := (Bool.and_eq_true _ _).mp hcurrent
    have hsource' : source = file.modified := by
      unfold modified? at hsource
      rw [h.path_eq] at hsource
      cases hfind : disk.find (pathOf place) with
      | error e =>
        rw [hfind] at hsource
        cases hsource
      | ok found =>
        obtain ⟨-, rfl⟩ := (hreaches.find_iff h.isName).1 hfind
        rw [hfind] at hsource
        exact (Option.some.inj hsource).symm
    subst hsource'
    unfold modified? at htarget
    cases hfind : disk.find (task.target config) with
    | error e =>
      rw [hfind] at htarget
      cases htarget
    | ok found =>
      obtain ⟨found, entry⟩ := found
      obtain ⟨hresolve, hget⟩ := find_eq_ok_iff.1 hfind
      obtain rfl := eq_place_of_resolve (h.target hready).1 hresolve
      rw [h.place_target hready] at hget
      rw [hfind] at htarget
      cases entry with
      | file old =>
        obtain rfl := Option.some.inj htarget
        exact .inl ⟨old, file?_eq_some_iff.2 hget, of_decide_eq_true hle, hneeds⟩
      | directory modified => exact .inr ⟨modified, hget⟩

theorem Effect.now_eq (h : task.Effect config dependencies start disk result disk') :
    disk'.now = disk.now := by
  cases h with
  | skips => rfl
  | fails adds => exact adds.now_eq
  | writes _ _ puts => exact puts.now_eq

/-- Directories are there when a task has been tried. -/
theorem Effect.isDir (h : task.Effect config dependencies start disk result disk') {place : Place}
    (hdir : disk.IsDir place) : disk'.IsDir place := by
  cases h with
  | skips => exact hdir
  | fails adds => exact adds.isDir hdir
  | writes _ free puts => exact puts.isDir free.not_isDir hdir

/-- A task changes no file but its target. -/
theorem Effect.file?_of_ne (h : task.Effect config dependencies start disk result disk')
    {place : Place} (hne : place ≠ task.targetPlace config) :
    disk'.file? place = disk.file? place := by
  cases h with
  | skips => rfl
  | fails adds => exact adds.file? place
  | writes _ _ puts => exact puts.file?_of_ne hne

/-- A task keeps what lies outside of the output directory. -/
theorem Effect.kept (h : task.Effect config dependencies start disk result disk')
    (hkept : Kept config.output.place start disk) : Kept config.output.place start disk' := by
  cases h with
  | skips => exact hkept
  | fails adds => exact hkept.adds adds
  | writes _ free puts => exact hkept.puts free puts

end Sited

/-! ## All tasks -/

section RunAll

variable {config : Config} {compiler : Compiler} {dependencies : Option Int} {start disk' : Disk}
  {tasks : List Task} {task : Task} {world : World} {summary summary' : Summary}
  {schedule : Schedule}

/-- Tasks that are done whatever comes of them never stop what is behind them. -/
theorem exec_finishAll_bind {α : Type} (tasks : List Task) (f : Unit → Work BuildError α)
    (world : World) :
    (finishAll config compiler dependencies tasks >>= f).exec world =
      (f ()).exec ((finishAll config compiler dependencies tasks).exec world).2 := by
  induction tasks generalizing world with
  | nil => rfl
  | cons task tasks ih => exact ih _

/-- What is kept by every task is kept by tasks that are done whatever comes of them. -/
theorem finishAll_induction {P : Disk → Prop}
    (hstep : ∀ task ∈ tasks, ∀ disk result disk', P disk →
      task.Tries config compiler dependencies disk result disk' → P disk')
    (hstart : P world.disk) :
    P ((finishAll config compiler dependencies tasks).exec world).2.disk := by
  induction tasks generalizing world with
  | nil => exact hstart
  | cons task tasks ih =>
    have htask := hstep task List.mem_cons_self _ _ _ hstart (tries_of_exec (Prod.mk.eta).symm)
    exact ih (fun other hother => hstep other (List.mem_cons_of_mem _ hother)) htask

/-- All tasks are run by running the first and then the others; after a failure only those that have
begun are finished. -/
theorem exec_runAll_cons :
    (runAll schedule config compiler dependencies (task :: tasks) summary).exec world =
      match (task.run config compiler dependencies).exec world with
      | (.ok written, world') =>
        (runAll schedule config compiler dependencies tasks
          (task.tally summary written)).exec world'
      | (.error error, world') => (.error .failed,
        ((finishAll config compiler dependencies (schedule.begun tasks)).exec { world' with
          shown := world'.shown ++
            [.log "error" (task.label ++ ": " ++ error.explanation)] }).2) := by
  rw [runAll, exec_outcome_bind]
  cases (task.run config compiler dependencies).exec world with
  | mk result world' =>
    cases result with
    | ok written => rfl
    | error error => exact exec_finishAll_bind _ _ _

/-- All tasks have been done when the first and then the others have been. -/
theorem ends_runAll_cons_iff :
    (runAll schedule config compiler dependencies (task :: tasks) summary).Ends world
        summary' disk' ↔
      ∃ written world', (task.run config compiler dependencies).exec world = (.ok written, world') ∧
        (runAll schedule config compiler dependencies tasks
          (task.tally summary written)).Ends world' summary' disk' := by
  unfold Ends
  rw [exec_runAll_cons]
  cases (task.run config compiler dependencies).exec world with
  | mk result world' => cases result <;> simp

/-- What is kept by every task is kept by all of them, whether they are all done or one fails. -/
theorem runAll_induction {P : Disk → Prop}
    (hstep : ∀ task ∈ tasks, ∀ disk result disk', P disk →
      task.Tries config compiler dependencies disk result disk' → P disk')
    (hstart : P world.disk) :
    P ((runAll schedule config compiler dependencies tasks summary).exec world).2.disk := by
  induction tasks generalizing world summary with
  | nil => exact hstart
  | cons task tasks ih =>
    rw [exec_runAll_cons]
    cases hrun : (task.run config compiler dependencies).exec world with
    | mk result world' =>
      have htask : P world'.disk := hstep task List.mem_cons_self _ _ _ hstart (tries_of_exec hrun)
      cases result with
      | error error =>
        refine finishAll_induction (fun other hother => hstep other ?_) htask
        exact List.mem_cons_of_mem _ ((schedule.sublist tasks).subset hother)
      | ok written =>
        exact ih (fun other hother => hstep other (List.mem_cons_of_mem _ hother)) htask

section Sited

variable (hready : config.Ready start)
  (hsited : ∀ task ∈ tasks, ∃ place file, task.Sited config start place file)
  (hkept : Kept config.output.place start world.disk)

include hready hsited hkept

/-- What is kept by the effects of all tasks is kept by the tasks. -/
theorem effect_induction {P : Disk → Prop}
    (hstep : ∀ task ∈ tasks, ∀ disk result disk', Kept config.output.place start disk → P disk →
      task.Effect config dependencies start disk result disk' → P disk')
    (hstart : P world.disk) :
    P ((runAll schedule config config.compiler dependencies tasks summary).exec world).2.disk := by
  refine (runAll_induction (P := fun disk => Kept config.output.place start disk ∧ P disk) ?_
    ⟨hkept, hstart⟩).2
  rintro task htask disk result disk' ⟨hkept, hdisk⟩ htries
  obtain ⟨place, file, htask'⟩ := hsited task htask
  have heffect := htask'.effect hready hkept htries
  exact ⟨heffect.kept hkept, hstep task htask _ _ _ hkept hdisk heffect⟩

/-- All tasks together change no file but their targets. -/
theorem file?_runAll {place : Place} (hother : ∀ task ∈ tasks, place ≠ task.targetPlace config) :
    ((runAll schedule config config.compiler dependencies tasks summary).exec world).2.disk.file?
        place =
      world.disk.file? place :=
  effect_induction hready hsited hkept (P := fun disk => disk.file? place = world.disk.file? place)
    (fun task htask _ _ _ _ hdisk heffect =>
      (heffect.file?_of_ne (hother task htask)).trans hdisk) rfl

/-- No directory goes when all tasks are run. -/
theorem isDir_runAll {place : Place} (hdir : world.disk.IsDir place) :
    ((runAll schedule config config.compiler dependencies tasks summary).exec world).2.disk.IsDir
      place :=
  effect_induction hready hsited hkept (P := fun disk => disk.IsDir place)
    (fun _ _ _ _ _ _ hdisk heffect => heffect.isDir hdisk) hdir

theorem now_runAll :
    ((runAll schedule config config.compiler dependencies tasks summary).exec world).2.disk.now =
      world.disk.now :=
  effect_induction hready hsited hkept (P := fun disk => disk.now = world.disk.now)
    (fun _ _ _ _ _ _ hdisk heffect => heffect.now_eq.trans hdisk) rfl

end Sited

/-- A task has its output in place: it has written it, or it has kept one that was newer, or there
was a directory in its place. -/
inductive Done (config : Config) (dependencies : Option Int) (start : Disk) (task : Task)
    (file : File) (disk : Disk) : Prop
  | written (made : disk.file? (task.targetPlace config) =
      some ⟨task.bytes start config, disk.now⟩)
  | kept {old : File} (clean : config.clean = false)
      (before : start.file? (task.targetPlace config) = some old)
      (after : disk.file? (task.targetPlace config) = some old)
      (newer : file.modified ≤ old.modified)
      (needs : (task.needs dependencies).all (· ≤ old.modified) = true)
  | blocked (clean : config.clean = false) (isDir : disk.IsDir (task.targetPlace config))

/-- When tasks with different outputs have all been done, each has its output in place. -/
theorem done_of_runAll (hready : config.Ready start)
    (hsited : ∀ task ∈ tasks, ∃ place file, task.Sited config start place file)
    (hkept : Kept config.output.place start world.disk)
    (hdistinct : tasks.Pairwise fun a b => a.targetPlace config ≠ b.targetPlace config)
    (hbefore : ∀ task ∈ tasks, world.disk.file? (task.targetPlace config) =
      start.file? (task.targetPlace config))
    (h : (runAll schedule config config.compiler dependencies tasks summary).Ends world
      summary' disk')
    (htask : task ∈ tasks) {place : Place} {file : File}
    (hsource : task.Sited config start place file) :
    task.Done config dependencies start file disk' := by
  induction tasks generalizing world summary with
  | nil => cases htask
  | cons first tasks ih =>
    obtain ⟨hother, hpairs⟩ := List.pairwise_cons.1 hdistinct
    obtain ⟨hfirst, hlater⟩ := List.forall_mem_cons.1 hbefore
    obtain ⟨⟨at', file', hfirst'⟩, hsited'⟩ := List.forall_mem_cons.1 hsited
    obtain ⟨written, world', hrun, hrest⟩ := ends_runAll_cons_iff.1 h
    have heffect := hfirst'.effect hready hkept (tries_of_exec hrun)
    have hkept' := heffect.kept hkept
    rcases List.mem_cons.1 htask with rfl | htask
    · have hfile : disk'.file? (task.targetPlace config) =
          world'.disk.file? (task.targetPlace config) := by
        rw [← hrest.disk_eq]
        exact file?_runAll hready hsited' hkept' hother
      have hdir : ∀ place, world'.disk.IsDir place → disk'.IsDir place := fun place hdir => by
        rw [← hrest.disk_eq]
        exact isDir_runAll hready hsited' hkept' hdir
      have hnow : disk'.now = world'.disk.now := by
        rw [← hrest.disk_eq]
        exact now_runAll hready hsited' hkept'
      generalize world'.disk = after at heffect hfile hdir hnow
      cases heffect with
      | skips clean current =>
        rcases hsource.current hready hkept current with ⟨old, hold, hnewer, hneeds⟩ | hblocked
        · exact .kept clean (hfirst.symm.trans hold) (hfile.trans hold) hnewer hneeds
        · exact .blocked clean (hdir _ hblocked)
      | writes able free puts =>
        refine .written (hfile.trans ?_)
        rw [hnow, puts.now_eq]
        exact file?_eq_some_iff.2 puts.self
    · refine ih hsited' hkept' hpairs (fun other hmem => ?_) hrest htask
      rw [heffect.file?_of_ne (hother other hmem).symm, hlater other hmem]

end RunAll

/-! ## The order of the tasks -/

section Order

variable {config : Config} {dependencies : Option Int} {start disk' : Disk} {tasks : List Task}
  {world : World} {summary summary' : Summary} {schedule : Schedule}

/-- The summary after tasks that have all written something. -/
def total (tasks : List Task) (summary : Summary) : Summary :=
  tasks.foldl (fun summary task => task.tally summary true) summary

/-- In any order the tasks count the same. -/
theorem total_perm {tasks' : List Task} (h : tasks.Perm tasks') (summary : Summary) :
    total tasks summary = total tasks' summary := by
  refine h.foldl_eq' (fun a _ b _ summary => ?_) summary
  cases a <;> cases b <;> rfl

/-- All tasks can be done, and none of them is in the way of another. -/
structure Possible (config : Config) (disk : Disk) (tasks : List Task) : Prop where
  able : ∀ task ∈ tasks, task.Able config
  free : ∀ task ∈ tasks, disk.Free config.output.place (task.names config)
  apart : tasks.Pairwise fun a b => Apart (a.names config) (b.names config)

variable (hclean : config.clean = true) (hready : config.Ready start)
  (hsited : ∀ task ∈ tasks, ∃ place file, task.Sited config start place file)
  (hdistinct : tasks.Pairwise fun a b => a.names config ≠ b.names config)
  (hkept : Kept config.output.place start world.disk)

include hclean hready hsited hdistinct hkept

/-- When all tasks have been done, each of them was possible at the start. -/
theorem possible_of_runAll
    (h : (runAll schedule config config.compiler dependencies tasks summary).Ends world
      summary' disk') :
    summary' = total tasks summary ∧ Possible config world.disk tasks := by
  induction tasks generalizing world summary with
  | nil =>
    obtain ⟨rfl, rfl⟩ := ends_pure_iff.1 h
    exact ⟨rfl, nofun, nofun, .nil⟩
  | cons task tasks ih =>
    obtain ⟨hhead, hpairs⟩ := List.pairwise_cons.1 hdistinct
    obtain ⟨⟨place, file, hsited⟩, hsited'⟩ := List.forall_mem_cons.1 hsited
    obtain ⟨written, world', hrun, hrest⟩ := ends_runAll_cons_iff.1 h
    have heffect := hsited.effect hready hkept (tries_of_exec hrun)
    obtain ⟨rfl, hpossible⟩ := ih hsited' hpairs (heffect.kept hkept) hrest
    generalize world'.disk = after at heffect hpossible
    cases heffect with
    | skips clean => simp [hclean] at clean
    | writes able free puts =>
      have hfree : ∀ other ∈ tasks, world.disk.Free config.output.place (other.names config) ∧
          Apart (task.names config) (other.names config) := fun other hother =>
        (puts.free_iff (hhead other hother).symm).1 (hpossible.free other hother)
      refine ⟨rfl, ?_, ?_, ?_⟩
      · exact List.forall_mem_cons.2 ⟨able, hpossible.able⟩
      · exact List.forall_mem_cons.2 ⟨free, fun other hother => (hfree other hother).1⟩
      · exact List.pairwise_cons.2 ⟨fun other hother => (hfree other hother).2, hpossible.apart⟩

/-- Tasks that are possible at the start can all be done, and count all of them. -/
theorem exists_runAll (hpossible : Possible config world.disk tasks) (summary : Summary) :
    ∃ disk', (runAll schedule config config.compiler dependencies tasks summary).Ends world
      (total tasks summary) disk' := by
  induction tasks generalizing world summary with
  | nil => exact ⟨world.disk, ends_pure_iff.2 ⟨rfl, rfl⟩⟩
  | cons task tasks ih =>
    obtain ⟨hhead, hpairs⟩ := List.pairwise_cons.1 hdistinct
    obtain ⟨⟨place, file, hsited⟩, hsited'⟩ := List.forall_mem_cons.1 hsited
    obtain ⟨able, hable⟩ := List.forall_mem_cons.1 hpossible.able
    obtain ⟨free, hfree⟩ := List.forall_mem_cons.1 hpossible.free
    obtain ⟨apart, hapart⟩ := List.pairwise_cons.1 hpossible.apart
    obtain ⟨_, world', hrun, rfl⟩ := hsited.exists_ends hready hclean hkept able free
    have heffect := hsited.effect hready hkept (tries_of_exec hrun)
    have hpossible' : Possible config world'.disk tasks := by
      refine ⟨hable, fun other hother => ?_, hapart⟩
      generalize world'.disk = after at heffect
      cases heffect with
      | writes _ _ puts =>
        exact (puts.free_iff (hhead other hother).symm).2 ⟨hfree other hother, apart other hother⟩
    obtain ⟨disk', hrest⟩ := ih hsited' hpairs (heffect.kept hkept) hpossible' _
    exact ⟨disk', ends_runAll_cons_iff.2 ⟨true, world', hrun, hrest⟩⟩

/-- When tasks that skip nothing have been done in one order, they can be done in any other one,
however they are shared out. -/
theorem exists_runAll_of_perm {tasks' : List Task} (hperm : tasks.Perm tasks')
    (h : (runAll schedule config config.compiler dependencies tasks summary).Ends world summary'
      disk') (schedule' : Schedule) :
    ∃ disk'', (runAll schedule' config config.compiler dependencies tasks' summary).Ends world
      summary' disk'' := by
  obtain ⟨rfl, hpossible⟩ := possible_of_runAll hclean hready hsited hdistinct hkept h
  have hdistinct' := (hperm.pairwise_iff
    fun {a b} (h : a.names config ≠ b.names config) => h.symm).1 hdistinct
  rw [total_perm hperm]
  exact exists_runAll hclean hready (fun task htask => hsited task (hperm.mem_iff.2 htask))
    hdistinct' hkept ⟨fun task htask => hpossible.able task (hperm.mem_iff.2 htask),
      fun task htask => hpossible.free task (hperm.mem_iff.2 htask),
      (hperm.pairwise_iff fun h => Apart.symm h).1 hpossible.apart⟩ summary

end Order

end Task

end Pagewright
