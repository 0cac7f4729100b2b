import Pagewright.Proofs.Disk.Reading
import Pagewright.Proofs.Site.Tasks
import Pagewright.Watch.Session

/-!
# Reacting to changes

When files have changed, a session compiles or copies them one after another, up to the first that
fails. So the files in front of it are up to date afterwards, its own failure is shown, and the
files behind it are not looked at (`Session.handle_targets`).

When the configuration has changed, it is loaded again. If that fails, the session stays as it was.
If it succeeds but the watcher does not take the new files, the session has the new configuration
and watches nothing of the old one any more (`Session.reload_stopped`).
-/

namespace Pagewright

open Disk Work

/-! ## Forced tasks -/

namespace Task

variable {config : Config} {compiler : Compiler} {task : Task} {disk disk' : Disk}

/-- A forced task that has not failed has stored its file. -/
theorem stores_of_tries {dependencies : Option Int} {wrote : Bool} (hclean : config.clean = true)
    (h : task.Tries config compiler dependencies disk (some wrote) disk') :
    wrote = true ∧ ∃ between, disk.parented (task.target config) = .ok between ∧
      task.store config compiler disk between = .ok disk' := by
  cases h with
  | skips clean => simp [hclean] at clean
  | stores parented stored => exact ⟨rfl, _, parented, stored⟩

/-- A task that has stored its output has taken no file away. -/
theorem grows_of_store {between : Disk}
    (hparented : disk.parented (task.target config) = .ok between)
    (h : task.store config compiler disk between = .ok disk') :
    Grows (fun _ => True) disk disk' := by
  refine (grows_of_parented hparented).trans (store_induction ?_ (.refl _ between) h)
  intro before bytes after hbefore hwrite
  obtain ⟨place, hresolve, -⟩ := write_eq_ok_iff.1 hwrite
  exact hbefore.trans ((grows_of_write hresolve hwrite).mono fun _ _ => trivial)

end Task

namespace Session

/-- A session and the world once a status block has been shown. -/
def reported (session : Session) (world : World) (block : Printed × Status) : Session × World :=
  ({ session with status := block.2 }, { world with shown := world.shown ++ [block.1] })

/-- A success is reported by its block. -/
theorem exec_succeed (session : Session) (message : Text) (world : World) :
    (session.succeed message).exec world =
      (.ok (session.reported world (session.status.success message)).1,
        (session.reported world (session.status.success message)).2) :=
  rfl

/-- A failure is reported by its block. -/
theorem exec_fail (session : Session) (summary detail : Text) (world : World) :
    (session.fail summary detail).exec world =
      (.ok (session.reported world (session.status.failure summary detail)).1,
        (session.reported world (session.status.failure summary detail)).2) :=
  rfl

/-! ## A single file -/

/-- What it means that a file has been compiled or copied: its output has what becomes of it. A file
that is copied onto itself is the only one that may be changed by it. -/
inductive Updated (session : Session) (path : Path) (disk disk' : Disk) : Category → Prop
  | compiled {page : Page} (loaded : session.config.loadPage disk path = .ok page)
      (stored : disk'.read (session.config.output.join page.output)
        = .ok (page.render session.compiler (disk.seconds path)).text.utf8) :
      Updated session path disk disk' .template
  | copied {relative : Path} (relative_eq : path.relativeTo? session.config.source = some relative)
      (stored : disk'.read (session.config.output.join relative) = disk'.read path)
      (kept : disk'.resolve path = disk'.resolve (session.config.output.join relative) ∨
        disk'.read path = disk.read path) :
      Updated session path disk disk' .static

variable {session : Session} {path : Path} {category : Category} {world world' : World}
  {start : Disk}

/-- A file that has been dealt with is up to date, and nothing has gone away. -/
theorem updated_of_exec {wrote : Bool} (hcategory : category = .template ∨ category = .static)
    (hfile : world.disk.isFile path = true)
    (h : (session.update path category).exec world = (.ok wrote, world')) :
    wrote = true ∧ session.Updated path world.disk world'.disk category ∧
      Grows (fun _ => True) world.disk world'.disk := by
  -- An update is the task of a build that skips nothing.
  let forced : Config := { session.config with clean := true }
  rcases hcategory with rfl | rfl
  · unfold update Config.compileTemplate at h
    rw [exec_disk_bind] at h
    cases hpage : session.config.loadPage world.disk path with
    | error error =>
      rw [hpage] at h
      cases h
    | ok page =>
      rw [hpage, exec_lift_bind] at h
      have hrun : (Task.run forced session.compiler (session.config.modified? world.disk)
          (.compile path page)).exec world = (.ok wrote, world') := h
      obtain ⟨hwrote, between, hparented, hstored⟩ :=
        Task.stores_of_tries rfl (Task.tries_of_exec hrun)
      exact ⟨hwrote, .compiled hpage (read_of_write hstored), Task.grows_of_store hparented hstored⟩
  · have hrun : (Task.run forced session.compiler none (.copy path)).exec world
        = (.ok wrote, world') := h
    obtain ⟨hwrote, between, hparented, hstored⟩ :=
      Task.stores_of_tries rfl (Task.tries_of_exec hrun)
    cases hrelative : path.relativeTo? session.config.source with
    | none =>
      unfold update Config.copyStatic Config.sourcePath at h
      simp only [hrelative] at h
      cases h
    | some relative =>
      have hcopy : between.copy path (session.config.output.join relative) = .ok world'.disk := by
        rwa [Task.store, hrelative] at hstored
      obtain ⟨hread, hkept⟩ := read_of_copy hcopy
      rw [(grows_of_parented hparented).read hfile] at hkept
      exact ⟨hwrote, .copied hrelative hread hkept, Task.grows_of_store hparented hstored⟩

/-! ## One file after another -/

/-- A run over changed files that begins on the disk `start`. A file that was not there, and still
is not, is passed over, and every other one is brought up to date. The names are those of the
latter. -/
inductive Passes (session : Session) (start : Disk) :
    List (Path × Category) → World → List Text → World → Prop
  | nil {world : World} : Passes session start [] world [] world
  | gone {path : Path} {category : Category} {rest : List (Path × Category)} {world world' : World}
      {names : List Text} (absent : start.isFile path = false)
      (still : world.disk.isFile path = false)
      (tail : Passes session start rest world names world') :
      Passes session start ((path, category) :: rest) world names world'
  | updated {path : Path} {category : Category} {rest : List (Path × Category)}
      {world between world' : World} {names : List Text}
      (present : world.disk.isFile path = true)
      (exec_eq : (session.update path category).exec world = (.ok true, between))
      (updated : session.Updated path world.disk between.disk category)
      (tail : Passes session start rest between names world') :
      Passes session start ((path, category) :: rest) world
        (path.shown session.config.rootPath :: names) world'

/-- A file that is gone by now is passed over. -/
theorem exec_rebuild_of_gone {rest : List (Path × Category)} {done : List Text}
    (h : world.disk.isFile path = false) :
    (session.rebuild ((path, category) :: rest) done).exec world =
      (session.rebuild rest done).exec world := by
  rw [rebuild, exec_disk_bind, h]
  rfl

/-- A file that is there is done again, and a failure ends the batch. -/
theorem exec_rebuild_of_isFile {rest : List (Path × Category)} {done : List Text}
    (h : world.disk.isFile path = true) :
    (session.rebuild ((path, category) :: rest) done).exec world =
      match (session.update path category).exec world with
      | (.ok _, between) =>
        (session.rebuild rest (done ++ [path.shown session.config.rootPath])).exec between
      | (.error error, after) =>
        (session.fail (category.name ++ " failed: " ++ path.shown session.config.rootPath)
          error.explanation).exec after := by
  rw [rebuild, exec_disk_bind, h]
  simp only [Bool.not_true, Bool.false_eq_true, if_false]
  rw [exec_outcome_bind]
  cases (session.update path category).exec world with
  | mk result between => cases result <;> rfl

/-- The files of a batch are done one after another, up to the first that fails. -/
theorem exec_rebuild (session : Session) (targets : List (Path × Category)) (done : List Text)
    (htargets : ∀ target ∈ targets, target.2 = .template ∨ target.2 = .static)
    (hgrows : Grows (fun _ => True) start world.disk) :
    ∃ front rest names between, targets = front ++ rest ∧
      session.Passes start front world names between ∧
      (rest = [] ∧ (session.rebuild targets done).exec world =
          (session.rebuild [] (done ++ names)).exec between ∨
        ∃ path category lost error after, rest = (path, category) :: lost ∧
          between.disk.isFile path = true ∧
          (session.update path category).exec between = (.error error, after) ∧
          (session.rebuild targets done).exec world =
            (session.fail (category.name ++ " failed: " ++ path.shown session.config.rootPath)
              error.explanation).exec after) := by
  induction targets generalizing done world with
  | nil => exact ⟨[], [], [], world, rfl, .nil, .inl ⟨rfl, by rw [List.append_nil]⟩⟩
  | cons target targets ih =>
    obtain ⟨path, category⟩ := target
    obtain ⟨hcategory, htargets⟩ := List.forall_mem_cons.1 htargets
    cases hfile : world.disk.isFile path with
    | false =>
      -- Nothing has gone away since the start, so the file was not there then.
      have habsent : start.isFile path = false := by
        cases hstart : start.isFile path with
        | false => rfl
        | true => simp [hgrows.isFile hstart] at hfile
      obtain ⟨front, rest, names, between, rfl, hpasses, hrest⟩ := ih done htargets hgrows
      rw [exec_rebuild_of_gone hfile]
      exact ⟨(path, category) :: front, rest, names, between, rfl, .gone habsent hfile hpasses,
        hrest⟩
    | true =>
      rw [exec_rebuild_of_isFile hfile]
      cases hexec : (session.update path category).exec world with
      | mk result between =>
        cases result with
        | error error =>
          exact ⟨[], (path, category) :: targets, [], world, rfl, .nil,
            .inr ⟨path, category, targets, error, between, rfl, hfile, hexec, rfl⟩⟩
        | ok wrote =>
          obtain ⟨rfl, hupdated, hgrows'⟩ := updated_of_exec hcategory hfile hexec
          obtain ⟨front, rest, names, world', rfl, hpasses, hrest⟩ :=
            ih (done ++ [path.shown session.config.rootPath]) htargets (hgrows.trans hgrows')
          rw [List.append_assoc] at hrest
          exact ⟨(path, category) :: front, rest, _, world', rfl,
            .updated hfile hexec hupdated hpasses, hrest⟩

/-- A session and the world when files have been brought up to date, which is shown if there were
any. -/
def settled (session : Session) (world : World) (names : List Text) : Session × World :=
  if names = [] then (session, world)
  else session.reported world
    (session.status.success ("rebuilt: " ++ List.intercalate ", " names))

/-- At the end of a batch the session reports what has been done. -/
theorem exec_rebuild_nil (session : Session) (names : List Text) (world : World) :
    (session.rebuild [] names).exec world =
      (.ok (session.settled world names).1, (session.settled world names).2) := by
  unfold rebuild settled
  split
  · rfl
  · exact exec_succeed session _ world

/-- A batch that leaves the configuration alone does its targets again. -/
theorem exec_handle {paths : List Path}
    (hconfig : ∀ path ∈ paths, Category.ofPath world.disk session.config path ≠ .config)
    {session' : Session}
    (h : (session.rebuild (targets world.disk session.config paths) []).exec world =
      (.ok session', world')) :
    (session.handle paths).exec world = (.ok (session', false), world') := by
  have hany : (paths.any fun path =>
      Category.ofPath world.disk session.config path = .config) = false := by
    simpa using hconfig
  rw [handle, exec_disk_bind, hany]
  simp only [Bool.false_eq_true, if_false]
  cases htargets : targets world.disk session.config paths with
  | nil =>
    rw [htargets] at h
    cases h
    rfl
  | cons target rest =>
    rw [htargets] at h
    simp only [exec_bind, h]
    rfl

/-- A batch of changes without the configuration file is dealt with in order. Every file in front of
the first that fails is compiled or copied, the failure of that one is shown, and that is all: the
files behind it are lost. -/
theorem handle_targets (session : Session) (paths : List Path) (world : World)
    (hconfig : ∀ path ∈ paths, Category.ofPath world.disk session.config path ≠ .config) :
    ∃ front rest names between, targets world.disk session.config paths = front ++ rest ∧
      session.Passes world.disk front world names between ∧
      (rest = [] ∧ (session.handle paths).exec world =
          (.ok ((session.settled between names).1, false), (session.settled between names).2) ∨
        ∃ path category lost error after, rest = (path, category) :: lost ∧
          between.disk.isFile path = true ∧
          (session.update path category).exec between = (.error error, after) ∧
          let shown := session.reported after (session.status.failure
            (category.name ++ " failed: " ++ path.shown session.config.rootPath) error.explanation)
          (session.handle paths).exec world = (.ok (shown.1, false), shown.2)) := by
  have htargets : ∀ target ∈ targets world.disk session.config paths,
      target.2 = .template ∨ target.2 = .static := by
    intro target htarget
    simpa using (List.mem_filter.1 htarget).2
  obtain ⟨front, rest, names, between, hsplit, hpasses, hend⟩ :=
    exec_rebuild session _ [] htargets (.refl _ world.disk)
  refine ⟨front, rest, names, between, hsplit, hpasses, ?_⟩
  rcases hend with ⟨hnil, hexec⟩ | ⟨path, category, lost, error, after, hrest, hfile, hfails, hexec⟩
  · exact .inl ⟨hnil, exec_handle hconfig (hexec.trans (exec_rebuild_nil session names between))⟩
  · exact .inr ⟨path, category, lost, error, after, hrest, hfile, hfails,
      exec_handle hconfig (hexec.trans (exec_fail session _ _ after))⟩

/-- A site with a template the settings of which are a list. -/
def brokenWorld : World where
  disk :=
    { entries := [
        (["source".toList], .directory 0),
        (["source".toList, "a.blade".toList], .file ⟨Text.utf8 "---\n- x\n---\ny".toList, 3⟩),
        (["source".toList, "b.css".toList], .file ⟨Text.utf8 "z".toList, 3⟩)] }

def plainSession : Session :=
  ofConfig { command := .watch {} }
    { path := ⟨"/bladerunner.toml"⟩, root := some ⟨"/"⟩, source := ⟨"/source"⟩
      output := ⟨"/public"⟩ }

def brokenBatch : List Path :=
  [⟨"/source/a.blade"⟩, ⟨"/source/b.css"⟩]

theorem update_broken :
    let ended := (plainSession.update ⟨"/source/a.blade"⟩ .template).exec brokenWorld
    ended.1.toOption = none ∧ ended.2.disk.holds ⟨"/public/b.css"⟩ = false := by
  decide +kernel

theorem targets_broken :
    targets brokenWorld.disk plainSession.config brokenBatch
      = [(⟨"/source/a.blade"⟩, .template), (⟨"/source/b.css"⟩, .static)] := by
  decide +kernel

theorem handle_targets_broken :
    (∀ path ∈ brokenBatch,
      Category.ofPath brokenWorld.disk plainSession.config path ≠ .config) ∧
    ∃ error after,
      (plainSession.update ⟨"/source/a.blade"⟩ .template).exec brokenWorld = (.error error, after) ∧
      (let shown := plainSession.reported after (plainSession.status.failure
        ("template failed: " ++ "source/a.blade") error.explanation)
      (plainSession.handle brokenBatch).exec brokenWorld = (.ok (shown.1, false), shown.2)) ∧
      after.disk.holds ⟨"/public/b.css"⟩ = false := by
  have hconfig : ∀ path ∈ brokenBatch,
      Category.ofPath brokenWorld.disk plainSession.config path ≠ .config := by decide +kernel
  obtain ⟨hfailed, hlost⟩ := update_broken
  obtain ⟨front, rest, names, between, hsplit, hpasses, hend⟩ :=
    handle_targets plainSession brokenBatch brokenWorld hconfig
  rw [targets_broken] at hsplit
  refine ⟨hconfig, ?_⟩
  cases hpasses with
  | nil =>
    rcases hend with ⟨rfl, -⟩ | ⟨path, category, lost, error, after, rfl, -, hfails, hexec⟩
    · cases hsplit
    · cases hsplit
      rw [hfails] at hlost
      have hname : Path.shown ⟨"/source/a.blade"⟩ plainSession.config.rootPath
          = "source/a.blade" := by decide +kernel
      rw [hname] at hexec
      exact ⟨error, after, hfails, hexec, hlost⟩
  | gone absent =>
    cases (List.cons.inj hsplit).1
    exact absurd absent (by decide +kernel)
  | updated _ exec_eq =>
    cases (List.cons.inj hsplit).1
    rw [exec_eq] at hfailed
    cases hfailed

end Session

/-! ## Loading the configuration again -/

/-- Whether a path is watched after a call, if it was or was not before. -/
def WatchCall.after (path : Path) (watched : Bool) : WatchCall → Bool
  | .watch other => watched || other.same path
  | .unwatch other => watched && !other.same path

/-- Whether a path is watched, after all calls to the watcher. -/
def World.isWatched (world : World) (path : Path) : Bool :=
  world.calls.foldl (WatchCall.after path) false

theorem World.isWatched_of_same (world : World) {a b : Path} (h : a.same b = true) :
    world.isWatched a = world.isWatched b := by
  have hcomponents : a.components = b.components := by simpa [Path.same] using h
  have hafter : WatchCall.after a = WatchCall.after b := by
    funext watched call
    cases call <;> simp [WatchCall.after, Path.same, hcomponents]
  rw [isWatched, isWatched, hafter]

/-- Why the files of a site cannot be watched, if they cannot: the watcher does not take the source
directory, or it does not take a configuration file that is there. -/
def World.watchFailure? (world : World) (config : Config) : Option Failure :=
  match world.refusal? config.source with
  | some reason => some (.watchSource config.source reason)
  | none =>
    if world.disk.holds config.path then
      (world.refusal? config.path).map (.watchConfig config.path)
    else none

namespace Session

variable {session : Session} {config : Config} {world : World}

/-! ### What is watched -/

/-- The world when the files of a site are no longer watched. -/
def unwatched (config : Config) (world : World) : World :=
  { world with calls := world.calls ++ [.unwatch config.source, .unwatch config.path] }

/-- The world when the files of a site cannot be watched. The source directory is, if the watcher
takes it. -/
def halfWatched (config : Config) (world : World) : World :=
  { world with calls := world.calls ++
      if (world.refusal? config.source).isNone then [.watch config.source] else [] }

/-- The two old paths are given up. -/
theorem isWatched_unwatched (config : Config) (world : World) (path : Path) :
    (unwatched config world).isWatched path =
      (world.isWatched path && !config.source.same path && !config.path.same path) := by
  simp [unwatched, World.isWatched, WatchCall.after]

/-- The first of the two new paths is watched, unless the watcher refuses it. -/
theorem isWatched_halfWatched (config : Config) (world : World) (path : Path) :
    (halfWatched config world).isWatched path =
      (world.isWatched path ||
        (world.refusal? config.source).isNone && config.source.same path) := by
  unfold halfWatched
  cases (world.refusal? config.source).isNone <;> simp [World.isWatched, WatchCall.after]

/-- What is watched when a session has given up the files of one configuration and cannot watch
those of another. -/
theorem isWatched_stopped (old config : Config) (world : World) (path : Path) :
    (halfWatched config (unwatched old world)).isWatched path =
      (world.isWatched path && !old.source.same path && !old.path.same path ||
        (world.refusal? config.source).isNone && config.source.same path) := by
  rw [isWatched_halfWatched, isWatched_unwatched]
  rfl

/-- With one and the same configuration, what is watched stays the same just when the source
directory was watched if the watcher takes it now, and the configuration file was not, unless they
are one. -/
theorem isWatched_stopped_iff (config : Config) (world : World) :
    (∀ path, (halfWatched config (unwatched config world)).isWatched path =
        world.isWatched path) ↔
      world.isWatched config.source = (world.refusal? config.source).isNone ∧
        world.isWatched config.path =
          ((world.refusal? config.source).isNone && config.source.same config.path) := by
  have hself : ∀ path : Path, path.same path = true := fun path => by simp [Path.same]
  simp only [isWatched_stopped]
  constructor
  · intro h
    refine ⟨?_, ?_⟩
    · simpa [hself] using (h config.source).symm
    · simpa [hself] using (h config.path).symm
  · rintro ⟨hsource, hpath⟩ path
    cases hs : config.source.same path with
    | true => simp [← world.isWatched_of_same hs, hsource]
    | false =>
      cases hp : config.path.same path with
      | true =>
        -- The source directory is not the configuration file, since only one of them is the path.
        have hother : config.source.same config.path = false := by
          simp only [Path.same, decide_eq_true_eq, decide_eq_false_iff_not] at hs hp ⊢
          rwa [hp]
        simp [← world.isWatched_of_same hp, hpath, hother]
      | false => simp

/-! ### Loading in vain -/

/-- A configuration that does not load is reported, and that is all. -/
theorem exec_reload_of_error {error : ConfigError}
    (h : Config.ofInvocation world.disk session.invocation = .error error) :
    session.reload.exec world =
      (session.fail "config reload failed" error.explanation).exec world := by
  rw [reload, exec_disk_bind, h]

theorem exec_unwatchPaths (config : Config) (world : World) :
    (unwatchPaths config).exec world = (.ok (), unwatched config world) := by
  have h : (unwatchPaths config).exec world = (.ok (),
      { world with
        calls := world.calls ++ [.unwatch config.source] ++ [.unwatch config.path] }) := rfl
  rw [h, List.append_assoc]
  rfl

/-- When the files of a site cannot be watched, the source directory may be watched all the same. -/
theorem exec_watchPaths_of_failure {failure : Failure}
    (h : world.watchFailure? config = some failure) :
    (watchPaths config).exec world = (.error failure, halfWatched config world) := by
  unfold watchPaths halfWatched
  unfold World.watchFailure? at h
  rw [exec_bind, exec_watch]
  cases hsource : world.refusal? config.source with
  | some reason =>
    rw [hsource] at h
    cases h
    simp
  | none =>
    rw [hsource] at h
    simp only at h ⊢
    split at h
    case isFalse => cases h
    case isTrue hholds =>
      obtain ⟨reason, hpath, rfl⟩ := Option.map_eq_some_iff.1 h
      have hpath' : World.refusal? { world with calls := world.calls ++ [.watch config.source] }
          config.path = some reason := hpath
      rw [exec_disk_bind]
      simp only [hholds, if_true]
      rw [exec_bind, exec_watch, hpath']
      rfl

/-- A session whose new configuration cannot be watched has it all the same. -/
theorem exec_reload_of_failure {failure : Failure}
    (h : Config.ofInvocation world.disk session.invocation = .ok config)
    (hfailure : world.watchFailure? config = some failure) :
    session.reload.exec world =
      ({ session with config, compiler := config.compiler }.fail "watch failed"
        failure.explanation).exec (halfWatched config (unwatched session.config world)) := by
  have hwatch : (watchPaths config).exec (unwatched session.config world) =
      (.error failure, halfWatched config (unwatched session.config world)) :=
    exec_watchPaths_of_failure hfailure
  rw [reload, exec_disk_bind, h]
  simp only [exec_bind, exec_unwatchPaths]
  rw [← exec_bind, exec_outcome_bind, hwatch]

/-- A session whose configuration is loaded again in vain: it cannot be loaded, or its files cannot
be watched. When it cannot be loaded, nothing has changed. When its files cannot be watched, it is
the new configuration of the session, whose old files are no longer watched, and of the new ones at
most the source directory is. So the session is what it was only if nothing was new, and just that
was watched before. -/
theorem reload_stopped (session : Session) (world : World)
    (hstops : ∀ config, Config.ofInvocation world.disk session.invocation = .ok config →
      world.watchFailure? config ≠ none) :
    ∃ session' world', session.reload.exec world = (.ok session', world') ∧
      world'.disk = world.disk ∧
      (session'.config = session.config ∧ session'.compiler = session.compiler ∧
          (∀ path, world'.isWatched path = world.isWatched path) ↔
        (∃ error, Config.ofInvocation world.disk session.invocation = .error error) ∨
          Config.ofInvocation world.disk session.invocation = .ok session.config ∧
            session.compiler = session.config.compiler ∧
            world.isWatched session.config.source =
              (world.refusal? session.config.source).isNone ∧
            world.isWatched session.config.path =
              ((world.refusal? session.config.source).isNone &&
                session.config.source.same session.config.path)) ∧
      ∀ config, Config.ofInvocation world.disk session.invocation = .ok config →
        session'.config = config ∧ session'.compiler = config.compiler ∧
          ∀ path, world'.isWatched path = (world.isWatched path &&
              !session.config.source.same path && !session.config.path.same path ||
            (world.refusal? config.source).isNone && config.source.same path) := by
  cases hload : Config.ofInvocation world.disk session.invocation with
  | error error =>
    refine ⟨_, _, (exec_reload_of_error hload).trans (exec_fail session _ _ world), rfl, ?_, nofun⟩
    exact ⟨fun _ => .inl ⟨error, rfl⟩, fun _ => ⟨rfl, rfl, fun _ => rfl⟩⟩
  | ok config =>
    obtain ⟨failure, hfailure⟩ := Option.ne_none_iff_exists'.1 (hstops config hload)
    refine ⟨_, _, (exec_reload_of_failure hload hfailure).trans
      (exec_fail { session with config, compiler := config.compiler } _ _
        (halfWatched config (unwatched session.config world))), rfl, ?_, ?_⟩
    · constructor
      · rintro ⟨hconfig, hcompiler, hwatched⟩
        obtain rfl : config = session.config := hconfig
        exact .inr ⟨rfl, hcompiler.symm, (isWatched_stopped_iff _ _).1 hwatched⟩
      · rintro (⟨error, herror⟩ | ⟨hsame, hcompiler, hwatched⟩)
        · cases herror
        · cases hsame
          exact ⟨rfl, hcompiler.symm, (isWatched_stopped_iff _ _).2 hwatched⟩
    · rintro _ ⟨⟩
      exact ⟨rfl, rfl, isWatched_stopped session.config config world⟩

/-- A watched site, the configuration of which has just been given a source directory that is not
there. -/
def movedWorld : World where
  disk :=
    { entries := [
        (["source".toList], .directory 0),
        (["bladerunner.toml".toList],
          .file ⟨Text.utf8 "[build]\nsource = \"gone\"\n".toList, 3⟩)] }
  calls := [.watch ⟨"/source"⟩, .watch ⟨"/bladerunner.toml"⟩]

def movedConfig : Config :=
  (Config.ofInvocation movedWorld.disk plainSession.invocation).toOption.get (by decide +kernel)

theorem ofInvocation_moved :
    Config.ofInvocation movedWorld.disk plainSession.invocation = .ok movedConfig :=
  eq_ok_of_toOption (Option.some_get (by decide +kernel)).symm

theorem reload_stopped_moved :
    (∀ config, Config.ofInvocation movedWorld.disk plainSession.invocation = .ok config →
      movedWorld.watchFailure? config ≠ none) ∧
    movedWorld.isWatched plainSession.config.source = true ∧
    ∃ session' world', plainSession.reload.exec movedWorld = (.ok session', world') ∧
      session'.config = movedConfig ∧ world'.isWatched plainSession.config.source = false ∧
      ¬(session'.config = plainSession.config ∧ session'.compiler = plainSession.compiler ∧
        ∀ path, world'.isWatched path = movedWorld.isWatched path) := by
  have hstops : ∀ config, Config.ofInvocation movedWorld.disk plainSession.invocation
      = .ok config → movedWorld.watchFailure? config ≠ none := by
    intro config hload
    cases ofInvocation_moved.symm.trans hload
    decide +kernel
  have hwatched : movedWorld.isWatched plainSession.config.source = true := by decide +kernel
  obtain ⟨session', world', hexec, -, hkept, hleft⟩ := reload_stopped plainSession movedWorld hstops
  obtain ⟨hconfig, -, hnow⟩ := hleft movedConfig ofInvocation_moved
  refine ⟨hstops, hwatched, session', world', hexec, hconfig, ?_, ?_⟩
  · rw [hnow]
    decide +kernel
  · rw [hkept]
    rintro (⟨error, herror⟩ | ⟨-, -, -, hunwatched⟩)
    · cases ofInvocation_moved.symm.trans herror
    · exact absurd hunwatched (by decide +kernel)

end Session

end Pagewright
