import Pagewright.Proofs.Watch.Session

/-!
# What a session shows

A step of a build shows log lines and nothing else (`Config.shows_buildIn`). A session always goes
on, and for each batch of changes it shows nothing, or log lines and one status block below them
(`Session.exec_handle_answers`). The block is drawn over the last one unless the session has taken
up a configuration, which detaches it.
-/

namespace Pagewright

/-! ## What a step shows -/

namespace Work

variable {ε α β : Type} {P : Printed → Prop}

/-- Whatever a step shows is of a kind, whether the step fails or not. -/
def Shows (P : Printed → Prop) (work : Work ε α) : Prop :=
  ∀ world, ∃ printed, (∀ p ∈ printed, P p) ∧ (work.exec world).2.shown = world.shown ++ printed

/-- A step that leaves what has been shown alone shows only what it may. -/
theorem shows_nothing {work : Work ε α} (h : ∀ world, (work.exec world).2.shown = world.shown) :
    Shows P work :=
  fun world => ⟨[], nofun, by rw [h world, List.append_nil]⟩

theorem shows_pure (a : α) : Shows P (pure a : Work ε α) :=
  shows_nothing fun _ => rfl

theorem shows_throw (e : ε) : Shows P (throw e : Work ε α) :=
  shows_nothing fun _ => rfl

theorem shows_lift (result : Except ε α) : Shows P (liftM result : Work ε α) :=
  shows_nothing fun _ => rfl

theorem shows_disk : Shows P (Work.disk : Work ε Disk) :=
  shows_nothing fun _ => rfl

/-- A change of the disk shows nothing. -/
theorem shows_change (f : Disk → Except Disk.Error Disk) (failure : Disk.Error → ε) :
    Shows P (Work.change f failure) := by
  refine shows_nothing fun world => ?_
  rw [exec_change]
  cases f world.disk <;> rfl

theorem shows_log {topic message : Text} (h : P (.log topic message)) :
    Shows P (Work.log topic message : Work ε Unit) :=
  fun _ => ⟨[.log topic message], by simpa using h, rfl⟩

/-- A step that goes on with what another one has found. -/
theorem shows_bind_of {work : Work ε α} {f : α → Work ε β} (hwork : Shows P work)
    (hf : ∀ a world, (work.exec world).1 = .ok a → Shows P (f a)) : Shows P (work >>= f) := by
  intro world
  obtain ⟨first, hfirst, hshown⟩ := hwork world
  rw [exec_bind]
  cases hexec : work.exec world with
  | mk result between =>
    rw [hexec] at hshown
    cases result with
    | error e => exact ⟨first, hfirst, hshown⟩
    | ok a =>
      obtain ⟨second, hsecond, hrest⟩ := hf a world (by rw [hexec]) between
      refine ⟨first ++ second, ?_, ?_⟩
      · intro p hp
        exact (List.mem_append.1 hp).elim (hfirst p) (hsecond p)
      · rw [← List.append_assoc, ← hshown]
        exact hrest

theorem shows_bind {work : Work ε α} {f : α → Work ε β} (hwork : Shows P work)
    (hf : ∀ a, Shows P (f a)) : Shows P (work >>= f) :=
  shows_bind_of hwork fun a _ _ => hf a

theorem shows_outcome {ε' : Type} {work : Work ε α} (h : Shows P work) :
    Shows P (Work.outcome work : Work ε' (Except ε α)) :=
  h

theorem shows_mapM {f : α → Work ε β} (h : ∀ a, Shows P (f a)) (items : List α) :
    Shows P (items.mapM f) := by
  induction items with
  | nil => exact shows_pure []
  | cons a items ih =>
    rw [List.mapM_cons]
    exact shows_bind (h a) fun b => shows_bind ih fun bs => shows_pure (b :: bs)

end Work

open Work

namespace Config

variable {config : Config} {P : Printed → Prop}

theorem shows_createParent (target : Path) : Shows P (createParent target) := by
  unfold createParent
  split
  · exact shows_change _ _
  · exact shows_pure ()

theorem shows_storing (target : Path) (store : Disk → Except Disk.Error Disk)
    (failure : Disk.Error → BuildError) : Shows P (storing target store failure) :=
  shows_bind (shows_createParent target) fun _ =>
    shows_bind (shows_change store failure) fun _ => shows_pure true

/-- A page is named when all work is told, and warned of when it loses sections. -/
theorem shows_writePage {compiler : Compiler} {page : Page}
    (hverbose : config.verbose = true → ∀ topic message, P (.log topic message))
    (hdropped : ∀ modified, (page.render compiler modified).dropped ≠ 0 →
      ∀ topic message, P (.log topic message))
    (dependencies : Option Int) (force : Bool) (path : Path) :
    Shows P (config.writePage compiler dependencies force path page) := by
  unfold writePage
  refine shows_bind shows_disk fun disk => ?_
  split
  · exact shows_pure false
  · simp only
    split
    next h =>
      refine shows_bind (shows_log (hverbose h _ _)) fun _ => ?_
      split
      next h => exact shows_bind (shows_log (hdropped _ h _ _)) fun _ => shows_storing _ _ _
      next => exact shows_storing _ _ _
    next =>
      split
      next h => exact shows_bind (shows_log (hdropped _ h _ _)) fun _ => shows_storing _ _ _
      next => exact shows_storing _ _ _

/-- Copying a file logs it when the build is verbose, and shows nothing else. -/
theorem shows_copyStatic
    (hverbose : config.verbose = true → ∀ topic message, P (.log topic message))
    (force : Bool) (path : Path) : Shows P (config.copyStatic force path) := by
  unfold copyStatic
  refine shows_bind (shows_lift _) fun source => shows_bind shows_disk fun disk => ?_
  split
  · exact shows_pure false
  · simp only
    split
    next h => exact shows_bind (shows_log (hverbose h _ _)) fun _ => shows_storing _ _ _
    next => exact shows_storing _ _ _

theorem shows_prepareOutput (config : Config) : Shows P config.prepareOutput := by
  unfold prepareOutput
  refine shows_bind shows_disk fun disk => ?_
  split
  · exact shows_bind (shows_change _ _) fun _ => shows_change _ _
  · exact shows_change _ _

section Logs

variable (hlog : ∀ topic message, P (.log topic message))

include hlog

/-- A task shows log lines. -/
theorem shows_run (compiler : Compiler) (dependencies : Option Int) (task : Task) :
    Shows P (task.run config compiler dependencies) := by
  cases task with
  | compile path page => exact shows_writePage (fun _ => hlog) (fun _ _ => hlog) _ _ _
  | copy path => exact shows_copyStatic (fun _ => hlog) _ _

theorem shows_finishAll (compiler : Compiler) (dependencies : Option Int) (tasks : List Task) :
    Shows P (Task.finishAll config compiler dependencies tasks) := by
  induction tasks with
  | nil => exact shows_pure ()
  | cons task tasks ih =>
    rw [Task.finishAll]
    exact shows_bind (shows_outcome (shows_run hlog _ _ _)) fun _ => ih

/-- Doing all tasks shows nothing but log lines. -/
theorem shows_runAll (schedule : Schedule) (compiler : Compiler) (dependencies : Option Int)
    (tasks : List Task) (summary : Summary) :
    Shows P (Task.runAll schedule config compiler dependencies tasks summary) := by
  induction tasks generalizing summary with
  | nil => exact shows_pure summary
  | cons task tasks ih =>
    rw [Task.runAll]
    refine shows_bind (shows_outcome (shows_run hlog _ _ _)) fun result => ?_
    cases result with
    | ok written => exact ih _
    | error error =>
      exact shows_bind (shows_log (hlog _ _)) fun _ =>
        shows_bind (shows_finishAll hlog _ _ _) fun _ => shows_throw _

theorem shows_logSummary (summary : Summary) : Shows P (logSummary summary) := by
  unfold logSummary
  split
  · exact shows_log (hlog _ _)
  · exact shows_log (hlog _ _)

/-- A build shows log lines. -/
theorem shows_buildIn (schedule : Schedule) (config : Config) :
    Shows P (config.buildIn schedule) := by
  rw [buildIn.eq_def]
  refine shows_bind shows_disk fun disk => ?_
  split
  · exact shows_throw _
  · refine shows_bind (shows_prepareOutput config) fun _ => shows_bind shows_disk fun disk => ?_
    simp only
    refine shows_bind (shows_mapM (fun path => shows_bind (shows_lift _) fun _ => shows_pure _) _)
      fun pages => ?_
    split
    · exact shows_throw _
    · exact shows_bind (shows_runAll hlog _ _ _ _ _) fun summary =>
        shows_bind (shows_logSummary hlog summary) fun _ => shows_pure summary

end Logs

end Config

/-! ## What a session shows -/

/-- Whether something is a log line. -/
def Printed.isLog : Printed → Bool
  | .log .. => true
  | _ => false

namespace Session

/-- Whether a file may be told of when it is compiled or copied: because all work is, or because it
is a partial that loses sections. -/
def Tells (session : Session) (path : Path) : Prop :=
  session.config.verbose = true ∨
    ∃ disk page modified, session.config.loadPage disk path = .ok page ∧
      (page.render session.compiler modified).dropped ≠ 0

/-- Doing a single file again shows log lines, and only where the session tells about it. -/
theorem shows_update (session : Session) (path : Path) (category : Category) :
    Shows (fun p => p.isLog = true ∧ session.Tells path) (session.update path category) := by
  have hcopy : Shows (fun p => p.isLog = true ∧ session.Tells path)
      (session.config.copyStatic true path) :=
    Config.shows_copyStatic (fun h _ _ => ⟨rfl, .inl h⟩) true path
  cases category with
  | template =>
    refine shows_bind shows_disk fun disk => shows_bind_of (shows_lift _) fun page world hpage => ?_
    exact Config.shows_writePage (fun h _ _ => ⟨rfl, .inl h⟩)
      (fun modified h _ _ => ⟨rfl, .inr ⟨disk, page, modified, hpage, h⟩⟩) _ _ _
  | _ => exact hcopy

/-- Whether changes make the session take up a configuration, and leave the last block where it
is. -/
def detaches (session : Session) (world : World) (paths : List Path) : Bool :=
  (paths.any fun path => Category.ofPath world.disk session.config path = .config) &&
    (Config.ofInvocation world.disk session.invocation).toOption.any fun config =>
      (world.watchFailure? config).isNone

/-- What a session may show in answer to changes: nothing, or log lines and a status block below
them, which is drawn over the last one unless that has been detached. -/
inductive Answers (session session' : Session) (detached : Bool) (paths : List Path) :
    List Printed → Prop
  | nothing (attached : detached = false) (status_eq : session'.status = session.status) :
      Answers session session' detached paths []
  | block {logs : List Printed} (isLog : ∀ p ∈ logs, p.isLog = true)
      (told : detached = false → logs ≠ [] → ∃ path ∈ paths, session.Tells path)
      (success : Bool) (message : Text)
      (status_eq : session'.status = ⟨Status.lineCount message⟩) :
      Answers session session' detached paths
        (logs ++ [.status (if detached then 0 else session.status.lines) success message])

variable {session session' : Session} {detached : Bool} {paths : List Path} {printed : List Printed}

/-- A block alone is an answer. -/
theorem answers_status {success : Bool} {message : Text}
    (h : session'.status = ⟨Status.lineCount message⟩) :
    session.Answers session' detached paths
      [.status (if detached then 0 else session.status.lines) success message] := by
  have hblock : session.Answers session' detached paths
      ([] ++ [.status (if detached then 0 else session.status.lines) success message]) :=
    .block (by simp) (fun _ hne => absurd rfl hne) success message h
  exact hblock

/-- Log lines about a path of the batch can stand in front of an answer. -/
theorem Answers.prepend {path : Path} {logs : List Printed}
    (h : session.Answers session' false paths printed) (hne : printed ≠ []) (hpath : path ∈ paths)
    (hlogs : ∀ p ∈ logs, p.isLog = true ∧ session.Tells path) :
    session.Answers session' false paths (logs ++ printed) := by
  cases h with
  | nothing => exact absurd rfl hne
  | @block rest isLog told success message status_eq =>
    rw [← List.append_assoc]
    refine .block ?_ ?_ success message status_eq
    · intro p hp
      exact (List.mem_append.1 hp).elim (fun hp => (hlogs p hp).1) (isLog p)
    · intro _ hnonempty
      cases logs with
      | nil => exact told rfl hnonempty
      | cons p logs => exact ⟨path, hpath, (hlogs p List.mem_cons_self).2⟩

/-- A run over changed files ends in a status block if there is anything to show. -/
theorem exec_rebuild_answers (session : Session) (targets : List (Path × Category))
    (done : List Text) (world : World) (htargets : ∀ target ∈ targets, target.1 ∈ paths) :
    ∃ session' world' printed, (session.rebuild targets done).exec world = (.ok session', world') ∧
      world'.shown = world.shown ++ printed ∧ (done ≠ [] → printed ≠ []) ∧
      session.Answers session' false paths printed := by
  induction targets generalizing done world with
  | nil =>
    rw [exec_rebuild_nil]
    by_cases hdone : done = []
    · rw [settled, if_pos hdone]
      exact ⟨session, world, [], rfl, (List.append_nil _).symm, absurd hdone, .nothing rfl rfl⟩
    · rw [settled, if_neg hdone]
      exact ⟨_, _, _, rfl, rfl, by simp, answers_status rfl⟩
  | cons target targets ih =>
    obtain ⟨path, category⟩ := target
    obtain ⟨hpath, htargets⟩ := List.forall_mem_cons.1 htargets
    cases hfile : world.disk.isFile path with
    | false =>
      rw [exec_rebuild_of_gone hfile]
      exact ih done world htargets
    | true =>
      rw [exec_rebuild_of_isFile hfile]
      obtain ⟨logs, hlogs, hbetween⟩ := shows_update session path category world
      cases hexec : (session.update path category).exec world with
      | mk result between =>
        rw [hexec] at hbetween
        cases result with
        | error error =>
          let block := session.status.failure
            (category.name ++ " failed: " ++ path.shown session.config.rootPath) error.explanation
          have hblock : session.Answers (session.reported between block).1 false paths [block.1] :=
            answers_status rfl
          refine ⟨_, (session.reported between block).2, logs ++ [block.1], rfl, ?_,
            fun _ => by simp, hblock.prepend (by simp) hpath hlogs⟩
          rw [← List.append_assoc, ← hbetween]
          rfl
        | ok written =>
          obtain ⟨session', world', printed, hrest, hshown, hdone, hanswers⟩ :=
            ih (done ++ [path.shown session.config.rootPath]) between htargets
          have hne : printed ≠ [] := hdone (by simp)
          refine ⟨session', world', logs ++ printed, hrest, ?_, fun _ => by simp [hne],
            hanswers.prepend hne hpath hlogs⟩
          rw [hshown, hbetween, List.append_assoc]

/-- When the files of a site are watched, this is told. -/
theorem exec_watchPaths_of_none {config : Config} (world : World)
    (h : world.watchFailure? config = none) :
    ∃ world', (watchPaths config).exec world = (.ok (), world') ∧
      world'.shown = world.shown
        ++ [.log "watch" ("watching " ++ config.source.shown config.rootPath)] := by
  unfold watchPaths
  unfold World.watchFailure? at h
  rw [exec_bind, exec_watch]
  cases hsource : world.refusal? config.source with
  | some reason =>
    rw [hsource] at h
    cases h
  | none =>
    rw [hsource] at h
    simp only at h ⊢
    rw [exec_disk_bind]
    cases hholds : world.disk.holds config.path with
    | false => exact ⟨_, rfl, rfl⟩
    | true =>
      rw [hholds, if_pos rfl, Option.map_eq_none_iff] at h
      have hpath : World.refusal? { world with calls := world.calls ++ [.watch config.source] }
          config.path = none := h
      simp only [if_true]
      rw [exec_bind, exec_watch, hpath]
      exact ⟨_, rfl, rfl⟩

theorem shows_build_logs (config : Config) : Shows (fun p => p.isLog = true) config.build :=
  Config.shows_buildIn (fun _ _ => rfl) .serial config

/-- A session whose new configuration can be watched builds the whole site and shows what came of
it. -/
theorem exec_reload_of_none {config : Config} {world : World}
    (h : Config.ofInvocation world.disk session.invocation = .ok config)
    (hnone : world.watchFailure? config = none) :
    ∃ session' world' logs success message, session.reload.exec world = (.ok session', world') ∧
      session'.status = ⟨Status.lineCount message⟩ ∧ (∀ p ∈ logs, p.isLog = true) ∧
      world'.shown = world.shown ++ (logs ++ [.status 0 success message]) := by
  obtain ⟨watching, hwatch, hwatching⟩ :=
    exec_watchPaths_of_none (unwatched session.config world) hnone
  rw [reload, exec_disk_bind, h]
  simp only [exec_bind, exec_unwatchPaths]
  rw [← exec_bind, exec_outcome_bind, hwatch]
  simp only
  rw [exec_log_bind, exec_outcome_bind, hwatching]
  have hunwatched : (unwatched session.config world).shown = world.shown := rfl
  let logs : List Printed := [.log "watch" ("watching " ++ config.source.shown config.rootPath),
    .log "watch" "config changed, rebuilding..."]
  let started : World := { watching with shown := world.shown ++ logs }
  obtain ⟨built, hbuilt, hshown⟩ := shows_build_logs config started
  have hstarted : started = { watching with
      shown := world.shown ++ [.log "watch" ("watching " ++ config.source.shown config.rootPath)]
        ++ [.log "watch" "config changed, rebuilding..."] } := by
    simp [started, logs]
  have hlogs : ∀ p ∈ logs ++ built, p.isLog = true := by
    simpa [logs, Printed.isLog] using hbuilt
  have hended : (config.build.exec started).2.shown = world.shown ++ (logs ++ built) := by
    rw [hshown, ← List.append_assoc]
  have hreport (block : Printed) : (config.build.exec started).2.shown ++ [block]
      = world.shown ++ (logs ++ built ++ [block]) := by
    rw [hended, List.append_assoc]
  rw [hunwatched, ← hstarted]
  cases hresult : (config.build.exec started).1 with
  | ok summary => exact ⟨_, _, _, true, _, exec_succeed _ _ _, rfl, hlogs, hreport _⟩
  | error error => exact ⟨_, _, _, false, _, exec_fail _ _ _ _, rfl, hlogs, hreport _⟩

/-- A session that loads its configuration again always shows a status block. -/
theorem exec_reload_answers (session : Session) (world : World)
    (hconfig : (paths.any fun path =>
      Category.ofPath world.disk session.config path = .config) = true) :
    ∃ session' world' printed, session.reload.exec world = (.ok session', world') ∧
      world'.shown = world.shown ++ printed ∧
      session.Answers session' (session.detaches world paths) paths printed := by
  cases hload : Config.ofInvocation world.disk session.invocation with
  | error error =>
    have hdetaches : session.detaches world paths = false := by
      rw [detaches, hload, hconfig]
      rfl
    rw [exec_reload_of_error hload, exec_fail, hdetaches]
    exact ⟨_, _, _, rfl, rfl, answers_status rfl⟩
  | ok config =>
    have hdetaches : session.detaches world paths = (world.watchFailure? config).isNone := by
      rw [detaches, hload, hconfig]
      rfl
    rw [hdetaches]
    cases hwatch : world.watchFailure? config with
    | some failure =>
      rw [exec_reload_of_failure hload hwatch, exec_fail]
      exact ⟨_, _, _, rfl, rfl, answers_status rfl⟩
    | none =>
      obtain ⟨session', world', logs, success, message, hexec, hstatus, hlogs, hshown⟩ :=
        exec_reload_of_none hload hwatch
      have hanswers : session.Answers session' true paths
          (logs ++ [.status (if true then 0 else session.status.lines) success message]) :=
        .block hlogs (by simp) success message hstatus
      exact ⟨session', world', _, hexec, hshown, hanswers⟩

/-- A session always goes on, and what it shows for changes has the shape of an answer. -/
theorem exec_handle_answers (session : Session) (paths : List Path) (world : World) :
    ∃ session' full world' printed,
      (session.handle paths).exec world = (.ok (session', full), world') ∧
      world'.shown = world.shown ++ printed ∧
      session.Answers session' (session.detaches world paths) paths printed := by
  cases hconfig : paths.any fun path =>
      Category.ofPath world.disk session.config path = .config with
  | true =>
    obtain ⟨session', world', printed, hexec, hshown, hanswers⟩ :=
      exec_reload_answers session world hconfig
    refine ⟨session', true, world', printed, ?_, hshown, hanswers⟩
    rw [handle, exec_disk_bind, hconfig, if_pos rfl, exec_bind, hexec]
    rfl
  | false =>
    have hdetaches : session.detaches world paths = false := by
      rw [detaches, hconfig, Bool.false_and]
    have htargets : ∀ target ∈ targets world.disk session.config paths, target.1 ∈ paths := by
      intro target htarget
      obtain ⟨path, hpath, rfl⟩ := List.mem_map.1 (List.mem_filter.1 htarget).1
      exact hpath
    obtain ⟨session', world', printed, hexec, hshown, -, hanswers⟩ :=
      exec_rebuild_answers session _ [] world htargets
    rw [hdetaches]
    exact ⟨session', false, world', printed, exec_handle (by simpa using hconfig) hexec, hshown,
      hanswers⟩

end Session

end Pagewright
