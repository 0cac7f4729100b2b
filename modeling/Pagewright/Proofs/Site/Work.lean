import Mathlib.Tactic.Simproc.ExistsAndEq
import Pagewright.Site.Work

/-!
# What becomes of the disk

A step of a build is run on a world (`Work.exec`). It may fail half way, and the disk then stays as
it is by that time, so that there are two kinds of laws. `Work.Ends` says that a step ends with a
result and leaves a disk, and has one law for each way to put steps together. What a step does to
the disk whether it fails or not is read off `Work.exec` itself.
-/

namespace Pagewright

namespace Work

variable {ε α β : Type}

/-- Run a step: its result, and the world that it leaves. -/
def exec (work : Work ε α) (world : World) : Except ε α × World :=
  work.run.run world

/-- A step ends with a result and leaves a disk. -/
def Ends (work : Work ε α) (world : World) (a : α) (disk : Disk) : Prop :=
  ∃ world', work.exec world = (.ok a, world') ∧ world'.disk = disk

variable {world : World} {a : α} {b : β} {disk' : Disk}

/-- Work that ends with a disk leaves that disk. -/
theorem Ends.disk_eq {work : Work ε α} (h : work.Ends world a disk') :
    (work.exec world).2.disk = disk' := by
  obtain ⟨world', hexec, hdisk⟩ := h
  rw [hexec, hdisk]

theorem eq_ok_of_toOption {result : Except ε α} (h : result.toOption = some a) :
    result = .ok a := by
  cases result with
  | error e => cases h
  | ok b => rw [Option.some.inj h]

theorem exists_error_of_toOption {result : Except ε α} (h : result.toOption = none) :
    ∃ error, result = .error error := by
  cases result with
  | error error => exact ⟨error, rfl⟩
  | ok a => cases h

/-- Work ends with what can be read off its result and its disk. -/
theorem ends_of_toOption {work : Work ε α} (h : (work.exec world).1.toOption = some a)
    (hdisk : (work.exec world).2.disk = disk') : work.Ends world a disk' :=
  ⟨(work.exec world).2, Prod.ext (eq_ok_of_toOption h) rfl, hdisk⟩

/-- Two steps are run one after the other, the second one only if the first has succeeded. -/
theorem exec_bind (work : Work ε α) (f : α → Work ε β) (world : World) :
    (work >>= f).exec world =
      match work.exec world with
      | (.ok a, world') => (f a).exec world'
      | (.error e, world') => (.error e, world') := by
  show (ExceptT.bindCont f (work.run.run world).1).run (work.run.run world).2 = _
  unfold exec
  cases h : (work.run.run world) with
  | mk result world' => cases result <;> rfl

/-- Two steps succeed when the first does and then the second. -/
theorem exec_bind_eq_ok_iff {work : Work ε α} {f : α → Work ε β} {world' : World} :
    (work >>= f).exec world = (.ok b, world') ↔
      ∃ a between, work.exec world = (.ok a, between) ∧ (f a).exec between = (.ok b, world') := by
  rw [exec_bind]
  cases h : work.exec world with
  | mk result between => cases result <;> simp

/-- Two steps end when the first has succeeded and the second ends. -/
theorem ends_bind_iff {work : Work ε α} {f : α → Work ε β} :
    (work >>= f).Ends world b disk' ↔
      ∃ a between, work.exec world = (.ok a, between) ∧ (f a).Ends between b disk' := by
  constructor
  · rintro ⟨world', h, hdisk⟩
    obtain ⟨a, between, hwork, hrest⟩ := exec_bind_eq_ok_iff.1 h
    exact ⟨a, between, hwork, world', hrest, hdisk⟩
  · rintro ⟨a, between, hwork, world', hrest, hdisk⟩
    exact ⟨world', exec_bind_eq_ok_iff.2 ⟨a, between, hwork, hrest⟩, hdisk⟩

theorem ends_pure_iff {a' : α} :
    (pure a' : Work ε α).Ends world a disk' ↔ a' = a ∧ world.disk = disk' := by
  constructor
  · rintro ⟨_, h, rfl⟩
    cases h
    exact ⟨rfl, rfl⟩
  · rintro ⟨rfl, rfl⟩
    exact ⟨world, rfl, rfl⟩

theorem exec_disk_bind (f : Disk → Work ε β) (world : World) :
    (Work.disk >>= f).exec world = (f world.disk).exec world :=
  rfl

theorem ends_disk_bind_iff {f : Disk → Work ε β} :
    (Work.disk >>= f).Ends world b disk' ↔ (f world.disk).Ends world b disk' := by
  rfl

/-- A log line is added to what is shown. -/
theorem exec_log_bind (topic message : Text) (f : Unit → Work ε β) (world : World) :
    (Work.log topic message >>= f).exec world =
      (f ()).exec { world with shown := world.shown ++ [.log topic message] } :=
  rfl

theorem ends_log_bind_iff {topic message : Text} {f : Unit → Work ε β} :
    (Work.log topic message >>= f).Ends world b disk' ↔
      (f ()).Ends { world with shown := world.shown ++ [.log topic message] } b disk' := by
  rfl

/-- A path is watched unless the watcher does not take it. -/
theorem exec_watch (path : Path) (failure : Text → ε) (world : World) :
    (Work.watch path failure).exec world =
      match world.refusal? path with
      | some reason => (.error (failure reason), world)
      | none => (.ok (), { world with calls := world.calls ++ [.watch path] }) := by
  have h : (Work.watch path failure).exec world = (match world.refusal? path with
      | some reason => throw (failure reason)
      | none => Work.call (.watch path) : Work ε Unit).exec world := rfl
  rw [h]
  cases world.refusal? path <;> rfl

/-- A change of the disk is made, or fails and leaves the disk alone. -/
theorem exec_change (f : Disk → Except Disk.Error Disk) (failure : Disk.Error → ε)
    (world : World) :
    (Work.change f failure).exec world =
      match f world.disk with
      | .ok disk => (.ok (), { world with disk })
      | .error error => (.error (failure error), world) := by
  have h : (Work.change f failure).exec world = (match f world.disk with
      | .ok disk => modify fun world => { world with disk }
      | .error error => throw (failure error) : Work ε Unit).exec world := rfl
  rw [h]
  cases f world.disk <;> rfl

/-- Work behind a change ends when the change can be made. -/
theorem ends_change_bind_iff {f : Disk → Except Disk.Error Disk} {failure : Disk.Error → ε}
    {g : Unit → Work ε β} :
    (Work.change f failure >>= g).Ends world b disk' ↔
      ∃ disk, f world.disk = .ok disk ∧ (g ()).Ends { world with disk } b disk' := by
  rw [ends_bind_iff, exec_change]
  cases h : f world.disk with
  | error e => simp
  | ok disk =>
    constructor
    · rintro ⟨_, _, hchange, hrest⟩
      cases hchange
      exact ⟨disk, rfl, hrest⟩
    · rintro ⟨_, hdisk, hrest⟩
      cases hdisk
      exact ⟨(), _, rfl, hrest⟩

/-- What looks at the outcome of work goes on whether it has failed or not. -/
theorem exec_outcome_bind {ε' : Type} (work : Work ε α) (f : Except ε α → Work ε' β)
    (world : World) :
    (Work.outcome work >>= f).exec world =
      (f (work.exec world).1).exec (work.exec world).2 :=
  rfl

theorem exec_lift_bind (a : α) (f : α → Work ε β) (world : World) :
    ((liftM (Except.ok a : Except ε α) : Work ε α) >>= f).exec world = (f a).exec world :=
  rfl

/-- Work behind a result ends when there is one. -/
theorem ends_lift_bind_iff {result : Except ε α} {f : α → Work ε β} :
    ((liftM result : Work ε α) >>= f).Ends world b disk' ↔
      ∃ a, result = .ok a ∧ (f a).Ends world b disk' := by
  rw [ends_bind_iff]
  have h : (liftM result : Work ε α).exec world = (result, world) := rfl
  simp [h]

end Work

end Pagewright
