import Pagewright.Path.Basic

/-!
# Collecting changes

Files change in bursts. The debouncer collects the changed paths until nothing has changed for a
while (`Debouncer.ready`), and hands them over as one sorted batch (`Debouncer.take`). Two paths
that mean the same count as one. Right after a full build it is in cooldown: what changes then is
the build's own doing.
-/

namespace Pagewright

/-- What can happen to a file. A rename modifies both its ends. -/
inductive ChangeKind where
  | access
  | create
  | modify
  | remove
  | other
  | any
  deriving Repr, DecidableEq

/-- Whether a change asks for a rebuild. -/
def ChangeKind.isRelevant : ChangeKind → Bool
  | .create | .modify => true
  | _ => false

/-- Extensions of backups and of files that an editor keeps for itself. -/
def temporaryExtensions : List Text :=
  ["bck", "bak", "backup", "swp", "swo", "tmp"]

/-- Whether a file is a backup or belongs to an editor. -/
def Path.isTemporary (path : Path) : Bool :=
  path.extension?.any (· ∈ temporaryExtensions)
    || path.fileName?.any fun name => name.getLast? = some '~' || name.head? = some '.'

/-- The changes that have not been handed over. Times are in milliseconds. -/
structure Debouncer where
  /-- The changed paths, no two of the same meaning. -/
  pending : List Path := []
  /-- Time since the last change. -/
  sinceChange : Option Nat := none
  /-- Time since the last full build. -/
  sinceBuild : Option Nat := none

namespace Debouncer

/-- How long nothing may have changed before a batch is handed over. -/
def quietTime : Nat := 300

/-- How long changes are ignored after a full build. -/
def cooldownTime : Nat := 800

/-- How long to wait for changes while there are none. -/
def idleTime : Nat := 60000

/-- Whether a full build has only just ended. -/
def inCooldown (d : Debouncer) : Bool :=
  d.sinceBuild.any (· < cooldownTime)

/-- One more path, unless it is there already. -/
def insert (pending : List Path) (path : Path) : List Path :=
  if pending.any path.same then pending else pending ++ [path]

/-- A change of some paths. -/
def add (d : Debouncer) (paths : List Path) : Debouncer :=
  { d with
    pending := (paths.filter fun path => !path.isTemporary).foldl insert d.pending
    sinceChange := some 0 }

/-- Time passes. -/
def pass (d : Debouncer) (time : Nat) : Debouncer :=
  { d with sinceChange := d.sinceChange.map (· + time), sinceBuild := d.sinceBuild.map (· + time) }

/-- Whether a batch can be handed over. -/
def ready (d : Debouncer) : Bool :=
  !d.pending.isEmpty && d.sinceChange.any (quietTime ≤ ·)

/-- Hand over the batch, in the order of the paths. -/
def take (d : Debouncer) : List Path × Debouncer :=
  (d.pending.mergeSort fun a b => !b.precedes a, { d with pending := [], sinceChange := none })

@[simp]
theorem pending_pass (d : Debouncer) (time : Nat) : (d.pass time).pending = d.pending := rfl

@[simp]
theorem pending_take (d : Debouncer) : d.take.2.pending = [] := rfl

/-- A batch holds the pending paths and nothing else. -/
theorem perm_take (d : Debouncer) : d.take.1.Perm d.pending :=
  List.mergeSort_perm _ _

/-- A full build has ended. -/
def markBuild (d : Debouncer) : Debouncer :=
  { d with sinceBuild := some 0 }

/-- How long to wait for the next change. -/
def timeout (d : Debouncer) : Nat :=
  if d.pending.isEmpty then idleTime else quietTime

end Debouncer

end Pagewright
