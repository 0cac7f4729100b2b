import Pagewright.Console.Printed
import Pagewright.Disk.Basic

/-!
# Work

A build reads and changes the disk and shows what it does. `Work` is a step of it that may fail;
whatever it has changed and shown by then stays so. To watch files is left to a watcher, which may
refuse to (`Work.watch`).
-/

namespace Pagewright

/-- A call to the watcher of files. -/
inductive WatchCall where
  | watch (path : Path)
  | unwatch (path : Path)
  deriving Repr, DecidableEq

/-- What a run of the program works on. -/
structure World where
  disk : Disk
  /-- What has been shown, in order. -/
  shown : List Printed := []
  /-- The calls to the watcher, in order. -/
  calls : List WatchCall := []
  /-- Why the watcher does not take a path at which there is something, if it does not. -/
  refused : Path → Option Text := fun _ => none

/-- Why the watcher does not take a path, if it does not. -/
def World.refusal? (world : World) (path : Path) : Option Text :=
  if world.disk.holds path then world.refused path else some "No path was found."

/-- A step that works on the world and may fail. -/
abbrev Work (ε α : Type) := ExceptT ε (StateM World) α

namespace Work

variable {ε : Type}

/-- The disk as it is now. -/
def disk : Work ε Disk := do
  return (← get).disk

/-- Show something. -/
def print (printed : Printed) : Work ε Unit :=
  modify fun world => { world with shown := world.shown ++ [printed] }

/-- Show a log line. -/
def log (topic message : Text) : Work ε Unit :=
  print (.log topic message)

/-- Call the watcher of files. -/
def call (call : WatchCall) : Work ε Unit :=
  modify fun world => { world with calls := world.calls ++ [call] }

/-- Have a path watched. -/
def watch (path : Path) (failure : Text → ε) : Work ε Unit := do
  match (← get).refusal? path with
  | some reason => throw (failure reason)
  | none => call (.watch path)

/-- Change the disk. -/
def change (f : Disk → Except Disk.Error Disk) (failure : Disk.Error → ε) : Work ε Unit := do
  match f (← disk) with
  | .ok disk => modify fun world => { world with disk }
  | .error error => throw (failure error)

/-- A step that cannot fail, its failure being a value. -/
def outcome {ε' α : Type} (work : Work ε α) : Work ε' (Except ε α) :=
  ExceptT.mk ((fun result => Except.ok result) <$> work.run)

end Work

end Pagewright
