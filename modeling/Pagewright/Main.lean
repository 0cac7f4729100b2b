import Pagewright.Disk.Difference
import Pagewright.Program
import Std.Time.DateTime.Timestamp

/-!
# The command line program

Reads the directories that a command line names, runs it on that copy of the disk, and does to the
real disk what the run has done to the copy. To watch a site, it looks for changed files again and
again.
-/

namespace Pagewright

namespace Shell

/-- The place of an absolute path. -/
def placeOf (path : String) : Place :=
  (Text.parts '/' path.toList).filter (· ≠ [])

/-- The path of a place. -/
def pathOf (place : Place) : String :=
  String.ofList (Disk.pathOf place).text

/-- Everything below a directory. -/
partial def readTree (directory : String) : IO (List (Place × Entry)) := do
  let mut entries : List (Place × Entry) := []
  for found in ← (← IO.FS.realPath directory).readDir do
    let path := found.path.toString
    let data ← found.path.metadata
    let modified := data.modified.sec
    match data.type with
    | .dir => entries := (placeOf path, .directory modified) :: (← readTree path) ++ entries
    | .file =>
      let bytes := (← IO.FS.readBinFile path).toList
      entries := (placeOf path, .file { bytes, modified }) :: entries
    | _ => pure ()
  return entries

/-- The directories that a command line is about. -/
def directories (invocation : Invocation) : List String :=
  let file :=
    match invocation.command with
    | .compile file _ _ => file.parent?.toList
    | _ => []
  let given :=
    invocation.root.toList ++ invocation.source.toList ++ invocation.output.toList ++ file
  "." :: (given.map fun path => String.ofList path.text).filter (· ≠ "")

/-- The part of the disk that a command line is about. -/
def readDisk (invocation : Invocation) : IO Disk := do
  let workDir := placeOf (← IO.currentDir).toString
  let now := (← Std.Time.Timestamp.now).toSecondsSinceUnixEpoch.val
  let mut disk : Disk := { workDir, now }
  for directory in directories invocation do
    let real ← IO.FS.realPath directory
    if ← real.isDir then
      let place := placeOf real.toString
      for n in List.range (place.length + 1) do
        disk := disk.set (place.take n) (.directory now)
      for (place, entry) in ← readTree directory do
        disk := disk.set place entry
  return disk

/-- Do something to the real disk. -/
def perform : Disk.Action → IO Unit
  | .removeFile place => IO.FS.removeFile (pathOf place)
  | .removeDirectory place => IO.FS.removeDir (pathOf place)
  | .makeDirectory place => IO.FS.createDirAll (pathOf place)
  | .writeFile place bytes => IO.FS.writeBinFile (pathOf place) ⟨bytes.toArray⟩

/-- How many characters a line of the terminal has. -/
def terminalWidth : IO Nat := do
  return ((← IO.getEnv "COLUMNS").bind String.toNat?).getD Console.usualWidth

/-- Show what a run has shown, and do what it has done. -/
def finish (before : Disk) (world : World) : IO Unit := do
  (before.actions world.disk).forM perform
  let output ← IO.getStdout
  let color ← output.isTty
  let time := Console.clock before.now.toNat
  let width ← terminalWidth
  for printed in world.shown do
    output.putStr (String.ofList (printed.text color time width))
  output.flush

/-- How long to wait before looking for changes again, in milliseconds. -/
def interval : Nat := 100

/-- Wait for changes and react to them, for ever. -/
partial def watch (session : Session) (debouncer : Debouncer) (known : Disk) : IO UInt32 := do
  IO.sleep (UInt32.ofNat interval)
  let disk ← readDisk session.invocation
  let changes := known.changed disk
  let debouncer := debouncer.pass interval
  let debouncer :=
    if changes = [] || debouncer.inCooldown then debouncer else debouncer.add changes
  if debouncer.ready then
    let (paths, debouncer) := debouncer.take
    let (result, world) := (session.handle paths).run.run { disk }
    finish disk world
    let known ← readDisk session.invocation
    match result with
    | .ok (session, full) => watch session (if full then debouncer.markBuild else debouncer) known
    | .error _ => watch session debouncer known
  else watch session debouncer disk

end Shell

end Pagewright

open Pagewright in
/-- The program. -/
def main (args : List String) : IO UInt32 := do
  match CommandLine.read (args.map String.toList) with
  | .error error =>
    IO.print (String.ofList (Program.usageText error))
    return UInt32.ofNat (Program.usageCode error)
  | .ok invocation =>
    let disk ← Shell.readDisk invocation
    let ((code, session), world) := Program.run invocation { disk }
    Shell.finish disk world
    match session with
    | none => return UInt32.ofNat code
    | some session => Shell.watch session {} (← Shell.readDisk invocation)
