import Pagewright.Disk.Times

/-!
# The difference of two disks

A run works on a copy of the disk. `Disk.actions` lists what has to be done to the real one
afterwards, and `Disk.changed` the files that differ.
-/

namespace Pagewright

namespace Disk

/-- A change of a disk, at a place. -/
inductive Action where
  | removeFile (place : Place)
  | removeDirectory (place : Place)
  | makeDirectory (place : Place)
  | writeFile (place : Place) (bytes : List UInt8)
  deriving Repr, DecidableEq

/-- The entries in the order of their places, a directory before what is in it. -/
def sorted (disk : Disk) : List (Place × Entry) :=
  disk.entries.mergeSort fun a b => !placePrecedes b.1 a.1

/-- What has to be removed from a disk to turn it into another one, the innermost first. -/
def removals (old new : Disk) : List Action :=
  old.sorted.reverse.filterMap fun (place, entry) =>
    match entry, new.entries.lookup place with
    | .file _, none | .file _, some (.directory _) => some (.removeFile place)
    | .directory _, none | .directory _, some (.file _) => some (.removeDirectory place)
    | _, _ => none

/-- What has to be written to a disk to turn it into another one, the outermost first. -/
def additions (old new : Disk) : List Action :=
  new.sorted.filterMap fun (place, entry) =>
    match entry, old.entries.lookup place with
    | .directory _, some (.directory _) => none
    | .directory _, _ => some (.makeDirectory place)
    | .file file, some (.file before) =>
      if file = before then none else some (.writeFile place file.bytes)
    | .file file, _ => some (.writeFile place file.bytes)

/-- What has to be done to a disk to turn it into another one. -/
def actions (old new : Disk) : List Action :=
  removals old new ++ additions old new

/-- The files of a disk that are new or differ from those of an earlier one. -/
def changed (old new : Disk) : List Path :=
  (additions old new).filterMap fun action =>
    match action with
    | .writeFile place _ => some (pathOf place)
    | _ => none

end Disk

end Pagewright
