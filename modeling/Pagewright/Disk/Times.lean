import Pagewright.Disk.Basic

/-!
# Walking the disk, and times

`Disk.files` lists the files below a directory in the order of their names, and
`Disk.isUpToDate` compares the times of two files.
-/

namespace Pagewright

namespace Disk

/-! ## Walking -/

/-- The order of places: name by name. -/
def placePrecedes : Place → Place → Bool
  | _, [] => false
  | [], _ :: _ => true
  | a :: as, b :: bs => Text.precedes a b || (a = b && placePrecedes as bs)

/-- The way from one place to another one below it. -/
def below? (base place : Place) : Option Place :=
  if place.take base.length = base then some (place.drop base.length) else none

/-- The files below a place, by the names that lead there from it, in order. -/
def filesBelow (disk : Disk) (base : Place) : List (Place × File) :=
  let found := disk.entries.filterMap fun (place, entry) =>
    match entry, below? base place with
    | .file file, some names => some (names, file)
    | _, _ => none
  found.mergeSort fun a b => !placePrecedes b.1 a.1

/-- Names of files that a desktop leaves behind. -/
def ignoredNames : List Text :=
  [".DS_Store", "Thumbs.db"]

/-- Whether a file is one that a desktop leaves behind. -/
def isIgnored (path : Path) : Bool :=
  path.fileName?.any (· ∈ ignoredNames)

/-- The files that a path leads to: itself, or all below it in order. -/
def walk (disk : Disk) (path : Path) : List (Path × File) :=
  match disk.find path with
  | .error _ => []
  | .ok (_, .file file) => [(path, file)]
  | .ok (place, .directory _) =>
    (disk.filesBelow place).map fun (names, file) =>
      (names.foldl (fun path name => path.join ⟨name⟩) path, file)

/-- The files that a path leads to, less the ignored ones. -/
def files (disk : Disk) (path : Path) : List Path :=
  ((disk.walk path).map Prod.fst).filter fun path => !isIgnored path

/-! ## Times -/

/-- When something was last changed. -/
def modified? (disk : Disk) (path : Path) : Option Int :=
  match disk.find path with
  | .ok (_, .file file) => some file.modified
  | .ok (_, .directory modified) => some modified
  | .error _ => none

/-- When a file was last changed, counted from 1970; zero when that is not known. -/
def seconds (disk : Disk) (path : Path) : Nat :=
  ((disk.modified? path).getD 0).toNat

/-- The latest change of a file, or of the files below a directory. -/
def latest? (disk : Disk) (path : Path) : Option Int :=
  ((disk.walk path).map fun (_, file) => file.modified).max?

/-- Whether `target` was changed last, after its source and whatever else it depends on. -/
def isUpToDate (disk : Disk) (source target : Path) (dependencies : Option Int) : Bool :=
  match disk.modified? source, disk.modified? target with
  | some source, some target => source ≤ target && dependencies.all (· ≤ target)
  | _, _ => false

end Disk

end Pagewright
