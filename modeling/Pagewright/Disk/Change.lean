import Pagewright.Disk.Basic

/-!
# Changing the disk

Every operation gives the changed disk, or says why nothing was changed. What is written gets the
time `Disk.now`.
-/

namespace Pagewright

namespace Disk

/-- Write a file, in the place of an older one. -/
def write (disk : Disk) (path : Path) (bytes : List UInt8) : Except Error Disk := do
  let place ← disk.resolve path
  match disk.get? place with
  | some (.directory _) => throw .isADirectory
  | _ => return disk.set place (.file { bytes, modified := disk.now })

/-- Make a directory in one that is there. -/
def createDirectory (disk : Disk) (path : Path) : Except Error Disk := do
  let isSlash (c : Char) : Bool := c = '/'
  let trimmed := (path.text.reverse.dropWhile isSlash).reverse
  let place ← disk.resolve (if trimmed = [] then path else ⟨trimmed⟩)
  match disk.get? place with
  | some _ => throw .alreadyExists
  | none => return disk.set place (.directory disk.now)

/-- Make a directory, and those around it that are missing. -/
def createFrom : (fuel : Nat) → Disk → Path → Except Error Disk
  | 0, _, _ => .error .notFound
  | fuel + 1, disk, path =>
    let create (disk : Disk) : Except Error Disk :=
      match disk.createDirectory path with
      | .ok disk => .ok disk
      | .error e => if disk.isDirectory path then .ok disk else .error e
    match disk.createDirectory path with
    | .error .notFound =>
      match path.parent? with
      | some parent => (createFrom fuel disk parent).bind create
      | none => .error .notFound
    | _ => create disk

/-- Make a directory, and those around it that are missing. -/
def createAll (disk : Disk) (path : Path) : Except Error Disk :=
  if path.text = [] then .ok disk else createFrom (path.components.length + 1) disk path

/-- Remove a directory and everything below it. -/
def removeAll (disk : Disk) (path : Path) : Except Error Disk := do
  match ← disk.find path with
  | (place, .directory _) => return disk.erase place
  | (_, .file _) => throw .notADirectory

/-- Remove a file, or a directory and everything below it. -/
def remove (disk : Disk) (path : Path) : Except Error Disk := do
  let (place, _) ← disk.find path
  return disk.erase place

/-- Set when something was last changed. -/
def touch (disk : Disk) (path : Path) (modified : Int) : Except Error Disk := do
  match ← disk.find path with
  | (place, .file file) => return disk.set place (.file { file with modified })
  | (place, .directory _) => return disk.set place (.directory modified)

/-- Copy a file. The target is emptied before the source is read, so a file copied onto itself
ends up empty. -/
def copy (disk : Disk) (source target : Path) : Except Error Disk := do
  match ← disk.find source with
  | (_, .directory _) => throw .notAFile
  | (_, .file _) =>
    let emptied ← disk.write target []
    emptied.write target (← emptied.read source)

end Disk

end Pagewright
