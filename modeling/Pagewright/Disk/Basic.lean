import Pagewright.Path.Basic
import Pagewright.Text.Utf8

/-!
# The disk

A disk is a finite map from places to files and directories. A place is the list of names that leads
to it from the root (`Place`), while a path is a text that has to be followed name by name
(`Disk.resolve`): on the way everything must be a directory, and `..` leads back up. There are no
links. A name has at most `Disk.maxName` bytes, and a path at most `Disk.maxPath`.
-/

namespace Pagewright

/-- A place on the disk: the names on the way to it from the root. -/
abbrev Place := List Text

/-- A file: its bytes and when it was last changed, in seconds. -/
structure File where
  bytes : List UInt8
  modified : Int
  deriving Repr, DecidableEq

/-- What can be at a place. -/
inductive Entry where
  | file (file : File)
  | directory (modified : Int)
  deriving Repr, DecidableEq

/-- The content of a disk, the directory that relative paths are counted from, and the time that a
file written now gets. -/
structure Disk where
  entries : List (Place × Entry) := []
  workDir : Place := []
  now : Int := 0
  deriving Repr, DecidableEq

namespace Disk

/-- Why the disk refuses something. -/
inductive Error where
  | notFound
  | isADirectory
  | notADirectory
  | alreadyExists
  | nameTooLong
  | nulCharacter
  | notAText
  | notAFile
  deriving Repr, DecidableEq

/-- The wording of an error. -/
def Error.message : Error → Text
  | .notFound => "No such file or directory (os error 2)"
  | .isADirectory => "Is a directory (os error 21)"
  | .notADirectory => "Not a directory (os error 20)"
  | .alreadyExists => "File exists (os error 17)"
  | .nameTooLong => "File name too long (os error 36)"
  | .nulCharacter => "file name contained an unexpected NUL byte"
  | .notAText => "stream did not contain valid UTF-8"
  | .notAFile => "the source path is neither a regular file nor a symlink to a regular file"

/-! ## Places -/

/-- The path of a place. -/
def pathOf (place : Place) : Path :=
  ⟨'/' :: List.intercalate "/" place⟩

/-- What is at a place. The root is always a directory. -/
def get? (disk : Disk) (place : Place) : Option Entry :=
  if place = [] then some (.directory disk.now) else disk.entries.lookup place

/-- The disk with an entry put at a place. -/
def set (disk : Disk) (place : Place) (entry : Entry) : Disk :=
  { disk with entries := (place, entry) :: disk.entries.filter fun (other, _) => other ≠ place }

/-- The disk without a place and everything below it. -/
def erase (disk : Disk) (place : Place) : Disk :=
  { disk with entries := disk.entries.filter fun (other, _) => other.take place.length ≠ place }

/-- What has been set somewhere stands there. -/
theorem get?_set_self {place : Place} (hp : place ≠ []) (disk : Disk) (entry : Entry) :
    (disk.set place entry).get? place = some entry := by
  simp [get?, set, hp]

theorem lookup_filter_ne {place other : Place} (h : other ≠ place) :
    ∀ entries : List (Place × Entry),
      (entries.filter fun (key, _) => key ≠ place).lookup other = entries.lookup other
  | [] => rfl
  | (key, old) :: rest => by
    have ih := lookup_filter_ne h rest
    by_cases hk : key = place
    · have hne : (other == key) = false := by simpa [hk] using h
      simpa [hk, hk ▸ hne, List.lookup_cons] using ih
    · cases hne : other == key with
      | true => simp [hk, hne, List.lookup_cons]
      | false => simpa [hk, hne, List.lookup_cons] using ih

/-- Other places are not concerned. -/
theorem get?_set_of_ne {place other : Place} (h : other ≠ place) (disk : Disk) (entry : Entry) :
    (disk.set place entry).get? other = disk.get? other := by
  have hne : (other == place) = false := by simpa using h
  simp only [get?, set, List.lookup_cons, hne, lookup_filter_ne h]

/-- The file at a place. -/
def file? (disk : Disk) (place : Place) : Option File :=
  match disk.get? place with
  | some (.file file) => some file
  | _ => none

/-! ## Paths -/

/-- How many bytes a name may have. -/
def maxName : Nat := 255

/-- How many bytes a path may have. -/
def maxPath : Nat := 4095

/-- From a directory one name on. -/
def step (disk : Disk) (place : Place) (segment : Text) : Except Error Place :=
  match disk.get? place with
  | none => .error .notFound
  | some (.file _) => .error .notADirectory
  | some (.directory _) =>
    if segment = [] || segment = ['.'] then .ok place
    else if segment = ['.', '.'] then .ok place.dropLast
    else if maxName < segment.byteSize then .error .nameTooLong
    else .ok (place ++ [segment])

/-- Where the names of a path begin. -/
def start (disk : Disk) (path : Path) : Place :=
  if path.isAbsolute then [] else disk.workDir

/-- The place that a path leads to. Nothing needs to be there. -/
def resolve (disk : Disk) (path : Path) : Except Error Place :=
  if '\x00' ∈ path.text then .error .nulCharacter
  else if path.text = [] then .error .notFound
  else if maxPath < path.text.byteSize then .error .nameTooLong
  else (Text.parts '/' path.text).foldlM disk.step (disk.start path)

/-- What a path leads to. -/
def find (disk : Disk) (path : Path) : Except Error (Place × Entry) := do
  let place ← disk.resolve path
  match disk.get? place with
  | some entry => return (place, entry)
  | none => throw .notFound

/-- Whether a path leads to anything. -/
def holds (disk : Disk) (path : Path) : Bool :=
  (disk.find path).toOption.isSome

/-- Whether a path leads to a file. -/
def isFile (disk : Disk) (path : Path) : Bool :=
  match disk.find path with
  | .ok (_, .file _) => true
  | _ => false

/-- Whether a path leads to a directory. -/
def isDirectory (disk : Disk) (path : Path) : Bool :=
  match disk.find path with
  | .ok (_, .directory _) => true
  | _ => false

/-- The shortest absolute path to something that is there. -/
def canonical? (disk : Disk) (path : Path) : Option Path :=
  (disk.find path).toOption.map fun (place, _) => pathOf place

/-- The bytes of a file. -/
def read (disk : Disk) (path : Path) : Except Error (List UInt8) := do
  match ← disk.find path with
  | (_, .file file) => return file.bytes
  | (_, .directory _) => throw .isADirectory

/-- The text of a file. -/
def readText (disk : Disk) (path : Path) : Except Error Text := do
  match Text.ofUtf8? (← disk.read path) with
  | some text => return text
  | none => throw .notAText

end Disk

end Pagewright
