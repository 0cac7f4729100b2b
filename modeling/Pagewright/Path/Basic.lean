import Pagewright.Text.Basic

/-!
# Paths

A path keeps the text that it was written as, because that is what is printed, but what it means
is the list of its components (`Path.components`): an optional root, a leading `.`, names and
`..`. Repeated slashes, a slash at the end and a `.` anywhere but at the start mean nothing. Two
paths are compared, sorted and stripped by components (`Path.same`, `Path.precedes`,
`Path.relativeTo?`).
-/

namespace Pagewright

/-- A path as it was written. -/
structure Path where
  text : Text
  deriving Repr, DecidableEq

/-- One step of a path. -/
inductive Component where
  | root
  | current
  | parent
  | normal (name : Text)
  deriving Repr, DecidableEq

namespace Component

/-- The text of a component. -/
def text : Component → Text
  | .root => "/"
  | .current => "."
  | .parent => ".."
  | .normal name => name

/-- The root sorts first, then `.`, then `..`, then the names in order. -/
def precedes : Component → Component → Bool
  | .root, .root => false
  | .root, _ => true
  | .current, .root => false
  | .current, .current => false
  | .current, _ => true
  | .parent, .normal _ => true
  | .parent, _ => false
  | .normal a, .normal b => a.precedes b
  | .normal _, _ => false

/-- The component that a segment between slashes stands for; an empty segment and `.` stand for
none. -/
def ofSegment? (segment : Text) : Option Component :=
  if segment = [] ∨ segment = ['.'] then none
  else if segment = ['.', '.'] then some .parent
  else some (.normal segment)

end Component

/-- How a path starts. -/
inductive Lead where
  | root
  | current
  | none
  deriving Repr, DecidableEq

/-- A path taken apart: how it starts, and the segments between its slashes. -/
structure Segments where
  lead : Lead
  body : List Text
  deriving Repr, DecidableEq

namespace Segments

/-- The segments of a path. -/
def ofText : Text → Segments
  | [] => ⟨.none, []⟩
  | '/' :: rest => ⟨.root, Text.parts '/' rest⟩
  | ['.'] => ⟨.current, []⟩
  | '.' :: '/' :: rest => ⟨.current, Text.parts '/' rest⟩
  | text => ⟨.none, Text.parts '/' text⟩

/-- The path that the segments spell. -/
def text : Segments → Text
  | ⟨.root, body⟩ => '/' :: List.intercalate "/" body
  | ⟨.current, body⟩ => '.' :: body.flatMap fun segment => '/' :: segment
  | ⟨.none, body⟩ => List.intercalate "/" body

/-- The components of a path. -/
def components (s : Segments) : List Component :=
  let lead :=
    match s.lead with
    | .root => [Component.root]
    | .current => [Component.current]
    | .none => []
  lead ++ s.body.filterMap Component.ofSegment?

/-- Whether a segment stands for a component. -/
def isMeant (segment : Text) : Bool :=
  (Component.ofSegment? segment).isSome

/-- The segments without those at the end that mean nothing. -/
def trimRight (body : List Text) : List Text :=
  (body.reverse.dropWhile fun segment => !isMeant segment).reverse

/-- The segments behind the first `n` that mean something. -/
def dropMeant : (n : Nat) → List Text → List Text
  | 0, body => body
  | _ + 1, [] => []
  | n + 1, segment :: body => if isMeant segment then dropMeant n body else dropMeant (n + 1) body

end Segments

namespace Path

scoped instance : Coe String Path := ⟨fun s => ⟨s.toList⟩⟩

/-- The path taken apart. -/
def segments (path : Path) : Segments :=
  Segments.ofText path.text

/-- What a path means. -/
def components (path : Path) : List Component :=
  path.segments.components

/-- Whether two paths mean the same. -/
def same (a b : Path) : Bool :=
  a.components = b.components

/-- Whether one list of components sorts before another. -/
def listPrecedes : List Component → List Component → Bool
  | _, [] => false
  | [], _ :: _ => true
  | a :: as, b :: bs => a.precedes b || (a == b && listPrecedes as bs)

/-- Whether one path sorts before another. -/
def precedes (a b : Path) : Bool :=
  listPrecedes a.components b.components

/-- Whether a path starts at the root. -/
def isAbsolute (path : Path) : Bool :=
  path.text.head? = some '/'

/-- The path of the directory that a path lies in; `none` for the root and the empty path. -/
def parent? (path : Path) : Option Path :=
  let s := path.segments
  match (Segments.trimRight s.body).reverse with
  | _ :: before => some ⟨Segments.text ⟨s.lead, Segments.trimRight before.reverse⟩⟩
  | [] => if s.lead = .current then some ⟨[]⟩ else none

/-- The last component, when it is a name. -/
def fileName? (path : Path) : Option Text :=
  match (Segments.trimRight path.segments.body).reverse with
  | name :: _ => if name = ['.', '.'] then none else some name
  | [] => none

/-- A path below another one. An absolute path stays as it is. -/
def join (path child : Path) : Path :=
  if child.isAbsolute then child
  else
    match path.text.getLast? with
    | none => child
    | some c => ⟨path.text ++ (if c = '/' then ([] : Text) else "/") ++ child.text⟩

/-- The path with its last name replaced. -/
def withFileName (path : Path) (name : Text) : Path :=
  match path.fileName? with
  | some _ => (path.parent?.getD path).join ⟨name⟩
  | none => path.join ⟨name⟩

/-- The parts of a text before and behind the last occurrence of a mark. -/
def splitLast? (mark : Char) (text : Text) : Option (Text × Text) :=
  (Text.cut? text.reverse [mark]).map fun (behind, before) => (before.reverse, behind.reverse)

/-- The parts of a file name before and behind its last dot. A dot at the start of the name does
not count. -/
def splitExtension? (name : Text) : Option (Text × Text) :=
  (splitLast? '.' name).filter fun (stem, _) => stem ≠ []

/-- What follows the last dot of the file name. -/
def extension? (path : Path) : Option Text :=
  path.fileName?.bind fun name => (splitExtension? name).map Prod.snd

/-- The path up to the end of its file name, less the extension. The dot goes with the extension,
except at the end of a path whose name is nothing but a dot before it: both dots stay there. -/
def withoutExtension (path : Path) : Path :=
  let s := path.segments
  let body := Segments.trimRight s.body
  match path.fileName? with
  | some name =>
    let stem : Text :=
      match splitExtension? name with
      | some (stem, _) => if stem = ['.'] ∧ body = s.body then ['.', '.'] else stem
      | none => name
    ⟨Segments.text ⟨s.lead, body.dropLast ++ [stem]⟩⟩
  | none => path

/-- The rest of a path below `base`; `none` when the path does not start with it. -/
def relativeTo? (path base : Path) : Option Path :=
  let s := path.segments
  let components := path.components
  let n := base.components.length
  if components.take n ≠ base.components then none
  else if n = 0 then some ⟨Segments.text ⟨s.lead, Segments.trimRight s.body⟩⟩
  else
    let passed := if s.lead = .none then n else n - 1
    let rest := (Segments.dropMeant passed s.body).dropWhile fun segment =>
      !Segments.isMeant segment
    some ⟨List.intercalate "/" (Segments.trimRight rest)⟩

/-- Whether a path starts with the components of another one. -/
def startsWith (path base : Path) : Bool :=
  path.components.take base.components.length = base.components

/-- The way back from the directory of a path to where the path starts, one `/..` for every name
of a directory. -/
def wayUp (path : Path) : Text :=
  let dirs := (path.parent?.map components).getD []
  (dirs.filter fun c => match c with | .normal _ => true | _ => false).flatMap fun _ => "/.."

end Path

end Pagewright
