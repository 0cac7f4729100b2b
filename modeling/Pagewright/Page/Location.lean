import Pagewright.Directive.Builtin
import Pagewright.Page.FrontMatter
import Pagewright.Path.Basic

/-!
# Where a page goes

A template is a file whose name ends with `.blade` or `.blade.php`. A page gets a directory of its
own with an `index.php` in it, unless it is an index itself or its settings name another place
(`Location.output`). A template below one of the convention directories is a partial and keeps its
place (`Location.compiledPath`).
-/

namespace Pagewright

namespace Location

open scoped Pagewright.Path

/-- The name of the file that answers for a directory. -/
def indexName : Text := "index.php"

/-- The name of a template without its extension. -/
def stem? (name : Text) : Option Text :=
  ((name.before? ".blade.php").orElse fun _ => name.before? ".blade").filter (· ≠ [])

/-- Whether a file is a template. -/
def isTemplate (path : Path) : Bool :=
  path.fileName?.any fun name => (stem? name).isSome

/-- The path with the extension of templates replaced. -/
def compiledPath (path : Path) : Path :=
  match stem? (path.fileName?.getD []) with
  | some stem => path.withFileName (stem ++ ".php")
  | none => path

/-- Whether a path ends with an extension of small letters. -/
def hasExtension (path : Text) : Bool :=
  match Path.splitLast? '.' ((Text.parts '/' path).getLastD []) with
  | some (_, extension) => extension ≠ [] && extension.all Char.isLower
  | none => false

/-- A permalink without blanks and slashes around it. -/
def trimmed (permalink : Text) : Text :=
  let isSlash (c : Char) : Bool := c = '/'
  ((permalink.trim.reverse.dropWhile isSlash).reverse).dropWhile isSlash

/-- Whether a path stays below the directory that it is counted from. -/
def staysBelow (path : Path) : Bool :=
  path.components.all fun component =>
    match component with
    | .normal _ => true
    | .current => true
    | _ => false

/-- The output path that a permalink asks for. -/
def ofPermalink (permalink : Text) : Except PageError Path :=
  let path : Path := ⟨trimmed permalink⟩
  if !staysBelow path then .error (.outputPath permalink)
  else if path.text = [] then .ok ⟨indexName⟩
  else if hasExtension path.text then .ok path
  else .ok (path.join ⟨indexName⟩)

/-- The output path of a page. -/
def output (source : Path) : (permalink : Option Text) → Except PageError Path
  | some permalink => ofPermalink permalink
  | none =>
    let path := compiledPath source
    if path.fileName? = some indexName then .ok path
    else .ok (path.withoutExtension.join ⟨indexName⟩)

/-- The address of an output path: an index answers for its directory. -/
def url (output : Path) : Text :=
  let path : Text := output.text.map fun c => if c = '\\' then '/' else c
  if path = indexName then "/"
  else '/' :: (path.before? ('/' :: indexName)).getD path

end Location

/-- Whether a template lies below one of the convention directories. -/
def Conventions.isPartial (dirs : Conventions) (source : Path) : Bool :=
  ((source.parent?.map Path.components).getD []).any fun component =>
    component.text ∈ dirs.names

end Pagewright
