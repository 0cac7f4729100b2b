import Pagewright.Disk.Times
import Pagewright.Page.Location
import Pagewright.Site.Config

/-!
# Kinds of files

What has to be done when a file changes depends on where it is: the configuration file asks for a
full build, templates and other files below the source directory for themselves, and the output
directory for nothing, even where it lies below the source directory.
-/

namespace Pagewright

/-- The kinds of files of a site. -/
inductive Category where
  | template
  | static
  | config
  | unknown
  deriving Repr, DecidableEq

namespace Category

/-- The name of a kind. -/
def name : Category → Text
  | .template => "template"
  | .static => "static"
  | .config => "config"
  | .unknown => "unknown"

/-- The absolute form of a path. A file that is gone is found through its directory. -/
def absolute (disk : Disk) (path : Path) : Path :=
  let inDirectory := do
    let parent ← path.parent?
    let name ← path.fileName?
    let parent ← disk.canonical? parent
    return parent.join ⟨name⟩
  match disk.canonical? path <|> inDirectory with
  | some found => found
  | none => if path.isAbsolute then path else (Disk.pathOf disk.workDir).join path

/-- The kind of a file of the site. -/
def ofPath (disk : Disk) (config : Config) (path : Path) : Category :=
  let path := absolute disk path
  if path.same config.path then .config
  else if path.startsWith config.output then .unknown
  else if path.startsWith config.source then
    if Location.isTemplate path then .template else .static
  else .unknown

end Category

/-- When what all pages depend on besides their templates was last changed: the configuration
file. -/
def Config.modified? (disk : Disk) (config : Config) : Option Int :=
  disk.latest? config.path

end Pagewright
