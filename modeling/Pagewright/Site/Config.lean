import Pagewright.Compiler
import Pagewright.Disk.Basic
import Pagewright.Toml.Reader

/-!
# The configuration of a site

A site may have a configuration file with the sections `[build]`, `[build.dirs]` and
`[directives]`. Everything in it is optional, and nothing else may be in it. `Config.ofText` reads
a file, and `Config.problem?` finds the first thing in it that makes no sense.
-/

namespace Pagewright

open scoped Pagewright.Path

/-- The configuration of a site. -/
structure Config where
  /-- Where the configuration file is. -/
  path : Path := ""
  /-- Whether every template and file is logged. -/
  verbose : Bool := false
  /-- The directory that the others are counted from. -/
  root : Option Path := none
  source : Path := "source"
  output : Path := "public"
  /-- Whether a build empties the output directory first. -/
  clean : Bool := false
  safeOutput : Bool := true
  buffer : Option Text := none
  dirs : Conventions := {}
  /-- Directives of the site and their texts, in order of their names. -/
  directives : List (Text × Text) := []
  deriving Repr, DecidableEq

/-- What can make no sense in a configuration. -/
inductive Problem where
  | directoryName (field name : Text)
  | bufferName (name : Text)
  | directiveName (name : Text)
  | builtinDirective (name : Text)
  | sameDirectories
  deriving Repr, DecidableEq

/-- The wording of a problem. -/
def Problem.message : Problem → Text
  | .directoryName field name =>
    "[build.dirs." ++ field ++ "] must be a single directory name, got \x60" ++ name ++ "\x60"
  | .bufferName name => "[build.buffer] must be a PHP function name, got \x60" ++ name ++ "\x60"
  | .directiveName name => "[directives." ++ name ++ "] is not a valid directive name"
  | .builtinDirective name => "[directives." ++ name ++ "] shadows a built-in directive"
  | .sameDirectories => "[build.source] and [build.output] must differ"

/-- Why a site has no usable configuration. -/
inductive ConfigError where
  | unreadable (path : Path) (cause : Disk.Error)
  | malformed (cause : Toml.Error)
  | invalid (problem : Problem)
  deriving Repr, DecidableEq

/-- The wording of an error, less its cause. -/
def ConfigError.message : ConfigError → Text
  | .unreadable path _ => "IO error when reading \x60" ++ path.text ++ "\x60"
  | .malformed _ => "Config file parsing error"
  | .invalid problem => "Config validation error: " ++ problem.message

namespace Config

/-! ## Reading -/

/-- The fields of a section. They may also be given as a list, in order. -/
def sectionFields (names : List Text) (item : Toml.Item) : Except Toml.Error Toml.Fields :=
  match item with
  | .list items => .ok (names.zip items)
  | .tables earlier last => .ok (names.zip ((earlier ++ [last]).map (.table .header)))
  | _ =>
    match item.fields? with
    | some fields =>
      match fields.find? fun (name, _) => name ∉ names with
      | some (name, _) => .error (.unknownField name)
      | none => .ok fields
    | none => .error .unsupportedValue

/-- A field that is a text. -/
def textField? (fields : Toml.Fields) (name : Text) : Except Toml.Error (Option Text) :=
  match fields.get? name with
  | none => .ok none
  | some (.text s) => .ok (some s)
  | some _ => .error .unsupportedValue

/-- A field that is a truth value. -/
def boolField? (fields : Toml.Fields) (name : Text) : Except Toml.Error (Option Bool) :=
  match fields.get? name with
  | none => .ok none
  | some (.bool b) => .ok (some b)
  | some _ => .error .unsupportedValue

/-- The names of the fields of `[build]`, in order. -/
def buildNames : List Text :=
  ["root", "source", "output", "clean", "safe_output", "buffer", "dirs"]

/-- The names of the fields of `[build.dirs]`, in order. -/
def dirNames : List Text :=
  ["includes", "layouts", "plugins", "data"]

/-- The section `[build.dirs]`. -/
def readDirs (item : Toml.Item) : Except Toml.Error Conventions := do
  let fields ← sectionFields dirNames item
  let default : Conventions := {}
  return {
    includes := (← textField? fields "includes").getD default.includes
    layouts := (← textField? fields "layouts").getD default.layouts
    plugins := (← textField? fields "plugins").getD default.plugins
    data := (← textField? fields "data").getD default.data }

/-- The section `[build]`. -/
def readBuild (config : Config) (item : Toml.Item) : Except Toml.Error Config := do
  let fields ← sectionFields buildNames item
  let root ← textField? fields "root"
  let source ← textField? fields "source"
  let output ← textField? fields "output"
  let clean ← boolField? fields "clean"
  let safeOutput ← boolField? fields "safe_output"
  let buffer ← textField? fields "buffer"
  let dirs ← (fields.get? "dirs").mapM readDirs
  return { config with
    root := root.map (⟨·⟩)
    source := (source.map (⟨·⟩)).getD config.source
    output := (output.map (⟨·⟩)).getD config.output
    clean := clean.getD config.clean
    safeOutput := safeOutput.getD config.safeOutput
    buffer
    dirs := dirs.getD config.dirs }

/-- The section `[directives]`. -/
def readDirectives (item : Toml.Item) : Except Toml.Error (List (Text × Text)) :=
  match item.fields? with
  | some fields => do
    let directives ← fields.mapM fun (name, item) =>
      match item with
      | .text s => .ok (name, s)
      | _ => .error .unsupportedValue
    return directives.mergeSort fun a b => !b.1.precedes a.1
  | none => .error .unsupportedValue

/-- The configuration in a file. -/
def ofFields (fields : Toml.Fields) : Except Toml.Error Config := do
  let fields ← sectionFields ["build", "directives"] (.table .header fields)
  let config ←
    match fields.get? "build" with
    | some item => readBuild {} item
    | none => pure {}
  match fields.get? "directives" with
  | some item => return { config with directives := ← readDirectives item }
  | none => return config

/-- The configuration that a text describes. -/
def ofText (text : Text) : Except ConfigError Config :=
  match Toml.read text >>= ofFields with
  | .ok config => .ok config
  | .error cause => .error (.malformed cause)

/-! ## Checking -/

/-- Whether a name can be that of a directory inside another one. -/
def isDirectoryName (name : Text) : Bool :=
  name ≠ [] && name ≠ ['.'] && name ≠ ['.', '.'] && name.all fun c => c ≠ '/' && c ≠ '\\'

/-- A letter or an underscore, and then letters, digits and underscores. -/
def isIdentifier : Text → Bool
  | [] => false
  | c :: rest => (c.isAlpha || c = '_') && rest.all fun c => c.isAlphanum || c = '_'

/-- Whether a name can be that of a function, perhaps inside a namespace. -/
def isFunctionName (name : Text) : Bool :=
  (Text.parts '\\' ((name.after? ['\\']).getD name)).all isIdentifier

/-- Names that directives cannot have although no rule has them. -/
def reservedNames : List Text :=
  ["slot", "endslot"]

/-- What is wrong with the name of a directive. -/
def directiveProblem? (name : Text) : Option Problem :=
  if !isIdentifier name then some (.directiveName name)
  else if name ∈ builtinNames || name ∈ reservedNames then some (.builtinDirective name)
  else none

/-- The first problem of a configuration. -/
def problem? (config : Config) : Option Problem :=
  let dirs := (dirNames.zip config.dirs.names).findSome? fun (field, name) =>
    if isDirectoryName name then none else some (.directoryName field name)
  let buffer := config.buffer.bind fun name =>
    if isFunctionName name then none else some (.bufferName name)
  let directives := config.directives.findSome? fun (name, _) => directiveProblem? name
  let same := if config.source.same config.output then some .sameDirectories else none
  dirs <|> buffer <|> directives <|> same

/-- The configuration, unless there is a problem. -/
def validate (config : Config) : Except ConfigError Unit :=
  match config.problem? with
  | some problem => .error (.invalid problem)
  | none => .ok ()

/-! ## Compiling -/

/-- What the configuration says about compilation. -/
def compileOptions (config : Config) : CompileOptions where
  safeOutput := config.safeOutput
  buffer := config.buffer
  dirs := config.dirs
  directives := config.directives

/-- The compiler of a site. -/
def compiler (config : Config) : Compiler :=
  .ofOptions config.compileOptions

/-- The root directory of a site, the current one unless another was chosen. -/
def rootPath (config : Config) : Path :=
  config.root.getD "./"

end Config

end Pagewright
