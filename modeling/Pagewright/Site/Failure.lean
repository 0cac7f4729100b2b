import Pagewright.Page.FrontMatter
import Pagewright.Site.Config

/-!
# Failures

What can go wrong while a site is built or watched, and how it is told: a list of messages, each
giving the reason for the one before it, and at the end the cause where it lies outside the program
(`Failure.messages`, `Failure.cause?`).
-/

namespace Pagewright

/-- A cause outside the program: the disk, a text that cannot be read, or the watcher of files. -/
inductive Cause where
  | disk (error : Disk.Error)
  | frontMatter (error : Yaml.Error)
  | config (error : Toml.Error)
  | watcher (reason : Text)
  deriving Repr, DecidableEq

/-- The wording of a cause. -/
def Cause.message : Cause → Text
  | .disk error => error.message
  | .frontMatter error => error.message
  | .config error => "TOML parse error\n" ++ error.message ++ "\n"
  | .watcher reason => reason

/-- The cause of an error in a page. -/
def PageError.cause? : PageError → Option Cause
  | .frontMatter error => some (.frontMatter error)
  | _ => none

/-- The cause of an error in a configuration. -/
def ConfigError.cause? : ConfigError → Option Cause
  | .unreadable _ error => some (.disk error)
  | .malformed error => some (.config error)
  | .invalid _ => none

/-- What can go wrong in a build. -/
inductive BuildError where
  | sourceMissing (source : Path)
  | clearOutput (output : Path) (error : Disk.Error)
  | createOutput (output : Path) (error : Disk.Error)
  | outsideSource (path : Path)
  | unreadablePage (source path : Path) (error : Disk.Error)
  | invalidPage (source : Path) (error : PageError)
  | collision (first second output : Path)
  | createDirectory (path : Path) (error : Disk.Error)
  | writePage (path : Path) (error : Disk.Error)
  | copyFile (path : Path) (error : Disk.Error)
  /-- A task has failed, and the log says why. -/
  | failed
  | unreadableTemplate (file : Path) (error : Disk.Error)
  | invalidTemplate (file : Path) (error : PageError)
  | notAFile (file : Path)
  deriving Repr, DecidableEq

namespace BuildError

/-- The messages of an error, less its cause. -/
def messages : BuildError → List Text
  | .sourceMissing source => ["source directory not found: " ++ source.text]
  | .clearOutput output _ => ["Failed to clear output directory: " ++ output.text]
  | .createOutput output _ => ["Failed to create output directory: " ++ output.text]
  | .outsideSource path => [path.text ++ " is outside the source root", "prefix not found"]
  | .unreadablePage source path _ =>
    ["Failed to load " ++ source.text, "IO error when reading \x60" ++ path.text ++ "\x60"]
  | .invalidPage source error => ["Failed to load " ++ source.text, error.message]
  | .collision first second output =>
    [first.text ++ " and " ++ second.text ++ " both write " ++ output.text]
  | .createDirectory path _ => ["Failed to create " ++ path.text]
  | .writePage path _ => ["Failed to write " ++ path.text]
  | .copyFile path _ => ["Failed to copy " ++ path.text]
  | .failed => ["Build failed"]
  | .unreadableTemplate file _ => ["Failed to read " ++ file.text]
  | .invalidTemplate file error => ["Failed to parse " ++ file.text, error.message]
  | .notAFile file => ["not a file: " ++ file.text]

/-- The cause of an error. -/
def cause? : BuildError → Option Cause
  | .clearOutput _ error => some (.disk error)
  | .createOutput _ error => some (.disk error)
  | .unreadablePage _ _ error => some (.disk error)
  | .invalidPage _ error => error.cause?
  | .createDirectory _ error => some (.disk error)
  | .writePage _ error => some (.disk error)
  | .copyFile _ error => some (.disk error)
  | .unreadableTemplate _ error => some (.disk error)
  | .invalidTemplate _ error => error.cause?
  | _ => none

end BuildError

/-- What can go wrong in a run of the program. -/
inductive Failure where
  | config (error : ConfigError)
  | build (error : BuildError)
  | watchSource (source : Path) (reason : Text)
  | watchConfig (path : Path) (reason : Text)
  deriving Repr, DecidableEq

namespace Failure

/-- The messages of a failure, less its cause. -/
def messages : Failure → List Text
  | .config error => ["Failed to load config", error.message]
  | .build error => error.messages
  | .watchSource source _ => ["Failed to watch source: " ++ source.text]
  | .watchConfig path _ => ["Failed to watch config: " ++ path.text]

/-- The cause of a failure. -/
def cause? : Failure → Option Cause
  | .config error => error.cause?
  | .build error => error.cause?
  | .watchSource _ reason => some (.watcher reason)
  | .watchConfig _ reason => some (.watcher reason)

end Failure

/-- Messages and a cause in one text. -/
def explained (messages : List Text) (cause : Option Cause) : Text :=
  List.intercalate ": " (messages ++ (cause.map Cause.message).toList)

/-- An error in a configuration in one text. -/
def ConfigError.explanation (error : ConfigError) : Text :=
  explained [error.message] error.cause?

/-- An error in a build in one text. -/
def BuildError.explanation (error : BuildError) : Text :=
  explained error.messages error.cause?

/-- A failure in one text. -/
def Failure.explanation (failure : Failure) : Text :=
  explained failure.messages failure.cause?

end Pagewright
