import Pagewright.CommandLine.Basic
import Pagewright.Site.Config

/-!
# Loading a configuration

The configuration comes from a file and from the command line, which wins. Afterwards all its paths
are absolute (`Config.absolute`). A site without a configuration file has the default one.
-/

namespace Pagewright

namespace Config

open scoped Pagewright.Path

/-- The absolute form of a path: the shortest one when something is there, otherwise the path as it
is, counted from the current directory. -/
def absolute (disk : Disk) (path : Path) : Path :=
  match disk.canonical? path with
  | some found => found
  | none => if path.isAbsolute then path else (Disk.pathOf disk.workDir).join path

/-- The configuration in a file, or the default one where there is no file. -/
def ofFile (disk : Disk) (path : Path) : Except ConfigError Config :=
  if disk.holds path then
    match disk.readText path with
    | .ok text => ofText text
    | .error cause => .error (.unreadable path cause)
  else .ok {}

/-- The configuration with its directories counted from a root. -/
def withRoot (disk : Disk) (config : Config) (root : Path) : Config :=
  let root := absolute disk root
  { config with
    root := some root
    source := absolute disk (root.join config.source)
    output := absolute disk (root.join config.output) }

/-- The configuration of the site at a root. -/
def load (disk : Disk) (root name : Path) : Except ConfigError Config := do
  let path := root.join name
  let config ← ofFile disk path
  return { config with path := absolute disk path }.withRoot disk root

/-- The configuration with what the command line says about it. -/
def withInvocation (disk : Disk) (config : Config) (invocation : Invocation) : Config :=
  let root := invocation.root.getD config.rootPath
  let config := { config with
    source := invocation.source.getD config.source
    output := invocation.output.getD config.output }
  let config := config.withRoot disk root
  let config := { config with path := absolute disk (config.rootPath.join invocation.config) }
  match invocation.command with
  | .build flags | .watch flags =>
    { config with
      clean := config.clean || flags.clean
      safeOutput := config.safeOutput && !flags.unsafeOutput
      verbose := flags.verbose }
  | .compile _ _ unsafeOutput =>
    { config with safeOutput := config.safeOutput && !unsafeOutput }

/-- The configuration that a command line asks for. -/
def ofInvocation (disk : Disk) (invocation : Invocation) : Except ConfigError Config := do
  let root := invocation.root.getD "./"
  let config ← ofFile disk (root.join invocation.config)
  let config := config.withInvocation disk invocation
  config.validate
  return config

end Config

end Pagewright
