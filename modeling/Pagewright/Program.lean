import Pagewright.CommandLine.Reader
import Pagewright.Watch.Session

/-!
# The program

`Program.start` does what a command line asks for. Building and compiling is then done; watching
leaves a session behind that waits for changes.
-/

namespace Pagewright

namespace Program

/-- The line that names the program and its version. -/
def versionLine : Text :=
  "bladerunner 0.3.0\n"

/-- How the program is used. -/
def usage : Text :=
  "Usage: bladerunner [-r ROOT] [-s SOURCE] [-o OUTPUT] [-C CONFIG] <COMMAND>\n\n"
    ++ "Commands:\n"
    ++ "  build    Compile every template under the source directory\n"
    ++ "  watch    Build, then rebuild on change\n"
    ++ "  compile  Compile a single template and print the PHP to stdout\n"

/-- The exit code of a command line that is not followed. -/
def usageCode : UsageError → Nat
  | .help => 0
  | .version => 0
  | _ => 2

/-- What is shown for a command line that is not followed. -/
def usageText : UsageError → Text
  | .help => usage
  | .version => versionLine
  | _ => []

/-- Do what a command line asks for. A session is left when files are to be watched. -/
def start (invocation : Invocation) : Work Failure (Option Session) := do
  let disk ← Work.disk
  let config ←
    match Config.ofInvocation disk invocation with
    | .ok config => pure config
    | .error error => throw (.config error)
  match invocation.command with
  | .compile file logical _ =>
    match config.compileFile disk file logical with
    | .ok text =>
      Work.print (.plain text)
      return none
    | .error error => throw (.build error)
  | .build _ =>
    match ← Work.outcome config.build with
    | .ok _ => return none
    | .error error => throw (.build error)
  | .watch _ =>
    match ← Work.outcome config.build with
    | .ok _ => pure ()
    | .error error => Work.log "error" error.explanation
    Session.watchPaths config
    return some (.ofConfig invocation config)

/-- Do what a command line asks for, and log why it fails. The answer has the exit code and the
session. -/
def run (invocation : Invocation) (world : World) : (Nat × Option Session) × World :=
  match (start invocation).run.run world with
  | (.ok session, world) => ((0, session), world)
  | (.error failure, world) =>
    ((1, none), { world with shown := world.shown ++ [.log "error" failure.explanation] })

end Program

end Pagewright
