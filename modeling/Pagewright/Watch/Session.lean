import Pagewright.Console.Status
import Pagewright.Site.Build
import Pagewright.Site.Loading
import Pagewright.Watch.Debouncer

/-!
# Watching a site

A session watches the source directory and the configuration file. A change of the configuration
loads it again and builds the whole site; a change of other files compiles or copies just these
(`Session.handle`). What came of it is shown in the status block. A session goes on after a failure.
-/

namespace Pagewright

/-- What a session remembers between changes. -/
structure Session where
  /-- The command line, which the configuration is loaded with again. -/
  invocation : Invocation
  config : Config
  compiler : Compiler
  status : Status := {}

/-- A path as it is shown, counted from a root if it lies below it. -/
def Path.shown (path root : Path) : Text :=
  ((path.relativeTo? root).getD path).text

namespace Session

/-- A session for a configuration. -/
def ofConfig (invocation : Invocation) (config : Config) : Session where
  invocation
  config
  compiler := config.compiler

/-- Watch the files of a site: the source directory, and the configuration file if there is one. -/
def watchPaths (config : Config) : Work Failure Unit := do
  Work.watch config.source (.watchSource config.source)
  if (← Work.disk).holds config.path then Work.watch config.path (.watchConfig config.path)
  Work.log "watch" ("watching " ++ config.source.shown config.rootPath)

/-- No longer watch the files of a site. -/
def unwatchPaths (config : Config) : Work Failure Unit := do
  Work.call (.unwatch config.source)
  Work.call (.unwatch config.path)

/-- Show that something went well. -/
def succeed (session : Session) (message : Text) : Work Failure Session := do
  let (printed, status) := session.status.success message
  Work.print printed
  return { session with status }

/-- Show that something failed. -/
def fail (session : Session) (summary detail : Text) : Work Failure Session := do
  let (printed, status) := session.status.failure summary detail
  Work.print printed
  return { session with status }

/-- Load the configuration again and build everything with it. -/
def reload (session : Session) : Work Failure Session := do
  match Config.ofInvocation (← Work.disk) session.invocation with
  | .error error => session.fail "config reload failed" error.explanation
  | .ok config =>
    unwatchPaths session.config
    let session := { session with config, compiler := config.compiler }
    match ← Work.outcome (watchPaths config) with
    | .error failure => session.fail "watch failed" failure.explanation
    | .ok () =>
      let session := { session with status := session.status.detach }
      Work.log "watch" "config changed, rebuilding..."
      match ← Work.outcome config.build with
      | .ok summary =>
        session.succeed ("rebuilt " ++ Text.ofNat summary.compiled ++ " templates, copied "
          ++ Text.ofNat summary.copied ++ " files")
      | .error error => session.fail "full build failed" error.explanation

/-- Compile or copy a file. -/
def update (session : Session) (path : Path) (category : Category) : Work BuildError Bool :=
  match category with
  | .template => session.config.compileTemplate session.compiler true path
  | _ => session.config.copyStatic true path

/-- Compile or copy files in order, up to the first that fails; `done` has those before them. Files
that are gone are passed over. -/
def rebuild (session : Session) : List (Path × Category) → (done : List Text) → Work Failure Session
  | [], done =>
    if done = [] then return session
    else session.succeed ("rebuilt: " ++ List.intercalate ", " done)
  | (path, category) :: rest, done => do
    let name := path.shown session.config.rootPath
    if !(← Work.disk).isFile path then session.rebuild rest done
    else
      match ← Work.outcome (session.update path category) with
      | .ok _ => session.rebuild rest (done ++ [name])
      | .error error =>
        session.fail (category.name ++ " failed: " ++ name) error.explanation

/-- What has to be done about changed paths: the files to compile or copy. -/
def targets (disk : Disk) (config : Config) (paths : List Path) : List (Path × Category) :=
  (paths.map fun path => (path, Category.ofPath disk config path)).filter fun (_, category) =>
    category = .template || category = .static

/-- React to changed paths. The answer tells whether the whole site was built. -/
def handle (session : Session) (paths : List Path) : Work Failure (Session × Bool) := do
  let disk ← Work.disk
  if paths.any fun path => Category.ofPath disk session.config path = .config then
    return (← session.reload, true)
  else
    match targets disk session.config paths with
    | [] => return (session, false)
    | targets => return (← session.rebuild targets [], false)

end Session

end Pagewright
