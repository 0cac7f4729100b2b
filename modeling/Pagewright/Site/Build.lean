import Pagewright.Disk.Change
import Pagewright.Page.Basic
import Pagewright.Site.Category
import Pagewright.Site.Failure
import Pagewright.Site.Work

/-!
# Building a site

A build reads all templates, makes sure that no two files of the site end up at the same place, and
only then writes anything (`Config.build`). Every template and every other file is a task of its own
(`Task`); a task whose output is newer than what it comes from is skipped, unless the build is
forced. The first task that fails ends the build.

Tasks may be done side by side. `Config.buildIn` is the build for any way of sharing them out
(`Schedule`), and `Config.build` does one after another.
-/

namespace Pagewright

/-- How many tasks of each kind a build has done. -/
structure Summary where
  compiled : Nat := 0
  copied : Nat := 0
  skipped : Nat := 0
  deriving Repr, DecidableEq

/-- The outputs of two files that are to be written to the same place: the source of the first, the
source of the second, and the place as the second names it. Entries are pairs of source and
output. -/
def collision? : (seen entries : List (Path × Path)) → Option (Path × Path × Path)
  | _, [] => none
  | seen, (source, output) :: rest =>
    match seen.find? fun (_, other) => output.same other with
    | some (first, _) => some (first, source, output)
    | none => collision? ((source, output) :: seen) rest

namespace Config

/-! ## Single files -/

/-- A path counted from the source directory. -/
def sourcePath (config : Config) (path : Path) : Except BuildError Path :=
  match path.relativeTo? config.source with
  | some relative => .ok relative
  | none => .error (.outsideSource path)

/-- The template at a path. -/
def loadPage (disk : Disk) (config : Config) (path : Path) : Except BuildError Page := do
  let source ← config.sourcePath path
  let full := config.source.join source
  match disk.readText full with
  | .error error => throw (.unreadablePage source full error)
  | .ok text =>
    match Page.parse source text config.dirs with
    | .ok page => return page
    | .error error => throw (.invalidPage source error)

/-- Make the directory of a path. -/
def createParent (target : Path) : Work BuildError Unit :=
  match target.parent? with
  | some parent => Work.change (·.createAll parent) (.createDirectory parent)
  | none => return

/-- Compile the page that was read from `path` into the output directory; `false` when its output
was up to date. -/
def writePage (config : Config) (compiler : Compiler) (dependencies : Option Int) (force : Bool)
    (path : Path) (page : Page) : Work BuildError Bool := do
  let target := config.output.join page.output
  let disk ← Work.disk
  if !force && disk.isUpToDate path target dependencies then return false
  let rendered := page.render compiler (disk.seconds path)
  if config.verbose then
    Work.log "compile"
      (page.source.text ++ " [" ++ List.intercalate ", " rendered.report ++ "]")
  if rendered.dropped ≠ 0 then
    Work.log "warn" (page.source.text ++ ": " ++ Text.ofNat rendered.dropped
      ++ " section(s) in a partial have no page to run in")
  createParent target
  Work.change (·.write target rendered.text.utf8) (.writePage target)
  return true

/-- Compile a single template. -/
def compileTemplate (config : Config) (compiler : Compiler) (force : Bool) (path : Path) :
    Work BuildError Bool := do
  let disk ← Work.disk
  let page ← config.loadPage disk path
  config.writePage compiler (config.modified? disk) force path page

/-- Copy a file to the same place below the output directory; `false` when the copy was up to
date. -/
def copyStatic (config : Config) (force : Bool) (path : Path) : Work BuildError Bool := do
  let source ← config.sourcePath path
  let target := config.output.join source
  if !force && (← Work.disk).isUpToDate path target none then return false
  if config.verbose then Work.log "copy" source.text
  createParent target
  Work.change (·.copy path target) (.copyFile source)
  return true

/-- The path that a template is compiled as unless another one is chosen: its place below the source
directory, or its bare name when it is not there. -/
def logicalPath (disk : Disk) (config : Config) (file : Path) : Except BuildError Path :=
  match (disk.canonical? file).bind (·.relativeTo? config.source) with
  | some relative => .ok relative
  | none =>
    match file.fileName? with
    | some name => .ok ⟨name⟩
    | none => .error (.notAFile file)

/-- The compiled text of a template, as if it were at the path `logical` of the site. -/
def compileFile (disk : Disk) (config : Config) (file : Path) (logical : Option Path) :
    Except BuildError Text := do
  match disk.readText file with
  | .error error => throw (.unreadableTemplate file error)
  | .ok text =>
    let logical ← logical.elim (config.logicalPath disk file) .ok
    match Page.parse logical text config.dirs with
    | .error error => throw (.invalidTemplate file error)
    | .ok page => return (page.render config.compiler (disk.seconds file)).text

end Config

/-! ## Tasks -/

/-- What a build does with one file. -/
inductive Task where
  | compile (path : Path) (page : Page)
  | copy (path : Path)

namespace Task

/-- How the log names a task that fails. -/
def label : Task → Text
  | .compile _ page => page.source.text
  | .copy path => path.text

/-- Do a task; `false` when there was nothing to do. -/
def run (config : Config) (compiler : Compiler) (dependencies : Option Int) :
    Task → Work BuildError Bool
  | .compile path page => config.writePage compiler dependencies config.clean path page
  | .copy path => config.copyStatic config.clean path

/-- One more task in the summary. -/
def tally (summary : Summary) (written : Bool) : Task → Summary
  | .compile .. =>
    if written then { summary with compiled := summary.compiled + 1 }
    else { summary with skipped := summary.skipped + 1 }
  | .copy _ =>
    if written then { summary with copied := summary.copied + 1 }
    else { summary with skipped := summary.skipped + 1 }

end Task

/-- How tasks are shared out when they are done side by side: no order is fixed for them, and some
may have been begun when another one fails. -/
structure Schedule where
  /-- The order in which tasks are done. -/
  order : List Task → List Task
  /-- Those of the tasks behind one that fails which have been begun by then. -/
  begun : List Task → List Task
  perm : ∀ tasks, (order tasks).Perm tasks
  sublist : ∀ tasks, (begun tasks).Sublist tasks

/-- One task after another. -/
def Schedule.serial : Schedule where
  order tasks := tasks
  begun _ := []
  perm := List.Perm.refl
  sublist := List.nil_sublist

namespace Task

/-- Do tasks that have been begun, whatever comes of them. -/
def finishAll (config : Config) (compiler : Compiler) (dependencies : Option Int) :
    List Task → Work BuildError Unit
  | [] => return
  | task :: rest => do
    let _ ← Work.outcome (task.run config compiler dependencies)
    finishAll config compiler dependencies rest

/-- Do tasks in order, up to the first that fails. Of those behind it, the ones that have been begun
are done as well. -/
def runAll (schedule : Schedule) (config : Config) (compiler : Compiler)
    (dependencies : Option Int) : List Task → Summary → Work BuildError Summary
  | [], summary => return summary
  | task :: rest, summary => do
    match ← Work.outcome (task.run config compiler dependencies) with
    | .ok written =>
      runAll schedule config compiler dependencies rest (task.tally summary written)
    | .error error =>
      Work.log "error" (task.label ++ ": " ++ error.explanation)
      finishAll config compiler dependencies (schedule.begun rest)
      throw .failed

end Task

namespace Config

/-! ## The whole site -/

/-- Make the output directory, after emptying it if that is asked for. -/
def prepareOutput (config : Config) : Work BuildError Unit := do
  if config.clean && (← Work.disk).holds config.output then
    Work.change (·.removeAll config.output) (.clearOutput config.output)
  Work.change (·.createAll config.output) (.createOutput config.output)

/-- The files of the site. Outputs below the source directory are none of them. -/
def siteFiles (disk : Disk) (config : Config) : List Path :=
  (disk.files config.source).filter fun path => !path.startsWith config.output

/-- The source and the output of every file of the site. -/
def entries (config : Config) (pages : List (Path × Page)) (statics : List Path) :
    List (Path × Path) :=
  (pages.map fun (_, page) => (page.source, page.output))
    ++ statics.map fun path =>
      let relative := (path.relativeTo? config.source).getD path
      (relative, relative)

/-- Tell what a build has done. -/
def logSummary (summary : Summary) : Work BuildError Unit :=
  if summary = {} then Work.log "warn" "nothing to build, source has no files"
  else
    Work.log "build" ("done: " ++ Text.ofNat summary.compiled ++ " compiled, "
      ++ Text.ofNat summary.copied ++ " copied, " ++ Text.ofNat summary.skipped ++ " up to date")

/-- The tasks of a build. -/
def tasks (pages : List (Path × Page)) (statics : List Path) : List Task :=
  (pages.map fun (path, page) => Task.compile path page) ++ statics.map Task.copy

/-- Build the site, with its tasks shared out in some way. -/
def buildIn (schedule : Schedule) (config : Config) : Work BuildError Summary := do
  if !(← Work.disk).isDirectory config.source then throw (.sourceMissing config.source)
  config.prepareOutput
  let disk ← Work.disk
  let (templates, statics) := (config.siteFiles disk).partition Location.isTemplate
  let pages ← templates.mapM fun path => return (path, ← config.loadPage disk path)
  match collision? [] (config.entries pages statics) with
  | some (first, second, output) => throw (.collision first second output)
  | none =>
    let summary ← Task.runAll schedule config config.compiler (config.modified? disk)
      (schedule.order (tasks pages statics)) {}
    logSummary summary
    return summary

/-- Build the site, one task after another. -/
def build (config : Config) : Work BuildError Summary :=
  config.buildIn .serial

end Config

end Pagewright
