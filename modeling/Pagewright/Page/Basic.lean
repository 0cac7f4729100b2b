import Pagewright.Page.Assembly
import Pagewright.Page.Location

/-!
# Pages

A template of a site is a page or a partial. `Page.parse` tells which, splits off the settings and
finds the output path; `Page.render` compiles it. A page becomes a program of its own, a partial
keeps its compiled text, and the sections that it captures are lost.
-/

namespace Pagewright

/-- The two kinds of templates. -/
inductive PageKind where
  | page
  | part
  deriving Repr, DecidableEq

/-- A template that is ready to be compiled. -/
structure Page where
  kind : PageKind
  /-- Path below the directory of sources. -/
  source : Path
  /-- Path below the directory of outputs. -/
  output : Path
  /-- The settings; partials have none. -/
  settings : Settings
  /-- The text behind the settings. -/
  body : Text

/-- A compiled template. -/
structure Rendered where
  /-- Path below the directory of outputs. -/
  output : Path
  text : Text
  /-- The rules that changed something. -/
  report : List Text
  /-- How many sections a partial has captured in vain. -/
  dropped : Nat

namespace Page

/-- A template taken apart. -/
def parse (source : Path) (text : Text) (dirs : Conventions) : Except PageError Page :=
  if dirs.isPartial source then
    .ok { kind := .part, source, output := Location.compiledPath source, settings := []
          body := text }
  else do
    let (settings, body) ← FrontMatter.read text
    let output ← Location.output source (settings.text? "permalink")
    return { kind := .page, source, output, settings, body }

/-- The address of a page. -/
def url? (page : Page) : Option Text :=
  match page.kind with
  | .page => some (Location.url page.output)
  | .part => none

/-- A template compiled; `modified` is when it was last changed, in seconds. -/
def render (page : Page) (compiler : Compiler) (modified : Nat) : Rendered :=
  let compiled := compiler.compile { content := page.body, settings := page.settings } page.output
  let draft := compiled.draft
  match page.kind with
  | .part =>
    { output := page.output, text := draft.content, report := compiled.report
      dropped := draft.before.length }
  | .page =>
    let facts : Assembly.Facts :=
      { url := Location.url page.output
        modified
        buffer := compiler.options.buffer
        dirs := compiler.options.dirs }
    { output := page.output, text := Assembly.program draft facts, report := compiled.report
      dropped := 0 }

end Page

end Pagewright
