import Pagewright.Directive.Output
import Pagewright.Directive.Shorthand
import Pagewright.Path.Basic

/-!
# The compiler

A draft goes through a fixed list of rules: comments, the built-in directives, the extensions of
the site, and the output tags (`Compiler.rules`). A rule is applied to the content and then to
every fragment that was there before it ran, so what a section captured is compiled like the rest
(`Rule.step`). The report lists the rules that changed something.
-/

namespace Pagewright

/-- What a site may choose about its compilation. -/
structure CompileOptions where
  /-- Whether `{{ }}` escapes its output. -/
  safeOutput : Bool := true
  /-- A function that the whole output of a page is passed through. -/
  buffer : Option Text := none
  dirs : Conventions := {}
  /-- Directives of the site and their texts, in order of their names. -/
  directives : List (Text × Text) := []

/-- The options of a site together with its extensions, in the order in which they run. -/
structure Compiler where
  options : CompileOptions
  extensions : List Rule

/-- A compiled draft and the names of the rules that changed it, in order. -/
structure Compiled where
  draft : Draft
  report : List Text

/-- The fragments before the content after a rule has been applied to the first `count` of them.
Fragments that this brings forth are added at the end. -/
def Rule.onFragments (rule : Rule) (draft : Draft) (count : Nat) : List Text × Bool :=
  let results := (draft.before.take count).map fun text =>
    (text, rule.apply (draft.fragment text))
  let changed := results.map fun (text, result) => (result.map Draft.content).getD text
  let added := results.flatMap fun (_, result) => (result.map Draft.before).getD []
  (changed ++ draft.before.drop count ++ added, results.any fun (_, result) => result.isSome)

/-- Apply a rule to the content and to the fragments that were there before. -/
def Rule.step (rule : Rule) (draft : Draft) : Draft × Bool :=
  let result := rule.apply draft
  let next := result.getD draft
  let (before, changed) := rule.onFragments next draft.before.length
  ({ next with before }, result.isSome || changed)

namespace Compiler

/-- The compiler for some options, with the directives of the site as its extensions. -/
def ofOptions (options : CompileOptions) : Compiler where
  options
  extensions := options.directives.map fun (name, template) =>
    Directive.shorthandRule name template

/-- The rules with `rule` in the place of the one of the same name, or else at the end. -/
def register (rule : Rule) : List Rule → List Rule
  | [] => [rule]
  | old :: rest => if old.name = rule.name then rule :: rest else old :: register rule rest

/-- The compiler with one more extension. -/
def withRule (compiler : Compiler) (rule : Rule) : Compiler :=
  { compiler with extensions := register rule compiler.extensions }

/-- Names of the extensions, in the order in which they run. -/
def extensionNames (compiler : Compiler) : List Text :=
  compiler.extensions.map Rule.name

/-- The rules that follow the extensions. -/
def finalRules (options : CompileOptions) : List Rule :=
  [Output.rawRule, Output.leftoverRule, Output.echoRule options.safeOutput, Output.closeTagRule]

/-- The rules behind the removal of comments, in order. -/
def rules (compiler : Compiler) : List Rule :=
  builtinRules compiler.options.dirs ++ compiler.extensions ++ finalRules compiler.options

/-- One rule after another. -/
def runRules : List Rule → Compiled → Compiled
  | [], compiled => compiled
  | rule :: rest, compiled =>
    let (draft, changed) := rule.step compiled.draft
    runRules rest ⟨draft, if changed then compiled.report ++ [rule.name] else compiled.report⟩

/-- Rules run one after another. -/
theorem runRules_append (first second : List Rule) (compiled : Compiled) :
    runRules (first ++ second) compiled = runRules second (runRules first compiled) := by
  induction first generalizing compiled with
  | nil => rfl
  | cons rule rest ih => exact ih _

/-- Compile a draft whose page will be at `output`, counted from the root of the site. -/
def compile (compiler : Compiler) (draft : Draft) (output : Path) : Compiled :=
  let first := runRules [Output.commentRule] ⟨draft, []⟩
  runRules compiler.rules
    { first with draft := { first.draft with relativePath := output.wayUp } }

/-- Compile a bare text with the default options. -/
def compileText (text : Text) (output : Path) : Compiled :=
  (ofOptions {}).compile { content := text } output

end Compiler

end Pagewright
