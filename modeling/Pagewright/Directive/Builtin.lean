import Pagewright.Directive.Condition
import Pagewright.Directive.Layout
import Pagewright.Directive.Loop
import Pagewright.Directive.Partial

/-!
# The built-in directives

The rules of the built-in directives run in one fixed order (`builtinRules`). The convention
directories are where a site keeps its partials, layouts, plugins and data.
-/

namespace Pagewright

/-- Names of the directories of a site that hold no pages. -/
structure Conventions where
  includes : Text := "_includes"
  layouts : Text := "_layouts"
  plugins : Text := "_plugins"
  data : Text := "_data"
  deriving Repr, DecidableEq

/-- The four names. -/
def Conventions.names (dirs : Conventions) : List Text :=
  [dirs.includes, dirs.layouts, dirs.plugins, dirs.data]

/-- Names of the built-in directives, in the order in which their rules run. -/
def builtinNames : List Text :=
  ["break", "component", "continue", "else", "elseif", "empty", "for", "foreach", "set", "if",
    "include", "push", "section", "stack", "unless", "while", "yield"]

/-- The rules of the built-in directives, in the order in which they run. -/
def builtinRules (dirs : Conventions) : List Rule :=
  [Directive.breakRule, Directive.componentRule dirs.includes, Directive.continueRule,
    Directive.elseRule, Directive.elseifRule, Directive.emptyRule, Directive.loopRule .for,
    Directive.loopRule .foreach, Directive.setRule, Directive.ifRule,
    Directive.includeRule dirs.includes, Directive.pushRule, Directive.sectionRule,
    Directive.stackRule, Directive.unlessRule, Directive.loopRule .while, Directive.yieldRule]

end Pagewright
