import Pagewright.Php.Literal
import Pagewright.Template.Draft

/-!
# Conditions

`@if`, `@elseif`, `@else`, `@unless` and `@empty`. Openings and closing words are rewritten
independently of each other: a stray `@endif` still becomes an `endif`.
-/

namespace Pagewright

namespace Directive

/-- A conditional opening, and its closing word wherever that stands. -/
def conditional (name close : Text) (condition : Text → Text) : List Element :=
  [.calls name fun call => some (Php.tag ("if (" ++ condition call.args ++ ") :")),
    .literal close (Php.tag "endif;")]

/-- `@if(e)` and `@endif`. -/
def ifElements : List Element :=
  conditional "if" "@endif" id

/-- The rule for `@if`. -/
def ifRule : Rule :=
  .ofElements "if" ifElements

/-- `@elseif(e)`. -/
def elseifElements : List Element :=
  [.calls "elseif" fun call => some (Php.tag ("elseif (" ++ call.args ++ ") :"))]

/-- The rule for `@elseif`. -/
def elseifRule : Rule :=
  .ofElements "elseif" elseifElements

/-- The bare word `@else`. -/
def elseElements : List Element :=
  [.token "@else" (Php.tag "else :")]

/-- The rule for `@else`. -/
def elseRule : Rule :=
  .ofElements "else" elseElements

/-- `@unless(e)` and `@endunless`. -/
def unlessElements : List Element :=
  conditional "unless" "@endunless" fun e => "!(" ++ e ++ ")"

/-- The rule for `@unless`. -/
def unlessRule : Rule :=
  .ofElements "unless" unlessElements

/-- `@empty(e)` and `@endempty`: the value is empty or counts as false. -/
def emptyElements : List Element :=
  conditional "empty" "@endempty" fun e => "empty(" ++ e ++ ") || !(" ++ e ++ ")"

/-- The rule for `@empty`. -/
def emptyRule : Rule :=
  .ofElements "empty" emptyElements

end Directive

end Pagewright
