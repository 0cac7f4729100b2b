import Pagewright.Php.Literal
import Pagewright.Template.Draft

/-!
# Loops

`@for`, `@foreach` and `@while`, and the two ways to leave a turn of a loop, `@break` and
`@continue`, with or without a condition.
-/

namespace Pagewright

/-- The three loops. -/
inductive LoopKind where
  | for
  | foreach
  | while
  deriving Repr, DecidableEq

/-- The word of a loop, in templates and in PHP. -/
def LoopKind.word : LoopKind → Text
  | .for => "for"
  | .foreach => "foreach"
  | .while => "while"

namespace Directive

/-- The head of a loop. What stands around the first ` as ` is trimmed; a `@foreach` without one is
left alone. -/
def loopHead (kind : LoopKind) (args : Text) : Option Text :=
  match args.cut? " as " with
  | some (source, binding) =>
    some (Php.tag (kind.word ++ " (" ++ source.trim ++ " as " ++ binding.trim ++ ") :"))
  | none =>
    if kind = .foreach then none else some (Php.tag (kind.word ++ " (" ++ args.trim ++ ") :"))

/-- A loop and its closing word. -/
def loopElements (kind : LoopKind) : List Element :=
  [.calls kind.word fun call => loopHead kind call.args,
    .token ("@end" ++ kind.word) (Php.tag ("end" ++ kind.word ++ ";"))]

/-- The rule for a loop. -/
def loopRule (kind : LoopKind) : Rule :=
  .ofElements kind.word (loopElements kind)

/-- A jump out of a turn of a loop under a condition: `@word(e)`. -/
def jumpCalls (word : Text) : Element :=
  .calls word fun call => some (Php.tag ("if (" ++ call.args ++ ") \x7b " ++ word ++ "; \x7d"))

/-- A jump without a condition: the bare word. -/
def jumpToken (word : Text) : Element :=
  .token ('@' :: word) (Php.tag (word ++ ";"))

/-- A jump with or without a condition. -/
def jump (word : Text) : List Element :=
  [jumpCalls word, jumpToken word]

/-- `@break` and `@break(e)`. -/
def breakElements : List Element :=
  jump "break"

/-- The rule for `@break`. -/
def breakRule : Rule :=
  .ofElements "break" breakElements

/-- `@continue` and `@continue(e)`. -/
def continueElements : List Element :=
  jump "continue"

/-- The rule for `@continue`. -/
def continueRule : Rule :=
  .ofElements "continue" continueElements

end Directive

end Pagewright
