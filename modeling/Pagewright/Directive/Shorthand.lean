import Pagewright.Template.Draft

/-!
# Shorthands

A site may define directives of its own, each by the text that stands for it. The arguments of a
call are put in wherever that text has `{args}`; the bare word is a call without arguments.
-/

namespace Pagewright

namespace Directive

/-- The text that stands for a call with the given arguments. -/
def expand (template args : Text) : Text :=
  template.replace "\x7bargs\x7d" args

/-- The rule of a directive that a site defines. -/
def shorthandRule (name template : Text) : Rule :=
  .ofRewrite name <|
    Rewrite.andThen
      (Rewrite.calls name fun call => some (expand template call.args))
      (Rewrite.token ('@' :: name) (expand template []))

end Directive

end Pagewright
