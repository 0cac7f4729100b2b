import Pagewright.Template.Rewrite

/-!
# PHP fragments

Templates compile to PHP. This file holds the fragments that several directives share: a piece of
code between its tags (`Php.tag`), a double-quoted literal (`Php.stringLiteral`), and the path of a
file that is included at run time, counted from the directory of the page that includes it
(`Php.filePath`).
-/

namespace Pagewright

namespace Php

/-- Code between the tags that switch PHP on and off. -/
def tag (code : Text) : Text :=
  "<?php " ++ code ++ " ?>"

/-- The inside of a double-quoted literal. A backslash keeps the character it escapes, except
that a single quote needs none, and a dollar sign never starts a variable. -/
def requoted : Text → Text
  | [] => []
  | ['\\'] => "\\\\"
  | '\\' :: c :: rest => if c = '\'' then '\'' :: requoted rest else '\\' :: c :: requoted rest
  | c :: rest => if c = '"' ∨ c = '$' then '\\' :: c :: requoted rest else c :: requoted rest

/-- A double-quoted literal with the given inside. -/
def stringLiteral (inner : Text) : Text :=
  '"' :: requoted inner ++ "\""

/-- An argument as a PHP expression: a quoted literal becomes a double-quoted one, anything else
is passed on as it is. -/
def value (argument : Text) : Text :=
  match argument.unquote? with
  | some inner => stringLiteral inner
  | none => argument.trim

/-- The expression for a file below one of the site's own directories. The file is named with
dots between its directories, `up` leads from the page to the root of the site. -/
def filePath (up dir name : Text) : Text :=
  let file := name.bareName.map fun c => if c = '.' then '/' else c
  "dirname(__FILE__) . \"" ++ up ++ "/" ++ dir ++ "/" ++ file ++ ".php\""

/-- The text before and behind the last occurrence of a word. -/
def lastCut? (text word : Text) : Option (Text × Text) :=
  (Text.cut? text.reverse word.reverse).map fun (rest, before) => (before.reverse, rest.reverse)

/-- Whether the text ends with PHP switched on: nothing closes the last tag that it opens. -/
def endsOpen (text : Text) : Bool :=
  match lastCut? text "<?php" with
  | some (_, rest) => !rest.holds "?>"
  | none => false

/-- Close the last tag when nothing else does. -/
def closeTag : Rewrite := fun text =>
  if endsOpen text then some (text ++ "?>") else none

end Php

end Pagewright
