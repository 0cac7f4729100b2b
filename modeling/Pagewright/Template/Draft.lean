import Pagewright.Settings
import Pagewright.Template.Rewrite
import Pagewright.Text.Visible

/-!
# Drafts and rules

A draft is a template on its way to becoming a page: its text, the settings of the page, and the
fragments that have to run before and after the text. A rule looks for one kind of directive in a
draft and either rewrites it or leaves it alone.
-/

namespace Pagewright

/-- A template while it is being compiled. -/
structure Draft where
  content : Text
  /-- The way from the directory of the page up to the root of the site, one `/..` a level. -/
  relativePath : Text := []
  settings : Settings := []
  /-- Fragments that run before the content. -/
  before : List Text := []
  /-- Fragments that run after the content. -/
  after : List Text := []
  deriving Repr

/-- A draft for a single fragment: the same place and settings, and no fragments of its own. -/
def Draft.fragment (draft : Draft) (content : Text) : Draft :=
  { content, relativePath := draft.relativePath, settings := draft.settings }

/-- A named step of the compilation; `none` when the draft holds nothing for it. -/
structure Rule where
  name : Text
  apply : Draft → Option Draft

namespace Rule

/-- A rule that rewrites the content alone, knowing where the page will be. -/
def ofContent (name : Text) (rewrite : (relativePath : Text) → Rewrite) : Rule where
  name
  apply draft :=
    (rewrite draft.relativePath draft.content).map fun content => { draft with content }

/-- A rule that rewrites the content alone, wherever the page will be. -/
def ofRewrite (name : Text) (rewrite : Rewrite) : Rule :=
  ofContent name fun _ => rewrite

/-- A rule that goes over the content once for each element, wherever the page will be. -/
def ofElements (name : Text) (elements : List Element) : Rule :=
  ofRewrite name (.ofElements elements)

/-- A character of a name between quotes. What is not visible is written by its number. -/
def escapedChar (c : Char) : Text :=
  if c = '"' || c = '\\' then ['\\', c]
  else if c = '\n' then ['\\', 'n']
  else if c = '\r' then ['\\', 'r']
  else if c = '\t' then ['\\', 't']
  else if c = '\x00' then ['\\', '0']
  else if isVisible c then [c]
  else "\\u\x7b" ++ Nat.toDigits 16 c.toNat ++ "\x7d"

/-- A line for debugging that names a rule. -/
def summary (rule : Rule) : Text :=
  "FnRule \x7b name: \"" ++ rule.name.flatMap escapedChar ++ "\", .. \x7d"

end Rule

end Pagewright
