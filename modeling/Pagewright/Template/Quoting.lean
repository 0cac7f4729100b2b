import Pagewright.Text.Blank

/-!
# Quotes in expressions

The arguments of a directive are expressions of the page's own language. They are never parsed,
but a bracket or a comma inside a quoted literal does not count, so a scan keeps track of where it
stands: `Quoting.next` moves that state over one character. Inside a literal a backslash takes the
next character with it.
-/

namespace Pagewright

/-- Where a scan stands between two characters of an expression. -/
inductive Quoting where
  /-- Outside every literal. -/
  | code
  /-- Inside a literal that ends at `mark`. -/
  | literal (mark : Char)
  /-- Inside a literal, behind a backslash. -/
  | escape (mark : Char)
  deriving Repr, DecidableEq

/-- The two characters that start and end literals. -/
def isQuote (c : Char) : Bool :=
  c = '\'' || c = '"'

/-- The state behind the next character. -/
def Quoting.next : Quoting → Char → Quoting
  | .code, c => if isQuote c then .literal c else .code
  | .literal mark, c =>
    if c = '\\' then .escape mark else if c = mark then .code else .literal mark
  | .escape mark, _ => .literal mark

namespace Text

/-- The inside of a literal that ends at the last character, read from `state` on. -/
def literalFrom? : Quoting → Text → Option Text
  | _, [] => none
  | state, c :: rest =>
    match state.next c with
    | .code => if rest = [] then some [] else none
    | next => (literalFrom? next rest).map (c :: ·)

/-- The inside of an argument that is one quoted literal and nothing else. -/
def unquote? (argument : Text) : Option Text :=
  match argument.trim with
  | [] => none
  | mark :: rest => if isQuote mark then literalFrom? (.literal mark) rest else none

/-- A name as it is written without its quotes: every quote character is dropped. -/
def bareName (argument : Text) : Text :=
  argument.trim.filter fun c => !isQuote c

end Text

end Pagewright
