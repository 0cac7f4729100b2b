import Pagewright.Template.Region
import Pagewright.Template.Token
import Pagewright.Text.Replace

/-!
# Rewrites

A rewrite turns a text into another one, or answers `none` when it finds nothing to do. Rewrites
are made of three kinds of elements: replacing calls, replacing regions and replacing words. The
rewrite of a directive is given by the list of its elements (`Element`, `Rewrite.ofElements`).
-/

namespace Pagewright

/-- A change to a text; `none` when nothing in it is recognised. -/
abbrev Rewrite := Text → Option Text

namespace Rewrite

/-- The text after the rewrite, which is the text itself when nothing is recognised. -/
def run (rewrite : Rewrite) (text : Text) : Text :=
  (rewrite text).getD text

/-- One rewrite and then another. -/
def andThen (first second : Rewrite) : Rewrite := fun text =>
  let once := first text
  (second (once.getD text)).or once

/-- Replace the calls of `name` for which `f` has an answer. -/
def calls (name : Text) (f : Call → Option Text) : Rewrite := fun text =>
  Piece.rewrite? f (Call.pieces name text)

/-- Replace the regions between calls of `name` and `close` for which `f` has an answer. -/
def regions (name close : Text) (f : Region → Option Text) : Rewrite := fun text =>
  Piece.rewrite? f (Region.pieces name close text)

/-- Replace a bare word. -/
def token (word replacement : Text) : Rewrite := fun text =>
  Piece.rewrite? (fun _ => some replacement) (Token.pieces word text)

/-- Replace every occurrence of a word, whatever follows it. -/
def literal (word replacement : Text) : Rewrite := fun text =>
  Piece.rewrite? (fun _ => some replacement) (text.occurrences word)

end Rewrite

/-- An element of a rewrite: what it looks for, and what it puts in its place. -/
inductive Element where
  | calls (name : Text) (f : Call → Option Text)
  | regions (name close : Text) (f : Region → Option Text)
  | token (word replacement : Text)
  | literal (word replacement : Text)

/-- The rewrite with a single element. -/
def Element.rewrite : Element → Rewrite
  | .calls name f => Rewrite.calls name f
  | .regions name close f => Rewrite.regions name close f
  | .token word replacement => Rewrite.token word replacement
  | .literal word replacement => Rewrite.literal word replacement

/-- The rewrite with some elements, one after another. -/
def Rewrite.ofElements : List Element → Rewrite
  | [] => fun _ => none
  | [element] => element.rewrite
  | element :: next :: rest => andThen element.rewrite (ofElements (next :: rest))

end Pagewright
