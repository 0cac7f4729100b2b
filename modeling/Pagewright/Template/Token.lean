import Pagewright.Text.Piece
import Pagewright.Text.Word

/-!
# Bare words

A directive without arguments is recognised by its word alone, but only where a word ends or
starts behind it: `@break` does not occur in `@breakfast`. The empty word occurs at every such
boundary.
-/

namespace Pagewright

namespace Token

/-- The word that a text starts with, when there is a boundary behind it. -/
def read (word text : Text) : Option (Piece Unit) :=
  match text.after? word with
  | some rest => if isWordBoundary word.getLast? rest.head? then some ⟨word, some ()⟩ else none
  | none => none

/-- An empty piece at every boundary of the text, `before` being the character in front of it. -/
def boundaries (before : Option Char) : Text → List (Piece Unit)
  | [] => if isWordBoundary before none then [⟨[], some ()⟩] else []
  | c :: rest =>
    (if isWordBoundary before (some c) then [⟨[], some ()⟩] else [])
      ++ ⟨[c], none⟩ :: boundaries (some c) rest

/-- The pieces of a text, the bare word recognised. -/
def pieces (word text : Text) : List (Piece Unit) :=
  if word = [] then boundaries none text else text.pieces (read word)

end Token

end Pagewright
