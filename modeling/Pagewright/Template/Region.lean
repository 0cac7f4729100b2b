import Pagewright.Template.Call

/-!
# Paired directives

Some directives enclose a body: a call, then text up to the nearest closing word. Such regions do
not nest, so a call inside a body belongs to that body. Once a call has no closing word behind it
no later call has one either, and the rest of the text holds no region (`Region.read`).
-/

namespace Pagewright

/-- A call, the body behind it and the word that ends the body. -/
structure Region where
  call : Call
  body : Text
  close : Text
  deriving Repr, DecidableEq

namespace Region

/-- The arguments of the opening call. -/
def args (region : Region) : Text :=
  region.call.args

/-- The region as it is written. -/
def source (region : Region) : Text :=
  region.call.source ++ region.body ++ region.close

/-- The region that a text starts with. A call without a closing word takes the rest of the text
with it. -/
def read (name close text : Text) : Option (Piece Region) :=
  match Call.read name text with
  | none => none
  | some ⟨source, none⟩ => some ⟨source, none⟩
  | some ⟨source, some call⟩ =>
    match Text.cut? (text.drop source.length) close with
    | some (body, _) => some ⟨Region.source ⟨call, body, close⟩, some ⟨call, body, close⟩⟩
    | none => some ⟨text, none⟩

/-- The pieces of a text, its regions recognised. -/
def pieces (name close text : Text) : List (Piece Region) :=
  text.pieces (read name close)

end Region

namespace Text

/-- The regions between calls of `name` and `close` in a text, with their byte offsets. -/
def regions (text name close : Text) : List (Nat × Nat × Region) :=
  Piece.located 0 (Region.pieces name close text)

/-- The first region at or after byte `start`, with its byte offsets: the first call from there on,
and what follows it up to the nearest closing word. -/
def nextRegion? (text name close : Text) (start : Nat) : Option (Nat × Nat × Region) := do
  let (first, behind, call) ← text.nextCall? name start
  let (body, _) ← (text.dropBytes behind).cut? close
  return (first, behind + body.byteSize + close.byteSize, ⟨call, body, close⟩)

end Text

end Pagewright
