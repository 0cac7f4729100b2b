import Pagewright.Text.Basic

/-!
# Pieces of a text

Every search in a template goes through the text once, from left to right, and finds constructs
that do not overlap. `Text.pieces` is that one pass: a reader looks at what is left of the text
and says what stands at its head, if anything; the pass goes on behind it. What the reader does
not recognise is a piece of one character. The pieces put together are the text again
(`sources_pieces`), so replacing some of them (`rewrite`) changes nothing else.
-/

namespace Pagewright

/-- A stretch of a text and, where its characters spell something, what they spell. -/
structure Piece (α : Type) where
  source : Text
  value : Option α
  deriving Repr

namespace Piece

variable {α : Type}

/-- The text that the pieces spell. -/
def sources (pieces : List (Piece α)) : Text :=
  pieces.flatMap source

/-- The values found, from left to right. -/
def values (pieces : List (Piece α)) : List α :=
  pieces.filterMap value

/-- What stands in the place of a piece once `f` has seen its value. -/
def rewritten (f : α → Option Text) (piece : Piece α) : Text :=
  (piece.value.bind f).getD piece.source

/-- The text with every value that `f` accepts replaced by its answer. -/
def rewrite (f : α → Option Text) (pieces : List (Piece α)) : Text :=
  pieces.flatMap (rewritten f)

/-- As `rewrite`, but `none` when `f` accepts nothing. -/
def rewrite? (f : α → Option Text) (pieces : List (Piece α)) : Option Text :=
  if (values pieces).any fun a => (f a).isSome then some (rewrite f pieces) else none

/-- The values with the byte offsets of their first character and of the end of their last one,
for pieces that start at byte `start`. -/
def located (start : Nat) : List (Piece α) → List (Nat × Nat × α)
  | [] => []
  | piece :: pieces =>
    let stop := start + piece.source.byteSize
    match piece.value with
    | some a => (start, stop, a) :: located stop pieces
    | none => located stop pieces

/-- The pieces with all values but the first forgotten. -/
def onlyFirst : List (Piece α) → List (Piece α)
  | [] => []
  | piece :: pieces =>
    if piece.value.isSome then piece :: pieces.map fun p => { p with value := none }
    else piece :: onlyFirst pieces

end Piece

namespace Text

variable {α : Type}

/-- The pieces of what is left of a text once `passed` more characters have been passed over. -/
def piecesAfter (read : Text → Option (Piece α)) : (passed : Nat) → Text → List (Piece α)
  | _, [] => []
  | passed + 1, _ :: rest => piecesAfter read passed rest
  | 0, c :: rest =>
    match read (c :: rest) with
    | some piece => piece :: piecesAfter read (piece.source.length - 1) rest
    | none => ⟨[c], none⟩ :: piecesAfter read 0 rest

/-- The pieces that `read` finds in a text. -/
def pieces (read : Text → Option (Piece α)) (text : Text) : List (Piece α) :=
  piecesAfter read 0 text

/-- A reader is faithful when each piece spells the characters that it was read from. -/
def Faithful (read : Text → Option (Piece α)) : Prop :=
  ∀ text piece, read text = some piece → piece.source ≠ [] ∧ piece.source <+: text

variable {read : Text → Option (Piece α)}

theorem piecesAfter_eq_drop (passed : Nat) (text : Text) :
    piecesAfter read passed text = pieces read (text.drop passed) := by
  induction text generalizing passed with
  | nil => cases passed <;> simp [pieces, piecesAfter]
  | cons c rest ih =>
    cases passed with
    | zero => rfl
    | succ n => rw [piecesAfter, ih, List.drop_succ_cons]

@[simp]
theorem pieces_nil : pieces read [] = [] := rfl

/-- What is read at the head is the first piece. -/
theorem pieces_of_read {text : Text} {piece : Piece α} (h : read text = some piece)
    (hne : text ≠ []) (hs : piece.source ≠ []) :
    pieces read text = piece :: pieces read (text.drop piece.source.length) := by
  obtain ⟨c, rest, rfl⟩ := List.exists_cons_of_ne_nil hne
  have hl : piece.source.length ≠ 0 := by simpa using hs
  obtain ⟨n, hn⟩ := Nat.exists_eq_succ_of_ne_zero hl
  rw [pieces, piecesAfter, h]
  simp only [piecesAfter_eq_drop, hn]
  simp

/-- Where nothing is read the first character is a piece of its own. -/
theorem pieces_of_read_none {c : Char} {rest : Text} (h : read (c :: rest) = none) :
    pieces read (c :: rest) = ⟨[c], none⟩ :: pieces read rest := by
  rw [pieces, piecesAfter, h]
  rfl

/-- The pieces of a text spell the text. -/
theorem sources_pieces (hread : Faithful read) (text : Text) :
    Piece.sources (pieces read text) = text := by
  match text with
  | [] => rfl
  | c :: rest =>
    cases h : read (c :: rest) with
    | none =>
      rw [pieces_of_read_none h, Piece.sources, List.flatMap_cons]
      have := sources_pieces hread rest
      rw [Piece.sources] at this
      rw [this]
      rfl
    | some piece =>
      obtain ⟨hs, t, ht⟩ := hread _ _ h
      have hlen : 0 < piece.source.length := List.length_pos_iff.2 hs
      have := sources_pieces hread ((c :: rest).drop piece.source.length)
      rw [Piece.sources] at this
      rw [pieces_of_read h (by simp) hs, Piece.sources, List.flatMap_cons, this, ← ht]
      simp
termination_by text.length
decreasing_by
  · simp
  · simp only [List.length_drop, List.length_cons]
    omega

end Text

end Pagewright
