import Pagewright.Text.Piece

/-!
# Replacing a word

Every occurrence of a word can be replaced by another text (`Text.replace`). Occurrences are found
from left to right and do not overlap (`Text.occurrences`).
-/

namespace Pagewright

namespace Text

/-- The pieces of a text, the word recognised wherever it stands. The empty word stands before
and behind every character. -/
def occurrences (text word : Text) : List (Piece Unit) :=
  if word = [] then
    ⟨[], some ()⟩ :: text.flatMap fun c => [⟨[c], none⟩, ⟨[], some ()⟩]
  else
    text.pieces fun t => (t.after? word).map fun _ => ⟨word, some ()⟩

/-- The text with every occurrence of `word` replaced. -/
def replace (text word replacement : Text) : Text :=
  Piece.rewrite (fun _ => some replacement) (text.occurrences word)

variable {text word : Text}

theorem replace_nil (hw : word ≠ []) (replacement : Text) : replace [] word replacement = [] := by
  simp [replace, occurrences, hw, Piece.rewrite]

theorem replace_cons_of_after?_eq_none {c : Char} (hw : word ≠ [])
    (h : after? (c :: text) word = none) (replacement : Text) :
    replace (c :: text) word replacement = c :: replace text word replacement := by
  have hread : (fun t : Text => (t.after? word).map fun _ => (⟨word, some ()⟩ : Piece Unit))
      (c :: text) = none := by simp [h]
  simp only [replace, occurrences, if_neg hw]
  rw [pieces_of_read_none hread]
  simp [Piece.rewrite, Piece.rewritten]

theorem replace_append (hw : word ≠ []) (rest replacement : Text) :
    replace (word ++ rest) word replacement = replacement ++ replace rest word replacement := by
  have hread : (fun t : Text => (t.after? word).map fun _ => (⟨word, some ()⟩ : Piece Unit))
      (word ++ rest) = some ⟨word, some ()⟩ := by
    simp
  have hne : word ++ rest ≠ [] := by simp [hw]
  simp only [replace, occurrences, if_neg hw]
  rw [pieces_of_read hread hne hw, List.drop_left]
  simp [Piece.rewrite, Piece.rewritten]

end Text

end Pagewright
