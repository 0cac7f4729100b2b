/-!
# Texts

Templates, paths, expressions and settings are all read and written as `Text`, a list of
characters. This file holds what every other part does with one: look for a word at the head
(`after?`) or anywhere (`cut?`), and measure a text in the bytes of its UTF-8 form (`byteSize`),
since positions are reported in bytes.

A text is never cut inside a character: `atByte?` answers only for offsets that lie between two
characters, and `dropBytes` moves on to the next such offset.
-/

namespace Pagewright

/-- A text is the list of its characters. -/
abbrev Text := List Char

scoped instance : Coe String Text := ⟨String.toList⟩

instance : LawfulBEq Text := inferInstance

namespace Text

/-! ## Words in a text -/

/-- What follows `word` when the text starts with it. -/
def after? : (text word : Text) → Option Text
  | text, [] => some text
  | [], _ :: _ => none
  | c :: text, w :: word => if c = w then after? text word else none

/-- Something stands behind a word when the text starts with the word. -/
theorem after?_eq_some_iff {text word rest : Text} :
    after? text word = some rest ↔ text = word ++ rest := by
  induction word generalizing text with
  | nil => simp [after?]
  | cons w word ih =>
    cases text with
    | nil => simp [after?]
    | cons c text =>
      by_cases h : c = w
      · simp [after?, h, ih]
      · simp [after?, h]

@[simp]
theorem after?_append (word rest : Text) : after? (word ++ rest) word = some rest :=
  after?_eq_some_iff.2 rfl

/-- The text before and the text after the first occurrence of `word`. -/
def cut? : (text word : Text) → Option (Text × Text)
  | [], word => if word = [] then some ([], []) else none
  | c :: text, word =>
    match after? (c :: text) word with
    | some rest => some ([], rest)
    | none => (cut? text word).map fun (before, rest) => (c :: before, rest)

/-- What is cut at a word can be put together again. -/
theorem eq_append_of_cut? {text word before rest : Text}
    (h : cut? text word = some (before, rest)) : text = before ++ word ++ rest := by
  induction text generalizing before with
  | nil =>
    by_cases hw : word = []
    · simp only [cut?, hw, if_true, Option.some.injEq, Prod.mk.injEq] at h
      simp [← h.1, ← h.2, hw]
    · simp [cut?, hw] at h
  | cons c text ih =>
    unfold cut? at h
    split at h
    case h_1 r hr =>
      simp only [Option.some.injEq, Prod.mk.injEq] at h
      rw [← h.1, ← h.2, List.nil_append, ← after?_eq_some_iff, hr]
    case h_2 =>
      obtain ⟨⟨b, r⟩, hb, hc⟩ := Option.map_eq_some_iff.1 h
      simp only [Prod.mk.injEq] at hc
      rw [ih (hc.2 ▸ hb), ← hc.1]
      simp

/-- Whether `word` occurs in the text. -/
def holds (text word : Text) : Bool :=
  (text.cut? word).isSome

/-- What precedes `word` when the text ends in it. -/
def before? (text word : Text) : Option Text :=
  (after? text.reverse word.reverse).map List.reverse

/-- Whether the text ends in `word`. -/
def endsWith (text word : Text) : Bool :=
  (text.before? word).isSome

/-- The texts between the occurrences of the character `mark`. -/
def parts (mark : Char) : Text → List Text
  | [] => [[]]
  | c :: text =>
    if c = mark then [] :: parts mark text
    else
      match parts mark text with
      | [] => [[c]]
      | first :: rest => (c :: first) :: rest

/-- The characters up to the first line feed. -/
def firstLine (text : Text) : Text :=
  text.takeWhile (· ≠ '\n')

/-! ## Bytes -/

/-- Length of the UTF-8 form. -/
def byteSize (text : Text) : Nat :=
  text.foldr (fun c size => c.utf8Size + size) 0

@[simp]
theorem byteSize_nil : byteSize [] = 0 := rfl

@[simp]
theorem byteSize_cons (c : Char) (text : Text) :
    byteSize (c :: text) = c.utf8Size + byteSize text := rfl

@[simp]
theorem byteSize_append (a b : Text) : byteSize (a ++ b) = byteSize a + byteSize b := by
  induction a with
  | nil => simp
  | cons c a ih => rw [List.cons_append, byteSize_cons, byteSize_cons, ih, Nat.add_assoc]

/-- The text from byte `offset` on, when that offset lies at the start of a character or at the
end of the text. -/
def atByte? : (offset : Nat) → Text → Option Text
  | 0, text => some text
  | _ + 1, [] => none
  | offset + 1, c :: text =>
    if c.utf8Size ≤ offset + 1 then atByte? (offset + 1 - c.utf8Size) text else none
termination_by _ text => text

/-- At the bytes of a front starts the rest. -/
theorem atByte?_byteSize (before rest : Text) :
    atByte? (byteSize before) (before ++ rest) = some rest := by
  induction before with
  | nil => cases rest <;> simp [atByte?]
  | cons c before ih =>
    have hc := c.utf8Size_pos
    obtain ⟨n, hn⟩ := Nat.exists_eq_succ_of_ne_zero (by omega : c.utf8Size ≠ 0)
    rw [byteSize_cons, List.cons_append, hn,
      show n.succ + byteSize before = (n + byteSize before) + 1 by omega, atByte?,
      if_pos (by omega)]
    rw [show n + byteSize before + 1 - c.utf8Size = byteSize before by omega, ih]

/-- The text without the characters that start before byte `offset`. -/
def dropBytes : (offset : Nat) → Text → Text
  | _, [] => []
  | 0, c :: text => c :: text
  | offset + 1, c :: text => dropBytes (offset + 1 - c.utf8Size) text

/-- The longest start of the text that fits in `limit` bytes. -/
def takeBytes : (limit : Nat) → Text → Text
  | _, [] => []
  | limit, c :: text =>
    if c.utf8Size ≤ limit then c :: takeBytes (limit - c.utf8Size) text else []

/-! ## Numbers -/

/-- A number in decimal. -/
def ofNat (n : Nat) : Text :=
  Nat.toDigits 10 n

/-! ## Order -/

/-- Texts are ordered by their characters, which is also the order of their UTF-8 bytes. -/
def precedes (a b : Text) : Bool :=
  decide (a < b)

end Text

end Pagewright
