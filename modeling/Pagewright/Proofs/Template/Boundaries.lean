import Pagewright.Proofs.Template.Parentheses

/-!
# Cutting a text between its characters

The bytes of a text are found by their numbers, but not every number is a place to cut at. A
character has one byte that starts it and up to three that go on with it (`Text.isInner`), and a cut
is allowed where no byte of the second kind follows (`Text.isBoundary`). That can be told from the
bytes alone, and the places are those between two characters (`Text.isBoundary_iff`).
`Text.checkedSlice` cuts where it is allowed and fails elsewhere.

Since bytes of the two kinds are never mixed up, what the bytes of a text start with can be told
from its characters, and the other way round (`Text.octets_isPrefix_iff`).
-/

namespace Pagewright

namespace Text

/-! ## Where characters start -/

/-- Whether a byte goes on with a character that has started before it. -/
def isInner (byte : Char) : Bool :=
  0x80 ≤ byte.toNat && byte.toNat < 0xC0

/-- Whether a character of the text starts at byte `n`, or the text ends there. -/
def isBoundary (text : Text) (n : Nat) : Bool :=
  match text.octets[n]? with
  | some byte => !isInner byte
  | none => n == text.octets.length

theorem isInner_of_lt {byte : Char} (h : byte.toNat < 128) : isInner byte = false := by
  rw [isInner, decide_eq_false (Nat.not_le.2 h), Bool.false_and]

/-- The first of several bytes is not an inner one. -/
theorem isInner_lead {n : Nat} (h : 192 ≤ n) (hlt : n < 256) :
    isInner (Char.ofNat (UInt8.ofNat n).toNat) = false := by
  rw [isInner, toNat_ofNat_byte, UInt8.toNat_ofNat_of_lt' hlt, decide_eq_false (Nat.not_lt.2 h),
    Bool.and_false]

/-- The bytes behind the first are inner ones. -/
theorem isInner_tail (n : Nat) :
    isInner (Char.ofNat (UInt8.ofNat (n % 64 + 128)).toNat) = true := by
  rw [isInner, toNat_ofNat_byte, UInt8.toNat_ofNat_of_lt' (show n % 64 + 128 < UInt8.size by
    have : UInt8.size = 256 := rfl
    omega), Bool.and_eq_true, decide_eq_true_iff, decide_eq_true_iff]
  omega

/-- One byte starts a character, and all others go on with it. -/
theorem exists_octets_singleton (c : Char) :
    ∃ first inner, octets [c] = first :: inner ∧ isInner first = false ∧
      ∀ byte ∈ inner, isInner byte = true := by
  by_cases hc : c.toNat < 128
  · exact ⟨c, [], octets_of_lt hc, isInner_of_lt hc, by simp⟩
  · have hval : ¬c.val.toNat ≤ 127 := fun h => hc (Nat.lt_succ_of_le h)
    rw [octets_singleton, String.utf8EncodeChar.eq_def]
    dsimp only
    rw [if_neg hval]
    split_ifs <;>
      refine ⟨_, _, rfl, isInner_lead (by omega) (by omega), ?_⟩ <;>
      simp only [List.map_cons, List.map_nil, List.forall_mem_cons, isInner_tail] <;>
      simp

/-- A character of ASCII is one byte long. -/
theorem utf8Size_of_lt {c : Char} (h : c.toNat < 128) : c.utf8Size = 1 := by
  have hlength := length_octets [c]
  rw [octets_of_lt h] at hlength
  exact hlength.symm

theorem byteSize_concat (front : Text) {c : Char} (h : c.toNat < 128) :
    (front ++ [c]).byteSize = front.byteSize + 1 := by
  rw [byteSize_append, byteSize_cons, utf8Size_of_lt h]
  rfl

/-- At the size of a front stands the first byte of what follows it. -/
theorem getElem?_octets_append (front back : Text) :
    (front ++ back).octets[front.byteSize]? = back.octets.head? := by
  rw [octets_append, ← length_octets, List.getElem?_append_right (Nat.le_refl _), Nat.sub_self,
    List.head?_eq_getElem?]

/-- Between two texts is a boundary. -/
theorem isBoundary_append (front back : Text) :
    (front ++ back).isBoundary front.byteSize = true := by
  rw [isBoundary, getElem?_octets_append]
  cases back with
  | nil =>
    rw [List.append_nil, length_octets]
    exact beq_self_eq_true _
  | cons c back =>
    obtain ⟨first, inner, hc, hfirst, -⟩ := exists_octets_singleton c
    rw [octets_cons, hc, List.cons_append, List.head?_cons]
    simp [hfirst]

/-- Behind its first character a text has the boundaries of the rest. -/
theorem isBoundary_cons (c : Char) (text : Text) (n : Nat) :
    isBoundary (c :: text) (c.utf8Size + n) = text.isBoundary n := by
  have hlength : (octets [c]).length = c.utf8Size := length_octets [c]
  rw [isBoundary, octets_cons, List.getElem?_append_right (by omega), hlength,
    Nat.add_sub_cancel_left, List.length_append, hlength, isBoundary]
  cases text.octets[n]? with
  | none => simp
  | some byte => rfl

/-- A text can be cut between two characters and nowhere else. -/
theorem isBoundary_iff {text : Text} {n : Nat} :
    text.isBoundary n = true ↔ ∃ front back, text = front ++ back ∧ front.byteSize = n := by
  constructor
  · intro h
    induction text generalizing n with
    | nil =>
      obtain rfl : n = 0 := by simpa [isBoundary, octets, utf8] using h
      exact ⟨[], [], rfl, rfl⟩
    | cons c text ih =>
      obtain ⟨first, inner, hc, -, hinner⟩ := exists_octets_singleton c
      have hsize : c.utf8Size = inner.length + 1 := by
        have := length_octets [c]
        rw [hc] at this
        simpa using this.symm
      rcases Nat.lt_or_ge n c.utf8Size with hlt | hle
      · cases n with
        | zero => exact ⟨[], c :: text, rfl, rfl⟩
        | succ n =>
          -- Only bytes that go on with the character stand here.
          have hbyte : (octets (c :: text))[n + 1]? = inner[n]? := by
            rw [octets_cons, hc, List.cons_append, List.getElem?_cons_succ,
              List.getElem?_append_left (by omega)]
          rw [isBoundary, hbyte, List.getElem?_eq_getElem (by omega)] at h
          simp [hinner _ (List.getElem_mem _)] at h
      · obtain ⟨m, rfl⟩ := Nat.exists_eq_add_of_le hle
        rw [isBoundary_cons] at h
        obtain ⟨front, back, rfl, rfl⟩ := ih h
        exact ⟨c :: front, back, rfl, rfl⟩
  · rintro ⟨front, back, rfl, rfl⟩
    exact isBoundary_append front back

/-! ## Slices that may fail -/

/-- Two bytes between which a text cannot be cut out. -/
structure BadSlice where
  start : Nat
  stop : Nat

/-- The text between two bytes. It has to lie within the text, and to start and end between two
characters. -/
def checkedSlice (text : Text) (start stop : Nat) : Except BadSlice Text :=
  if start ≤ stop ∧ text.isBoundary start ∧ text.isBoundary stop then .ok (text.slice start stop)
  else .error ⟨start, stop⟩

/-- A slice does not fail just when it is cut out between characters. -/
theorem checkedSlice_eq_ok_iff {text part : Text} {start stop : Nat} :
    text.checkedSlice start stop = .ok part ↔
      ∃ front back, text = front ++ (part ++ back) ∧ front.byteSize = start ∧
        stop = start + part.byteSize := by
  constructor
  · intro h
    rw [checkedSlice] at h
    split at h
    case isTrue hcut =>
      obtain ⟨hle, hstart, hstop⟩ := hcut
      obtain ⟨front, tail, rfl, rfl⟩ := isBoundary_iff.1 hstart
      obtain ⟨front', back, htext, rfl⟩ := isBoundary_iff.1 hstop
      obtain ⟨word, rfl, rfl⟩ := exists_append_of_byteSize_le htext hle
      rw [byteSize_append, slice_append] at h
      cases h
      exact ⟨front, back, rfl, rfl, byteSize_append front part⟩
    case isFalse => cases h
  · rintro ⟨front, back, rfl, rfl, rfl⟩
    have hstop : (front ++ (part ++ back)).isBoundary (front.byteSize + part.byteSize) = true := by
      rw [← List.append_assoc, ← byteSize_append]
      exact isBoundary_append _ _
    rw [checkedSlice, if_pos ⟨Nat.le_add_right _ _, isBoundary_append _ _, hstop⟩, slice_append]

/-! ## Words at the head of bytes -/

theorem ofNat_byte_injective : Function.Injective fun byte : UInt8 => Char.ofNat byte.toNat := by
  intro a b h
  have hnumbers := congrArg Char.toNat h
  dsimp only at hnumbers
  rwa [toNat_ofNat_byte, toNat_ofNat_byte, UInt8.toNat_inj] at hnumbers

/-- The character that some bytes start with can be told from them. -/
theorem eq_of_utf8EncodeChar_append {c d : Char} {s t : List UInt8}
    (h : String.utf8EncodeChar c ++ s = String.utf8EncodeChar d ++ t) : c = d := by
  have hdecode := congrArg (fun bytes => ByteArray.utf8DecodeChar? bytes.toByteArray 0) h
  simp only [List.toByteArray_append, ByteArray.utf8DecodeChar?_utf8EncodeChar_append] at hdecode
  exact Option.some.inj hdecode

/-- The bytes of a text start with those of a word when the text starts with the word. -/
theorem utf8_isPrefix_iff {word text : Text} : word.utf8 <+: text.utf8 ↔ word <+: text := by
  constructor
  · intro h
    induction word generalizing text with
    | nil => exact List.nil_prefix
    | cons c word ih =>
      cases text with
      | nil => simp [utf8] at h
      | cons d text =>
        obtain ⟨rest, hrest⟩ := h
        rw [utf8, utf8, List.flatMap_cons, List.flatMap_cons, List.append_assoc] at hrest
        obtain rfl := eq_of_utf8EncodeChar_append hrest
        exact List.cons_prefix_cons.2 ⟨rfl, ih ⟨rest, List.append_cancel_left hrest⟩⟩
  · rintro ⟨rest, rfl⟩
    exact ⟨utf8 rest, by simp [utf8]⟩

/-- The bytes of a text start with those of a word just when the text starts with the word. -/
theorem octets_isPrefix_iff {word text : Text} : word.octets <+: text.octets ↔ word <+: text :=
  (List.prefix_map_iff_of_injective ofNat_byte_injective).trans utf8_isPrefix_iff

end Text

end Pagewright
