import Mathlib.Data.List.TakeDrop
import Mathlib.Tactic.Ring
import Pagewright.Json.Reader
import Pagewright.Json.Writer

/-!
# Numbers as they are written and read

A number is written as a `Json.Numeral`: digits, a fraction and an exponent. The reader takes the
whole of a numeral and nothing behind it (`Json.readNumber_source`), and every number that the
writer makes is a numeral (`Json.source_ofInt`, `Json.exists_numeral_decimal`).
-/

namespace Pagewright

namespace Json

/-- Decimal digits, at least one. -/
structure Digits where
  text : Text
  ne_nil : text ≠ []
  isDigit : ∀ c ∈ text, c.isDigit = true

/-- A number in decimal notation. -/
structure Numeral where
  negative : Bool := false
  whole : Digits
  fraction : Option Digits := none
  /-- Whether the exponent is below zero, and its digits. -/
  exponent : Option (Bool × Digits) := none

namespace Numeral

/-- The fraction behind its point. -/
def fractionText (n : Numeral) : Text :=
  n.fraction.elim [] fun digits => '.' :: digits.text

/-- The exponent behind its mark. -/
def exponentText (n : Numeral) : Text :=
  n.exponent.elim [] fun e => 'e' :: (if e.1 then '-' else '+') :: e.2.text

/-- The numeral without its sign. -/
def unsigned (n : Numeral) : Text :=
  n.whole.text ++ (n.fractionText ++ n.exponentText)

/-- The numeral as it is written. -/
def source (n : Numeral) : Text :=
  (if n.negative then ['-'] else []) ++ n.unsigned

/-- The number that the exponent stands for. -/
def power? (n : Numeral) : Option Int :=
  n.exponent.map fun e => (if e.1 then -1 else 1) * ofDigits e.2.text

/-- What the numeral stands for. -/
def value? (n : Numeral) : Option Value :=
  if n.whole.text.length ≠ 1 && n.whole.text.head? = some '0' then none
  else number? n.negative n.whole.text (n.fraction.elim [] Digits.text) n.power?

end Numeral

/-- Whether a number may go on with a character. -/
def isNumberChar (c : Char) : Bool :=
  c.isDigit || c = '.' || c = 'e' || c = 'E'

/-- No number goes on in the text. -/
def Stops (rest : Text) : Prop :=
  ∀ c ∈ rest.head?, isNumberChar c = false

theorem Stops.not_isDigit {rest : Text} (h : Stops rest) : ∀ c ∈ rest.head?, c.isDigit = false := by
  intro c hc
  have hstop := h c hc
  simp only [isNumberChar, Bool.or_eq_false_iff] at hstop
  exact hstop.1.1.1

/-- Reading takes exactly the digits. -/
theorem digits_append (d : Digits) {rest : Text} (h : ∀ c ∈ rest.head?, c.isDigit = false) :
    digits (d.text ++ rest) = (d.text, rest) := by
  have hhead : rest.takeWhile Char.isDigit = [] ∧ rest.dropWhile Char.isDigit = rest := by
    cases rest with
    | nil => exact ⟨rfl, rfl⟩
    | cons c rest => simp [h c rfl]
  rw [digits, List.span_eq_takeWhile_dropWhile, List.takeWhile_append_of_pos d.isDigit,
    List.dropWhile_append_of_pos d.isDigit, hhead.1, hhead.2, List.append_nil]

/-- Reading takes exactly the fraction. -/
theorem readFraction_append (n : Numeral) {rest : Text} (h : ∀ c ∈ rest.head?, c.isDigit = false)
    (hpoint : rest.head? ≠ some '.') :
    readFraction (n.fractionText ++ rest) = some (n.fraction.elim [] Digits.text, rest) := by
  cases hfraction : n.fraction with
  | none =>
    rw [Numeral.fractionText, hfraction, Option.elim_none, Option.elim_none, List.nil_append]
    unfold readFraction
    split
    · simp at hpoint
    · rfl
  | some d =>
    simp [Numeral.fractionText, hfraction, readFraction, digits_append d h, d.ne_nil]

/-- Reading takes exactly the exponent. -/
theorem readExponent_append (n : Numeral) {rest : Text} (h : Stops rest) :
    readExponent (n.exponentText ++ rest) = some (n.power?, rest) := by
  cases hexponent : n.exponent with
  | none =>
    simp only [Numeral.exponentText, Numeral.power?, hexponent, Option.elim_none, List.nil_append,
      Option.map_none]
    cases rest with
    | nil => rfl
    | cons c rest =>
      have hc := h c rfl
      simp only [isNumberChar, Bool.or_eq_false_iff, decide_eq_false_iff_not] at hc
      simp [readExponent, hc.1.2, hc.2]
  | some e =>
    obtain ⟨below, d⟩ := e
    cases below <;>
      simp [Numeral.exponentText, Numeral.power?, hexponent, readExponent,
        digits_append d h.not_isDigit, d.ne_nil]

theorem mem_head?_exponentText (n : Numeral) {rest : Text} {c : Char}
    (h : c ∈ (n.exponentText ++ rest).head?) : c = 'e' ∨ c ∈ rest.head? := by
  cases hexponent : n.exponent with
  | none => exact .inr (by simpa [Numeral.exponentText, hexponent] using h)
  | some e =>
    rw [Numeral.exponentText, hexponent] at h
    exact .inl (Option.some.inj h).symm

theorem mem_head?_fractionText (n : Numeral) {rest : Text} {c : Char}
    (h : c ∈ (n.fractionText ++ rest).head?) : c = '.' ∨ c ∈ rest.head? := by
  cases hfraction : n.fraction with
  | none => exact .inr (by simpa [Numeral.fractionText, hfraction] using h)
  | some d =>
    rw [Numeral.fractionText, hfraction] at h
    exact .inl (Option.some.inj h).symm

/-- A number behind its sign. -/
theorem readNumber_signed (negative : Bool) {body whole behind : Text}
    (hhead : body.head? ≠ some '-') (hbody : digits body = (whole, behind)) :
    readNumber ((if negative then ['-'] else []) ++ body) =
      if whole = [] || (whole.length ≠ 1 && whole.head? = some '0') then none
      else (readFraction behind).bind fun f => (readExponent f.2).bind fun e =>
        (number? negative whole f.1 e.1).bind fun value => some (value, e.2) := by
  cases negative with
  | true =>
    simp only [if_true, List.singleton_append, readNumber, hbody]
    rfl
  | false =>
    simp only [Bool.false_eq_true, if_false, List.nil_append, readNumber]
    split
    · exact absurd rfl hhead
    · simp only [hbody]
      rfl

/-- The reader takes the whole of a numeral and nothing behind it. -/
theorem readNumber_source (n : Numeral) {rest : Text} (h : Stops rest) :
    readNumber (n.source ++ rest) = n.value?.map fun value => (value, rest) := by
  let behind := n.exponentText ++ rest
  have hbehind : ∀ c ∈ behind.head?, c.isDigit = false ∧ c ≠ '.' := by
    intro c hc
    rcases mem_head?_exponentText n hc with rfl | hc
    · decide
    · have hstop := h c hc
      simp only [isNumberChar, Bool.or_eq_false_iff, decide_eq_false_iff_not] at hstop
      exact ⟨hstop.1.1.1, hstop.1.1.2⟩
  have hfraction : readFraction (n.fractionText ++ behind)
      = some (n.fraction.elim [] Digits.text, behind) :=
    readFraction_append n (fun c hc => (hbehind c hc).1) fun hpoint => (hbehind _ hpoint).2 rfl
  have hexponent : readExponent behind = some (n.power?, rest) := readExponent_append n h
  have hwhole : digits (n.whole.text ++ (n.fractionText ++ behind))
      = (n.whole.text, n.fractionText ++ behind) := by
    refine digits_append n.whole fun c hc => ?_
    rcases mem_head?_fractionText n hc with rfl | hc
    · decide
    · exact (hbehind c hc).1
  have hhead : (n.whole.text ++ (n.fractionText ++ behind)).head? ≠ some '-' := by
    obtain ⟨c, tail, hc⟩ := List.exists_cons_of_ne_nil n.whole.ne_nil
    rw [hc]
    rintro ⟨⟩
    exact absurd (n.whole.isDigit '-' (by simp [hc])) (by decide)
  have hsource : n.source ++ rest
      = (if n.negative then ['-'] else []) ++ (n.whole.text ++ (n.fractionText ++ behind)) := by
    simp [Numeral.source, Numeral.unsigned, behind]
  rw [hsource, readNumber_signed n.negative hhead hwhole, hfraction]
  simp only [hexponent, n.whole.ne_nil, decide_false, Bool.false_or, Option.bind_some,
    Numeral.value?]
  split
  · rfl
  · exact Option.map_eq_bind.symm

/-! ## Digits -/

/-- The digits of a number add to what has been read before them. -/
theorem foldl_digits (n : Nat) (ds : Text) :
    ds.foldl (fun n c => n * 10 + (c.toNat - '0'.toNat)) n = n * 10 ^ ds.length + ofDigits ds := by
  induction ds generalizing n with
  | nil => simp [ofDigits]
  | cons c ds ih =>
    rw [ofDigits, List.foldl_cons, List.foldl_cons, ih, ih]
    simp only [List.length_cons]
    ring

/-- The digits of two numbers side by side make one number. -/
theorem ofDigits_append (first second : Text) :
    ofDigits (first ++ second) = ofDigits first * 10 ^ second.length + ofDigits second := by
  rw [ofDigits, List.foldl_append, foldl_digits]
  rfl

theorem ofDigits_zeros (count : Nat) : ofDigits (List.replicate count '0') = 0 := by
  induction count with
  | zero => rfl
  | succ count ih =>
    have hzero : ofDigits ['0'] = 0 := rfl
    rw [List.replicate_succ, ← List.singleton_append, ofDigits_append, ih, hzero, Nat.zero_mul]

/-- The digits of a number stand for it. -/
theorem ofDigits_toDigits (n : Nat) : ofDigits (Nat.toDigits 10 n) = n := by
  induction n using Nat.strongRecOn with
  | ind n ih =>
    have hlast : ∀ d < 10, ofDigits [Nat.digitChar d] = d := by decide
    rw [Nat.toDigits_eq_if (by decide)]
    split
    next h => exact hlast n h
    next h =>
      rw [ofDigits_append, ih (n / 10) (by omega), hlast _ (Nat.mod_lt _ (by decide))]
      simp only [List.length_singleton]
      omega

/-- The digits of a number do not start with a zero that means nothing. -/
theorem head?_toDigits {n : Nat} (h : n ≠ 0) : (Nat.toDigits 10 n).head? ≠ some '0' := by
  induction n using Nat.strongRecOn with
  | ind n ih =>
    rw [Nat.toDigits_eq_if (by decide)]
    split
    next hlt => simpa using h
    next hge =>
      rw [List.head?_append, Option.or_of_isSome (by simp [Nat.toDigits_ne_nil])]
      exact ih (n / 10) (by omega) (by omega)

/-! ## The numbers of the writer -/

/-- The digits of a natural number. -/
def Digits.ofNat (n : Nat) : Digits where
  text := Nat.toDigits 10 n
  ne_nil := Nat.toDigits_ne_nil
  isDigit _ := Nat.isDigit_of_mem_toDigits (by decide) (by decide)

/-- The digit zero. -/
def Digits.zero : Digits where
  text := ['0']
  ne_nil := List.cons_ne_nil _ _
  isDigit := List.forall_mem_singleton.2 rfl

@[simp]
theorem Digits.text_zero : Digits.zero.text = ['0'] := rfl

/-- A number is written by its decimal digits. -/
@[simp]
theorem Digits.text_ofNat (n : Nat) : (Digits.ofNat n).text = Nat.toDigits 10 n := rfl

/-- A whole number as a numeral. -/
def Numeral.ofInt (i : Int) : Numeral where
  negative := i < 0
  whole := .ofNat i.natAbs

/-- The numeral of an integer is written as the writer has it. -/
theorem source_ofInt (i : Int) : (Numeral.ofInt i).source = Json.ofInt i := by
  by_cases h : i < 0 <;>
    simp [Numeral.source, Numeral.unsigned, Numeral.ofInt, Numeral.fractionText,
      Numeral.exponentText, Json.ofInt, h]

namespace Numeral

/-- The digits of a numeral as a number, without regard to the point. -/
def mantissa (n : Numeral) : Nat :=
  ofDigits (n.whole.text ++ n.fraction.elim [] Digits.text)

/-- The power of ten that the mantissa is multiplied by. -/
def scale (n : Numeral) : Int :=
  n.power?.getD 0 - (n.fraction.elim [] Digits.text).length

/-- A numeral that spells `digits · 10 ^ k`, has a fraction or an exponent, and is short in front of
the point. -/
structure Spells (n : Numeral) (digits : Nat) (k : Int) : Prop where
  mantissa_eq : ∃ j : Nat, n.mantissa = digits * 10 ^ j ∧ n.scale = k - j
  short : n.whole.text.length ≤ 16
  head : digits ≠ 0 → n.whole.text.length ≠ 1 → n.whole.text.head? ≠ some '0'
  isFloat : n.fraction.isSome ∨ n.exponent.isSome

end Numeral

theorem isDigit_zeros (count : Nat) : ∀ c ∈ List.replicate count '0', c.isDigit = true := by
  intro c hc
  rw [List.eq_of_mem_replicate hc]
  rfl

variable {digits : Nat} {k : Int}

/-- A whole number, with zeros behind its digits. -/
theorem exists_numeral_whole (hk : 0 ≤ k) (hpoint : (Nat.toDigits 10 digits).length + k ≤ 16) :
    ∃ n : Numeral, n.Spells digits k ∧
      n.unsigned = Nat.toDigits 10 digits ++ List.replicate k.toNat '0' ++ ".0" := by
  have hdigits : ∀ c ∈ Nat.toDigits 10 digits, c.isDigit = true := (Digits.ofNat digits).isDigit
  have hzero : ofDigits ['0'] = 0 := rfl
  refine ⟨{ whole := ⟨Nat.toDigits 10 digits ++ List.replicate k.toNat '0', ?_, ?_⟩
            fraction := some .zero }, ⟨⟨k.toNat + 1, ?_, ?_⟩, ?_, ?_, ?_⟩, ?_⟩
  · simp [Nat.toDigits_ne_nil]
  · exact fun c hc => (List.mem_append.1 hc).elim (hdigits c) (isDigit_zeros _ c)
  · simp only [Numeral.mantissa, Option.elim_some, ofDigits_append, ofDigits_toDigits,
      ofDigits_zeros, Digits.text_zero, hzero, List.length_replicate, List.length_singleton]
    ring
  · simp only [Numeral.scale, Numeral.power?, Option.map_none, Option.getD_none, Option.elim_some,
      Digits.text_zero, List.length_singleton]
    omega
  · simp only [List.length_append, List.length_replicate]
    omega
  · intro hne _
    rw [List.head?_append, Option.or_of_isSome (by simp [Nat.toDigits_ne_nil])]
    exact head?_toDigits hne
  · exact .inl rfl
  · simp [Numeral.unsigned, Numeral.fractionText, Numeral.exponentText]

/-- A number with a point between its digits. -/
theorem exists_numeral_point {point : Nat} (hpoint : (Nat.toDigits 10 digits).length + k = point)
    (hpos : 0 < point) (hle : point ≤ 16) (hk : k < 0) :
    ∃ n : Numeral, n.Spells digits k ∧
      n.unsigned = (Nat.toDigits 10 digits).take point ++ "."
        ++ (Nat.toDigits 10 digits).drop point := by
  have hdigits : ∀ c ∈ Nat.toDigits 10 digits, c.isDigit = true := (Digits.ofNat digits).isDigit
  refine ⟨{ whole := ⟨(Nat.toDigits 10 digits).take point, ?_, fun c hc =>
              hdigits c (List.mem_of_mem_take hc)⟩
            fraction := some ⟨(Nat.toDigits 10 digits).drop point, ?_, fun c hc =>
              hdigits c (List.mem_of_mem_drop hc)⟩ }, ⟨⟨0, ?_, ?_⟩, ?_, ?_, ?_⟩, ?_⟩
  · have hne : Nat.toDigits 10 digits ≠ [] := Nat.toDigits_ne_nil
    simp [hne]
    omega
  · rw [ne_eq, List.drop_eq_nil_iff]
    omega
  · simp [Numeral.mantissa, ofDigits_toDigits]
  · simp only [Numeral.scale, Numeral.power?, Option.map_none, Option.getD_none, Option.elim_some,
      List.length_drop]
    omega
  · simp only [List.length_take]
    omega
  · intro hne _
    rw [List.head?_take, if_neg (by omega)]
    exact head?_toDigits hne
  · exact .inl rfl
  · simp [Numeral.unsigned, Numeral.fractionText, Numeral.exponentText]

/-- A number below one, with zeros behind the point. -/
theorem exists_numeral_small {zeros : Nat} (hzeros : (Nat.toDigits 10 digits).length + k = -zeros) :
    ∃ n : Numeral, n.Spells digits k ∧
      n.unsigned = "0." ++ List.replicate zeros '0' ++ Nat.toDigits 10 digits := by
  have hdigits : ∀ c ∈ Nat.toDigits 10 digits, c.isDigit = true := (Digits.ofNat digits).isDigit
  have hzero : ofDigits ['0'] = 0 := rfl
  refine ⟨{ whole := .zero
            fraction := some ⟨List.replicate zeros '0' ++ Nat.toDigits 10 digits, ?_, ?_⟩ },
    ⟨⟨0, ?_, ?_⟩, ?_, ?_, ?_⟩, ?_⟩
  · simp [Nat.toDigits_ne_nil]
  · exact fun c hc => (List.mem_append.1 hc).elim (isDigit_zeros _ c) (hdigits c)
  · simp only [Numeral.mantissa, Option.elim_some, ofDigits_append, ofDigits_toDigits,
      ofDigits_zeros, Digits.text_zero, hzero]
    ring
  · simp only [Numeral.scale, Numeral.power?, Option.map_none, Option.getD_none, Option.elim_some,
      List.length_append, List.length_replicate]
    omega
  · simp
  · intro _ hlength
    exact absurd rfl hlength
  · exact .inl rfl
  · simp [Numeral.unsigned, Numeral.fractionText, Numeral.exponentText]

/-- The digits behind the first one as a fraction. -/
theorem exists_fraction_drop (d : Digits) : ∃ fraction : Option Digits,
    fraction.elim [] Digits.text = d.text.drop 1 ∧
      (fraction.elim [] fun digits => '.' :: digits.text)
        = if d.text.length = 1 then ([] : Text) else "." ++ d.text.drop 1 := by
  by_cases hlength : d.text.length = 1
  · exact ⟨none, (List.drop_eq_nil_of_le (by omega)).symm, by simp [hlength]⟩
  · have hpos : 0 < d.text.length := List.length_pos_iff.2 d.ne_nil
    refine ⟨some ⟨d.text.drop 1, ?_, fun c hc => d.isDigit c (List.mem_of_mem_drop hc)⟩, rfl, ?_⟩
    · rw [ne_eq, List.drop_eq_nil_iff]
      omega
    · simp [hlength]

/-- A number with an exponent. -/
theorem exists_numeral_exponent {e : Int} (he : (Nat.toDigits 10 digits).length + k - 1 = e) :
    ∃ n : Numeral, n.Spells digits k ∧
      n.unsigned = (Nat.toDigits 10 digits).take 1
        ++ (if (Nat.toDigits 10 digits).length = 1 then ([] : Text)
          else "." ++ (Nat.toDigits 10 digits).drop 1)
        ++ (if 0 ≤ e then ("e+" : Text) else "e-") ++ Nat.toDigits 10 e.natAbs := by
  have hdigits : ∀ c ∈ Nat.toDigits 10 digits, c.isDigit = true := (Digits.ofNat digits).isDigit
  have hlength : 0 < (Nat.toDigits 10 digits).length := Nat.length_toDigits_pos
  obtain ⟨fraction, htext, hpoint⟩ := exists_fraction_drop (.ofNat digits)
  rw [Digits.text_ofNat] at htext hpoint
  have hone : ((Nat.toDigits 10 digits).take 1).length = 1 := by
    rw [List.length_take]
    omega
  refine ⟨{ whole := ⟨(Nat.toDigits 10 digits).take 1, by simp [Nat.toDigits_ne_nil], fun c hc =>
              hdigits c (List.mem_of_mem_take hc)⟩
            fraction
            exponent := some (decide (e < 0), .ofNat e.natAbs) },
    ⟨⟨0, ?_, ?_⟩, ?_, fun _ h => absurd hone h, .inr rfl⟩, ?_⟩
  · rw [Numeral.mantissa, htext, List.take_append_drop, ofDigits_toDigits, Nat.pow_zero,
      Nat.mul_one]
  · have hpower : (if decide (e < 0) then (-1 : Int) else 1) * e.natAbs = e := by
      by_cases h : e < 0
      · simp only [h, decide_true, if_true]
        omega
      · simp only [h, decide_false, Bool.false_eq_true, if_false]
        omega
    rw [Numeral.scale, htext, Numeral.power?, Option.map_some, Option.getD_some,
      Digits.text_ofNat, ofDigits_toDigits, hpower, List.length_drop]
    omega
  · simp only [hone]
    decide
  · rw [Numeral.unsigned, Numeral.fractionText, Numeral.exponentText, hpoint, Option.elim_some,
      Digits.text_ofNat]
    by_cases h : e < 0
    · simp [h, not_le.2 h]
    · simp [h, not_lt.1 h]

/-- A decimal number is written as a numeral. -/
theorem exists_numeral_decimal (digits : Nat) (k : Int) :
    ∃ n : Numeral, n.Spells digits k ∧ n.unsigned = Binary64.decimalText digits k := by
  unfold Binary64.decimalText
  dsimp only
  split
  next h =>
    simp only [Bool.and_eq_true, decide_eq_true_eq] at h
    exact exists_numeral_whole h.1 h.2
  next h =>
    simp only [Bool.and_eq_true, decide_eq_true_eq, not_and_or] at h
    split
    next h' =>
      simp only [Bool.and_eq_true, decide_eq_true_eq] at h'
      exact exists_numeral_point (by omega) (by omega) (by omega) (by omega)
    next h' =>
      split
      next h'' =>
        simp only [Bool.and_eq_true, decide_eq_true_eq] at h''
        exact exists_numeral_small (by omega)
      next h'' => exact exists_numeral_exponent rfl

end Json

namespace Binary64

open Json

/-- The decimal that a double is written as, without its sign: `digits · 10 ^ k`. -/
def decimal (x : Binary64) : Nat × Int :=
  if x.significand = 0 then (0, 0) else dropZeros 20 x.shortest

/-- A double other than zero is written by its shortest decimal. -/
theorem text_of_ne {x : Binary64} (h : x.significand ≠ 0) {digits : Nat} {k : Int}
    (hdigits : dropZeros 20 x.shortest = (digits, k)) :
    x.text = (if x.negative then "-".toList else "".toList) ++ decimalText digits k := by
  rw [text, if_neg h, hdigits]

/-- A double is written as a sign and a decimal. -/
theorem text_eq (x : Binary64) :
    x.text = (if x.negative then ['-'] else []) ++ decimalText x.decimal.1 x.decimal.2 := by
  have hsign : (if x.negative then "-".toList else "".toList) = if x.negative then ['-'] else [] :=
    rfl
  by_cases h : x.significand = 0
  · have hzero : decimalText 0 0 = "0.0" := rfl
    rw [decimal, if_pos h, hzero, text, if_pos h, hsign]
  · cases hdigits : dropZeros 20 x.shortest with
    | mk digits k => rw [decimal, if_neg h, hdigits, text_of_ne h hdigits, hsign]

/-- A double is written as a numeral. -/
theorem exists_numeral (x : Binary64) :
    ∃ n : Numeral, n.Spells x.decimal.1 x.decimal.2 ∧ n.source = x.text := by
  obtain ⟨n, hspells, hunsigned⟩ := exists_numeral_decimal x.decimal.1 x.decimal.2
  refine ⟨{ n with negative := x.negative }, ⟨hspells.mantissa_eq, hspells.short, hspells.head,
    hspells.isFloat⟩, ?_⟩
  rw [text_eq, ← hunsigned]
  rfl

end Binary64

end Pagewright
