import Pagewright.Proofs.Json.Numeral
import Pagewright.Proofs.Number.Rounding

/-!
# Doubles as they are written and read

A double is written by a decimal that is at most half a step above it (`Binary64.decimal_spec`).
Reading drops the digits that 64 bits cannot hold, which makes the number smaller
(`Json.Numeral.Spells.held_mul_le`), and then computes it in steps that are rounded. Only close to
the largest double could the rounding lead beyond it, and there it does not
(`Binary64.isSome_readNumber_text_of_large`). So every double is read back as a double
(`Binary64.exists_readNumber_text`), although not always as the same one.
-/

namespace Pagewright

namespace Binary64

/-! ## Shortest decimals -/

/-- Whether a multiple of `10 ^ k` rounds to a double. -/
def isReachedFrom (x : Binary64) (k : Int) (c : Nat) : Bool :=
  let scale := (powFraction 2 (x.exponent - 2)).1 * (powFraction 10 k).2
  let unit := (powFraction 2 (x.exponent - 2)).2 * (powFraction 10 k).1
  if x.significand % 2 == 0 then
    x.interval.1 * scale ≤ c * unit && c * unit ≤ x.interval.2 * scale
  else x.interval.1 * scale < c * unit && c * unit < x.interval.2 * scale

/-- Two multiples of a power of ten are tried, one after the other. -/
theorem exists_multiple?_eq (x : Binary64) (k : Int) : ∃ first second, x.multiple? k =
    if first ≠ 0 && x.isReachedFrom k first then some first
    else if second ≠ 0 && x.isReachedFrom k second then some second
    else none :=
  ⟨_, _, rfl⟩

/-- What is chosen is a multiple that leads back to the double, and not zero. -/
theorem isReachedFrom_of_multiple? {x : Binary64} {k : Int} {c : Nat}
    (h : x.multiple? k = some c) : c ≠ 0 ∧ x.isReachedFrom k c = true := by
  obtain ⟨first, second, heq⟩ := exists_multiple?_eq x k
  rw [heq] at h
  split_ifs at h with hfirst hsecond
  · cases h
    simpa using hfirst
  · cases h
    simpa using hsecond

/-- A multiple of a power of ten that rounds to a double is at most half a step above it. -/
theorem le_of_isReachedFrom {x : Binary64} {k : Int} {c : Nat} (h : x.isReachedFrom k c = true) :
    (c : ℚ) * 10 ^ k ≤ (x.significand + 1 / 2) * 2 ^ x.exponent := by
  obtain ⟨-, hdown, htwo⟩ := powFraction_spec Nat.two_pos (x.exponent - 2)
  obtain ⟨-, htenDown, hten⟩ := powFraction_spec (show 0 < 10 by decide) k
  have hle : c * ((powFraction 2 (x.exponent - 2)).2 * (powFraction 10 k).1)
      ≤ (4 * x.significand + 2) * ((powFraction 2 (x.exponent - 2)).1 * (powFraction 10 k).2) := by
    unfold isReachedFrom at h
    simp only at h
    split at h
    · exact of_decide_eq_true (Bool.and_eq_true_iff.1 h).2
    · exact (of_decide_eq_true (Bool.and_eq_true_iff.1 h).2).le
  have hsize : ((x.significand : ℚ) + 1 / 2) * 2 ^ x.exponent
      = (4 * x.significand + 2) * 2 ^ (x.exponent - 2) := by
    rw [zpow_sub₀ two_ne_zero]
    norm_num
    ring
  have hdown' : (0 : ℚ) < (powFraction 2 (x.exponent - 2)).2 := by exact_mod_cast hdown
  have htenDown' : (0 : ℚ) < (powFraction 10 k).2 := by exact_mod_cast htenDown
  have hle' : (c : ℚ) * ((powFraction 2 (x.exponent - 2)).2 * (powFraction 10 k).1)
      ≤ (4 * x.significand + 2) * ((powFraction 2 (x.exponent - 2)).1 * (powFraction 10 k).2) := by
    exact_mod_cast hle
  rw [Nat.cast_ofNat] at htwo hten
  rw [hsize, ← htwo, ← hten, ← mul_div_assoc, ← mul_div_assoc, div_le_div_iff₀ htenDown' hdown']
  linarith

/-- The search ends without digits, or with a decimal that is not above the double by more than half
a step. -/
theorem shortestFrom_spec (x : Binary64) (steps : Nat) (k : Int) :
    x.shortestFrom steps k = (0, k - steps) ∨
      (x.shortestFrom steps k).1 ≠ 0 ∧
        ((x.shortestFrom steps k).1 : ℚ) * 10 ^ (x.shortestFrom steps k).2
          ≤ (x.significand + 1 / 2) * 2 ^ x.exponent := by
  induction steps generalizing k with
  | zero => exact .inl (by simp [shortestFrom])
  | succ steps ih =>
    rw [shortestFrom]
    cases hmultiple : x.multiple? k with
    | some c =>
      obtain ⟨hne, hreached⟩ := isReachedFrom_of_multiple? hmultiple
      exact .inr ⟨hne, le_of_isReachedFrom hreached⟩
    | none =>
      have hstep : k - (steps + 1 : Nat) = k - 1 - steps := by omega
      rw [hstep]
      exact ih (k - 1)

/-- Dropping zeros at the end changes no value. -/
theorem dropZeros_spec (steps : Nat) (d : Nat × Int) :
    ((dropZeros steps d).1 : ℚ) * 10 ^ (dropZeros steps d).2 = d.1 * 10 ^ d.2 := by
  induction steps generalizing d with
  | zero => rfl
  | succ steps ih =>
    obtain ⟨digits, k⟩ := d
    rw [dropZeros]
    split
    next h =>
      have hten : digits = digits / 10 * 10 := by
        simp only [Bool.and_eq_true, decide_eq_true_eq] at h
        omega
      have hdigits : (digits : ℚ) = (digits / 10 : Nat) * 10 := by exact_mod_cast hten
      rw [ih]
      simp only
      rw [hdigits, zpow_add_one₀ (by norm_num)]
      ring
    next => rfl

/-- The decimal of a double is at most half a step above it, and is zero only where it is written
as zero. -/
theorem decimal_spec (x : Binary64) :
    x.decimal = (0, 0) ∨ x.decimal = (0, -391) ∨
      x.decimal.1 ≠ 0 ∧ (x.decimal.1 : ℚ) * 10 ^ x.decimal.2
        ≤ (x.significand + 1 / 2) * 2 ^ x.exponent := by
  unfold decimal
  split
  · exact .inl rfl
  · right
    rw [shortest]
    rcases shortestFrom_spec x 700 309 with hzero | ⟨hne, hle⟩
    · left
      rw [hzero]
      rfl
    · right
      have hsame := dropZeros_spec 20 (x.shortestFrom 700 309)
      generalize dropZeros 20 (x.shortestFrom 700 309) = d at hsame ⊢
      refine ⟨?_, hsame.trans_le hle⟩
      intro hzero
      rw [hzero, Nat.cast_zero, zero_mul, eq_comm, mul_eq_zero, Nat.cast_eq_zero] at hsame
      exact hsame.elim hne (zpow_ne_zero _ (by norm_num))

end Binary64

namespace Json

open Binary64

/-! ## Digits that are held -/

/-- The first digit counts for as much as its place. -/
theorem ofDigits_cons (c : Char) (ds : Text) :
    ofDigits (c :: ds) = (c.toNat - '0'.toNat) * 10 ^ ds.length + ofDigits ds := by
  rw [ofDigits, List.foldl_cons, foldl_digits, Nat.zero_mul, Nat.zero_add]

/-- The digits that are held are those of a number that is not larger. -/
theorem held_le (n : Nat) (ds : Text) :
    (held n ds).2 ≤ ds.length ∧
      (held n ds).1 * 10 ^ (ds.length - (held n ds).2) ≤ n * 10 ^ ds.length + ofDigits ds := by
  induction ds generalizing n with
  | nil => simp [held]
  | cons c ds ih =>
    rw [held, ofDigits_cons]
    simp only
    split
    next h =>
      obtain ⟨hcount, hle⟩ := ih (n * 10 + (c.toNat - '0'.toNat))
      rw [List.length_cons, Nat.add_sub_add_right]
      refine ⟨Nat.succ_le_succ hcount, hle.trans_eq ?_⟩
      ring
    next => simp

/-- What is held fits into 64 bits. -/
theorem held_lt {n : Nat} (hn : n < Nat.pow 2 64) (ds : Text) : (held n ds).1 < Nat.pow 2 64 := by
  induction ds generalizing n with
  | nil => exact hn
  | cons c ds ih =>
    rw [held]
    simp only
    split
    next h => exact ih h
    next => exact hn

/-- All digits are held where there are few. -/
theorem held_eq (n : Nat) (ds : Text) (h : n * 10 ^ ds.length + ofDigits ds < Nat.pow 2 64) :
    held n ds = (n * 10 ^ ds.length + ofDigits ds, ds.length) := by
  induction ds generalizing n with
  | nil => simp [held, ofDigits]
  | cons c ds ih =>
    have hsum : n * 10 ^ (ds.length + 1) + ((c.toNat - '0'.toNat) * 10 ^ ds.length + ofDigits ds)
        = (n * 10 + (c.toNat - '0'.toNat)) * 10 ^ ds.length + ofDigits ds := by
      ring
    rw [ofDigits_cons, List.length_cons, hsum] at h ⊢
    have hnext : n * 10 + (c.toNat - '0'.toNat) < Nat.pow 2 64 :=
      ((Nat.le_mul_of_pos_right _ (by positivity)).trans (Nat.le_add_right _ _)).trans_lt h
    rw [held]
    simp only
    rw [if_pos hnext, ih _ h]

/-- Digits of a number that fits into 64 bits are all held. -/
theorem held_zero {ds : Text} (h : ofDigits ds < Nat.pow 2 64) :
    held 0 ds = (ofDigits ds, ds.length) := by
  have hheld := held_eq 0 ds
  rw [Nat.zero_mul, Nat.zero_add] at hheld
  exact hheld h

/-- A number is below the power of ten of its length. -/
theorem ofDigits_lt {ds : Text} (h : ∀ c ∈ ds, c.isDigit = true) :
    ofDigits ds < 10 ^ ds.length := by
  induction ds with
  | nil => simp [ofDigits]
  | cons c ds ih =>
    obtain ⟨hc, hds⟩ := List.forall_mem_cons.1 h
    have hdigit : c.toNat - '0'.toNat ≤ 9 :=
      Nat.sub_le_iff_le_add.2 (Char.isDigit_iff_toNat.1 hc).2
    rw [ofDigits_cons, List.length_cons, pow_succ']
    have hrest := ih hds
    nlinarith

/-! ## Reading a double back -/

namespace Numeral

variable {n : Numeral} {digits : Nat} {k : Int}

/-- The digits behind the point. -/
def fractionDigits (n : Numeral) : Text :=
  n.fraction.elim [] Digits.text

/-- What stands in front of the point fits into 64 bits. -/
theorem Spells.ofDigits_whole_lt (h : n.Spells digits k) : ofDigits n.whole.text < Nat.pow 2 64 :=
  (ofDigits_lt n.whole.isDigit).trans_le
    ((Nat.pow_le_pow_right (by decide) h.short).trans (by decide))

/-- The size of a numeral. -/
theorem Spells.mantissa_mul (h : n.Spells digits k) :
    (n.mantissa : ℚ) * 10 ^ n.scale = digits * 10 ^ k := by
  obtain ⟨j, hmantissa, hscale⟩ := h.mantissa_eq
  rw [hmantissa, hscale, Nat.cast_mul, Nat.cast_pow, ← zpow_natCast, Nat.cast_ofNat, mul_assoc,
    ← zpow_add₀ (by norm_num), add_sub_cancel]

/-- Dropping digits makes a numeral smaller. -/
theorem Spells.held_mul_le (h : n.Spells digits k) :
    ((held (ofDigits n.whole.text) n.fractionDigits).1 : ℚ)
        * 10 ^ (n.power?.getD 0 - (held (ofDigits n.whole.text) n.fractionDigits).2 : Int)
      ≤ digits * 10 ^ k := by
  obtain ⟨hcount, hle⟩ := held_le (ofDigits n.whole.text) n.fractionDigits
  have hmantissa : ofDigits n.whole.text * 10 ^ n.fractionDigits.length + ofDigits n.fractionDigits
      = n.mantissa := (ofDigits_append _ _).symm
  have hscale : n.scale = n.power?.getD 0 - n.fractionDigits.length := rfl
  generalize held (ofDigits n.whole.text) n.fractionDigits = kept at *
  rw [hmantissa] at hle
  have hle' : (kept.1 : ℚ) * 10 ^ (n.fractionDigits.length - kept.2) ≤ n.mantissa := by
    exact_mod_cast hle
  have hpower : (10 : ℚ) ^ (n.power?.getD 0 - kept.2 : Int)
      = 10 ^ (n.fractionDigits.length - kept.2) * 10 ^ n.scale := by
    rw [← zpow_natCast, Nat.cast_sub hcount, ← zpow_add₀ (by norm_num), hscale]
    congr 1
    ring
  rw [hpower, ← mul_assoc, ← h.mantissa_mul]
  exact mul_le_mul_of_nonneg_right hle' (by positivity)

/-- A numeral with a fraction or an exponent is computed from the digits that are held. -/
theorem Spells.value?_eq (h : n.Spells digits k) (hdigits : digits ≠ 0) :
    n.value? = (computed? n.negative (held (ofDigits n.whole.text) n.fractionDigits).1
      (n.power?.getD 0 - (held (ofDigits n.whole.text) n.fractionDigits).2)).map Value.float := by
  have hwhole : held 0 n.whole.text = (ofDigits n.whole.text, n.whole.text.length) :=
    held_zero h.ofDigits_whole_lt
  have hhead : (n.whole.text.length ≠ 1 && n.whole.text.head? = some '0') = false := by
    rw [Bool.and_eq_false_imp]
    intro hlength
    exact decide_eq_false (h.head hdigits (of_decide_eq_true hlength))
  have hfloat : ¬(n.fractionDigits = [] ∧ n.power? = none ∧
      n.whole.text.length - n.whole.text.length = 0) := by
    rintro ⟨hfraction, hpower, -⟩
    rcases h.isFloat with hsome | hsome
    · obtain ⟨ds, hds⟩ := Option.isSome_iff_exists.1 hsome
      rw [fractionDigits, hds] at hfraction
      exact ds.ne_nil hfraction
    · obtain ⟨e, he⟩ := Option.isSome_iff_exists.1 hsome
      rw [power?, he] at hpower
      cases hpower
  rw [value?, hhead, if_neg Bool.false_ne_true, ← fractionDigits, number?]
  simp only [hwhole]
  rw [if_neg hfloat, Nat.sub_self, Nat.cast_zero, add_zero]

end Numeral

end Json

namespace Binary64

open Json

/-- A double is not larger than the largest one. -/
def InRange (x : Binary64) : Prop :=
  x.significand < Nat.pow 2 53 ∧ x.exponent ≤ maxExponent

instance (x : Binary64) : Decidable x.InRange :=
  inferInstanceAs (Decidable (_ ∧ _))

/-- The double nearest to a positive fraction is in range. -/
theorem inRange_of_ofFraction? {negative : Bool} {num den : Nat} (hnum : 0 < num) (hden : 0 < den)
    {x : Binary64} (h : ofFraction? negative num den = some x) : x.InRange := by
  rw [ofFraction?_eq] at h
  split_ifs at h with hmax
  cases h
  unfold InRange
  dsimp only
  exact ⟨placed_lt hnum hden, hmax⟩

/-- Rounding gives a double in range. -/
theorem inRange_of_nearest? {negative : Bool} {digits : Nat} {e : Int} {x : Binary64}
    (h : nearest? negative digits e = some x) : x.InRange := by
  have hzero : some ⟨negative, 0, minExponent⟩ = some x → x.InRange := by
    rintro ⟨⟩
    exact ⟨show 0 < Nat.pow 2 53 by decide, show minExponent ≤ maxExponent by decide⟩
  unfold nearest? at h
  dsimp only at h
  split_ifs at h with hdigits hsmall hlarge
  · exact hzero h
  · exact hzero h
  · obtain ⟨hup, hdown, -⟩ := powFraction_spec (show 0 < 10 by decide) e
    exact inRange_of_ofFraction? (Nat.mul_pos (Nat.pos_of_ne_zero hdigits) hup) hdown h

/-- The largest doubles are read back. What rounding may add would lead beyond them, so they are
tried one by one. -/
theorem isSome_readNumber_text_of_large {x : Binary64} (h : x.InRange)
    (hexponent : x.exponent = maxExponent) (hlarge : Nat.pow 2 53 ≤ x.significand + 16) :
    (readNumber x.text).isSome = true := by
  have hall : ∀ negative : Bool, ∀ i < 16,
      (readNumber (text ⟨negative, Nat.pow 2 53 - 1 - i, maxExponent⟩)).isSome = true := by
    decide +kernel
  have hlt : Nat.pow 2 53 - 1 - x.significand < 16 := by
    have hsignificand := h.1
    omega
  have hsome := hall x.negative _ hlt
  rwa [Nat.sub_sub_self (Nat.le_sub_one_of_lt h.1), ← hexponent] at hsome

/-- All others stay below the overflow, whatever rounding adds. -/
theorem InRange.lt_overflow {x : Binary64} (h : x.InRange)
    (hsmall : x.exponent = maxExponent → x.significand + 16 < Nat.pow 2 53) :
    ((x.significand : ℚ) + 1 / 2) * 2 ^ x.exponent * (1 + 1 / 2 ^ 49) < overflow := by
  obtain ⟨hsignificand, hexponent⟩ := h
  rw [maxExponent] at hexponent hsmall
  have hs : (x.significand : ℚ) + 1 ≤ 2 ^ 53 := by exact_mod_cast hsignificand
  by_cases htop : x.exponent = 971
  · have hs' : (x.significand : ℚ) + 17 ≤ 2 ^ 53 := by exact_mod_cast hsmall htop
    have hpow : (2 : ℚ) ^ x.exponent = 2 ^ 971 := by
      rw [htop]
      exact zpow_natCast 2 971
    rw [hpow, overflow, mul_right_comm]
    exact mul_lt_mul_of_pos_right (by linarith) (pow_pos two_pos 971)
  · have hfactor : ((x.significand : ℚ) + 1 / 2) * (1 + 1 / 2 ^ 49) < 2 * (2 ^ 53 - 1 / 2) := by
      linarith
    have hnonneg : 0 ≤ ((x.significand : ℚ) + 1 / 2) * (1 + 1 / 2 ^ 49) := by positivity
    have hpow : (2 : ℚ) ^ x.exponent ≤ 2 ^ 970 := by
      rw [← zpow_natCast]
      exact two_zpow_mono (by omega)
    have hstep : overflow = 2 * (2 ^ 53 - 1 / 2) * 2 ^ 970 := by
      rw [overflow, show (2 : ℚ) ^ 971 = 2 * 2 ^ 970 from pow_succ' 2 970, mul_left_comm, mul_assoc]
    rw [hstep, mul_right_comm]
    calc ((x.significand : ℚ) + 1 / 2) * (1 + 1 / 2 ^ 49) * 2 ^ x.exponent
        ≤ ((x.significand : ℚ) + 1 / 2) * (1 + 1 / 2 ^ 49) * 2 ^ 970 :=
          mul_le_mul_of_nonneg_left hpow hnonneg
      _ < 2 * (2 ^ 53 - 1 / 2) * 2 ^ 970 :=
          mul_lt_mul_of_pos_right hfactor (pow_pos two_pos 970)

/-- Every double is read back as a double. -/
theorem exists_readNumber_text {x : Binary64} (h : x.InRange) :
    ∃ y, readNumber x.text = some (.float y, []) := by
  rcases x.decimal_spec with hzero | hlost | ⟨hne, hle⟩
  -- A double that is written as zero has one of two texts for each sign.
  · rw [text_eq, hzero]
    cases x.negative <;> exact ⟨_, rfl⟩
  · rw [text_eq, hlost]
    cases x.negative <;> exact ⟨_, rfl⟩
  · obtain ⟨n, hspells, hsource⟩ := x.exists_numeral
    have hread : readNumber (n.source ++ []) = _ := readNumber_source n (by simp [Stops])
    rw [List.append_nil, hsource, hspells.value?_eq hne] at hread
    -- What is left of the digits once some are dropped is all that the reader computes with.
    suffices hcomputed : ∃ y, computed? n.negative
        (held (ofDigits n.whole.text) n.fractionDigits).1
        (n.power?.getD 0 - (held (ofDigits n.whole.text) n.fractionDigits).2) = some y by
      obtain ⟨y, hy⟩ := hcomputed
      rw [hy] at hread
      exact ⟨y, hread⟩
    by_cases hlarge : x.exponent = maxExponent ∧ Nat.pow 2 53 ≤ x.significand + 16
    · have hsome := isSome_readNumber_text_of_large h hlarge.1 hlarge.2
      rw [hread, Option.isSome_map, Option.isSome_map] at hsome
      exact Option.isSome_iff_exists.1 hsome
    · refine exists_computed? _ (held_lt hspells.ofDigits_whole_lt _) ?_
      have hsmall : x.exponent = maxExponent → x.significand + 16 < Nat.pow 2 53 := by
        intro htop
        exact not_le.1 fun hle => hlarge ⟨htop, hle⟩
      have hbound := hspells.held_mul_le.trans hle
      exact (mul_le_mul_of_nonneg_right hbound (by positivity)).trans_lt (h.lt_overflow hsmall)

end Binary64

end Pagewright
