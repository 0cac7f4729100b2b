import Mathlib.Algebra.Order.Field.Power
import Mathlib.Algebra.Order.Field.Rat
import Mathlib.Data.Nat.Digits.Defs
import Mathlib.Tactic.FieldSimp
import Mathlib.Tactic.Linarith
import Mathlib.Tactic.NormNum
import Mathlib.Tactic.Positivity
import Mathlib.Tactic.Ring
import Pagewright.Number.Binary64

/-!
# Rounding to doubles

A fraction below the overflow is rounded to a double, and the error is at most `2 ^ -52` of its size
or half of the smallest double (`Binary64.exists_ofFraction?`). So products and quotients of doubles
exist as long as they are not too large (`Binary64.exists_mul?`, `Binary64.exists_div?`), and so
does the double that is computed from digits and a power of ten: it takes a few such steps, whose
errors together stay below `2 ^ -49` (`Binary64.exists_computed?`).
-/

namespace Pagewright

namespace Binary64

/-- The size of a double. -/
def size (x : Binary64) : ℚ :=
  x.significand * 2 ^ x.exponent

/-! ## Quotients -/

/-- A rounded quotient is off by at most half of the divisor. -/
theorem roundedQuotient_bounds (num : Nat) {den : Nat} (hden : 0 < den) :
    2 * (roundedQuotient num den * den) ≤ 2 * num + den ∧
      2 * num ≤ 2 * (roundedQuotient num den * den) + den := by
  have hdiv := Nat.div_add_mod' num den
  have hrest := Nat.mod_lt num hden
  unfold roundedQuotient
  simp only
  split
  next h =>
    have hhalf : den ≤ 2 * (num % den) := by
      simp only [Bool.or_eq_true, decide_eq_true_eq, Bool.and_eq_true, beq_iff_eq] at h
      omega
    rw [Nat.add_mul]
    omega
  next h =>
    have hhalf : 2 * (num % den) ≤ den := by
      simp only [Bool.or_eq_true, decide_eq_true_eq, Bool.and_eq_true, beq_iff_eq] at h
      omega
    omega

/-- A rounded quotient is off by at most one half. -/
theorem abs_roundedQuotient_sub_le (num : Nat) {den : Nat} (hden : 0 < den) :
    |(roundedQuotient num den : ℚ) - num / den| ≤ 1 / 2 := by
  obtain ⟨hle, hge⟩ := roundedQuotient_bounds num hden
  have hden' : (0 : ℚ) < den := by exact_mod_cast hden
  have hle' : (2 : ℚ) * (roundedQuotient num den * den) ≤ 2 * num + den := by exact_mod_cast hle
  have hge' : (2 : ℚ) * num ≤ 2 * (roundedQuotient num den * den) + den := by exact_mod_cast hge
  rw [abs_le]
  constructor
  · rw [neg_le_sub_iff_le_add, div_le_iff₀ hden']
    linarith
  · rw [sub_le_iff_le_add, ← sub_le_iff_le_add', le_div_iff₀ hden']
    linarith

/-- A power is a quotient of two positive numbers. -/
theorem powFraction_spec {b : Nat} (hb : 0 < b) (e : Int) :
    0 < (powFraction b e).1 ∧ 0 < (powFraction b e).2 ∧
      ((powFraction b e).1 : ℚ) / (powFraction b e).2 = (b : ℚ) ^ e := by
  unfold powFraction
  split
  next he =>
    obtain ⟨n, rfl⟩ := Int.eq_ofNat_of_zero_le he
    refine ⟨Nat.pow_pos hb, Nat.one_pos, ?_⟩
    simp
  next he =>
    obtain ⟨n, hn⟩ := Int.eq_ofNat_of_zero_le (show 0 ≤ -e by omega)
    refine ⟨Nat.one_pos, Nat.pow_pos hb, ?_⟩
    obtain rfl : e = -(n : Int) := by omega
    simp

/-- A fraction in steps of a power of two is off by at most half a step. -/
theorem abs_scaled_sub_le (num : Nat) {den : Nat} (hden : 0 < den) (q : Int) :
    |(scaled num den q : ℚ) - num / den * 2 ^ (-q)| ≤ 1 / 2 := by
  obtain ⟨hup, hdown, hpow⟩ := powFraction_spec Nat.two_pos (-q)
  have h := abs_roundedQuotient_sub_le (num * (powFraction 2 (-q)).1)
    (Nat.mul_pos hden hdown)
  rw [Nat.cast_mul, Nat.cast_mul, mul_div_mul_comm, hpow] at h
  exact h

/-! ## Fractions -/

theorem two_zpow_pos (e : Int) : (0 : ℚ) < 2 ^ e := by
  positivity

theorem two_zpow_mono {e f : Int} (h : e ≤ f) : (2 : ℚ) ^ e ≤ 2 ^ f :=
  zpow_le_zpow_right₀ one_le_two h

/-- Half of the smallest double. -/
def tiny : ℚ :=
  2 ^ (minExponent - 1)

theorem tiny_pos : 0 < tiny :=
  two_zpow_pos _

/-- From here on a number is beyond the largest double. -/
def overflow : ℚ :=
  (2 ^ 53 - 1 / 2) * 2 ^ 971

section Fraction

variable {num den : Nat} (hnum : 0 < num) (hden : 0 < den)

/-- The binary logarithm of a fraction, too small by less than two, moved by the size of a
significand. -/
def estimate (num den : Nat) : Int :=
  (Nat.log2 num : Int) - (Nat.log2 den : Int) - 53

include hnum hden in
/-- The estimate for the exponent leaves 53 or 54 bits. -/
theorem estimate_spec :
    (2 : ℚ) ^ (estimate num den + 52) ≤ (num : ℚ) / den ∧
      (num : ℚ) / den < 2 ^ (estimate num den + 54) := by
  have hden' : (0 : ℚ) < den := by exact_mod_cast hden
  have hnumLow : (2 : ℚ) ^ (Nat.log2 num : Int) ≤ num := by
    exact_mod_cast Nat.log2_self_le hnum.ne'
  have hnumHigh : (num : ℚ) < 2 ^ ((Nat.log2 num : Int) + 1) := by
    exact_mod_cast Nat.lt_log2_self
  have hdenLow : (2 : ℚ) ^ (Nat.log2 den : Int) ≤ den := by
    exact_mod_cast Nat.log2_self_le hden.ne'
  have hdenHigh : (den : ℚ) < 2 ^ ((Nat.log2 den : Int) + 1) := by
    exact_mod_cast Nat.lt_log2_self
  constructor
  · rw [le_div_iff₀ hden']
    calc (2 : ℚ) ^ (estimate num den + 52) * den
        ≤ 2 ^ (estimate num den + 52) * 2 ^ ((Nat.log2 den : Int) + 1) := by gcongr
      _ = 2 ^ (Nat.log2 num : Int) := by
        rw [← zpow_add₀ two_ne_zero, estimate]
        congr 1
        ring
      _ ≤ num := hnumLow
  · rw [div_lt_iff₀ hden']
    calc (num : ℚ) < 2 ^ ((Nat.log2 num : Int) + 1) := hnumHigh
      _ = 2 ^ (estimate num den + 54) * 2 ^ (Nat.log2 den : Int) := by
        rw [← zpow_add₀ two_ne_zero, estimate]
        congr 1
        ring
      _ ≤ 2 ^ (estimate num den + 54) * den := by gcongr

/-- The exponent at which a fraction is rounded. -/
def grid (num den : Nat) : Int :=
  let q₀ := max (estimate num den) minExponent
  if scaled num den q₀ < Nat.pow 2 53 then q₀ else q₀ + 1

/-- The significand and the exponent of a fraction once it is rounded. -/
def placed (num den : Nat) : Nat × Int :=
  if scaled num den (grid num den) < Nat.pow 2 53 then
    (scaled num den (grid num den), grid num den)
  else (scaled num den (grid num den) / 2, grid num den + 1)

/-- The double is what has been placed on the grid, unless its exponent is too large. -/
theorem ofFraction?_eq (negative : Bool) (num den : Nat) :
    ofFraction? negative num den =
      if (placed num den).2 ≤ maxExponent then
        some ⟨negative, (placed num den).1, (placed num den).2⟩
      else none := by
  unfold ofFraction?
  simp only
  rw [← estimate, ← grid, ← placed]

include hnum hden

/-- The grid is fine enough for a fraction, and not finer than doubles are. -/
theorem grid_spec :
    (num : ℚ) / den < 2 ^ 53 * 2 ^ grid num den ∧
      (grid num den = minExponent ∨
        (2 ^ 53 - 1 / 2) * 2 ^ (grid num den - 1) ≤ (num : ℚ) / den) := by
  obtain ⟨hlow, hhigh⟩ := estimate_spec hnum hden
  obtain ⟨hbelow, habove⟩ := abs_le.1
    (abs_scaled_sub_le num hden (max (estimate num den) minExponent))
  unfold grid
  simp only
  generalize hq₀ : max (estimate num den) minExponent = q₀ at *
  have hunits : (num : ℚ) / den = num / den * 2 ^ (-q₀) * 2 ^ q₀ := by
    rw [mul_assoc, ← zpow_add₀ two_ne_zero, neg_add_cancel, zpow_zero, mul_one]
  split
  next h =>
    have h' : (scaled num den q₀ : ℚ) + 1 ≤ 2 ^ 53 := by exact_mod_cast h
    constructor
    · rw [hunits]
      gcongr
      linarith
    · refine or_iff_not_imp_left.2 fun hmin => ?_
      have hq : estimate num den + 52 = 53 + (q₀ - 1) := by omega
      refine le_trans ?_ hlow
      rw [hq, zpow_add₀ two_ne_zero]
      gcongr
      norm_num
  next h =>
    have h' : (2 : ℚ) ^ 53 ≤ scaled num den q₀ := by exact_mod_cast Nat.le_of_not_lt h
    constructor
    · have hq : estimate num den + 54 ≤ 53 + (q₀ + 1) := by omega
      refine hhigh.trans_le ((two_zpow_mono hq).trans_eq ?_)
      rw [zpow_add₀ two_ne_zero]
      rfl
    · right
      rw [add_sub_cancel_right, hunits]
      gcongr
      linarith

omit hnum in
/-- On the grid a fraction is off by at most half a step. -/
theorem abs_scaled_grid_sub_le (num : Nat) :
    |(scaled num den (grid num den) : ℚ) * 2 ^ grid num den - num / den|
      ≤ 1 / 2 * 2 ^ grid num den := by
  have hunits : (scaled num den (grid num den) : ℚ) * 2 ^ grid num den - num / den
      = (scaled num den (grid num den) - num / den * 2 ^ (-grid num den)) * 2 ^ grid num den := by
    rw [sub_mul, mul_assoc (_ / _), ← zpow_add₀ two_ne_zero, neg_add_cancel, zpow_zero, mul_one]
  rw [hunits, abs_mul, abs_of_pos (two_zpow_pos _)]
  gcongr
  exact abs_scaled_sub_le num hden (grid num den)

/-- On the grid a fraction has at most 53 bits, or is just one more. -/
theorem scaled_grid_le : scaled num den (grid num den) ≤ Nat.pow 2 53 := by
  obtain ⟨hbelow, -⟩ := grid_spec hnum hden
  have habove := (abs_le.1 (abs_scaled_grid_sub_le hden num)).2
  have hlt : (scaled num den (grid num den) : ℚ) < 2 ^ 53 + 1 := by
    refine lt_of_mul_lt_mul_right ?_ (two_zpow_pos (grid num den)).le
    linarith [two_zpow_pos (grid num den)]
  exact Nat.lt_succ_iff.1 (by exact_mod_cast hlt)

/-- Placing changes no value, and takes a larger step only for a fraction that needs it. -/
theorem placed_spec :
    ((placed num den).1 : ℚ) * 2 ^ (placed num den).2
        = scaled num den (grid num den) * 2 ^ grid num den ∧
      ((placed num den).2 = minExponent ∨
        (2 ^ 53 - 1 / 2) * 2 ^ ((placed num den).2 - 1) ≤ (num : ℚ) / den) := by
  unfold placed
  split
  next h =>
    dsimp only
    exact ⟨rfl, (grid_spec hnum hden).2⟩
  next h =>
    -- A significand that is rounded up to `2 ^ 53` belongs to the next exponent.
    have hcarry : scaled num den (grid num den) = Nat.pow 2 53 :=
      Nat.le_antisymm (scaled_grid_le hnum hden) (Nat.le_of_not_lt h)
    have hbelow := (abs_le.1 (abs_scaled_grid_sub_le hden num)).2
    have hsize : ((Nat.pow 2 53 : Nat) : ℚ) = 2 ^ 53 := by norm_num
    have hhalf : ((Nat.pow 2 53 / 2 : Nat) : ℚ) = 2 ^ 52 := by norm_num
    rw [hcarry, hsize] at hbelow
    rw [hcarry]
    refine ⟨?_, .inr ?_⟩
    · simp only [hsize, hhalf]
      rw [zpow_add_one₀ two_ne_zero]
      ring
    · simp only [add_sub_cancel_right]
      linarith

/-- What has been placed has at most 53 bits. -/
theorem placed_lt : (placed num den).1 < Nat.pow 2 53 := by
  unfold placed
  split
  next h => exact h
  next h =>
    refine (Nat.div_le_div_right (scaled_grid_le hnum hden)).trans_lt ?_
    decide

/-- Half a step of the grid is little, for a fraction above the smallest doubles. -/
theorem half_grid_le : 1 / 2 * (2 : ℚ) ^ grid num den ≤ num / den / 2 ^ 52 + tiny := by
  have hstep : 1 / 2 * (2 : ℚ) ^ grid num den = 2 ^ (grid num den - 1) := by
    rw [zpow_sub_one₀ two_ne_zero]
    ring
  rw [hstep]
  rcases (grid_spec hnum hden).2 with hmin | hle
  · rw [hmin, ← tiny]
    exact le_add_of_nonneg_left (by positivity)
  · refine le_add_of_le_of_nonneg ?_ tiny_pos.le
    rw [le_div_iff₀ (by positivity)]
    linarith [two_zpow_pos (grid num den - 1)]

/-- A fraction that is not too large is rounded to a double of nearly its size. -/
theorem exists_ofFraction? (negative : Bool) (h : (num : ℚ) / den < overflow) :
    ∃ y, ofFraction? negative num den = some y ∧
      |y.size - num / den| ≤ num / den / 2 ^ 52 + tiny := by
  obtain ⟨hsize, hplaced⟩ := placed_spec hnum hden
  have hmax : (placed num den).2 ≤ maxExponent := by
    rcases hplaced with hmin | hle
    · rw [hmin]
      decide
    · by_contra hgt
      have hexponent : (971 : Int) ≤ (placed num den).2 - 1 := by
        rw [maxExponent] at hgt
        omega
      have hpow : (2 : ℚ) ^ 971 ≤ 2 ^ ((placed num den).2 - 1) :=
        (zpow_natCast (2 : ℚ) 971).symm.trans_le (two_zpow_mono hexponent)
      exact absurd h (not_lt.2 ((mul_le_mul_of_nonneg_left hpow (by norm_num)).trans hle))
  rw [ofFraction?_eq, if_pos hmax]
  refine ⟨_, rfl, ?_⟩
  rw [size, hsize]
  exact (abs_scaled_grid_sub_le hden num).trans (half_grid_le hnum hden)

end Fraction

/-! ## Arithmetic -/

/-- The size of a double is the quotient of its fraction. -/
theorem size_eq_fraction (x : Binary64) : x.size = (x.fraction.1 : ℚ) / x.fraction.2 := by
  obtain ⟨-, -, hpow⟩ := powFraction_spec Nat.two_pos x.exponent
  have hfraction : x.fraction = (x.significand * (powFraction 2 x.exponent).1,
    (powFraction 2 x.exponent).2) := rfl
  rw [size, hfraction, Nat.cast_mul, mul_div_assoc, hpow]
  rfl

theorem fraction_snd_pos (x : Binary64) : 0 < x.fraction.2 :=
  (powFraction_spec Nat.two_pos x.exponent).2.1

theorem size_nonneg (x : Binary64) : 0 ≤ x.size := by
  rw [size]
  positivity

theorem size_zero (negative : Bool) (e : Int) : size ⟨negative, 0, e⟩ = 0 := by
  simp [size]

/-- A product of doubles exists unless it is too large. -/
theorem exists_mul? {x y : Binary64} (h : x.size * y.size < overflow) :
    ∃ z, x.mul? y = some z := by
  have hmul : x.mul? y = if x.fraction.1 * y.fraction.1 = 0 then some ⟨x.negative, 0, minExponent⟩
    else ofFraction? x.negative (x.fraction.1 * y.fraction.1) (x.fraction.2 * y.fraction.2) := rfl
  rw [hmul]
  split
  · exact ⟨_, rfl⟩
  next hne =>
    rw [size_eq_fraction, size_eq_fraction, div_mul_div_comm, ← Nat.cast_mul, ← Nat.cast_mul] at h
    obtain ⟨z, hz, -⟩ := exists_ofFraction? (Nat.pos_of_ne_zero hne)
      (Nat.mul_pos x.fraction_snd_pos y.fraction_snd_pos) x.negative h
    exact ⟨z, hz⟩

/-- A quotient of doubles exists unless it is too large, and is off by little. -/
theorem exists_div? {x y : Binary64} (hy : 0 < y.size) (h : x.size / y.size < overflow) :
    ∃ z, x.div? y = some z ∧
      |z.size - x.size / y.size| ≤ x.size / y.size / 2 ^ 52 + tiny := by
  have hdiv : x.div? y = if x.fraction.1 = 0 then some ⟨x.negative, 0, minExponent⟩
    else ofFraction? x.negative (x.fraction.1 * y.fraction.2) (x.fraction.2 * y.fraction.1) := rfl
  have hquotient : x.size / y.size = ((x.fraction.1 * y.fraction.2 : Nat) : ℚ)
      / (x.fraction.2 * y.fraction.1 : Nat) := by
    rw [size_eq_fraction, size_eq_fraction, div_div_div_eq, Nat.cast_mul, Nat.cast_mul]
  have hpos : 0 < y.fraction.1 := by
    refine Nat.pos_of_ne_zero fun hzero => hy.ne' ?_
    rw [size_eq_fraction, hzero, Nat.cast_zero, zero_div]
  rw [hdiv]
  split
  next hzero =>
    refine ⟨_, rfl, ?_⟩
    rw [hquotient, hzero, zero_mul, Nat.cast_zero, zero_div, zero_div, size_zero, sub_zero,
      abs_zero, zero_add]
    exact tiny_pos.le
  next hne =>
    rw [hquotient] at h ⊢
    exact exists_ofFraction? (Nat.mul_pos (Nat.pos_of_ne_zero hne) y.fraction_snd_pos)
      (Nat.mul_pos x.fraction_snd_pos hpos) x.negative h

/-! ## Powers of ten -/

theorem tiny_le : tiny ≤ 1 / 2 ^ 52 := by
  have h : tiny ≤ 2 ^ (-52 : Int) := two_zpow_mono (by decide)
  rwa [zpow_neg, ← one_div] at h

theorem overflow_le : overflow ≤ 10 ^ 309 := by
  have h : (2 : ℚ) ^ 53 * 2 ^ 971 ≤ 10 ^ 309 := by
    have hnat : 2 ^ 53 * 2 ^ 971 ≤ 10 ^ 309 := by decide +kernel
    exact_mod_cast hnat
  exact (mul_le_mul_of_nonneg_right (by norm_num) (pow_pos two_pos 971).le).trans h

theorem lt_overflow : (10 : ℚ) ^ 308 < overflow := by
  have h : (10 : ℚ) ^ 308 < 9007199254740991 * 2 ^ 971 := by
    have hnat : 10 ^ 308 < 9007199254740991 * 2 ^ 971 := by decide +kernel
    exact_mod_cast hnat
  exact h.trans_le (mul_le_mul_of_nonneg_right (by norm_num) (pow_pos two_pos 971).le)

/-- A decimal that is not too large has a nearest double of nearly its size. -/
theorem exists_nearest? {digits : Nat} (hdigits : 0 < digits) {e : Int}
    (hlow : -400 ≤ (Nat.toDigits 10 digits).length + e)
    (hhigh : (Nat.toDigits 10 digits).length + e ≤ 400) (negative : Bool)
    (h : (digits : ℚ) * 10 ^ e < overflow) :
    ∃ y, nearest? negative digits e = some y ∧
      |y.size - digits * 10 ^ e| ≤ digits * 10 ^ e / 2 ^ 52 + tiny := by
  obtain ⟨hup, hdown, hpow⟩ := powFraction_spec (show 0 < 10 by decide) e
  have hnearest : nearest? negative digits e
      = ofFraction? negative (digits * (powFraction 10 e).1) (powFraction 10 e).2 := by
    unfold nearest?
    rw [if_neg hdigits.ne']
    simp only
    rw [if_neg (by omega), if_neg (by omega)]
  have hfraction : (digits : ℚ) * 10 ^ e
      = ((digits * (powFraction 10 e).1 : Nat) : ℚ) / (powFraction 10 e).2 := by
    rw [Nat.cast_mul, mul_div_assoc, hpow]
    rfl
  rw [hfraction] at h ⊢
  rw [hnearest]
  exact exists_ofFraction? (Nat.mul_pos hdigits hup) hdown negative h

/-- A power of ten has a nearest double, unless it is too large. -/
theorem exists_nearest?_power {n : Nat} (hn : n ≤ maxPower) :
    ∃ p, nearest? false 1 n = some p ∧ 10 ^ n / 2 ≤ p.size ∧
      p.size ≤ 10 ^ n * (1 + 1 / 2 ^ 51) := by
  have hone : (1 : ℚ) ≤ 10 ^ n := one_le_pow₀ (by norm_num)
  have hmax : (10 : ℚ) ^ n < overflow :=
    (pow_le_pow_right₀ (by norm_num) hn).trans_lt lt_overflow
  have hlength : (Nat.toDigits 10 1).length = 1 := rfl
  have hn' : n ≤ 308 := hn
  obtain ⟨p, hp, herror⟩ := exists_nearest? Nat.one_pos (e := n) (by omega) (by omega) false
    (by rwa [Nat.cast_one, one_mul, zpow_natCast])
  refine ⟨p, hp, ?_⟩
  rw [Nat.cast_one, one_mul, zpow_natCast, abs_le] at herror
  have hsmall : tiny ≤ 10 ^ n / 2 ^ 52 := tiny_le.trans (by gcongr)
  obtain ⟨hbelow, habove⟩ := herror
  constructor
  · linarith
  · linarith

theorem large_lt_overflow : (2 : ℚ) ^ 102 < overflow := by
  refine lt_trans ?_ lt_overflow
  have h : (2 : ℚ) ^ 102 < 10 ^ 102 := by norm_num
  exact h.trans_le (pow_le_pow_right₀ (by norm_num) (by norm_num))

/-- A number that is not too large can be multiplied by a power of ten, one division after the
other, unless the product is too large. -/
theorem exists_timesPower? (divisions : Nat) {x : Binary64} {e : Int} (hx : x.size ≤ 2 ^ 100)
    (he : e ≤ maxPower)
    (hproduct : 0 ≤ e → x.size * (10 ^ e * (1 + 1 / 2 ^ 51)) < overflow) :
    ∃ y, timesPower? divisions x e = some y := by
  induction divisions generalizing x e with
  | zero => exact ⟨x, rfl⟩
  | succ divisions ih =>
    rw [timesPower?]
    split_ifs with hzero hmax hnonneg hmin
    · exact ⟨x, rfl⟩
    · exact absurd hmax (not_lt.2 he)
    · obtain ⟨n, rfl⟩ := Int.eq_ofNat_of_zero_le hnonneg
      obtain ⟨p, hp, -, hle⟩ := exists_nearest?_power (show n ≤ maxPower by exact_mod_cast he)
      rw [hp, Option.bind_some]
      refine exists_mul? ((mul_le_mul_of_nonneg_left hle x.size_nonneg).trans_lt ?_)
      have hbound := hproduct hnonneg
      rwa [zpow_natCast] at hbound
    · obtain ⟨n, hn⟩ := Int.eq_ofNat_of_zero_le (show 0 ≤ -e by omega)
      obtain ⟨p, hp, hge, -⟩ := exists_nearest?_power (show n ≤ maxPower by omega)
      have hone : (1 : ℚ) ≤ 10 ^ n := one_le_pow₀ (by norm_num)
      rw [hn, hp, Option.bind_some]
      have hquotient : x.size / p.size < overflow := by
        refine lt_of_le_of_lt ?_ large_lt_overflow
        rw [div_le_iff₀ (by linarith)]
        linarith
      obtain ⟨z, hz, -⟩ := exists_div? (by linarith) hquotient
      exact ⟨z, hz⟩
    · obtain ⟨p, hp, hge, -⟩ := exists_nearest?_power (le_refl maxPower)
      have hten : (10 : ℚ) ≤ 10 ^ maxPower := le_self_pow₀ (by norm_num) (by decide)
      have hdivided : x.size / p.size ≤ 2 ^ 98 := by
        rw [div_le_iff₀ (by linarith)]
        linarith
      obtain ⟨z, hz, herror⟩ :=
        exists_div? (by linarith) (hdivided.trans_lt (lt_trans (by norm_num) large_lt_overflow))
      rw [abs_le] at herror
      have hsmaller : z.size ≤ 2 ^ 100 := by
        linarith [tiny_le]
      obtain ⟨y, hy⟩ := ih (e := e + maxPower) hsmaller (by omega) (by omega)
      refine ⟨y, ?_⟩
      rw [hp]
      simp only [Option.bind_eq_bind, Option.bind_some, hz]
      exact hy

/-- Arithmetic on doubles finds a double for a decimal that is held in 64 bits, unless it is too
large. -/
theorem exists_computed? (negative : Bool) {digits : Nat} (hdigits : digits < Nat.pow 2 64)
    {e : Int} (h : (digits : ℚ) * 10 ^ e * (1 + 1 / 2 ^ 49) < overflow) :
    ∃ y, computed? negative digits e = some y := by
  unfold computed?
  by_cases hzero : digits = 0
  · subst hzero
    exact ⟨_, rfl⟩
  · have hone : (1 : ℚ) ≤ digits := by exact_mod_cast Nat.pos_of_ne_zero hzero
    have hlarge : (digits : ℚ) < 2 ^ 64 := by exact_mod_cast hdigits
    have hlength : (Nat.toDigits 10 digits).length ≤ 20 :=
      Nat.toDigits_length 10 digits 20 (by decide) (hdigits.trans (by decide))
    have hpow : (0 : ℚ) < 10 ^ e := by positivity
    obtain ⟨x, hx, herror⟩ := exists_nearest? (Nat.pos_of_ne_zero hzero) (e := 0) (by omega)
      (by omega) negative (by
        rw [zpow_zero, mul_one]
        exact hlarge.trans (lt_trans (by norm_num) large_lt_overflow))
    rw [zpow_zero, mul_one, abs_le] at herror
    have hsize : x.size ≤ digits * (1 + 1 / 2 ^ 51) := by
      linarith [tiny_le]
    rw [hx, Option.bind_some]
    refine exists_timesPower? 4 (by linarith) ?_ fun _ => ?_
    · by_contra hmax
      have hten : (10 : ℚ) ^ 309 ≤ 10 ^ e := by
        rw [← zpow_natCast]
        refine zpow_le_zpow_right₀ (by norm_num) ?_
        rw [maxPower] at hmax
        omega
      refine absurd h (not_lt.2 ?_)
      calc overflow ≤ 10 ^ e := overflow_le.trans hten
        _ ≤ digits * 10 ^ e := le_mul_of_one_le_left hpow.le hone
        _ ≤ digits * 10 ^ e * (1 + 1 / 2 ^ 49) :=
          le_mul_of_one_le_right (by positivity) (by norm_num)
    · refine lt_of_le_of_lt ?_ h
      calc x.size * (10 ^ e * (1 + 1 / 2 ^ 51))
          ≤ (digits : ℚ) * (1 + 1 / 2 ^ 51) * (10 ^ e * (1 + 1 / 2 ^ 51)) := by gcongr
        _ = (digits : ℚ) * 10 ^ e * ((1 + 1 / 2 ^ 51) * (1 + 1 / 2 ^ 51)) := by ring
        _ ≤ digits * 10 ^ e * (1 + 1 / 2 ^ 49) := by
          gcongr
          norm_num

end Binary64

end Pagewright
