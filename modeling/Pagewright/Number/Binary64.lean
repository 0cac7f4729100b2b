import Pagewright.Text.Basic

/-!
# Double-precision numbers

Settings may hold numbers with a fraction. They are kept as doubles, each an exact product
`m · 2 ^ q` with `m` below `2 ^ 53` (`Binary64`), because that is how the pages that read the
settings back see them. `Binary64.nearest?` rounds a decimal to the nearest double, ties going to
the even significand, and answers `none` beyond the largest one; `Binary64.computed?` gets there by
arithmetic on doubles, which may end one double beside the nearest. `Binary64.shortest` goes the
other way: of the decimals that round to a double it takes one with the fewest digits, and of
those the nearest. All of it is exact arithmetic on natural numbers.
-/

namespace Pagewright

/-- The finite double `± significand · 2 ^ exponent`. -/
structure Binary64 where
  negative : Bool
  significand : Nat
  exponent : Int
  deriving Repr, DecidableEq

namespace Binary64

/-- The exponent of the smallest doubles. -/
def minExponent : Int := -1074

/-- The exponent of the largest doubles. -/
def maxExponent : Int := 971

/-- `b ^ e` as a factor of a numerator and of a denominator. -/
def powFraction (b : Nat) (e : Int) : Nat × Nat :=
  if 0 ≤ e then (b.pow e.toNat, 1) else (1, b.pow (-e).toNat)

/-- The quotient rounded to the nearest natural number, a half to the even one. -/
def roundedQuotient (num den : Nat) : Nat :=
  let floor := num / den
  let rest := num % den
  if 2 * rest > den || (2 * rest == den && floor % 2 == 1) then floor + 1 else floor

/-- The quotient of `num / den` by `2 ^ q`, rounded. -/
def scaled (num den : Nat) (q : Int) : Nat :=
  let (up, down) := powFraction 2 (-q)
  roundedQuotient (num * up) (den * down)

/-- The double nearest to the positive fraction `num / den`: the exponent is the least at which
the significand stays below `2 ^ 53`. -/
def ofFraction? (negative : Bool) (num den : Nat) : Option Binary64 :=
  let estimate := (Nat.log2 num : Int) - (Nat.log2 den : Int) - 53
  let q₀ := max estimate minExponent
  let q := if scaled num den q₀ < Nat.pow 2 53 then q₀ else q₀ + 1
  let m := scaled num den q
  let (m, q) := if m < Nat.pow 2 53 then (m, q) else (m / 2, q + 1)
  if q ≤ maxExponent then some ⟨negative, m, q⟩ else none

/-- The double nearest to `± digits · 10 ^ exponent`, unless that lies beyond the largest one. -/
def nearest? (negative : Bool) (digits : Nat) (exponent : Int) : Option Binary64 :=
  if digits = 0 then some ⟨negative, 0, minExponent⟩
  else
    let size := (Nat.toDigits 10 digits).length + exponent
    if size < -400 then some ⟨negative, 0, minExponent⟩
    else if size > 400 then none
    else
      let (up, down) := powFraction 10 exponent
      ofFraction? negative (digits * up) down

/-! ## Arithmetic -/

/-- The size of a double as a fraction. -/
def fraction (x : Binary64) : Nat × Nat :=
  let (up, down) := powFraction 2 x.exponent
  (x.significand * up, down)

/-- The double nearest to a product, with the sign of the first factor. -/
def mul? (x y : Binary64) : Option Binary64 :=
  let (a, b) := x.fraction
  let (c, d) := y.fraction
  if a * c = 0 then some ⟨x.negative, 0, minExponent⟩ else ofFraction? x.negative (a * c) (b * d)

/-- The double nearest to a quotient, with the sign of the dividend. -/
def div? (x y : Binary64) : Option Binary64 :=
  let (a, b) := x.fraction
  let (c, d) := y.fraction
  if a = 0 then some ⟨x.negative, 0, minExponent⟩ else ofFraction? x.negative (a * d) (b * c)

/-- The largest power of ten that is a double. -/
def maxPower : Nat := 308

/-- A double multiplied by `10 ^ exponent`, each power of ten being a double as well. An exponent
too far below zero takes several divisions, which soon end at zero. -/
def timesPower? : (divisions : Nat) → Binary64 → (exponent : Int) → Option Binary64
  | 0, x, _ => some x
  | divisions + 1, x, exponent =>
    if x.significand = 0 then some x
    else if maxPower < exponent then none
    else if 0 ≤ exponent then (nearest? false 1 exponent).bind x.mul?
    else if -maxPower ≤ exponent then (nearest? false 1 (-exponent)).bind x.div?
    else do
      let quotient ← x.div? (← nearest? false 1 maxPower)
      timesPower? divisions quotient (exponent + maxPower)

/-- `± digits · 10 ^ exponent` by arithmetic on doubles: the digits, the power of ten and their
product or quotient are rounded one after the other. -/
def computed? (negative : Bool) (digits : Nat) (exponent : Int) : Option Binary64 :=
  (nearest? negative digits 0).bind fun x => timesPower? 4 x exponent

/-! ## Shortest digits -/

/-- Four times the ends of the interval of reals that round to `x`, in units of `2 ^ exponent`.
Below the least significand of a binade the doubles are twice as dense. -/
def interval (x : Binary64) : Nat × Nat :=
  let lower := if x.significand = Nat.pow 2 52 && x.exponent > minExponent then 1 else 2
  (4 * x.significand - lower, 4 * x.significand + 2)

/-- The multiple of `10 ^ k` nearest to a positive double among those that round to it. -/
def multiple? (x : Binary64) (k : Int) : Option Nat :=
  let (up, down) := powFraction 2 (x.exponent - 2)
  let (tenUp, tenDown) := powFraction 10 k
  let scale := up * tenDown
  let unit := down * tenUp
  let value := 4 * x.significand * scale
  let (low, high) := x.interval
  let closed := x.significand % 2 == 0
  let inside (c : Nat) : Bool :=
    if closed then low * scale ≤ c * unit && c * unit ≤ high * scale
    else low * scale < c * unit && c * unit < high * scale
  let floor := value / unit
  let rest := value % unit
  let first := if 2 * rest > unit || (2 * rest == unit && floor % 2 == 1) then floor + 1 else floor
  let second := if first = floor then floor + 1 else floor
  if first ≠ 0 && inside first then some first
  else if second ≠ 0 && inside second then some second
  else none

/-- The coarsest power of ten, from `10 ^ k` down, that has a multiple which rounds to `x`, and
that multiple. -/
def shortestFrom (x : Binary64) : (steps : Nat) → (k : Int) → Nat × Int
  | 0, k => (0, k)
  | steps + 1, k =>
    match x.multiple? k with
    | some c => (c, k)
    | none => shortestFrom x steps (k - 1)

/-- Digits and exponent of the shortest decimal that rounds to a positive double. -/
def shortest (x : Binary64) : Nat × Int :=
  shortestFrom x 700 309

/-! ## Text of a double -/

/-- Zeros after the last digit belong to the exponent. -/
def dropZeros : (steps : Nat) → Nat × Int → Nat × Int
  | 0, d => d
  | steps + 1, (digits, k) =>
    if digits ≠ 0 && digits % 10 = 0 then dropZeros steps (digits / 10, k + 1) else (digits, k)

/-- A decimal number written positionally from `10 ^ -5` up to `10 ^ 16`, always with a fraction,
and with an exponent that has a sign elsewhere. -/
def decimalText (digits : Nat) (k : Int) : Text :=
  let ds := Nat.toDigits 10 digits
  let point := ds.length + k
  if 0 ≤ k && point ≤ 16 then ds ++ List.replicate k.toNat '0' ++ ".0"
  else if 0 < point && point ≤ 16 then ds.take point.toNat ++ "." ++ ds.drop point.toNat
  else if -5 < point && point ≤ 0 then "0." ++ List.replicate (-point).toNat '0' ++ ds
  else
    let e := point - 1
    let mark : Text := if 0 ≤ e then "e+" else "e-"
    ds.take 1 ++ (if ds.length = 1 then ([] : Text) else "." ++ ds.drop 1) ++ mark
      ++ Nat.toDigits 10 e.natAbs

/-- The text of a double: the fewest digits that read back. -/
def text (x : Binary64) : Text :=
  let sign : Text := if x.negative then "-" else ""
  if x.significand = 0 then sign ++ "0.0"
  else
    let (digits, k) := dropZeros 20 x.shortest
    sign ++ decimalText digits k

end Binary64

end Pagewright
