import Ecl.RationalCompare

/-! FLOOR, CEILING, TRUNCATE and ROUND of rationals, from floor.d, ceiling.d, truncate.d and
round.d in src/c/numbers. -/
namespace Quotients

open Integers CanonicalIntegers Rationals RationalCompare

/-- The case of two fixnums in ecl_floor2. -/
def fixFloor (a b : ℤ) : Integer × Integer :=
  if (a.tmod b).xor b < 0 ∧ a.tmod b ≠ 0 then
    (makeFixnum (a.tdiv b - 1), makeFixnum (a.tmod b + b))
  else (makeFixnum (a.tdiv b), makeFixnum (a.tmod b))

/-- The case of two fixnums in ecl_ceiling2. -/
def fixCeiling (a b : ℤ) : Integer × Integer :=
  if (a.tmod b).xor b > 0 ∧ a.tmod b ≠ 0 then
    (makeFixnum (a.tdiv b + 1), makeFixnum (a.tmod b - b))
  else (makeFixnum (a.tdiv b), makeFixnum (a.tmod b))

/-- A division of integers by its case of two fixnums and its GMP function. Machine and GMP
trap on a zero divisor. -/
def divideIntegers (fix big : ℤ → ℤ → Integer × Integer) :
    Integer → Integer → Except ArithmeticError (Integer × Integer)
  | .fixnum a, .fixnum b => if b = 0 then .error .divisionByZero else .ok (fix a.toInt b.toInt)
  | .fixnum a, .bignum b => .ok (big a.toInt b)
  | .bignum a, .fixnum b => if b = 0 then .error .divisionByZero else .ok (big a b.toInt)
  | .bignum a, .bignum b => .ok (big a b)

/-- The rational cases, which ecl_floor2 and ecl_ceiling2 have in common. -/
def divideRationals (fix big : ℤ → ℤ → Integer × Integer) :
    Rational → Rational → Except ArithmeticError (Integer × Rational)
  | .integer x, .integer y => do
    let p ← divideIntegers fix big x y
    return (p.1, .integer p.2)
  | .integer x, .ratio n d => do
    let p ← divideIntegers fix big (times x d) n
    let r ← makeRatio p.2 d
    return (p.1, r)
  | .ratio n d, .ratio n' d' => do
    let p ← divideIntegers fix big (times n d') (times d n')
    let r ← makeRatio p.2 (times d d')
    return (p.1, r)
  | .ratio n d, .integer y => do
    let p ← divideIntegers fix big n (times d y)
    let r ← (Rational.integer p.2).divide (.integer d)
    return (p.1, r)

def floor2 : Rational → Rational → Except ArithmeticError (Integer × Rational) :=
  divideRationals fixFloor bigFloor

def ceiling2 : Rational → Rational → Except ArithmeticError (Integer × Rational) :=
  divideRationals fixCeiling bigCeiling

def truncate2 (x y : Rational) : Except ArithmeticError (Integer × Rational) :=
  if x.plusp ≠ y.plusp then ceiling2 x y else floor2 x y

def oddp : Integer → Bool
  | .fixnum n => n.toInt % 2 ≠ 0
  | .bignum z => z % 2 ≠ 0

def onePlus : Integer → Integer
  | .fixnum n =>
    if n.toInt = mostPositiveFixnum then makeInteger (mostPositiveFixnum + 1)
    else makeFixnum (n.toInt + 1)
  | .bignum z => plus (.bignum z) (makeFixnum 1)

def oneMinus : Integer → Integer
  | .fixnum n =>
    if n.toInt = mostNegativeFixnum then makeInteger (mostNegativeFixnum - 1)
    else makeFixnum (n.toInt - 1)
  | .bignum z => minus (.bignum z) (makeFixnum 1)

def plusHalf : Rational := .ratio (makeFixnum 1) (makeFixnum 2)
def minusHalf : Rational := .ratio (makeFixnum (-1)) (makeFixnum 2)

/-- How ecl_round2_integer corrects the truncated quotient by what is left of it. -/
def adjust (q1 : Integer) (r : Rational) : Integer :=
  if r.minusp then
    if compareRational minusHalf r > 0 ∨ compareRational minusHalf r = 0 ∧ oddp q1 then oneMinus q1
    else q1
  else
    if compareRational r plusHalf > 0 ∨ compareRational r plusHalf = 0 ∧ oddp q1 then onePlus q1
    else q1

def numberRemainder (x y : Rational) (q : Integer) : Except ArithmeticError Rational := do
  let z ← (Rational.integer q).times y
  x.minus z

def round2Integer (x y : Rational) (num den : Integer) :
    Except ArithmeticError (Integer × Rational) := do
  let q1 ← integerDivide num den
  let r ← (Rational.ratio num den).minus (.integer q1)
  let z ← numberRemainder x y (adjust q1 r)
  return (adjust q1 r, z)

def round2 (x y : Rational) : Except ArithmeticError (Integer × Rational) := do
  let q ← x.divide y
  match q with
  | .integer n => return (n, .integer (makeFixnum 0))
  | .ratio num den => round2Integer x y num den

inductive Rounding where
  | floor | ceiling | truncate | round
  deriving DecidableEq

def Rounding.run : Rounding → Rational → Rational → Except ArithmeticError (Integer × Rational)
  | .floor => floor2
  | .ceiling => ceiling2
  | .truncate => truncate2
  | .round => round2

/-- What an operation promises of the quotient and the remainder of x by y. -/
def Rounding.Promise : Rounding → ℚ → ℚ → ℤ → ℚ → Prop
  | .floor, _, y, _, r => 0 ≤ r / y ∧ r / y < 1
  | .ceiling, _, y, _, r => -1 < r / y ∧ r / y ≤ 0
  | .truncate, x, y, _, r => |r| < |y| ∧ (r = 0 ∨ 0 < r ∧ 0 < x ∨ r < 0 ∧ x < 0)
  | .round, _, y, q, r => |r / y| ≤ 1 / 2 ∧ (|r / y| = 1 / 2 → Even q)

def Overflows : Rational → Rational → Prop
  | .integer (.fixnum a), .integer (.fixnum b) => a.toInt = mostNegativeFixnum ∧ b.toInt = -1
  | .integer (.fixnum a), .ratio (.fixnum n) (.fixnum d) =>
    a.toInt * d.toInt = mostNegativeFixnum ∧ n.toInt = -1
  | _, _ => False

theorem xor_neg_iff (a b : ℤ) : a.xor b < 0 ↔ (a < 0 ↔ ¬ b < 0) := by
  cases a with
  | ofNat m => cases b with
    | ofNat n =>
      simp only [Int.xor, Int.ofNat_eq_natCast]
      omega
    | negSucc n => simp [Int.xor, Int.negSucc_lt_zero]
  | negSucc m => cases b <;> simp [Int.xor, Int.negSucc_lt_zero]

theorem xor_eq_zero_iff (a b : ℤ) : a.xor b = 0 ↔ a = b := by
  constructor
  · intro h
    apply LogicalOperations.eq_of_testBit_eq
    intro k
    have hk := Int.testBit_lxor a b k
    rw [h, LogicalOperations.testBit_zero] at hk
    revert hk
    cases a.testBit k <;> cases b.testBit k <;> simp
  · rintro rfl
    apply LogicalOperations.eq_of_testBit_eq
    intro k
    simp [Int.testBit_lxor, LogicalOperations.testBit_zero]

structure Splits (P : ℚ → Prop) (a b : ℤ) (p : Integer × Integer) : Prop where
  exact : a = p.1.value * b + p.2.value
  fraction : P (p.2.value / b)
  canonical : Canonical p.1

def FloorFraction (f : ℚ) : Prop := 0 ≤ f ∧ f < 1
def CeilingFraction (f : ℚ) : Prop := -1 < f ∧ f ≤ 0

theorem floorFraction_iff {r b : ℤ} (h0 : b ≠ 0) :
    FloorFraction (r / b) ↔ (0 < b → 0 ≤ r ∧ r < b) ∧ (b < 0 → b < r ∧ r ≤ 0) := by
  unfold FloorFraction
  rcases lt_or_gt_of_ne h0 with hb | hb
  · have hq : (b : ℚ) < 0 := by exact_mod_cast hb
    rw [div_lt_one_of_neg hq, div_nonneg_iff]
    constructor
    · rintro ⟨h1, h2⟩
      have h2' : b < r := by exact_mod_cast h2
      have h1' : r ≤ 0 := by
        rcases h1 with ⟨-, h⟩ | ⟨h, -⟩
        · exact absurd h (not_le.mpr hq)
        · exact_mod_cast h
      exact ⟨fun h => absurd h (by omega), fun _ => ⟨h2', h1'⟩⟩
    · rintro ⟨-, h⟩
      obtain ⟨h1, h2⟩ := h hb
      exact ⟨Or.inr ⟨by exact_mod_cast h2, hq.le⟩, by exact_mod_cast h1⟩
  · have hq : (0 : ℚ) < b := by exact_mod_cast hb
    rw [div_lt_one hq, le_div_iff₀ hq, zero_mul]
    constructor
    · rintro ⟨h1, h2⟩
      exact ⟨fun _ => ⟨by exact_mod_cast h1, by exact_mod_cast h2⟩, fun h => absurd h (by omega)⟩
    · rintro ⟨h, -⟩
      obtain ⟨h1, h2⟩ := h hb
      exact ⟨by exact_mod_cast h1, by exact_mod_cast h2⟩

theorem ceilingFraction_iff {r b : ℤ} : CeilingFraction (r / b) ↔ FloorFraction ((-r : ℤ) / b) := by
  simp only [CeilingFraction, FloorFraction, Int.cast_neg, neg_div]
  constructor <;> rintro ⟨h1, h2⟩ <;> constructor <;> linarith

theorem tmod_facts (a : ℤ) {b : ℤ} (hb : b ≠ 0) :
    a = a.tdiv b * b + a.tmod b ∧ (a.tmod b).natAbs < b.natAbs ∧
      (0 < a.tmod b → 0 < a) ∧ (a.tmod b < 0 → a < 0) := by
  refine ⟨?_, ?_, ?_, ?_⟩
  · exact (Int.tdiv_mul_add_tmod a b).symm
  · rw [Int.natAbs_tmod]
    exact Nat.mod_lt _ (by omega)
  · intro h
    by_contra hn
    have := Int.tmod_nonneg b (show 0 ≤ -a by omega)
    rw [Int.neg_tmod] at this
    omega
  · intro h
    by_contra hn
    have := Int.tmod_nonneg b (show 0 ≤ a by omega)
    omega

theorem tdiv_small {a b : ℤ} (ha : FitsFixnum a) (hb : 2 ≤ b.natAbs) :
    (a.tdiv b).natAbs ≤ 2 ^ 60 := by
  have habs := Int.natAbs_tdiv a b
  change _ = a.natAbs / b.natAbs at habs
  have hhalf : a.natAbs / b.natAbs ≤ a.natAbs / 2 := Nat.div_le_div_left hb (by decide)
  obtain ⟨hl, hu⟩ := ha
  simp only [mostNegativeFixnum, mostPositiveFixnum] at *
  omega

section
variable {a b : ℤ}

theorem value_fixnum_of {i : ℤ} (hl : -2 ^ 61 ≤ i) (hu : i ≤ 2 ^ 61 - 1) : (makeFixnum i).value = i :=
  value_makeFixnum ⟨hl, hu⟩

structure Divisible (a b : ℤ) : Prop where
  left : FitsFixnum a
  right : FitsFixnum b
  nonzero : b ≠ 0
  inside : ¬ (a = mostNegativeFixnum ∧ b = -1)

theorem splits_fixFloor (h : Divisible a b) : Splits FloorFraction a b (fixFloor a b) := by
  obtain ⟨hsum, habs, hpos, hneg⟩ := tmod_facts a h.nonzero
  have hlr := h.left
  have hbr := h.right
  unfold fixFloor
  split
  · next hc =>
    rw [xor_neg_iff] at hc
    have hq := tdiv_small h.left (show 2 ≤ b.natAbs by omega)
    simp only [fits_iff] at hlr hbr
    have hqv : (makeFixnum (a.tdiv b - 1)).value = a.tdiv b - 1 := value_fixnum_of (by omega) (by omega)
    have hrv : (makeFixnum (a.tmod b + b)).value = a.tmod b + b := value_fixnum_of (by omega) (by omega)
    refine ⟨?_, ?_, canonical_makeFixnum _⟩
    · rw [hqv, hrv]
      linarith
    · rw [hrv, floorFraction_iff h.nonzero]
      omega
  · next hc =>
    rw [xor_neg_iff] at hc
    have hqv : (makeFixnum (a.tdiv b)).value = a.tdiv b := value_makeFixnum (fits_tdiv h.left h.inside)
    simp only [fits_iff] at hlr hbr
    have hrv : (makeFixnum (a.tmod b)).value = a.tmod b := value_fixnum_of (by omega) (by omega)
    refine ⟨?_, ?_, canonical_makeFixnum _⟩
    · rw [hqv, hrv]
      exact hsum
    · rw [hrv, floorFraction_iff h.nonzero]
      omega

theorem splits_fixCeiling (h : Divisible a b) : Splits CeilingFraction a b (fixCeiling a b) := by
  obtain ⟨hsum, habs, hpos, hneg⟩ := tmod_facts a h.nonzero
  have hlr := h.left
  have hbr := h.right
  have hx0 := xor_eq_zero_iff (a.tmod b) b
  have hxn := xor_neg_iff (a.tmod b) b
  unfold fixCeiling
  split
  · next hc =>
    have hq := tdiv_small h.left (show 2 ≤ b.natAbs by omega)
    simp only [fits_iff] at hlr hbr
    have hqv : (makeFixnum (a.tdiv b + 1)).value = a.tdiv b + 1 := value_fixnum_of (by omega) (by omega)
    have hrv : (makeFixnum (a.tmod b - b)).value = a.tmod b - b := value_fixnum_of (by omega) (by omega)
    refine ⟨?_, ?_, canonical_makeFixnum _⟩
    · rw [hqv, hrv]
      linarith
    · rw [hrv, ceilingFraction_iff, floorFraction_iff h.nonzero]
      omega
  · next hc =>
    have hqv : (makeFixnum (a.tdiv b)).value = a.tdiv b := value_makeFixnum (fits_tdiv h.left h.inside)
    simp only [fits_iff] at hlr hbr
    have hrv : (makeFixnum (a.tmod b)).value = a.tmod b := value_fixnum_of (by omega) (by omega)
    refine ⟨?_, ?_, canonical_makeFixnum _⟩
    · rw [hqv, hrv]
      exact hsum
    · rw [hrv, ceilingFraction_iff, floorFraction_iff h.nonzero]
      omega

theorem fmod_facts (a b : ℤ) :
    a = a.fdiv b * b + a.fmod b ∧ (0 < b → 0 ≤ a.fmod b ∧ a.fmod b < b) ∧
      (b < 0 → b < a.fmod b ∧ a.fmod b ≤ 0) := by
  refine ⟨(Int.fdiv_mul_add_fmod a b).symm, ?_, ?_⟩
  · intro h
    exact ⟨Int.fmod_nonneg_of_pos a h, Int.fmod_lt_of_pos a h⟩
  · intro h
    have h1 := Int.fmod_nonneg_of_pos (-a) (show 0 < -b by omega)
    have h2 := Int.fmod_lt_of_pos (-a) (show 0 < -b by omega)
    have heq : a.fmod b = -(-a).fmod (-b) := by
      rw [Int.fmod_def, Int.fmod_def, Int.neg_fdiv_neg]
      ring
    omega

theorem splits_bigFloor (hb : b ≠ 0) : Splits FloorFraction a b (bigFloor a b) := by
  obtain ⟨hsum, hrange⟩ := fmod_facts a b
  refine ⟨?_, ?_, canonical_bigNormalize _⟩
  · simp only [bigFloor, value_bigNormalize]
    exact hsum
  · simp only [bigFloor, value_bigNormalize]
    exact (floorFraction_iff hb).mpr hrange

theorem splits_bigCeiling (hb : b ≠ 0) : Splits CeilingFraction a b (bigCeiling a b) := by
  obtain ⟨hsum, hrange⟩ := fmod_facts (-a) b
  refine ⟨?_, ?_, canonical_bigNormalize _⟩
  · simp only [bigCeiling, value_bigNormalize]
    ring
  · simp only [bigCeiling, value_bigNormalize]
    have heq : -(a - -(-a).fdiv b * b) = (-a).fmod b := by linarith
    rw [ceilingFraction_iff, heq]
    exact (floorFraction_iff hb).mpr hrange

end

end Quotients
