import Ecl.QuotientCorrectness
import Ecl.NumberCompare
import Ecl.TwosComplement

/-! ecl_to_float of src/c/number.d on rationals. Bignums are shorter than 2^31 bits, and
floating point overflow is trapped, as it is after startup. -/
namespace RatioFloats

open Integers CanonicalIntegers LogicalOperations Rationals Quotients FloatFormats FloatNumbers
open Equalp (FloatValue)

def integerLength (x : Integer) : ℤ := (magnitude x.value).size

def shiftOut (digits : ℕ) (scale : ℤ) (quotient : Integer) : ℤ × Integer :=
  if integerLength quotient > digits + 1 then (scale - 1, ash quotient (-1)) else (scale, quotient)

def roundQuotient (quotient : Integer) : Integer :=
  ash (if oddp quotient then onePlus quotient else quotient) (-1)

def mantissaAndExponentFromRatio (num den : Integer) (digits : ℕ) :
    Except ArithmeticError (Integer × ℤ) := do
  let negative := minusp num
  let num := if negative then negate num else num
  let scale : ℤ := digits + 1 - (integerLength num - integerLength den)
  let quotient ← integerDivide (ash num scale) den
  let (scale, quotient) := shiftOut digits scale quotient
  let quotient := roundQuotient quotient
  return (if negative then negate quotient else quotient, 1 - scale)

def trapOverflow : FloatValue → Except ArithmeticError FloatValue
  | .infinity _ => .error .floatingPointOverflow
  | d => .ok d

def ldexpf (d : ℚ) (exponent : ℤ) : Except ArithmeticError FloatValue :=
  trapOverflow (toFloat .single (d * 2 ^ exponent))

def ratioToFloat (num den : Integer) : Except ArithmeticError FloatValue := do
  let (mantissa, exponent) ← mantissaAndExponentFromRatio num den 24
  ldexpf mantissa.value exponent

def eclToFloat : Rational → Except ArithmeticError FloatValue
  | .integer (.fixnum n) => .ok (toFloat .single n.toInt)
  | .integer (.bignum z) => ratioToFloat (.bignum z) (makeFixnum 1)
  | .ratio n d => ratioToFloat n d

def roundAway (q : ℚ) : ℤ := if q < 0 then -⌊-q + 1 / 2⌋ else ⌊q + 1 / 2⌋

/-- A number rounded to the given significant bits. -/
def roundDigits (digits : ℕ) (q : ℚ) : ℚ :=
  roundAway (q / 2 ^ (exponent q - digits)) * 2 ^ (exponent q - digits)

/-- A fixnum is rounded once; other rationals are rounded to 24 bits and then to the place
of the smallest floats. -/
def nearestSingle : Rational → FloatValue
  | .integer (.fixnum n) => toFloat .single n.toInt
  | x => toFloat .single (roundDigits 24 x.value)

theorem magnitude_of_nonneg {z : ℤ} (h : 0 ≤ z) : magnitude z = z.natAbs := by
  cases z with
  | ofNat n => rfl
  | negSucc n => exact absurd h (by simp)

theorem integerLength_bounds {x : Integer} (h : 0 < x.value) :
    2 ^ (integerLength x - 1) ≤ (x.value : ℚ) ∧ (x.value : ℚ) < 2 ^ integerLength x := by
  have hm := magnitude_of_nonneg h.le
  have hpos : 0 < x.value.natAbs := by omega
  have hcast : (x.value : ℚ) = ((x.value.natAbs : ℕ) : ℚ) := by
    rw [Nat.cast_natAbs, Int.cast_abs, abs_of_pos]
    exact_mod_cast h
  rw [integerLength, hm, hcast]
  constructor
  · have hsize : 0 < x.value.natAbs.size := Nat.size_pos.mpr hpos
    have hle := Nat.lt_size.mp (show x.value.natAbs.size - 1 < x.value.natAbs.size by omega)
    rw [show (x.value.natAbs.size : ℤ) - 1 = ((x.value.natAbs.size - 1 : ℕ) : ℤ) by omega, zpow_natCast]
    exact_mod_cast hle
  · rw [zpow_natCast]
    exact_mod_cast Nat.lt_size_self _

theorem lt_integerLength {x : Integer} (h : 0 ≤ x.value) (k : ℕ) :
    (k : ℤ) < integerLength x ↔ 2 ^ k ≤ x.value := by
  obtain ⟨n, hn⟩ := Int.eq_ofNat_of_zero_le h
  rw [integerLength, magnitude_of_nonneg h, Int.ofNat_lt, Nat.lt_size, hn, Int.natAbs_natCast]
  norm_cast

theorem roundQuotient_spec {x : Integer} (hx : Canonical x) {a : ℚ} (h : x.value = ⌊a⌋) :
    (roundQuotient x).value = ⌊a / 2 + 1 / 2⌋ ∧ Canonical (roundQuotient x) := by
  have hhalf : ⌊a / 2 + 1 / 2⌋ = (⌊a⌋ + 1) / 2 := by
    have hfloor := Int.floor_div_natCast (a + 1) 2
    rw [Int.floor_add_one] at hfloor
    rw [← add_div]
    exact_mod_cast hfloor
  have hshift (y : Integer) : (ash y (-1)).value = y.value / 2 := by
    rw [value_ash]
    rfl
  obtain ⟨hv, hc⟩ := onePlus_spec x
  rw [roundQuotient, hshift, hhalf, ← h]
  split
  · rw [hv]
    exact ⟨rfl, canonical_ash hc _⟩
  · next hodd =>
    rw [oddp_iff, not_not, Int.even_iff] at hodd
    exact ⟨by omega, canonical_ash hx _⟩

theorem negate_abs {x : Integer} (hx : Canonical x) :
    (if minusp x then negate x else x).value = |x.value| ∧
      Canonical (if minusp x then negate x else x) := by
  split
  · next h =>
    rw [minusp_iff] at h
    rw [value_negate, abs_of_neg h]
    exact ⟨rfl, canonical_negate x⟩
  · next h =>
    rw [minusp_iff, not_lt] at h
    exact ⟨(abs_of_nonneg h).symm, hx⟩

section
variable {num den : Integer} {digits : ℕ} {scale : ℤ} {a : ℚ}

theorem first_quotient (hn : 0 < num.value) (hd : 0 < den.value)
    (ha : a = num.value / den.value)
    (hs : scale = digits + 1 - (integerLength num - integerLength den)) :
    2 ^ (digits : ℤ) ≤ a * 2 ^ scale ∧ a * 2 ^ scale < 2 ^ (digits + 2 : ℤ) := by
  obtain ⟨hnl, hnu⟩ := integerLength_bounds hn
  obtain ⟨hdl, hdu⟩ := integerLength_bounds hd
  have hd0 : (0 : ℚ) < den.value := by exact_mod_cast hd
  have hscale := two_zpow_pos scale
  have hmul : a * 2 ^ scale = num.value * 2 ^ scale / den.value := by
    rw [ha]
    exact div_mul_eq_mul_div _ _ _
  rw [hmul, le_div_iff₀ hd0, div_lt_iff₀ hd0]
  constructor
  · calc (2 : ℚ) ^ (digits : ℤ) * den.value
        ≤ 2 ^ (digits : ℤ) * 2 ^ integerLength den :=
          mul_le_mul_of_nonneg_left hdu.le (two_zpow_pos _).le
      _ = 2 ^ (integerLength num - 1) * 2 ^ scale := by
          rw [← zpow_add₀ (by norm_num), ← zpow_add₀ (by norm_num)]
          congr 1
          omega
      _ ≤ num.value * 2 ^ scale := mul_le_mul_of_nonneg_right hnl hscale.le
  · calc (num.value : ℚ) * 2 ^ scale
        < 2 ^ integerLength num * 2 ^ scale := mul_lt_mul_of_pos_right hnu hscale
      _ = 2 ^ (digits + 2 : ℤ) * 2 ^ (integerLength den - 1) := by
          rw [← zpow_add₀ (by norm_num), ← zpow_add₀ (by norm_num)]
          congr 1
          omega
      _ ≤ 2 ^ (digits + 2 : ℤ) * den.value := mul_le_mul_of_nonneg_left hdl (two_zpow_pos _).le

theorem quotient_floor (scale : ℤ) (hn0 : 0 < num.value) (hd : 0 < den.value)
    (ha : a = num.value / den.value) :
    ∃ z, integerDivide (ash num scale) den = .ok z ∧ z.value = ⌊a * 2 ^ scale⌋ ∧ Canonical z := by
  have hash : 0 ≤ (ash num scale).value := by
    rw [value_ash, shifted_eq_floor]
    have := two_zpow_pos scale
    have hnq : (0 : ℚ) ≤ num.value := by exact_mod_cast hn0.le
    exact Int.floor_nonneg.mpr (by positivity)
  obtain ⟨z, hz, hv, hc⟩ := correct_integerDivide (x := ash num scale) hd.ne' (by omega)
  refine ⟨z, hz, ?_, hc⟩
  have hfloor := Int.floor_div_natCast ((num.value : ℚ) * 2 ^ scale) den.value.toNat
  have hcast : ((den.value.toNat : ℕ) : ℚ) = den.value := by
    exact_mod_cast Int.toNat_of_nonneg hd.le
  rw [hcast, Int.toNat_of_nonneg hd.le] at hfloor
  rw [hv, Int.tdiv_eq_ediv_of_nonneg hash, value_ash, shifted_eq_floor, ← hfloor, ha,
    div_mul_eq_mul_div]

theorem shiftOut_spec {z : Integer} (hz : z.value = ⌊a * 2 ^ scale⌋) (hc : Canonical z)
    (hl : 2 ^ (digits : ℤ) ≤ a * 2 ^ scale) (hu : a * 2 ^ scale < 2 ^ (digits + 2 : ℤ)) :
    (shiftOut digits scale z).2.value = ⌊a * 2 ^ (shiftOut digits scale z).1⌋ ∧
      Canonical (shiftOut digits scale z).2 ∧
      2 ^ (digits : ℤ) ≤ a * 2 ^ (shiftOut digits scale z).1 ∧
      a * 2 ^ (shiftOut digits scale z).1 < 2 ^ (digits + 1 : ℤ) := by
  have hz0 : 0 ≤ z.value := by
    rw [hz]
    exact Int.floor_nonneg.mpr ((two_zpow_pos _).le.trans hl)
  have hwide : integerLength z > digits + 1 ↔ 2 ^ (digits + 1 : ℤ) ≤ a * 2 ^ scale := by
    have hk := lt_integerLength hz0 (digits + 1)
    rw [hz, Int.le_floor] at hk
    have hcast : ((2 ^ (digits + 1) : ℤ) : ℚ) = 2 ^ (digits + 1 : ℤ) := by
      rw [show (digits + 1 : ℤ) = ((digits + 1 : ℕ) : ℤ) by push_cast; rfl, zpow_natCast]
      push_cast
      rfl
    rw [hcast] at hk
    exact_mod_cast hk
  unfold shiftOut
  split
  · next h =>
    have hhalf : a * 2 ^ (scale - 1) = a * 2 ^ scale / 2 := by
      rw [zpow_sub_one₀ (by norm_num)]
      ring
    have hfloor := Int.floor_div_natCast (a * 2 ^ scale) 2
    refine ⟨?_, ?_, ?_, ?_⟩
    · rw [value_ash, hhalf, hz]
      exact_mod_cast hfloor.symm
    · exact canonical_ash hc (-1)
    · rw [hhalf, le_div_iff₀ (by norm_num), ← zpow_add_one₀ (by norm_num)]
      exact hwide.mp h
    · rw [hhalf, div_lt_iff₀ (by norm_num), ← zpow_add_one₀ (by norm_num)]
      rwa [show (digits + 1 + 1 : ℤ) = digits + 2 by ring]
  · next h => exact ⟨hz, hc, hl, lt_of_not_ge (mt hwide.mpr h)⟩

theorem roundAway_eq (q : ℚ) : roundAway q = if q < 0 then -⌊|q| + 1 / 2⌋ else ⌊|q| + 1 / 2⌋ := by
  unfold roundAway
  split
  · next h => rw [abs_of_neg h]
  · next h => rw [abs_of_nonneg (not_lt.mp h)]

theorem mantissaAndExponentFromRatio_spec (digits : ℕ) (hn : Canonical num) (hn0 : num.value ≠ 0)
    (hd : 0 < den.value) (ha : a = num.value / den.value) :
    ∃ m, mantissaAndExponentFromRatio num den digits = .ok (m, exponent a - digits) ∧
      m.value = roundAway (a / 2 ^ (exponent a - digits)) ∧ Canonical m ∧ m.value.natAbs ≤ 2 ^ digits := by
  obtain ⟨habs, -⟩ := negate_abs hn
  have hpos : 0 < (if minusp num then negate num else num).value := by
    rw [habs]
    exact abs_pos.mpr hn0
  have hd0 : (0 : ℚ) < den.value := by exact_mod_cast hd
  have hb : |a| = (if minusp num then negate num else num).value / den.value := by
    rw [ha, abs_div, abs_of_pos hd0, habs, Int.cast_abs]
  obtain ⟨scale, hscale⟩ : ∃ scale : ℤ, scale = digits + 1 -
    (integerLength (if minusp num then negate num else num) - integerLength den) := ⟨_, rfl⟩
  obtain ⟨hl, hu⟩ := first_quotient hpos hd hb hscale
  obtain ⟨z, hz, hzv, hzc⟩ := quotient_floor scale hpos hd hb
  obtain ⟨hv, hc, hl', hu'⟩ := shiftOut_spec hzv hzc hl hu
  obtain ⟨hrv, hrc⟩ := roundQuotient_spec hc hv
  -- The scale that is left places the last digit of the mantissa.
  obtain ⟨s, hs⟩ : ∃ s, s = (shiftOut digits scale z).1 := ⟨_, rfl⟩
  rw [← hs] at hl' hu' hrv
  have hspos := two_zpow_pos s
  have hexp : exponent a = digits + 1 - s := by
    apply exponent_eq
    · rw [show (digits + 1 - s - 1 : ℤ) = digits - s by ring, zpow_sub₀ (by norm_num),
        div_le_iff₀ hspos]
      exact hl'
    · rw [zpow_sub₀ (by norm_num), lt_div_iff₀ hspos]
      exact hu'
  have hplace : exponent a - digits = 1 - s := by omega
  have hhalf : |a| * 2 ^ s / 2 = |a / 2 ^ (1 - s)| := by
    rw [abs_div, abs_of_pos (two_zpow_pos (1 - s)), zpow_sub₀ (by norm_num), zpow_one]
    field_simp
  rw [hhalf] at hrv
  have hround : (if minusp num then negate (roundQuotient (shiftOut digits scale z).2)
      else roundQuotient (shiftOut digits scale z).2).value = roundAway (a / 2 ^ (1 - s)) := by
    rw [roundAway_eq, ← hrv]
    have hsign : minusp num = true ↔ a / 2 ^ (1 - s) < 0 := by
      rw [minusp_iff, div_lt_iff₀ (two_zpow_pos _), zero_mul, ha, div_lt_iff₀ hd0, zero_mul]
      norm_cast
    split
    · next h => rw [if_pos (hsign.mp h), value_negate]
    · next h => rw [if_neg (mt hsign.mpr h)]
  have hsmall : (roundQuotient (shiftOut digits scale z).2).value.natAbs ≤ 2 ^ digits := by
    have hnonneg : 0 ≤ (roundQuotient (shiftOut digits scale z).2).value := by
      rw [hrv]
      exact Int.floor_nonneg.mpr (by positivity)
    have hlt : (roundQuotient (shiftOut digits scale z).2).value < 2 ^ digits + 1 := by
      rw [hrv, Int.floor_lt, ← hhalf]
      rw [zpow_add_one₀ (by norm_num), zpow_natCast] at hu'
      push_cast
      linarith
    have hle : (roundQuotient (shiftOut digits scale z).2).value ≤ 2 ^ digits := by omega
    zify
    rwa [abs_of_nonneg hnonneg]
  refine ⟨if minusp num then negate (roundQuotient (shiftOut digits scale z).2)
    else roundQuotient (shiftOut digits scale z).2, ?_, ?_, ?_, ?_⟩
  · rw [mantissaAndExponentFromRatio]
    dsimp only
    rw [← hscale, hz, hplace, hs]
    rfl
  · rw [hplace]
    exact hround
  · split
    · exact canonical_negate _
    · exact hrc
  · split
    · rwa [value_negate, Int.natAbs_neg]
    · exact hsmall

theorem ratioToFloat_eq (hn : Canonical num) (hn0 : num.value ≠ 0) (hd : 0 < den.value)
    (ha : a = num.value / den.value) :
    ratioToFloat num den = trapOverflow (toFloat .single (roundDigits 24 a)) := by
  obtain ⟨m, hm, hv, -, -⟩ := mantissaAndExponentFromRatio_spec 24 hn hn0 hd ha
  rw [ratioToFloat, hm, roundDigits, ← hv]
  rfl

end

theorem trapOverflow_finite {d : FloatValue} {q : ℚ} (h : d = .finite q) : trapOverflow d = .ok d := by
  rw [h]
  rfl

theorem bignum_quotient {z : ℤ} (hx : Canonical (.bignum z)) :
    z ≠ 0 ∧ 0 < (makeFixnum 1).value ∧ (z : ℚ) = z / (makeFixnum 1).value := by
  rw [value_makeFixnum (by decide), Int.cast_one, div_one]
  refine ⟨?_, by decide, rfl⟩
  rintro rfl
  exact canonical_bignum.mp hx (by decide)

theorem ratio_quotient {n d : Integer} (hx : (Rational.ratio n d).Reduced) :
    n.value ≠ 0 ∧ 0 < d.value := by
  obtain ⟨-, hd2, hg⟩ := hx
  refine ⟨fun h => ?_, by omega⟩
  rw [h, Int.gcd_zero_left] at hg
  omega

theorem eclToFloat_eq {x : Rational} (hx : x.Canonical) : eclToFloat x = trapOverflow (nearestSingle x) := by
  cases x with
  | integer n =>
    cases n with
    | fixnum n =>
      obtain ⟨z, hz, -⟩ := NumberCompare.toFloat_fixnum (t := .single) n.bounds
      exact (trapOverflow_finite hz).symm
    | bignum z =>
      obtain ⟨hz, hd, hq⟩ := bignum_quotient hx.num
      exact ratioToFloat_eq hx.num hz hd hq
  | ratio n d =>
    obtain ⟨hn, hd⟩ := ratio_quotient hx.reduced
    exact ratioToFloat_eq hx.num hn hd rfl

def IsSingle (q : ℚ) : Prop := (format .single).OnGrid q ∧ |q| < 2 ^ (128 : ℤ)

theorem toFloat_of_isSingle {q : ℚ} (h : IsSingle q) : toFloat .single q = .finite q :=
  toFloat_of_lt (roundUnbounded_eq_self h.1) h.2

theorem isSingle_of_toFloat {q r : ℚ} (h : toFloat .single q = .finite r) : IsSingle r := by
  rw [toFloat, Format.round] at h
  split at h
  · next hlt =>
    obtain rfl := FloatValue.finite.inj h
    exact ⟨onGrid_roundUnbounded q, hlt⟩
  · exact absurd h (by simp)

theorem roundAway_close (q : ℚ) : |q - roundAway q| ≤ 1 / 2 := by
  have hclose (a : ℚ) : |a - ⌊a + 1 / 2⌋| ≤ 1 / 2 := by
    have hl := Int.floor_le (a + 1 / 2)
    have hu := Int.lt_floor_add_one (a + 1 / 2)
    rw [abs_le]
    constructor <;> linarith
  unfold roundAway
  split
  · have hneg := hclose (-q)
    have hflip : q - ((-⌊-q + 1 / 2⌋ : ℤ) : ℚ) = -(-q - ⌊-q + 1 / 2⌋) := by
      push_cast
      ring
    rwa [hflip, abs_neg]
  · exact hclose q

theorem nearest_of_close {q : ℚ} {z : ℤ} (h : |q - z| ≤ 1 / 2) (k : ℤ) : |q - z| ≤ |q - k| := by
  rcases eq_or_ne k z with rfl | hne
  · exact le_rfl
  have hone : (1 : ℚ) ≤ |(k : ℚ) - z| := by exact_mod_cast Int.one_le_abs (sub_ne_zero.mpr hne)
  have htri := abs_sub_le (k : ℚ) q z
  rw [abs_sub_comm (k : ℚ) q] at htri
  linarith

theorem le_natAbs_roundAway {q : ℚ} {k : ℕ} (h : (k : ℚ) - 1 / 2 ≤ |q|) :
    k ≤ (roundAway q).natAbs := by
  have hfloor : (k : ℤ) ≤ ⌊|q| + 1 / 2⌋ := Int.le_floor.mpr (by push_cast; linarith)
  rw [roundAway_eq]
  split <;> omega

structure MantissaOf (a : ℚ) (digits : ℕ) (m e : ℤ) : Prop where
  long : (2 : ℚ) ^ (digits - 1 : ℤ) ≤ |(m : ℚ)|
  short : |(m : ℚ)| ≤ 2 ^ digits
  half : |a - m * 2 ^ e| ≤ 2 ^ (e - 1)
  nearest : ∀ k : ℤ, |a / 2 ^ e - m| ≤ |a / 2 ^ e - k|
  /-- Where the exponent is not too small the float is the mantissa at its place. -/
  exact : ∀ F : Format, F.precision = digits → F.minExponent ≤ e →
    F.roundUnbounded (m * 2 ^ e) = m * 2 ^ e

theorem long_roundAway {a : ℚ} (digits : ℕ) (ha : a ≠ 0) : (2 : ℚ) ^ (digits - 1 : ℤ) ≤
    |(roundAway (a / 2 ^ (exponent a - digits)) : ℚ)| := by
  have hscaled : (2 : ℚ) ^ (digits - 1 : ℤ) ≤ |a / 2 ^ (exponent a - digits)| := by
    rw [abs_div, abs_of_pos (two_zpow_pos _), le_div_iff₀ (two_zpow_pos _),
      ← zpow_add₀ (by norm_num), show (digits - 1 : ℤ) + (exponent a - digits) = exponent a - 1 by ring]
    exact (exponent_bounds ha).1
  rw [← Int.cast_abs, ← Nat.cast_natAbs]
  cases digits with
  | zero =>
    have hone := le_natAbs_roundAway (k := 1) (q := a / 2 ^ (exponent a - (0 : ℕ)))
      (by norm_num at hscaled ⊢; linarith)
    have hone : (1 : ℚ) ≤ (roundAway (a / 2 ^ (exponent a - (0 : ℕ)))).natAbs := by
      exact_mod_cast hone
    norm_num at hone ⊢
    linarith
  | succ digits =>
    rw [Nat.cast_succ, add_sub_cancel_right, zpow_natCast] at hscaled ⊢
    exact_mod_cast le_natAbs_roundAway (k := 2 ^ digits) (by push_cast; linarith)

theorem onGrid_mantissa {F : Format} {m e : ℤ} (hm : m.natAbs ≤ 2 ^ F.precision)
    (he : F.minExponent ≤ e) : F.OnGrid (m * 2 ^ e) := by
  rcases hm.lt_or_eq with hlt | heq
  · exact ⟨m, e, hlt, he, rfl⟩
  · -- the next power of two, whose mantissa is one
    have hone : (1 : ℤ).natAbs < 2 ^ F.precision := Nat.one_lt_two_pow (by have := F.precision_pos; omega)
    have hgrid : F.OnGrid (2 ^ F.precision * 2 ^ e) :=
      ⟨1, e + F.precision, hone, by omega, by
        rw [zpow_add₀ (by norm_num), zpow_natCast]
        ring⟩
    rcases Int.natAbs_eq m with h | h
    · rw [h, heq]
      exact_mod_cast hgrid
    · rw [h, heq]
      have hneg := hgrid.neg
      rw [← neg_mul] at hneg
      exact_mod_cast hneg

theorem mantissaOf_roundAway {a : ℚ} (digits : ℕ) (ha : a ≠ 0)
    (hshort : (roundAway (a / 2 ^ (exponent a - digits))).natAbs ≤ 2 ^ digits) :
    MantissaOf a digits (roundAway (a / 2 ^ (exponent a - digits))) (exponent a - digits) := by
  have hlong := long_roundAway digits ha
  obtain ⟨e, he⟩ : ∃ e, e = exponent a - digits := ⟨_, rfl⟩
  rw [← he] at hshort hlong ⊢
  have hp := two_zpow_pos e
  have hclose := roundAway_close (a / 2 ^ e)
  refine ⟨hlong, ?_, ?_, nearest_of_close hclose, ?_⟩
  · rw [← Int.cast_abs, ← Nat.cast_natAbs]
    exact_mod_cast hshort
  · have hscale : a - roundAway (a / 2 ^ e) * 2 ^ e = (a / 2 ^ e - roundAway (a / 2 ^ e)) * 2 ^ e := by
      rw [sub_mul, div_mul_cancel₀ a hp.ne']
    rw [hscale, abs_mul, abs_of_pos hp, zpow_sub_one₀ (by norm_num), mul_comm, ← one_div]
    exact mul_le_mul_of_nonneg_left hclose hp.le
  · intro F hF hmin
    exact roundUnbounded_eq_self (onGrid_mantissa (hF ▸ hshort) hmin)

end RatioFloats
