import Ecl.Equalp
import Ecl.FloatFormats
import Ecl.Quotients

/-! Floats as the rationals they denote, and the conversions of src/c/number.d between
floats and rationals. Conversions and library functions that do not round are the identity. -/
namespace FloatNumbers

open Integers CanonicalIntegers LogicalOperations Rationals RationalCompare Quotients FloatFormats
open Objects (FloatType)
open Equalp (FloatValue floatValue significand bias)

def format : FloatType → Format
  | .single => ⟨24, -149, 128, by decide⟩
  | .double => ⟨53, -1074, 1024, by decide⟩
  | .long => ⟨64, -16445, 16384, by decide⟩

/-- C's < on floats of any formats. -/
def less : FloatValue → FloatValue → Bool
  | .finite p, .finite q => p < q
  | .finite _, .infinity s => !s
  | .infinity s, .finite _ => s
  | .infinity s, .infinity s' => s && !s'
  | _, _ => false

/-- Conversion to a float of a rational that C computes with, to nearest. -/
def toFloat (t : FloatType) (q : ℚ) : FloatValue :=
  ((format t).round q).elim (.infinity (q < 0)) .finite

def truncate (q : ℚ) : ℤ := q.num.tdiv q.den

/-- A float cast to cl_fixnum; outside of the range the processor gives the least one. -/
def castFixnum : FloatValue → ℤ
  | .finite q => if -2 ^ 63 ≤ truncate q ∧ truncate q < 2 ^ 63 then truncate q else -2 ^ 63
  | _ => -2 ^ 63

def exponent (q : ℚ) : ℤ := Int.log 2 |q| + 1
def mantissa (q : ℚ) : ℚ := q / 2 ^ exponent q

def doubleToInteger (d : ℚ) : Integer :=
  if d < 2 ^ 61 ∧ d ≥ -2 ^ 61 then makeFixnum (truncate d) else .bignum (truncate d)

/-- The calls nest no deeper than three, for a value of more than 64 bits. -/
def longDoubleToInteger : ℕ → ℚ → Integer
  | 0, _ => makeFixnum 0
  | depth + 1, d0 =>
    if d0 < 2 ^ 61 ∧ d0 ≥ -2 ^ 61 then makeFixnum (truncate d0)
    else if exponent d0 > 64 then
      ash (longDoubleToInteger depth (mantissa d0 * 2 ^ 64)) (exponent d0 - 64)
    else
      let d : ℚ := mantissa d0 * 2 ^ 61
      let newe := exponent d0 - 61
      let o := ash (longDoubleToInteger depth (⌊d⌋ : ℤ)) newe
      let d2 : ℚ := (d - (⌊d⌋ : ℤ)) * 2 ^ newe
      if d2 ≠ 0 then plus o (longDoubleToInteger depth d2) else o

/-- The loop of ecl_expt_generic. -/
def exptLoop (z x : Integer) (y : ℕ) : Integer :=
  if h : y / 2 = 0 then (if y % 2 = 1 then times z x else z)
  else exptLoop (if y % 2 = 1 then times z x else z) (times x x) (y / 2)
termination_by y
decreasing_by omega

/-- ecl_expt of an integer to a fixnum; neither is zero. -/
def expt (x : Integer) (y : ℤ) : Except ArithmeticError Rational :=
  if y < 0 then
    (Rational.integer (makeFixnum 1)).divide (.integer (exptLoop (makeFixnum 1) x y.natAbs))
  else .ok (.integer (exptLoop (makeFixnum 1) x y.natAbs))

/-- DBL_MANT_DIG, also for a single float, and LDBL_MANT_DIG. -/
def mantDig : FloatType → ℕ
  | .single => 53
  | .double => 53
  | .long => 64

def toInteger : FloatType → ℚ → Integer
  | .long => longDoubleToInteger 3
  | _ => doubleToInteger

def clRational (t : FloatType) : FloatValue → Except ArithmeticError Rational
  | .nan => .error .floatingPointInvalidOperation
  | .infinity _ => .error .floatingPointOverflow
  | .finite q =>
    if q = 0 then .ok (.integer (makeFixnum 0))
    else do
      let e := exponent q - mantDig t
      let x := toInteger t (mantissa q * 2 ^ mantDig t)
      if e ≠ 0 then
        let p ← expt (makeFixnum 2) e
        p.times (.integer x)
      else return .integer x

theorem toFloat_of_lt {t : FloatType} {q r : ℚ} (h : (format t).roundUnbounded q = r)
    (hlt : |r| < 2 ^ (format t).maxExponent) : toFloat t q = .finite r := by
  rw [toFloat, Format.round, h, if_pos hlt, Option.elim_some]

theorem truncate_intCast (z : ℤ) : truncate (z : ℚ) = z := by
  simp [truncate]

theorem significand_lt (t : FloatType) (bits : ℕ) : significand t bits < 2 ^ (format t).precision := by
  cases t with
  | long => exact Nat.mod_lt _ (by decide)
  | single =>
    have h : FloatType.single.fraction bits < 2 ^ 23 := Nat.mod_lt _ (by decide)
    simp only [significand, format, FloatType.fracBits]
    split <;> omega
  | double =>
    have h : FloatType.double.fraction bits < 2 ^ 52 := Nat.mod_lt _ (by decide)
    simp only [significand, format, FloatType.fracBits]
    split <;> omega

theorem mkRat_eq (m e : ℤ) :
    (if 0 ≤ e then mkRat (m * 2 ^ e.toNat) 1 else mkRat m (2 ^ (-e).toNat)) = m * (2 : ℚ) ^ e := by
  split
  · next h =>
    rw [Rat.mkRat_eq_div]
    have he : e = (e.toNat : ℤ) := by omega
    nth_rewrite 2 [he]
    rw [zpow_natCast]
    simp
  · next h =>
    rw [Rat.mkRat_eq_div]
    have he : e = -((-e).toNat : ℤ) := by omega
    nth_rewrite 2 [he]
    rw [zpow_neg, zpow_natCast]
    push_cast
    rfl

theorem onGrid_floatValue {t : FloatType} {bits : ℕ} {q : ℚ} (h : floatValue t bits = .finite q) :
    (format t).OnGrid q := by
  unfold floatValue at h
  split at h
  · split at h <;> simp at h
  · have hq := FloatValue.finite.inj h
    rw [mkRat_eq] at hq
    refine ⟨_, _, ?_, ?_, hq.symm⟩
    · have hs := significand_lt t bits
      split
      · rwa [Int.natAbs_neg, Int.natAbs_natCast]
      · rwa [Int.natAbs_natCast]
    · cases t <;> simp only [format, bias, FloatType.fracBits] <;> omega

theorem exponent_bounds {q : ℚ} (h : q ≠ 0) :
    2 ^ (exponent q - 1) ≤ |q| ∧ |q| < 2 ^ exponent q := by
  constructor
  · rw [exponent, add_sub_cancel_right]
    exact_mod_cast Int.zpow_log_le_self (b := 2) (by norm_num) (abs_pos.mpr h)
  · exact_mod_cast Int.lt_zpow_succ_log_self (b := 2) (by norm_num) |q|

theorem mantissa_mul (q : ℚ) (k : ℤ) : mantissa q * 2 ^ k = q * 2 ^ (k - exponent q) := by
  rw [mantissa, div_mul_eq_mul_div, mul_div_assoc, ← zpow_sub₀ (by norm_num)]

theorem exponent_eq {q : ℚ} {e : ℤ} (hl : 2 ^ (e - 1) ≤ |q|) (hu : |q| < 2 ^ e) :
    exponent q = e := by
  have hpos : 0 < |q| := lt_of_lt_of_le (two_zpow_pos _) hl
  obtain ⟨h1, h2⟩ := exponent_bounds (abs_pos.mp hpos)
  have ha : e - 1 < exponent q := (zpow_lt_zpow_iff_right₀ (by norm_num)).mp (lt_of_le_of_lt hl h2)
  have hb : exponent q - 1 < e := (zpow_lt_zpow_iff_right₀ (by norm_num)).mp (lt_of_le_of_lt h1 hu)
  omega

theorem scaled_mantissa {t : FloatType} {q : ℚ} (hq : q ≠ 0) (h : (format t).OnGrid q) :
    ∃ z : ℤ, mantissa q * 2 ^ mantDig t = z ∧ 2 ^ (mantDig t - 1) ≤ z.natAbs ∧
      z.natAbs < 2 ^ mantDig t ∧ q = z * 2 ^ (exponent q - mantDig t) := by
  obtain ⟨m, e, hm, -, hqe⟩ := h
  obtain ⟨hl, hu⟩ := exponent_bounds hq
  have hprec : (format t).precision ≤ mantDig t := by cases t <;> decide
  have hE : exponent q - 1 < mantDig t + e := by
    have hlt : |q| < 2 ^ (mantDig t + e : ℤ) := by
      have hmq : |(m : ℚ)| < 2 ^ (mantDig t : ℤ) := by
        rw [zpow_natCast, ← Int.cast_abs, Int.abs_eq_natAbs]
        exact_mod_cast lt_of_lt_of_le hm (Nat.pow_le_pow_right (by decide) hprec)
      rw [hqe, abs_mul, abs_of_pos (two_zpow_pos e), zpow_add₀ (by norm_num)]
      exact mul_lt_mul_of_pos_right hmq (two_zpow_pos e)
    exact (zpow_lt_zpow_iff_right₀ (by norm_num)).mp (lt_of_le_of_lt hl hlt)
  have hdig : 1 ≤ mantDig t := by cases t <;> decide
  have hz : mantissa q * 2 ^ (mantDig t : ℤ) =
      ((m * 2 ^ (mantDig t + e - exponent q).toNat : ℤ) : ℚ) := by
    rw [mantissa_mul]
    nth_rewrite 1 [hqe]
    rw [mul_assoc, ← zpow_add₀ (by norm_num)]
    push_cast
    rw [← zpow_natCast]
    congr 2
    omega
  have habs : (((m * 2 ^ (mantDig t + e - exponent q).toNat : ℤ).natAbs : ℕ) : ℚ) =
      |q| * 2 ^ (mantDig t - exponent q) := by
    rw [Nat.cast_natAbs, Int.cast_abs, ← hz, mantissa_mul, abs_mul, abs_of_pos (two_zpow_pos _)]
  refine ⟨m * 2 ^ (mantDig t + e - exponent q).toNat, by rw [← hz, zpow_natCast], ?_, ?_, ?_⟩
  · have hle : (2 : ℚ) ^ (mantDig t - 1 : ℤ) ≤ |q| * 2 ^ (mantDig t - exponent q) := by
      calc (2 : ℚ) ^ (mantDig t - 1 : ℤ)
          = 2 ^ (exponent q - 1) * 2 ^ (mantDig t - exponent q) := by
            rw [← zpow_add₀ (by norm_num)]
            congr 1
            omega
        _ ≤ |q| * 2 ^ (mantDig t - exponent q) :=
            mul_le_mul_of_nonneg_right hl (two_zpow_pos _).le
    rw [← habs, show (mantDig t - 1 : ℤ) = ((mantDig t - 1 : ℕ) : ℤ) by omega, zpow_natCast] at hle
    exact_mod_cast hle
  · have hlt : |q| * 2 ^ (mantDig t - exponent q) < (2 : ℚ) ^ (mantDig t : ℤ) := by
      calc |q| * 2 ^ (mantDig t - exponent q)
          < 2 ^ exponent q * 2 ^ (mantDig t - exponent q) :=
            mul_lt_mul_of_pos_right hu (two_zpow_pos _)
        _ = (2 : ℚ) ^ (mantDig t : ℤ) := by
            rw [← zpow_add₀ (by norm_num)]
            congr 1
            omega
    rw [← habs, zpow_natCast] at hlt
    exact_mod_cast hlt
  · rw [← hz, mantissa_mul, mul_assoc, ← zpow_add₀ (by norm_num)]
    simp

theorem doubleToInteger_intCast {z : ℤ} (h : FitsFixnum z) :
    (doubleToInteger z).value = z ∧ Canonical (doubleToInteger z) := by
  obtain ⟨hl, hu⟩ := h
  have hrange : (z : ℚ) < 2 ^ 61 ∧ (z : ℚ) ≥ -2 ^ 61 := by
    simp only [mostNegativeFixnum, mostPositiveFixnum] at hl hu
    exact ⟨by exact_mod_cast (show z < 2 ^ 61 by omega), by exact_mod_cast (show z ≥ -2 ^ 61 by omega)⟩
  rw [doubleToInteger, if_pos hrange, truncate_intCast]
  exact ⟨value_makeFixnum ⟨hl, hu⟩, canonical_makeFixnum z⟩

theorem longDoubleToInteger_small {z : ℤ} (depth : ℕ) (h : FitsFixnum z) :
    longDoubleToInteger (depth + 1) (z : ℚ) = makeFixnum z := by
  obtain ⟨hl, hu⟩ := h
  have hrange : (z : ℚ) < 2 ^ 61 ∧ (z : ℚ) ≥ -2 ^ 61 := by
    simp only [mostNegativeFixnum, mostPositiveFixnum] at hl hu
    exact ⟨by exact_mod_cast (show z < 2 ^ 61 by omega), by exact_mod_cast (show z ≥ -2 ^ 61 by omega)⟩
  rw [longDoubleToInteger, if_pos hrange, truncate_intCast]

/-- An integer of 64 bits is read in two pieces: the upper 61 bits and the others. -/
theorem longDoubleToInteger_wide {z : ℤ} (depth : ℕ) (hl : 2 ^ 63 ≤ z.natAbs) (hu : z.natAbs < 2 ^ 64) :
    (longDoubleToInteger (depth + 2) (z : ℚ)).value = z ∧
      Canonical (longDoubleToInteger (depth + 2) (z : ℚ)) := by
  have hexp : exponent z = 64 := by
    apply exponent_eq <;> rw [← Int.cast_abs, Int.abs_eq_natAbs]
    · change (2 : ℚ) ^ (63 : ℕ) ≤ _
      exact_mod_cast hl
    · exact_mod_cast hu
  have hout : ¬ ((z : ℚ) < 2 ^ 61 ∧ (z : ℚ) ≥ -2 ^ 61) := by
    rintro ⟨h1, h2⟩
    have h1' : z < 2 ^ 61 := by exact_mod_cast h1
    have h2' : z ≥ -2 ^ 61 := by exact_mod_cast h2
    omega
  have hd : mantissa z * 2 ^ 61 = (z : ℚ) / 8 := by
    rw [mantissa, hexp]
    norm_num
    ring
  have hfloor : ⌊(z : ℚ) / 8⌋ = z / 8 := by
    have := Rat.floor_intCast_div_natCast z 8
    exact_mod_cast this
  have hrest : ((z : ℚ) / 8 - (z / 8 : ℤ)) * 2 ^ (64 - 61 : ℤ) = ((z % 8 : ℤ) : ℚ) := by
    have hmod : (z : ℚ) = 8 * ((z / 8 : ℤ) : ℚ) + ((z % 8 : ℤ) : ℚ) := by
      exact_mod_cast (Int.mul_ediv_add_emod z 8).symm
    nth_rewrite 1 [hmod]
    norm_num
    ring
  have hupper : FitsFixnum (z / 8) := by
    simp only [fits_iff]
    omega
  have hlower : FitsFixnum (z % 8) := by
    simp only [fits_iff]
    omega
  have hash : (ash (makeFixnum (z / 8)) (64 - 61)).value = z / 8 * 8 := by
    rw [value_ash, value_makeFixnum hupper]
    rfl
  rw [longDoubleToInteger, if_neg hout, hexp, if_neg (by decide)]
  simp only [hd, hfloor, hrest, longDoubleToInteger_small depth hupper]
  split
  · rw [longDoubleToInteger_small depth hlower, value_plus, hash, value_makeFixnum hlower]
    exact ⟨by omega, canonical_plus _ _⟩
  · next h =>
    have h0 : z % 8 = 0 := by exact_mod_cast not_not.mp h
    rw [hash]
    exact ⟨by omega, canonical_ash (canonical_makeFixnum _) _⟩

theorem toInteger_intCast {t : FloatType} {z : ℤ} (hl : 2 ^ (mantDig t - 1) ≤ z.natAbs)
    (hu : z.natAbs < 2 ^ mantDig t) : (toInteger t z).value = z ∧ Canonical (toInteger t z) := by
  have hfits (h : z.natAbs < 2 ^ 53) : FitsFixnum z := by
    simp only [fits_iff]
    omega
  cases t with
  | single | double => exact doubleToInteger_intCast (hfits hu)
  | long => exact longDoubleToInteger_wide 1 hl hu

theorem canonical_times_of_pos {x y : Integer} (hx : Canonical x) (hy : Canonical y)
    (hx0 : 0 < x.value) (hy0 : 0 < y.value) : Canonical (times x y) ∧ 0 < (times x y).value := by
  have hpos : 0 < x.value * y.value := mul_pos hx0 hy0
  constructor
  · apply canonical_times_of_ne hx hy
    omega
  · rwa [value_times]

theorem exptLoop_spec {z x : Integer} (y : ℕ) (hz : Canonical z) (hx : Canonical x)
    (hz0 : 0 < z.value) (hx0 : 0 < x.value) :
    (exptLoop z x y).value = z.value * x.value ^ y ∧ Canonical (exptLoop z x y) := by
  induction y using Nat.strong_induction_on generalizing z x with
  | _ y ih =>
    obtain ⟨hzx, hzx0⟩ := canonical_times_of_pos hz hx hz0 hx0
    rw [exptLoop]
    split
    · next h =>
      split
      · next h1 =>
        obtain rfl : y = 1 := by omega
        exact ⟨by rw [value_times, pow_one], hzx⟩
      · next h1 =>
        obtain rfl : y = 0 := by omega
        exact ⟨by rw [pow_zero, mul_one], hz⟩
    · next h =>
      obtain ⟨hxx, hxx0⟩ := canonical_times_of_pos hx hx hx0 hx0
      have hlt : y / 2 < y := by omega
      split
      · next h1 =>
        obtain ⟨hv, hc⟩ := ih (y / 2) hlt hzx hxx hzx0 hxx0
        refine ⟨?_, hc⟩
        have hy : y = 2 * (y / 2) + 1 := by omega
        rw [hv, value_times, value_times]
        nth_rewrite 2 [hy]
        rw [pow_succ, pow_mul]
        ring
      · next h1 =>
        obtain ⟨hv, hc⟩ := ih (y / 2) hlt hz hxx hz0 hxx0
        refine ⟨?_, hc⟩
        have hy : y = 2 * (y / 2) := by omega
        rw [hv, value_times]
        nth_rewrite 2 [hy]
        rw [pow_mul]
        ring

theorem expt_two (e : ℤ) : ∃ p, expt (makeFixnum 2) e = .ok p ∧ p.value = 2 ^ e ∧ p.Canonical := by
  have hone : (makeFixnum 1).value = 1 := value_makeFixnum (by decide)
  have htwo : (makeFixnum 2).value = 2 := value_makeFixnum (by decide)
  obtain ⟨hv, hc⟩ := exptLoop_spec e.natAbs (canonical_makeFixnum 1) (canonical_makeFixnum 2)
    (by rw [hone]; decide) (by rw [htwo]; decide)
  rw [hone, htwo, one_mul] at hv
  unfold expt
  split
  · next h =>
    have hval : (Rational.integer (exptLoop (makeFixnum 1) (makeFixnum 2) e.natAbs)).value = 2 ^ e.natAbs := by
      rw [Rational.value, hv]
      push_cast
      rfl
    obtain ⟨p, hp, hpv, -, hpc⟩ := divide_spec (x := .integer (makeFixnum 1))
      (y := .integer (exptLoop (makeFixnum 1) (makeFixnum 2) e.natAbs))
      ⟨canonical_makeFixnum 1, trivial⟩ ⟨hc, trivial⟩ (by rw [hval]; positivity)
    refine ⟨p, hp, ?_, hpc _ _ rfl rfl⟩
    have he : e = -(e.natAbs : ℤ) := by omega
    rw [hpv, hval, Rational.value, hone]
    nth_rewrite 2 [he]
    rw [zpow_neg, zpow_natCast]
    simp
  · next h =>
    refine ⟨_, rfl, ?_, ⟨hc, trivial⟩⟩
    have he : e = (e.natAbs : ℤ) := by omega
    rw [Rational.value, hv]
    nth_rewrite 2 [he]
    rw [zpow_natCast]
    push_cast
    rfl

theorem times_integer {p : Rational} {x : Integer} (hp : p.Canonical) (hx : Canonical x)
    (h1 : x.value ≠ -1) (h2 : x.value ≠ 2 ^ 61) :
    ∃ r, p.times (.integer x) = .ok r ∧ r.value = p.value * x.value ∧ r.Canonical := by
  have hcan (n : Integer) (hn : Canonical n) : Canonical (times n x) := by
    apply canonical_times hn hx
    rintro (⟨-, h⟩ | ⟨-, h⟩)
    · exact h1 h
    · exact h2 h
  cases p with
  | integer n => exact ⟨_, rfl, by simp [Rational.value, value_times], hcan n hp.num, trivial⟩
  | ratio n d =>
    obtain ⟨hd, hd2, -⟩ := hp.reduced
    obtain ⟨r, hr, hv, -, hc⟩ := makeRatio_spec (times n x) (by omega) (fun _ => hd)
    refine ⟨r, hr, ?_, hc (hcan n hp.num)⟩
    rw [hv, value_times, Rational.value]
    push_cast
    exact mul_div_right_comm _ _ _

/-- cl_rational is exact, and makes the canonical rational of a finite float. -/
theorem clRational_spec {t : FloatType} {q : ℚ} (h : (format t).OnGrid q) :
    ∃ r, clRational t (.finite q) = .ok r ∧ r.value = q ∧ r.Canonical := by
  by_cases hq : q = 0
  · refine ⟨.integer (makeFixnum 0), ?_, ?_, canonical_makeFixnum 0, trivial⟩
    · rw [clRational, if_pos hq]
    · rw [hq]
      rw [Rational.value, value_makeFixnum (by decide), Int.cast_zero]
  · obtain ⟨z, hz, hl, hu, hqz⟩ := scaled_mantissa hq h
    obtain ⟨hv, hc⟩ := toInteger_intCast hl hu
    have h1 : z ≠ -1 ∧ z ≠ 2 ^ 61 := by
      cases t <;> simp only [mantDig] at hl hu <;> omega
    rw [clRational, if_neg hq, hz]
    by_cases he : exponent q - mantDig t = 0
    · refine ⟨.integer (toInteger t z), ?_, ?_, hc, trivial⟩
      · simp only [he, ne_eq, not_true_eq_false, if_false]
        rfl
      · rw [Rational.value, hv]
        rwa [he, zpow_zero, mul_one, eq_comm] at hqz
    · obtain ⟨p, hp, hpv, hpc⟩ := expt_two (exponent q - mantDig t)
      obtain ⟨r, hr, hrv, hrc⟩ := times_integer hpc hc (by rw [hv]; exact h1.1) (by rw [hv]; exact h1.2)
      refine ⟨r, ?_, ?_, hrc⟩
      · simp only [if_pos he, hp]
        exact hr
      · rw [hrv, hpv, hv, mul_comm]
        exact hqz.symm

end FloatNumbers
