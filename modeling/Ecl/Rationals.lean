import Ecl.CanonicalIntegers
import Mathlib.Tactic.FieldSimp

/-! Ratios of src/c/number.d and the rational cases of the operations in src/c/numbers. -/
namespace Rationals

open Integers CanonicalIntegers

inductive Rational where
  | integer (n : Integer)
  | ratio (num den : Integer)
  deriving DecidableEq

def Rational.value : Rational → ℚ
  | .integer n => n.value
  | .ratio num den => num.value / den.value

/-- A ratio in lowest terms; the denominator is never wrongly a bignum. -/
def Rational.Reduced : Rational → Prop
  | .integer _ => True
  | .ratio num den => Canonical den ∧ 2 ≤ den.value ∧ Int.gcd num.value den.value = 1

def Rational.CanonicalNum : Rational → Prop
  | .integer n => Canonical n
  | .ratio num _ => Canonical num

structure Rational.Canonical (x : Rational) : Prop where
  num : x.CanonicalNum
  reduced : x.Reduced

def minusp : Integer → Bool
  | .fixnum n => n.toInt < 0
  | .bignum z => z < 0

def plusp : Integer → Bool
  | .fixnum n => 0 < n.toInt
  | .bignum z => 0 < z

def signUp (num den : Integer) : Integer × Integer :=
  if minusp den then (negate num, negate den) else (num, den)

def lowestTerms (num den : Integer) : Except ArithmeticError (Integer × Integer) :=
  if gcd num den ≠ makeFixnum 1 then do
    let n ← integerDivide num (gcd num den)
    let d ← integerDivide den (gcd num den)
    return (n, d)
  else return (num, den)

def makeRatio (num den : Integer) : Except ArithmeticError Rational :=
  if den = makeFixnum 0 then .error .divisionByZero
  else if num = makeFixnum 0 ∨ den = makeFixnum 1 then .ok (.integer num)
  else do
    let (num, den) ← lowestTerms (signUp num den).1 (signUp num den).2
    if den = makeFixnum 1 then return .integer num
    else if den = makeFixnum (-1) then return .integer (negate num)
    else return .ratio num den

def Rational.times : Rational → Rational → Except ArithmeticError Rational
  | .integer x, .integer y => .ok (.integer (Integers.times x y))
  | .integer x, .ratio n d => makeRatio (Integers.times x n) d
  | .ratio n d, .integer y => makeRatio (Integers.times n y) d
  | .ratio n d, .ratio n' d' => makeRatio (Integers.times n n') (Integers.times d d')

def Rational.minus : Rational → Rational → Except ArithmeticError Rational
  | .integer x, .integer y => .ok (.integer (Integers.minus x y))
  | .integer x, .ratio n d => makeRatio (Integers.minus (Integers.times x d) n) d
  | .ratio n d, .integer y => makeRatio (Integers.minus n (Integers.times d y)) d
  | .ratio n d, .ratio n' d' =>
    makeRatio (Integers.minus (Integers.times n d') (Integers.times d n')) (Integers.times d d')

def Rational.divide : Rational → Rational → Except ArithmeticError Rational
  | .integer x, .integer y => makeRatio x y
  | .integer x, .ratio n d => makeRatio (Integers.times x d) n
  | .ratio n d, .integer y => makeRatio n (Integers.times d y)
  | .ratio n d, .ratio n' d' => makeRatio (Integers.times n d') (Integers.times d n')

def Rational.minusp : Rational → Bool
  | .integer n => Rationals.minusp n
  | .ratio n _ => Rationals.minusp n

def Rational.plusp : Rational → Bool
  | .integer n => Rationals.plusp n
  | .ratio n _ => Rationals.plusp n

theorem minusp_iff (x : Integer) : minusp x = true ↔ x.value < 0 := by
  cases x <;> simp [minusp]

theorem plusp_iff (x : Integer) : plusp x = true ↔ 0 < x.value := by
  cases x <;> simp [plusp]

theorem eq_makeFixnum {x : Integer} {i : ℤ} (hx : Canonical x) (hi : FitsFixnum i) :
    x = makeFixnum i ↔ x.value = i := by
  constructor
  · rintro rfl
    exact value_makeFixnum hi
  · intro h
    obtain ⟨n, rfl⟩ := canonical_of_fits hx (h ▸ hi)
    rw [value_fixnum] at h
    rw [makeFixnum, ← h, BitVec.ofInt_toInt]

theorem value_of_eq_makeFixnum {x : Integer} {i : ℤ} (hi : FitsFixnum i) (h : x = makeFixnum i) :
    x.value = i := by
  rw [h]
  exact value_makeFixnum hi

theorem canonical_times_of_ne {x y : Integer} (hx : Canonical x) (hy : Canonical y)
    (h : x.value * y.value ≠ -2 ^ 61) : Canonical (times x y) := by
  apply canonical_times hx hy
  rintro (⟨h1, h2⟩ | ⟨h1, h2⟩) <;> exact h (by rw [h1, h2]; decide)

section
variable (num : Integer) {den : Integer}

theorem signUp_spec (h0 : den.value ≠ 0) :
    ((signUp num den).1.value : ℚ) / (signUp num den).2.value = num.value / den.value ∧
      0 < (signUp num den).2.value ∧
      ((0 < den.value → Canonical den) → Canonical (signUp num den).2) ∧
      (Canonical num → Canonical (signUp num den).1) := by
  unfold signUp
  split
  · next h =>
    rw [minusp_iff] at h
    refine ⟨?_, ?_, fun _ => canonical_negate den, fun _ => canonical_negate num⟩
    · simp only [value_negate]
      push_cast
      exact neg_div_neg_eq _ _
    · simp only [value_negate]
      omega
  · next h =>
    rw [minusp_iff] at h
    have hpos : 0 < den.value := by omega
    exact ⟨rfl, hpos, fun hd => hd hpos, id⟩

theorem lowestTerms_spec (hpos : 0 < den.value) : ∃ n d, lowestTerms num den = .ok (n, d) ∧
    (n.value : ℚ) / d.value = num.value / den.value ∧ 0 < d.value ∧
    Int.gcd n.value d.value = 1 ∧ (Canonical den → Canonical d) ∧
    (Canonical num → Canonical n) := by
  have hgpos : 0 < Int.gcd num.value den.value := Int.gcd_pos_of_ne_zero_right _ (by omega)
  have hgv : (gcd num den).value = Int.gcd num.value den.value := value_gcd num den
  unfold lowestTerms
  split
  · have hg0 : (gcd num den).value ≠ 0 := by rw [hgv]; omega
    have hgm (z : ℤ) : ¬ (z = mostNegativeFixnum ∧ (gcd num den).value = -1) := by
      rw [hgv]
      omega
    obtain ⟨n, hn, hnv, hnc⟩ := correct_integerDivide hg0 (hgm num.value)
    obtain ⟨d, hd, hdv, hdc⟩ := correct_integerDivide hg0 (hgm den.value)
    rw [hgv, Int.tdiv_eq_ediv_of_dvd (Int.gcd_dvd_left ..)] at hnv
    rw [hgv, Int.tdiv_eq_ediv_of_dvd (Int.gcd_dvd_right ..)] at hdv
    refine ⟨n, d, by rw [hn, hd]; rfl, ?_, ?_, ?_, fun _ => hdc, fun _ => hnc⟩
    · rw [hnv, hdv]
      have hgq : ((Int.gcd num.value den.value : ℕ) : ℚ) ≠ 0 := by positivity
      rw [Int.cast_div (Int.gcd_dvd_left ..) (by exact_mod_cast hgq),
        Int.cast_div (Int.gcd_dvd_right ..) (by exact_mod_cast hgq)]
      exact div_div_div_cancel_right₀ (by exact_mod_cast hgq) _ _
    · rw [hdv]
      exact Int.ediv_pos_of_pos_of_dvd hpos (by positivity) (Int.gcd_dvd_right ..)
    · rw [hnv, hdv]
      exact Int.gcd_ediv_gcd_ediv_gcd hgpos
  · next h =>
    have h1 : (gcd num den).value = 1 :=
      value_of_eq_makeFixnum (by decide) (not_not.mp h)
    rw [hgv] at h1
    exact ⟨num, den, rfl, rfl, hpos, by exact_mod_cast h1, id, id⟩

/-- ecl_make_ratio divides exactly; only a numerator that is not canonical survives. -/
theorem makeRatio_spec (h0 : den.value ≠ 0) (hden : 0 < den.value → Canonical den) :
    ∃ r, makeRatio num den = .ok r ∧ r.value = num.value / den.value ∧ r.Reduced ∧
      (Canonical num → r.Canonical) := by
  unfold makeRatio
  rw [if_neg (fun h => h0 (value_of_eq_makeFixnum (by decide) h))]
  split
  · next h =>
    refine ⟨_, rfl, ?_, trivial, fun hn => ⟨hn, trivial⟩⟩
    rcases h with h | h
    · have hz : num.value = 0 := value_of_eq_makeFixnum (by decide) h
      simp [Rational.value, hz]
    · have hz : den.value = 1 := value_of_eq_makeFixnum (by decide) h
      simp [Rational.value, hz]
  · obtain ⟨hsv, hspos, hsd, hsn⟩ := signUp_spec num h0
    obtain ⟨n, d, hl, hlv, hlpos, hgcd, hld, hln⟩ := lowestTerms_spec (signUp num den).1 hspos
    have hdc : Canonical d := hld (hsd hden)
    have hv : (n.value : ℚ) / d.value = num.value / den.value := hlv.trans hsv
    rw [hl]
    by_cases h1 : d = makeFixnum 1
    · have hd1 : d.value = 1 := value_of_eq_makeFixnum (by decide) h1
      refine ⟨.integer n, if_pos h1, ?_, trivial, fun hn => ⟨hln (hsn hn), trivial⟩⟩
      rw [← hv, hd1]
      simp [Rational.value]
    · have hm1 : d ≠ makeFixnum (-1) := by
        intro h
        have := value_of_eq_makeFixnum (by decide) h
        omega
      have hd2 : 2 ≤ d.value := by
        have : d.value ≠ 1 := fun h => h1 ((eq_makeFixnum hdc (by decide)).mpr h)
        omega
      exact ⟨.ratio n d, (if_neg h1).trans (if_neg hm1), hv, ⟨hdc, hd2, hgcd⟩,
        fun hn => ⟨hln (hsn hn), hdc, hd2, hgcd⟩⟩

end

theorem value_pos_of_two_le {d : Integer} (h : 2 ≤ d.value) : 0 < d.value := by omega

theorem times_ne_zero {d m : Integer} (hd : d.value ≠ 0) (hm : m.value ≠ 0) :
    (times d m).value ≠ 0 := by
  rw [value_times]
  exact mul_ne_zero hd hm

theorem num_ne_zero {m e : Integer} (h : (Rational.ratio m e).value ≠ 0) : m.value ≠ 0 := by
  intro hm
  exact h (by simp [Rational.value, hm])

theorem canonical_times_den {d e : Integer} (hd : Canonical d) (he : Canonical e)
    (hd2 : 2 ≤ d.value) (he2 : 2 ≤ e.value) :
    Canonical (times d e) ∧ (times d e).value ≠ 0 := by
  have hpos : 0 < d.value * e.value := by positivity
  constructor
  · apply canonical_times_of_ne hd he
    omega
  · rw [value_times]
    exact hpos.ne'

theorem times_spec {x y : Rational} (hx : x.Reduced) (hy : y.Reduced) :
    ∃ r, x.times y = .ok r ∧ r.value = x.value * y.value ∧ r.Reduced := by
  cases x with
  | integer n =>
    cases y with
    | integer m =>
      exact ⟨_, rfl, by simp [Rational.value, value_times], trivial⟩
    | ratio m e =>
      obtain ⟨he, he2, -⟩ := hy
      obtain ⟨r, hr, hv, hred, -⟩ := makeRatio_spec (times n m) (by omega) (fun _ => he)
      refine ⟨r, hr, ?_, hred⟩
      rw [hv, value_times]
      push_cast
      exact mul_div_assoc _ _ _
  | ratio n d =>
    obtain ⟨hd, hd2, -⟩ := hx
    cases y with
    | integer m =>
      obtain ⟨r, hr, hv, hred, -⟩ := makeRatio_spec (times n m) (by omega) (fun _ => hd)
      refine ⟨r, hr, ?_, hred⟩
      rw [hv, value_times]
      push_cast
      exact mul_div_right_comm _ _ _
    | ratio m e =>
      obtain ⟨he, he2, -⟩ := hy
      obtain ⟨hc, h0⟩ := canonical_times_den hd he hd2 he2
      obtain ⟨r, hr, hv, hred, -⟩ := makeRatio_spec (times n m) h0 (fun _ => hc)
      refine ⟨r, hr, ?_, hred⟩
      rw [hv, value_times, value_times]
      push_cast
      exact mul_div_mul_comm _ _ _ _

/-- A difference is canonical whatever the numerators were. -/
theorem minus_spec {x y : Rational} (hx : x.Reduced) (hy : y.Reduced) :
    ∃ r, x.minus y = .ok r ∧ r.value = x.value - y.value ∧ r.Canonical := by
  cases x with
  | integer n =>
    cases y with
    | integer m =>
      exact ⟨_, rfl, by simp [Rational.value, value_minus], canonical_minus n m, trivial⟩
    | ratio m e =>
      obtain ⟨he, he2, -⟩ := hy
      have heq : (e.value : ℚ) ≠ 0 := by exact_mod_cast (value_pos_of_two_le he2).ne'
      obtain ⟨r, hr, hv, -, hcan⟩ :=
        makeRatio_spec (minus (times n e) m) (by omega) (fun _ => he)
      refine ⟨r, hr, ?_, hcan (canonical_minus _ _)⟩
      rw [hv, value_minus, value_times, Rational.value, Rational.value]
      push_cast
      field_simp
  | ratio n d =>
    obtain ⟨hd, hd2, -⟩ := hx
    have hdq : (d.value : ℚ) ≠ 0 := by exact_mod_cast (value_pos_of_two_le hd2).ne'
    cases y with
    | integer m =>
      obtain ⟨r, hr, hv, -, hcan⟩ :=
        makeRatio_spec (minus n (times d m)) (by omega) (fun _ => hd)
      refine ⟨r, hr, ?_, hcan (canonical_minus _ _)⟩
      rw [hv, value_minus, value_times, Rational.value, Rational.value]
      push_cast
      field_simp
    | ratio m e =>
      obtain ⟨he, he2, -⟩ := hy
      have heq : (e.value : ℚ) ≠ 0 := by exact_mod_cast (value_pos_of_two_le he2).ne'
      obtain ⟨hc, h0⟩ := canonical_times_den hd he hd2 he2
      obtain ⟨r, hr, hv, -, hcan⟩ :=
        makeRatio_spec (minus (times n e) (times d m)) h0 (fun _ => hc)
      refine ⟨r, hr, ?_, hcan (canonical_minus _ _)⟩
      rw [hv, value_minus, value_times, value_times, value_times, Rational.value, Rational.value]
      push_cast
      field_simp

/-- A quotient is canonical when both numbers are integers. -/
theorem divide_spec {x y : Rational} (hx : x.Canonical) (hy : y.Canonical) (h0 : y.value ≠ 0) :
    ∃ r, x.divide y = .ok r ∧ r.value = x.value / y.value ∧ r.Reduced ∧
      (∀ n m, x = .integer n → y = .integer m → r.Canonical) := by
  cases x with
  | integer n =>
    cases y with
    | integer m =>
      have hm : m.value ≠ 0 := by simpa [Rational.value] using h0
      obtain ⟨r, hr, hv, hred, hcan⟩ := makeRatio_spec n hm (fun _ => hy.num)
      exact ⟨r, hr, hv, hred, fun _ _ _ _ => hcan hx.num⟩
    | ratio m e =>
      have hm : m.value ≠ 0 := num_ne_zero h0
      obtain ⟨r, hr, hv, hred, -⟩ := makeRatio_spec (times n e) hm (fun _ => hy.num)
      refine ⟨r, hr, ?_, hred, by simp⟩
      rw [hv, value_times, Rational.value, Rational.value]
      push_cast
      exact (div_div_eq_mul_div _ _ _).symm
  | ratio n d =>
    obtain ⟨hd, hd2, -⟩ := hx.reduced
    have hdpos := value_pos_of_two_le hd2
    cases y with
    | integer m =>
      have hm : m.value ≠ 0 := by simpa [Rational.value] using h0
      have hdm : (times d m).value ≠ 0 := times_ne_zero hdpos.ne' hm
      obtain ⟨r, hr, hv, hred, -⟩ := makeRatio_spec n hdm (fun hpos =>
        canonical_times_of_ne hd hy.num (by rw [value_times] at hpos; omega))
      refine ⟨r, hr, ?_, hred, by simp⟩
      rw [hv, value_times, Rational.value, Rational.value]
      push_cast
      exact (div_div _ _ _).symm
    | ratio m e =>
      have hm : m.value ≠ 0 := num_ne_zero h0
      have hdm : (times d m).value ≠ 0 := times_ne_zero hdpos.ne' hm
      obtain ⟨r, hr, hv, hred, -⟩ := makeRatio_spec (times n e) hdm (fun hpos =>
        canonical_times_of_ne hd hy.num (by rw [value_times] at hpos; omega))
      refine ⟨r, hr, ?_, hred, by simp⟩
      rw [hv, value_times, value_times, Rational.value, Rational.value]
      push_cast
      exact (div_div_div_eq _ _ _ _).symm

end Rationals
