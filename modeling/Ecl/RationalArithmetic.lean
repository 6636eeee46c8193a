import Ecl.Rationals
import Mathlib.Data.Nat.Prime.Basic

/-! Sums, differences, products and quotients of rationals are exact, and canonical but for a
numerator that is the product of 2^61 and -1. -/
namespace Rationals

open Integers CanonicalIntegers

def Rational.plus : Rational → Rational → Except ArithmeticError Rational
  | .integer x, .integer y => .ok (.integer (Integers.plus x y))
  | .integer x, .ratio n d => makeRatio (Integers.plus (Integers.times x d) n) d
  | .ratio n d, .integer y => makeRatio (Integers.plus n (Integers.times d y)) d
  | .ratio n d, .ratio n' d' =>
    makeRatio (Integers.plus (Integers.times n d') (Integers.times d n')) (Integers.times d d')

theorem plus_spec {x y : Rational} (hx : x.Reduced) (hy : y.Reduced) :
    ∃ r, x.plus y = .ok r ∧ r.value = x.value + y.value ∧ r.Canonical := by
  cases x with
  | integer n =>
    cases y with
    | integer m =>
      exact ⟨_, rfl, by simp [Rational.value, value_plus], canonical_plus n m, trivial⟩
    | ratio m e =>
      obtain ⟨he, he2, -⟩ := hy
      have hepos := value_pos_of_two_le he2
      obtain ⟨r, hr, hv, -, hcan⟩ :=
        makeRatio_spec (plus (times n e) m) hepos.ne' (fun _ => he)
      refine ⟨r, hr, ?_, hcan (canonical_plus _ _)⟩
      have he0 : (e.value : ℚ) ≠ 0 := by exact_mod_cast hepos.ne'
      rw [hv, value_plus, value_times, Rational.value, Rational.value]
      push_cast
      field_simp
  | ratio n d =>
    obtain ⟨hd, hd2, -⟩ := hx
    have hdpos := value_pos_of_two_le hd2
    have hd0 : (d.value : ℚ) ≠ 0 := by exact_mod_cast hdpos.ne'
    cases y with
    | integer m =>
      obtain ⟨r, hr, hv, -, hcan⟩ :=
        makeRatio_spec (plus n (times d m)) hdpos.ne' (fun _ => hd)
      refine ⟨r, hr, ?_, hcan (canonical_plus _ _)⟩
      rw [hv, value_plus, value_times, Rational.value, Rational.value]
      push_cast
      field_simp
    | ratio m e =>
      obtain ⟨he, he2, -⟩ := hy
      have he0 : (e.value : ℚ) ≠ 0 := by exact_mod_cast (value_pos_of_two_le he2).ne'
      obtain ⟨hc, h0⟩ := canonical_times_den hd he hd2 he2
      obtain ⟨r, hr, hv, -, hcan⟩ :=
        makeRatio_spec (plus (times n e) (times d m)) h0 (fun _ => hc)
      refine ⟨r, hr, ?_, hcan (canonical_plus _ _)⟩
      rw [hv, value_plus, value_times, value_times, value_times, Rational.value, Rational.value]
      push_cast
      field_simp

theorem makeRatio_num {num den n d : Integer} (h0 : den.value ≠ 0) (hnum : num ≠ makeFixnum 0)
    (hone : den ≠ makeFixnum 1)
    (hterms : lowestTerms (signUp num den).1 (signUp num den).2 = .ok (n, d)) (hd : 0 < d.value) :
    ∃ r, makeRatio num den = .ok r ∧ (r.CanonicalNum ↔ Canonical n) := by
  have hzero : den ≠ makeFixnum 0 := fun h => h0 (value_of_eq_makeFixnum (by decide) h)
  have hminus : d ≠ makeFixnum (-1) := by
    intro h
    have hvalue := value_of_eq_makeFixnum (by decide) h
    omega
  rw [makeRatio, if_neg hzero, if_neg (by simp [hnum, hone]), hterms]
  by_cases h1 : d = makeFixnum 1
  · exact ⟨.integer n, if_pos h1, Iff.rfl⟩
  · exact ⟨.ratio n d, (if_neg h1).trans (if_neg hminus), Iff.rfl⟩

theorem lowestTerms_canonical {num den n d : Integer}
    (hgcd : Int.gcd num.value den.value ≠ 1) (hpos : 0 < den.value)
    (h : lowestTerms num den = .ok (n, d)) : Canonical n := by
  have hgpos : 0 < Int.gcd num.value den.value := Int.gcd_pos_of_ne_zero_right _ (by omega)
  have hgv : (gcd num den).value = Int.gcd num.value den.value := value_gcd num den
  have hne : gcd num den ≠ makeFixnum 1 := by
    intro hone
    rw [value_of_eq_makeFixnum (by decide) hone] at hgv
    omega
  have hg0 : (gcd num den).value ≠ 0 := by rw [hgv]; omega
  obtain ⟨m, hm, -, hmc⟩ := correct_integerDivide (x := num) hg0 (by rw [hgv]; omega)
  obtain ⟨e, he, -, -⟩ := correct_integerDivide (x := den) hg0 (by rw [hgv]; omega)
  rw [lowestTerms, if_pos hne, hm, he] at h
  cases h
  exact hmc

theorem lowestTerms_coprime {num den : Integer} (hgcd : Int.gcd num.value den.value = 1) :
    lowestTerms num den = .ok (num, den) := by
  have hone : gcd num den = makeFixnum 1 := by
    rw [eq_makeFixnum (canonical_gcd num den) (by decide), value_gcd, hgcd]
    rfl
  exact if_neg (by simp [hone])

theorem gcd_two_pow_61 (d : ℤ) : Int.gcd (-2 ^ 61) d = 1 ↔ d % 2 = 1 := by
  have hgcd : Int.gcd (-2 ^ 61) d = Nat.gcd (2 ^ 61) d.natAbs := rfl
  rw [hgcd]
  constructor
  · intro h
    have hodd : Nat.Coprime 2 d.natAbs := Nat.Coprime.coprime_dvd_left ⟨2 ^ 60, by decide⟩ h
    rw [Nat.coprime_two_left, Nat.odd_iff] at hodd
    omega
  · intro h
    have hodd : Nat.Coprime 2 d.natAbs := by
      rw [Nat.coprime_two_left, Nat.odd_iff]
      omega
    exact hodd.pow_left 61

theorem makeRatio_crossed {num den : Integer} (hnum : num = .bignum (-2 ^ 61))
    (h0 : den.value ≠ 0) : ∃ r, makeRatio num den = .ok r ∧
      (r.CanonicalNum ↔ ¬ (0 < den.value ∧ den.value % 2 = 1)) := by
  have hcrossed : ¬ Canonical num := by
    rw [hnum, canonical_bignum]
    decide
  have hvalue : num.value = -2 ^ 61 := by rw [hnum]; rfl
  have hnonzero : num ≠ makeFixnum 0 := by
    rw [hnum]
    decide
  by_cases hone : den = makeFixnum 1
  · have hden := value_of_eq_makeFixnum (by decide) hone
    refine ⟨.integer num, ?_, ?_⟩
    · rw [makeRatio, hone, if_neg (by decide), if_pos (Or.inr rfl)]
    · simp [Rational.CanonicalNum, hcrossed, hden]
  obtain ⟨-, hpos, -, hsign⟩ := signUp_spec num h0
  obtain ⟨n, d, hterms, -, hd, -, -, hcan⟩ := lowestTerms_spec (signUp num den).1 hpos
  obtain ⟨r, hr, hiff⟩ := makeRatio_num h0 hnonzero hone hterms hd
  refine ⟨r, hr, hiff.trans ?_⟩
  by_cases hneg : den.value < 0
  · have hup : signUp num den = (negate num, negate den) := if_pos ((minusp_iff den).mpr hneg)
    rw [hup] at hcan
    simp only [hcan (canonical_negate num), true_iff]
    omega
  · have hup : signUp num den = (num, den) := if_neg fun h => hneg ((minusp_iff den).mp h)
    rw [hup] at hterms
    have hden : 0 < den.value := by omega
    by_cases hodd : den.value % 2 = 1
    · rw [lowestTerms_coprime (by rw [hvalue, gcd_two_pow_61]; exact hodd)] at hterms
      cases hterms
      simp [hcrossed, hden, hodd]
    · have hn := lowestTerms_canonical (by rw [hvalue, Ne, gcd_two_pow_61]; exact hodd) hden hterms
      simp [hn, hodd]

/-- A quotient of integers is canonical unless its numerator is the product of 2^61 and -1 and
nothing normalizes that any more. -/
theorem makeRatio_times {a b den : Integer} (ha : Canonical a) (hb : Canonical b)
    (h0 : den.value ≠ 0) (hden : 0 < den.value → Canonical den) :
    ∃ r, makeRatio (times a b) den = .ok r ∧ r.value = (a.value * b.value) / den.value ∧
      (r.Canonical ↔
        ¬ ((Operation.times a b).CrossesRange ∧ 0 < den.value ∧ den.value % 2 = 1)) := by
  obtain ⟨r, hr, hv, hred, hcan⟩ := makeRatio_spec (times a b) h0 hden
  rw [value_times] at hv
  refine ⟨r, hr, by rw [hv]; push_cast; rfl, ?_⟩
  by_cases hcross : (Operation.times a b).CrossesRange
  · obtain ⟨r', hr', hiff⟩ := makeRatio_crossed (times_crosses ha hb hcross) h0
    rw [hr] at hr'
    cases hr'
    simp only [hcross, true_and]
    rw [← hiff]
    exact ⟨fun h => h.num, fun h => ⟨h, hred⟩⟩
  · simp only [hcross, false_and, not_false_eq_true, iff_true]
    exact hcan (canonical_times ha hb hcross)

inductive ArithmeticOp where
  | plus | minus | times | divide
  deriving DecidableEq

def ArithmeticOp.run : ArithmeticOp → Rational → Rational → Except ArithmeticError Rational
  | .plus => Rational.plus
  | .minus => Rational.minus
  | .times => Rational.times
  | .divide => Rational.divide

def ArithmeticOp.exact : ArithmeticOp → ℚ → ℚ → ℚ
  | .plus, a, b => a + b
  | .minus, a, b => a - b
  | .times, a, b => a * b
  | .divide, a, b => a / b

def Rational.numerator : Rational → ℤ
  | .integer n => n.value
  | .ratio num _ => num.value

def Rational.denominator : Rational → ℤ
  | .integer _ => 1
  | .ratio _ den => den.value

/-- The numerators meet as 2^61 and -1, and no even or negative denominator makes the product
normal again. -/
def ArithmeticOp.MeetsRangeEnd : ArithmeticOp → Rational → Rational → Prop
  | .times, x, y =>
    (x.numerator = 2 ^ 61 ∧ y.numerator = -1 ∨ x.numerator = -1 ∧ y.numerator = 2 ^ 61) ∧
      x.denominator % 2 = 1 ∧ y.denominator % 2 = 1
  | .divide, x, y =>
    x.numerator = -1 ∧ y.denominator = 2 ^ 61 ∧ 0 < y.numerator ∧ x.denominator % 2 = 1
  | _, _, _ => False

instance (op : ArithmeticOp) (x y : Rational) : Decidable (op.MeetsRangeEnd x y) := by
  cases op <;> simp only [ArithmeticOp.MeetsRangeEnd] <;> infer_instance

theorem odd_mul_iff (a b : ℤ) : a * b % 2 = 1 ↔ a % 2 = 1 ∧ b % 2 = 1 := by
  rw [← Int.odd_iff, ← Int.odd_iff, ← Int.odd_iff]
  exact Int.odd_mul

theorem times_canonical_iff {x y : Rational} (hx : x.Canonical) (hy : y.Canonical) :
    ∃ r, x.times y = .ok r ∧ r.value = x.value * y.value ∧
      (r.Canonical ↔ ¬ ArithmeticOp.times.MeetsRangeEnd x y) := by
  obtain ⟨r, hr, hv, -⟩ := times_spec hx.reduced hy.reduced
  refine ⟨r, hr, hv, ?_⟩
  -- The product of the numerators over the denominator that each case makes.
  have hmake : ∀ a b den : Integer, Canonical a → Canonical b → 0 < den.value → Canonical den →
      makeRatio (times a b) den = .ok r →
      (r.Canonical ↔ ¬ ((Operation.times a b).CrossesRange ∧ den.value % 2 = 1)) := by
    intro a b den ha hb hpos hden hrun
    obtain ⟨r', hr', -, hiff⟩ := makeRatio_times ha hb hpos.ne' (fun _ => hden)
    rw [hrun] at hr'
    cases hr'
    simp only [hiff, hpos, true_and]
  cases x with
  | integer n =>
    cases y with
    | integer m =>
      have hone : makeRatio (times n m) (makeFixnum 1) = .ok r := by
        rw [← hr, makeRatio, if_neg (by decide), if_pos (Or.inr rfl)]
        rfl
      rw [hmake n m (makeFixnum 1) hx.num hy.num (by decide) (canonical_makeFixnum 1) hone]
      have hvalue : (makeFixnum 1).value = 1 := by decide
      simp [ArithmeticOp.MeetsRangeEnd, Rational.numerator, Rational.denominator, hvalue,
        Operation.CrossesRange]
    | ratio m e =>
      obtain ⟨he, he2, -⟩ := hy.reduced
      rw [hmake n m e hx.num hy.num (value_pos_of_two_le he2) he hr]
      simp [ArithmeticOp.MeetsRangeEnd, Rational.numerator, Rational.denominator,
        Operation.CrossesRange]
  | ratio n d =>
    obtain ⟨hd, hd2, -⟩ := hx.reduced
    cases y with
    | integer m =>
      rw [hmake n m d hx.num hy.num (value_pos_of_two_le hd2) hd hr]
      simp [ArithmeticOp.MeetsRangeEnd, Rational.numerator, Rational.denominator,
        Operation.CrossesRange]
    | ratio m e =>
      obtain ⟨he, he2, -⟩ := hy.reduced
      obtain ⟨hde, -⟩ := canonical_times_den hd he hd2 he2
      have hpos : 0 < (times d e).value := by
        rw [value_times]
        exact Int.mul_pos (by omega) (by omega)
      rw [hmake n m (times d e) hx.num hy.num hpos hde hr, value_times, odd_mul_iff]
      rfl

theorem odd_of_gcd {a b : ℤ} (h : Int.gcd a b = 1) (hb : b = 2 ^ 61) : a % 2 = 1 := by
  rw [← gcd_two_pow_61, Int.gcd_comm]
  rw [hb] at h
  exact h

theorem divide_canonical_iff {x y : Rational} (hx : x.Canonical) (hy : y.Canonical)
    (h0 : y.value ≠ 0) : ∃ r, x.divide y = .ok r ∧ r.value = x.value / y.value ∧
      (r.Canonical ↔ ¬ ArithmeticOp.divide.MeetsRangeEnd x y) := by
  obtain ⟨r, hr, hv, -, hint⟩ := divide_spec hx hy h0
  refine ⟨r, hr, hv, ?_⟩
  cases x with
  | integer n =>
    cases y with
    | integer m => simp [hint n m rfl rfl, ArithmeticOp.MeetsRangeEnd, Rational.denominator]
    | ratio m e =>
      obtain ⟨he, he2, hgcd⟩ := hy.reduced
      have hm : m.value ≠ 0 := num_ne_zero h0
      obtain ⟨r', hr', -, hiff⟩ := makeRatio_times hx.num he hm (fun _ => hy.num)
      have hrun : makeRatio (times n e) m = .ok r := hr
      rw [hrun] at hr'
      cases hr'
      have hodd := odd_of_gcd hgcd
      simp only [hiff, ArithmeticOp.MeetsRangeEnd, Rational.numerator, Rational.denominator,
        Operation.CrossesRange]
      omega
  | ratio n d =>
    obtain ⟨hd, hd2, -⟩ := hx.reduced
    have hdpos := value_pos_of_two_le hd2
    cases y with
    | integer m =>
      have hm : m.value ≠ 0 := by simpa [Rational.value] using h0
      have hdm : (times d m).value ≠ 0 := times_ne_zero hdpos.ne' hm
      obtain ⟨r', hr', -, -, hcan⟩ := makeRatio_spec n hdm (fun hpos =>
        canonical_times_of_ne hd hy.num (by rw [value_times] at hpos; omega))
      have hrun : makeRatio n (times d m) = .ok r := hr
      rw [hrun] at hr'
      cases hr'
      simp [hcan hx.num, ArithmeticOp.MeetsRangeEnd, Rational.denominator]
    | ratio m e =>
      obtain ⟨he, he2, hgcd⟩ := hy.reduced
      have hm : m.value ≠ 0 := num_ne_zero h0
      have hdm : (times d m).value ≠ 0 := times_ne_zero hdpos.ne' hm
      obtain ⟨r', hr', -, hiff⟩ := makeRatio_times hx.num he hdm (fun hpos =>
        canonical_times_of_ne hd hy.num (by rw [value_times] at hpos; omega))
      have hrun : makeRatio (times n e) (times d m) = .ok r := hr
      rw [hrun] at hr'
      cases hr'
      have hodd := odd_of_gcd hgcd
      have hsign : 0 < d.value * m.value ↔ 0 < m.value := mul_pos_iff_of_pos_left hdpos
      simp only [hiff, ArithmeticOp.MeetsRangeEnd, Rational.numerator, Rational.denominator,
        Operation.CrossesRange, value_times, odd_mul_iff, hsign]
      omega

/-- Each operation returns the exact result, in canonical form if and only if the numerators do
not meet as 2^61 and -1. -/
theorem arithmetic_canonical_iff (op : ArithmeticOp) {x y : Rational} (hx : x.Canonical)
    (hy : y.Canonical) (h0 : op = .divide → y.value ≠ 0) :
    (∃ r, op.run x y = .ok r ∧ r.value = op.exact x.value y.value ∧ r.Canonical) ↔
      ¬ op.MeetsRangeEnd x y := by
  have hiff : ∃ r, op.run x y = .ok r ∧ r.value = op.exact x.value y.value ∧
      (r.Canonical ↔ ¬ op.MeetsRangeEnd x y) := by
    cases op with
    | plus =>
      obtain ⟨r, hr, hv, hcan⟩ := plus_spec hx.reduced hy.reduced
      exact ⟨r, hr, hv, fun _ h => h, fun _ => hcan⟩
    | minus =>
      obtain ⟨r, hr, hv, hcan⟩ := minus_spec hx.reduced hy.reduced
      exact ⟨r, hr, hv, fun _ h => h, fun _ => hcan⟩
    | times => exact times_canonical_iff hx hy
    | divide => exact divide_canonical_iff hx hy (h0 rfl)
  obtain ⟨r, hr, hv, hcan⟩ := hiff
  rw [← hcan]
  constructor
  · rintro ⟨r', hr', -, hcan'⟩
    rw [hr] at hr'
    cases hr'
    exact hcan'
  · exact fun h => ⟨r, hr, hv, h⟩

theorem arithmetic_canonical_third :
    ∃ r, ArithmeticOp.times.run (.integer (makeFixnum (-1))) (.ratio (makeFixnum 1) (makeFixnum 3)) =
      .ok r ∧ r.value = ArithmeticOp.times.exact (Rational.integer (makeFixnum (-1))).value
        (Rational.ratio (makeFixnum 1) (makeFixnum 3)).value ∧ r.Canonical :=
  (arithmetic_canonical_iff .times (x := .integer (makeFixnum (-1)))
    (y := .ratio (makeFixnum 1) (makeFixnum 3)) ⟨canonical_makeFixnum _, trivial⟩
    ⟨canonical_makeFixnum _, canonical_makeFixnum _, by decide, by decide⟩ (by decide)).mpr (by decide)

/-- 2^61 times -1/3 has a bignum for a numerator that is a fixnum. -/
theorem product_of_ratio_not_canonical : ∃ x y : Rational, x.Canonical ∧ y.Canonical ∧
    ArithmeticOp.times.run x y = .ok (.ratio (.bignum (-2 ^ 61)) (makeFixnum 3)) ∧
      ¬ (Rational.ratio (.bignum (-2 ^ 61)) (makeFixnum 3)).Canonical := by
  refine ⟨.integer (.bignum (2 ^ 61)), .ratio (makeFixnum (-1)) (makeFixnum 3),
    ⟨canonical_bignum.mpr (by decide), trivial⟩,
    ⟨canonical_makeFixnum _, canonical_makeFixnum _, by decide, by decide⟩, by decide, fun h => ?_⟩
  exact canonical_bignum.mp h.num (by decide)

end Rationals
