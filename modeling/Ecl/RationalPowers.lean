import Ecl.RationalArithmetic

/-! The rational cases of ecl_expt in src/c/numbers/expt.d. -/
namespace RationalPowers

open Integers CanonicalIntegers Rationals

def evenp : Integer → Bool
  | .fixnum n => n.toInt % 2 = 0
  | .bignum z => z % 2 = 0

/-- A bignum is never zero. -/
def zerop : Integer → Bool
  | .fixnum n => n = 0
  | .bignum _ => false

def zeropRational : Rational → Bool
  | .integer n => zerop n
  | .ratio _ _ => false

def one : Rational := .integer (makeFixnum 1)

def timesOdd (x : Rational) (y : Integer) (z : Rational) : Except ArithmeticError Rational :=
  if evenp y then .ok z else z.times x

/-- The loop of ecl_expt_generic, for at most fuel turns. -/
def exptLoop (minusp : Bool) :
    ℕ → Rational → Integer → Rational → Except ArithmeticError (Option Rational)
  | 0, _, _, _ => .ok none
  | fuel + 1, x, y, z => do
    let z ← timesOdd x y z
    let y ← integerDivide y (makeFixnum 2)
    if zerop y then
      if minusp then
        let r ← one.divide z
        return some r
      else return some z
    else
      let x ← x.times x
      exptLoop minusp fuel x y z

def exptGeneric (fuel : ℕ) (x : Rational) (y : Integer) : Except ArithmeticError (Option Rational) :=
  if Rationals.minusp y then exptLoop true fuel x (negate y) one
  else exptLoop false fuel x y one

/-- ecl_expt. One is expt_zero's result for rationals. -/
def expt (fuel : ℕ) (x : Rational) (y : Integer) : Except ArithmeticError (Option Rational) :=
  if zerop y then .ok (some one)
  else if zeropRational x then
    if plusp y then (x.times (.integer y)).map some
    else (one.divide x).map some
  else exptGeneric fuel x y

theorem numerator_eq {x : Rational} (hx : x.Reduced) : x.numerator = x.value.num := by
  cases x with
  | integer n => rfl
  | ratio n d =>
    obtain ⟨-, hd, hgcd⟩ := hx
    have hpos : 0 < d.value := by omega
    exact (Rat.num_div_eq_of_coprime hpos hgcd).symm

theorem powers_apart (b : ℤ) (i j : ℕ) : ¬ (b ^ i = 2 ^ 61 ∧ b ^ j = -1) := by
  rintro ⟨hi, hj⟩
  have hj' : b.natAbs ^ j = 1 := by rw [← Int.natAbs_pow, hj]; rfl
  have hi' : b.natAbs ^ i = 2 ^ 61 := by rw [← Int.natAbs_pow, hi]; rfl
  rcases Nat.pow_eq_one.mp hj' with hb | rfl
  · rw [hb, Nat.one_pow] at hi'
    omega
  · rw [pow_zero] at hj
    omega

theorem times_powers {x y : Rational} (hx : x.Canonical) (hy : y.Canonical) {b : ℚ} {i j : ℕ}
    (hxb : x.value = b ^ i) (hyb : y.value = b ^ j) :
    ∃ r, x.times y = .ok r ∧ r.Canonical ∧ r.value = b ^ (i + j) := by
  obtain ⟨r, hr, hv, hcan⟩ := times_canonical_iff hx hy
  refine ⟨r, hr, hcan.mpr ?_, by rw [hv, hxb, hyb, pow_add]⟩
  rintro ⟨hends, -⟩
  rw [numerator_eq hx.reduced, numerator_eq hy.reduced, hxb, hyb, Rat.num_pow, Rat.num_pow] at hends
  rcases hends with hends | hends
  · exact powers_apart b.num i j hends
  · exact powers_apart b.num j i hends.symm

theorem one_canonical : one.Canonical := ⟨canonical_makeFixnum _, trivial⟩

theorem value_one : one.value = 1 := by decide +kernel

theorem one_divide {z : Rational} (hz : z.Canonical) (h0 : z.value ≠ 0) :
    ∃ r, one.divide z = .ok r ∧ r.Canonical ∧ r.value = z.value⁻¹ := by
  obtain ⟨r, hr, hv, hcan⟩ := divide_canonical_iff one_canonical hz h0
  refine ⟨r, hr, hcan.mpr ?_, by rw [hv, value_one, one_div]⟩
  rintro ⟨hnum, -⟩
  exact absurd hnum (by decide +kernel)

theorem evenp_iff (y : Integer) : evenp y = true ↔ y.value % 2 = 0 := by
  cases y <;> simp [evenp]

theorem zerop_iff {y : Integer} (hy : Canonical y) : zerop y = true ↔ y.value = 0 := by
  cases y with
  | fixnum n =>
    rw [zerop, decide_eq_true_eq, value_fixnum, ← BitVec.toInt_zero]
    exact BitVec.toInt_inj.symm
  | bignum z =>
    rw [canonical_bignum] at hy
    simp only [zerop, Bool.false_eq_true, false_iff]
    rintro rfl
    exact hy (by decide)

theorem half_spec {y : Integer} (hpos : 0 < y.value) :
    ∃ y', integerDivide y (makeFixnum 2) = .ok y' ∧ Canonical y' ∧ y'.value = y.value / 2 := by
  have htwo : (makeFixnum 2).value = 2 := by decide
  obtain ⟨y', hy', hv, hcan⟩ := correct_integerDivide (x := y) (y := makeFixnum 2)
    (by rw [htwo]; decide) (by rw [htwo]; omega)
  rw [htwo, Int.tdiv_eq_ediv_of_nonneg hpos.le] at hv
  exact ⟨y', hy', hcan, hv⟩

theorem exponent_split (i j m : ℕ) :
    (if m % 2 = 0 then j else j + i) + (i + i) * (m / 2) = j + i * m := by
  have hexp : i * m = i * (m % 2) + (i + i) * (m / 2) := by
    conv_lhs => rw [← Nat.mod_add_div m 2]
    ring
  rw [hexp]
  split
  · next heven => rw [heven, Nat.mul_zero, Nat.zero_add]
  · next hodd =>
    have hone : m % 2 = 1 := by omega
    rw [hone, Nat.mul_one, Nat.add_assoc]

theorem timesOdd_spec {x z : Rational} (hx : x.Canonical) (hz : z.Canonical) {b : ℚ} {i j : ℕ}
    (hxb : x.value = b ^ i) (hzb : z.value = b ^ j) (y : Integer) :
    ∃ r, timesOdd x y z = .ok r ∧ r.Canonical ∧
      r.value = b ^ (if y.value % 2 = 0 then j else j + i) := by
  rw [timesOdd]
  by_cases heven : evenp y = true
  · rw [if_pos heven, if_pos ((evenp_iff y).mp heven)]
    exact ⟨z, rfl, hz, hzb⟩
  · rw [if_neg heven, if_neg (mt (evenp_iff y).mpr heven)]
    exact times_powers hz hx hzb hxb

theorem exptLoop_spec (minusp : Bool) {b : ℚ} (hb : b ≠ 0) (fuel : ℕ) {x z : Rational} {y : Integer}
    {i j m : ℕ} (hx : x.Canonical) (hz : z.Canonical) (hy : y.value = m) (hxb : x.value = b ^ i)
    (hzb : z.value = b ^ j) (hpos : 0 < m) (hfuel : m ≤ fuel) :
    ∃ r, exptLoop minusp fuel x y z = .ok (some r) ∧ r.Canonical ∧
      r.value = if minusp then (b ^ (j + i * m))⁻¹ else b ^ (j + i * m) := by
  induction fuel generalizing x y z i j m with
  | zero => omega
  | succ fuel ih =>
    obtain ⟨z', hz', hz'can, hz'b⟩ := timesOdd_spec hx hz hxb hzb y
    obtain ⟨y', hy', hy'can, hy'v⟩ := half_spec (y := y) (by omega)
    have hhalf : y'.value = (m / 2 : ℕ) := by rw [hy'v, hy]; rfl
    have hparity : (y.value % 2 = 0) = (m % 2 = 0) := by
      rw [hy, eq_iff_iff]
      omega
    simp only [hparity] at hz'b
    have hsplit := exponent_split i j m
    rw [exptLoop, hz', hy']
    by_cases hdone : zerop y' = true
    · have hzero : m / 2 = 0 := by
        rw [zerop_iff hy'can, hhalf] at hdone
        exact_mod_cast hdone
      rw [hzero, Nat.mul_zero, Nat.add_zero] at hsplit
      rw [hsplit] at hz'b
      cases minusp with
      | false => exact ⟨z', by simp [bind, Except.bind, hdone, pure, Except.pure], hz'can, hz'b⟩
      | true =>
        obtain ⟨r, hr, hcan, hv⟩ := one_divide hz'can (by rw [hz'b]; exact pow_ne_zero _ hb)
        refine ⟨r, by simp [bind, Except.bind, hdone, hr, pure, Except.pure], hcan, ?_⟩
        rw [hv, hz'b]
        rfl
    · have hpos' : 0 < m / 2 := by
        rw [zerop_iff hy'can, hhalf] at hdone
        exact Nat.pos_of_ne_zero (by exact_mod_cast hdone)
      obtain ⟨x', hx', hx'can, hx'b⟩ := times_powers hx hx hxb hxb
      obtain ⟨r, hr, hcan, hv⟩ := ih hx'can hz'can hhalf hx'b hz'b hpos' (by omega)
      rw [hsplit] at hv
      exact ⟨r, by simp [bind, Except.bind, hdone, hx', hr], hcan, hv⟩

theorem exptGeneric_spec {x : Rational} {y : Integer} (hx : x.Canonical) (hx0 : x.value ≠ 0)
    (hy0 : y.value ≠ 0) {fuel : ℕ} (hfuel : y.value.natAbs ≤ fuel) :
    ∃ r, exptGeneric fuel x y = .ok (some r) ∧ r.Canonical ∧ r.value = x.value ^ y.value := by
  have hpos : 0 < y.value.natAbs := Int.natAbs_pos.mpr hy0
  unfold exptGeneric
  split
  · next hneg =>
    rw [minusp_iff] at hneg
    have habs : (negate y).value = y.value.natAbs := by
      rw [value_negate]
      omega
    obtain ⟨r, hr, hcan, hv⟩ := exptLoop_spec true hx0 fuel hx one_canonical habs
      (pow_one _).symm (value_one.trans (pow_zero _).symm) hpos hfuel
    refine ⟨r, hr, hcan, ?_⟩
    rw [hv, if_pos rfl, Nat.zero_add, Nat.one_mul, ← zpow_natCast, ← zpow_neg]
    congr 1
    omega
  · next hneg =>
    rw [minusp_iff] at hneg
    have habs : y.value = y.value.natAbs := by omega
    obtain ⟨r, hr, hcan, hv⟩ := exptLoop_spec false hx0 fuel hx one_canonical habs
      (pow_one _).symm (value_one.trans (pow_zero _).symm) hpos hfuel
    refine ⟨r, hr, hcan, ?_⟩
    rw [hv, if_neg (by decide), Nat.zero_add, Nat.one_mul, ← zpow_natCast, ← habs]

theorem zeropRational_iff {x : Rational} (hx : x.Canonical) : zeropRational x = true ↔ x.value = 0 := by
  cases x with
  | integer n =>
    rw [zeropRational, zerop_iff hx.num, Rational.value]
    exact Int.cast_eq_zero.symm
  | ratio n d =>
    obtain ⟨-, hd, hgcd⟩ := hx.reduced
    simp only [zeropRational, Bool.false_eq_true, Rational.value, false_iff, div_eq_zero_iff, not_or]
    constructor
    · intro hn
      rw [Int.cast_eq_zero] at hn
      rw [hn, Int.gcd_zero_left] at hgcd
      omega
    · exact_mod_cast (by omega : d.value ≠ 0)

/-- Powers of rationals are exact and canonical, after a number of turns that the exponent bounds. -/
theorem expt_exact {x : Rational} {n : Integer} (hx : x.Canonical) (hn : Canonical n)
    (h : x.value ≠ 0 ∨ 0 ≤ n.value) {fuel : ℕ} (hfuel : n.value.natAbs ≤ fuel) :
    ∃ r, expt fuel x n = .ok (some r) ∧ r.Canonical ∧ r.value = x.value ^ n.value := by
  unfold expt
  split
  · next hzero =>
    rw [zerop_iff hn] at hzero
    exact ⟨one, rfl, one_canonical, by rw [hzero, zpow_zero, value_one]⟩
  · next hzero =>
    rw [zerop_iff hn] at hzero
    split
    · next hx0 =>
      rw [zeropRational_iff hx] at hx0
      have hpos : 0 < n.value := by
        rcases h with hx | hn
        · exact absurd hx0 hx
        · omega
      obtain ⟨r, hr, hv, hcan⟩ := times_canonical_iff hx (y := .integer n) ⟨hn, trivial⟩
      rw [if_pos ((plusp_iff n).mpr hpos), hr]
      refine ⟨r, rfl, hcan.mpr ?_, ?_⟩
      · rintro ⟨hends, -⟩
        rw [numerator_eq hx.reduced, hx0] at hends
        simp at hends
      · rw [hv, hx0, zero_mul, zero_zpow _ hpos.ne']
    · next hx0 =>
      rw [zeropRational_iff hx] at hx0
      exact exptGeneric_spec hx hx0 hzero hfuel

/-- (expt -2 61) is a fixnum. -/
theorem expt_exact_range_end : ∃ r,
    expt 61 (.integer (makeFixnum (-2))) (makeFixnum 61) = .ok (some r) ∧ r.Canonical ∧
      r.value = (Rational.integer (makeFixnum (-2))).value ^ (makeFixnum 61).value :=
  expt_exact (x := .integer (makeFixnum (-2))) ⟨canonical_makeFixnum _, trivial⟩
    (canonical_makeFixnum _) (Or.inr (by decide)) (by decide)

end RationalPowers
