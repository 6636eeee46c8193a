import Ecl.FloatNumbers

/-! ecl_number_compare of src/c/numbers/number_compare.d on real numbers, with the comparisons
of src/c/numbers/float_fix_compare.d. A cl_fixnum and a double have 64 bits, a long double has
80 in 16 bytes. -/
namespace NumberCompare

open Integers CanonicalIntegers Rationals RationalCompare FloatFormats FloatNumbers
open Objects (FloatType)
open Equalp (FloatValue floatValue)

inductive RealNumber where
  | rational (x : Rational)
  | float (t : FloatType) (bits : ℕ)
  deriving DecidableEq

def compareFixnum (n m : ℤ) : ℤ := if n = m then 0 else if n > m then 1 else -1

def doubleFixCompare (n : ℤ) (d : FloatValue) : ℤ :=
  if less (toFloat .double n) d then -1
  else if less d (toFloat .double n) then 1
  else compareFixnum n (castFixnum d)

/-- A long double is wider than a cl_fixnum. -/
def longDoubleFixCompare (n : ℤ) (d : FloatValue) : ℤ :=
  if less (toFloat .long n) d then -1
  else if less d (toFloat .long n) then 1
  else 0

def fixCompare : FloatType → ℤ → FloatValue → ℤ
  | .long => longDoubleFixCompare
  | _ => doubleFixCompare

def compareFloat (dx dy : FloatValue) : ℤ := if dx.eq dy then 0 else if less dx dy then -1 else 1

def isInfinity : FloatValue → Bool
  | .infinity _ => true
  | _ => false

def numberCompare : RealNumber → RealNumber → Except ArithmeticError ℤ
  | .rational x, .rational y => .ok (compareRational x y)
  | .float t x, .rational (.integer (.fixnum y)) => .ok (-fixCompare t y.toInt (floatValue t x))
  | .rational (.integer (.fixnum x)), .float t y => .ok (fixCompare t x.toInt (floatValue t y))
  | .float t x, .rational y =>
    if isInfinity (floatValue t x) then .ok (-fixCompare t 0 (floatValue t x))
    else do
      let x ← clRational t (floatValue t x)
      return compareRational x y
  | .rational x, .float t y =>
    if isInfinity (floatValue t y) then .ok (fixCompare t 0 (floatValue t y))
    else do
      let y ← clRational t (floatValue t y)
      return compareRational x y
  | .float t x, .float t' y => .ok (compareFloat (floatValue t x) (floatValue t' y))

def RealNumber.Denotes : RealNumber → ℚ → Prop
  | .rational x, p => x.Canonical ∧ x.value = p
  | .float t bits, p => floatValue t bits = .finite p

/-- A product that is left in a bignum: it is out of the range of the fixnums, or it is the
one that the multiplication of a bignum does not bring back into the range. -/
def BigProduct (n d : ℤ) : Prop := ¬ FitsFixnum (n * d) ∨ n = -1 ∧ d = 2 ^ 61

/-- The integers compared in place of two rationals are bignums whose sizes are not adjacent. -/
def WidthsApart (p q : ℚ) : Prop :=
  BigProduct p.num q.den ∧ BigProduct q.num p.den ∧
    2 ≤ (mpzSize (p.num * q.den) - mpzSize (q.num * p.den)).natAbs

def ByRationals : RealNumber → RealNumber → Prop
  | .rational _, .rational _ => True
  | .float _ _, .rational (.integer (.fixnum _)) => False
  | .rational (.integer (.fixnum _)), .float _ _ => False
  | .float _ _, .float _ _ => False
  | _, _ => True

def numerator : Rational → ℤ
  | .integer n => n.value
  | .ratio n _ => n.value

theorem num_den {x : Rational} (h : x.Reduced) :
    x.value.num = numerator x ∧ (x.value.den : ℤ) = denominator x := by
  cases x with
  | integer n => exact ⟨Rat.num_intCast _, by simp [Rational.value, denominator]⟩
  | ratio n d =>
    obtain ⟨-, hd2, hg⟩ := h
    exact ⟨Rat.num_div_eq_of_coprime (by omega) hg, Rat.den_div_eq_of_coprime (by omega) hg⟩

theorem times_isBignum {x y : Integer} (hx : Canonical x) (hy : Canonical y) (hy0 : 0 < y.value) :
    (times x y).isFixnum = false ↔ BigProduct x.value y.value := by
  rw [BigProduct, ← value_times]
  by_cases h : (Operation.times x y).CrossesRange
  · have ht := times_crosses hx hy h
    rw [ht]
    simp only [Operation.CrossesRange] at h
    simp only [Integer.isFixnum, true_iff]
    exact Or.inr (h.resolve_left (by omega))
  · have hc := canonical_times hx hy h
    rw [Canonical] at hc
    rw [← hc, Bool.not_eq_true]
    simp only [Operation.CrossesRange, not_or] at h
    exact ⟨Or.inl, fun hor => hor.resolve_right h.2⟩

theorem isBignum_iff {x : Integer} (hx : Canonical x) : x.isFixnum = false ↔ BigProduct x.value 1 := by
  rw [Canonical] at hx
  rw [BigProduct, mul_one, ← hx, Bool.not_eq_true]
  exact ⟨Or.inl, fun hor => hor.resolve_right (by omega)⟩

theorem cross_isBignum {x y : Rational} (hx : x.Canonical) (hy : y.Canonical) :
    ((cross x y).1.isFixnum = false ↔ BigProduct x.value.num y.value.den) ∧
      ((cross x y).2.isFixnum = false ↔ BigProduct y.value.num x.value.den) := by
  obtain ⟨hxn, hxd⟩ := num_den hx.reduced
  obtain ⟨hyn, hyd⟩ := num_den hy.reduced
  rw [hxn, hxd, hyn, hyd]
  cases x with
  | integer n =>
    cases y with
    | integer m => exact ⟨isBignum_iff hx.num, isBignum_iff hy.num⟩
    | ratio m e =>
      obtain ⟨he, he2, -⟩ := hy.reduced
      exact ⟨times_isBignum hx.num he (by omega), isBignum_iff hy.num⟩
  | ratio n d =>
    obtain ⟨hd, hd2, -⟩ := hx.reduced
    cases y with
    | integer m => exact ⟨isBignum_iff hx.num, times_isBignum hy.num hd (by omega)⟩
    | ratio m e =>
      obtain ⟨he, he2, -⟩ := hy.reduced
      exact ⟨times_isBignum hx.num he (by omega), times_isBignum hy.num hd (by omega)⟩

theorem cross_eq {x y : Rational} (hx : x.Reduced) (hy : y.Reduced) :
    (cross x y).1.value = x.value.num * y.value.den ∧
      (cross x y).2.value = y.value.num * x.value.den := by
  obtain ⟨hxn, hxd⟩ := num_den hx
  obtain ⟨hyn, hyd⟩ := num_den hy
  rw [hxn, hxd, hyn, hyd]
  cases x <;> cases y <;> simp [cross, numerator, denominator, value_times]

theorem compareInteger_natAbs_le (a b : Integer) :
    (compareInteger a b).natAbs ≤ 1 ↔
      ¬ (a.isFixnum = false ∧ b.isFixnum = false ∧ 2 ≤ (mpzSize a.value - mpzSize b.value).natAbs) := by
  cases a with
  | fixnum n =>
    cases b with
    | fixnum m =>
      simp only [compareInteger, Integer.isFixnum, Bool.true_eq_false, false_and, not_false_eq_true,
        iff_true]
      split <;> [decide; (split <;> decide)]
    | bignum w =>
      simp only [compareInteger, Integer.isFixnum, Bool.true_eq_false, false_and, not_false_eq_true,
        iff_true]
      split <;> decide
  | bignum z =>
    cases b with
    | fixnum m =>
      simp only [compareInteger, Integer.isFixnum, Bool.true_eq_false, false_and, and_false,
        not_false_eq_true, iff_true]
      split <;> decide
    | bignum w =>
      simp only [compareInteger, Integer.isFixnum, value_bignum, true_and, bigCompare_natAbs_le]
      omega

theorem compareRational_spec {x y : Rational} (hx : x.Canonical) (hy : y.Canonical) :
    Orders (compareRational x y) x.value y.value ∧
      (compareRational x y = exactSign x.value y.value ↔ ¬ WidthsApart x.value y.value) := by
  have ho := orders_compareRational hx hy
  obtain ⟨h1, h2⟩ := cross_isBignum hx hy
  obtain ⟨hv1, hv2⟩ := cross_eq hx.reduced hy.reduced
  refine ⟨ho, ?_⟩
  rw [ho.eq_exactSign, compareRational, compareInteger_natAbs_le, h1, h2, hv1, hv2, WidthsApart]

theorem roundUnbounded_intCast {t : FloatType} (n : ℤ) :
    ∃ z : ℤ, (format t).roundUnbounded n = z := by
  by_cases h : 0 ≤ (format t).place n
  · rw [Format.roundUnbounded]
    refine ⟨roundEven ((n : ℚ) / 2 ^ (format t).place n) * 2 ^ ((format t).place n).toNat, ?_⟩
    have hp : (2 : ℚ) ^ (format t).place n = 2 ^ ((format t).place n).toNat := by
      rw [← zpow_natCast, Int.toNat_of_nonneg h]
    push_cast
    rw [hp]
  · -- An integer whose last place lies below the point is in the format.
    refine ⟨n, roundUnbounded_eq_self ⟨n, 0, ?_, ?_, by simp⟩⟩
    · have hlog : Int.log 2 |(n : ℚ)| + 1 ≤ (format t).precision := by
        rw [Format.place] at h
        omega
      have hlt : |(n : ℚ)| < 2 ^ (Int.log 2 |(n : ℚ)| + 1) := by
        exact_mod_cast Int.lt_zpow_succ_log_self (b := 2) (by norm_num) |(n : ℚ)|
      have hle : (2 : ℚ) ^ (Int.log 2 |(n : ℚ)| + 1) ≤ 2 ^ ((format t).precision : ℤ) :=
        zpow_le_zpow_right₀ (by norm_num) hlog
      have habs := lt_of_lt_of_le hlt hle
      rw [zpow_natCast, ← Int.cast_abs, Int.abs_eq_natAbs] at habs
      exact_mod_cast habs
    · cases t <;> decide

theorem onGrid_two_pow (t : FloatType) : (format t).OnGrid (2 ^ 61) := by
  refine ⟨1, 61, ?_, ?_, by norm_num⟩ <;> cases t <;> decide

theorem toFloat_fixnum {t : FloatType} {n : ℤ} (hn : FitsFixnum n) :
    ∃ z : ℤ, toFloat t n = .finite z ∧ (format t).roundUnbounded n = z ∧ -2 ^ 61 ≤ z ∧ z ≤ 2 ^ 61 := by
  obtain ⟨z, hz⟩ := roundUnbounded_intCast (t := t) n
  obtain ⟨hl, hu⟩ := hn
  simp only [mostNegativeFixnum, mostPositiveFixnum] at hl hu
  have hlow : (-2 ^ 61 : ℚ) ≤ z := by
    rw [← hz]
    exact le_roundUnbounded (onGrid_two_pow t).neg (by exact_mod_cast hl)
  have hhigh : (z : ℚ) ≤ 2 ^ 61 := by
    rw [← hz]
    exact roundUnbounded_le (onGrid_two_pow t) (by exact_mod_cast (show n ≤ 2 ^ 61 by omega))
  have hlt : |(z : ℚ)| < 2 ^ (format t).maxExponent := by
    have hle : |(z : ℚ)| ≤ 2 ^ (61 : ℤ) := abs_le.mpr ⟨by exact_mod_cast hlow, by exact_mod_cast hhigh⟩
    have hmax : (2 : ℚ) ^ (61 : ℤ) < 2 ^ (format t).maxExponent := by
      apply zpow_lt_zpow_right₀ (by norm_num)
      cases t <;> decide
    exact lt_of_le_of_lt hle hmax
  exact ⟨z, toFloat_of_lt hz hlt, hz, by exact_mod_cast hlow, by exact_mod_cast hhigh⟩

theorem compareFixnum_eq (n m : ℤ) : compareFixnum n m = exactSign n m := by
  unfold compareFixnum exactSign
  split
  · next h => rw [h, if_neg (lt_irrefl _), if_pos rfl]
  · next h =>
    split
    · next h' =>
      rw [if_neg (by exact_mod_cast h'.le.not_gt), if_neg (by exact_mod_cast h)]
    · next h' =>
      rw [if_pos (by exact_mod_cast (show n < m by omega))]

theorem castFixnum_intCast {z : ℤ} (hl : -2 ^ 61 ≤ z) (hu : z ≤ 2 ^ 61) : castFixnum (.finite z) = z := by
  rw [castFixnum, truncate_intCast, if_pos]
  constructor <;> omega

theorem exactSign_lt {p q : ℚ} (h : p < q) : exactSign p q = -1 := if_pos h

theorem exactSign_gt {p q : ℚ} (h : q < p) : exactSign p q = 1 := by
  rw [exactSign, if_neg h.le.not_gt, if_neg h.ne']

theorem exactSign_self (p : ℚ) : exactSign p p = 0 := by
  rw [exactSign, if_neg (lt_irrefl p), if_pos rfl]

theorem doubleFixCompare_finite {n : ℤ} {q : ℚ} (hn : FitsFixnum n) (hq : (format .double).OnGrid q) :
    doubleFixCompare n (.finite q) = exactSign n q := by
  obtain ⟨z, hz, hround, hl, hu⟩ := toFloat_fixnum (t := .double) hn
  rw [doubleFixCompare, hz]
  simp only [less, decide_eq_true_eq]
  split
  · next h =>
    rw [← hround] at h
    exact (exactSign_lt (lt_of_roundUnbounded_lt hq h)).symm
  · next h =>
    split
    · next h' =>
      rw [← hround] at h'
      exact (exactSign_gt (lt_of_lt_roundUnbounded hq h')).symm
    · next h' =>
      obtain rfl : q = z := le_antisymm (not_lt.mp h) (not_lt.mp h')
      rw [castFixnum_intCast hl hu, compareFixnum_eq]

theorem toFloat_long {n : ℤ} (hn : FitsFixnum n) : toFloat .long n = .finite n := by
  obtain ⟨z, hz, hround, -, -⟩ := toFloat_fixnum (t := .long) hn
  have hself : (format .long).roundUnbounded n = n := by
    apply roundUnbounded_eq_self
    refine ⟨n, 0, ?_, by decide, by simp⟩
    simp only [fits_iff] at hn
    simp only [format]
    omega
  rw [hz, ← hround, hself]

theorem longDoubleFixCompare_finite {n : ℤ} (q : ℚ) (hn : FitsFixnum n) :
    longDoubleFixCompare n (.finite q) = exactSign n q := by
  rw [longDoubleFixCompare, toFloat_long hn]
  simp only [less, decide_eq_true_eq]
  split
  · next h => exact (exactSign_lt h).symm
  · next h =>
    split
    · next h' => exact (exactSign_gt h').symm
    · next h' =>
      obtain rfl : q = n := le_antisymm (not_lt.mp h) (not_lt.mp h')
      exact (exactSign_self _).symm

theorem onGrid_double {t : FloatType} {q : ℚ} (ht : t ≠ .long) (h : (format t).OnGrid q) :
    (format .double).OnGrid q := by
  obtain ⟨m, e, hm, he, rfl⟩ := h
  refine ⟨m, e, lt_of_lt_of_le hm ?_, le_trans ?_ he, rfl⟩ <;> cases t <;> first | decide | contradiction

theorem fixCompare_finite {t : FloatType} {n : ℤ} {q : ℚ} (hn : FitsFixnum n)
    (hq : (format t).OnGrid q) : fixCompare t n (.finite q) = exactSign n q := by
  cases t with
  | long => exact longDoubleFixCompare_finite q hn
  | single => exact doubleFixCompare_finite hn (onGrid_double (by decide) hq)
  | double => exact doubleFixCompare_finite hn hq

theorem exactSign_swap (p q : ℚ) : -exactSign p q = exactSign q p := by
  rcases lt_trichotomy p q with h | rfl | h
  · rw [exactSign_lt h, exactSign_gt h, neg_neg]
  · rw [exactSign_self, neg_zero]
  · rw [exactSign_gt h, exactSign_lt h]

theorem compareFloat_finite (p q : ℚ) : compareFloat (.finite p) (.finite q) = exactSign p q := by
  rcases lt_trichotomy p q with h | rfl | h
  · simp [compareFloat, FloatValue.eq, less, h, h.ne, exactSign_lt h]
  · simp [compareFloat, FloatValue.eq, exactSign_self]
  · simp [compareFloat, FloatValue.eq, less, h.le.not_gt, h.ne', exactSign_gt h]

structure Compares (x y : RealNumber) (p q : ℚ) (c : ℤ) : Prop where
  result : numberCompare x y = .ok c
  orders : Orders c p q
  isSign : c = exactSign p q ↔ ¬ (ByRationals x y ∧ WidthsApart p q)

theorem compares_exactSign {x y : RealNumber} {p q : ℚ} (h : numberCompare x y = .ok (exactSign p q))
    (hby : ¬ ByRationals x y) : Compares x y p q (exactSign p q) where
  result := h
  orders := orders_exactSign p q
  isSign := ⟨fun _ hand => hby hand.1, fun _ => rfl⟩

theorem compares_rational {x y : RealNumber} {r s : Rational} (hr : r.Canonical) (hs : s.Canonical)
    (h : numberCompare x y = .ok (compareRational r s)) (hby : ByRationals x y) :
    Compares x y r.value s.value (compareRational r s) where
  result := h
  orders := (compareRational_spec hr hs).1
  isSign := by
    rw [(compareRational_spec hr hs).2]
    exact not_congr ⟨fun hw => ⟨hby, hw⟩, fun hand => hand.2⟩

section
variable {r s : Rational} {t : FloatType} {bits : ℕ} {q : ℚ}

theorem rationalised (f : Rational → ℤ) (c : ℤ) (hq : floatValue t bits = .finite q)
    (hs : clRational t (.finite q) = .ok s) :
    (if isInfinity (floatValue t bits) then .ok c
      else clRational t (floatValue t bits) >>= fun x => pure (f x)) =
      (.ok (f s) : Except ArithmeticError ℤ) := by
  rw [hq, hs]
  rfl

theorem numberCompare_rational_float (hr : ∀ n, r ≠ .integer (.fixnum n))
    (hq : floatValue t bits = .finite q) (hs : clRational t (.finite q) = .ok s) :
    numberCompare (.rational r) (.float t bits) = .ok (compareRational r s) ∧
      ByRationals (.rational r) (.float t bits) := by
  cases r with
  | integer x =>
    cases x with
    | fixnum n => exact absurd rfl (hr n)
    | bignum z =>
      exact ⟨rationalised (compareRational _) _ hq hs, trivial⟩
  | ratio n d => exact ⟨rationalised (compareRational _) _ hq hs, trivial⟩

theorem numberCompare_float_rational (hr : ∀ n, r ≠ .integer (.fixnum n))
    (hq : floatValue t bits = .finite q) (hs : clRational t (.finite q) = .ok s) :
    numberCompare (.float t bits) (.rational r) = .ok (compareRational s r) ∧
      ByRationals (.float t bits) (.rational r) := by
  cases r with
  | integer x =>
    cases x with
    | fixnum n => exact absurd rfl (hr n)
    | bignum z =>
      exact ⟨rationalised (compareRational · _) _ hq hs, trivial⟩
  | ratio n d => exact ⟨rationalised (compareRational · _) _ hq hs, trivial⟩

theorem compares_rational_float (hr : r.Canonical) (hq : floatValue t bits = .finite q) :
    ∃ c, Compares (.rational r) (.float t bits) r.value q c := by
  have hgrid := onGrid_floatValue hq
  by_cases hfix : ∃ n, r = .integer (.fixnum n)
  · obtain ⟨n, rfl⟩ := hfix
    refine ⟨_, compares_exactSign ?_ id⟩
    rw [numberCompare, hq, fixCompare_finite n.bounds hgrid]
    rfl
  · obtain ⟨s, hs, hv, hsc⟩ := clRational_spec hgrid
    obtain ⟨hc, hby⟩ := numberCompare_rational_float (not_exists.mp hfix) hq hs
    rw [← hv]
    exact ⟨_, compares_rational hr hsc hc hby⟩

theorem compares_float_rational (hr : r.Canonical) (hq : floatValue t bits = .finite q) :
    ∃ c, Compares (.float t bits) (.rational r) q r.value c := by
  have hgrid := onGrid_floatValue hq
  by_cases hfix : ∃ n, r = .integer (.fixnum n)
  · obtain ⟨n, rfl⟩ := hfix
    refine ⟨_, compares_exactSign ?_ id⟩
    rw [numberCompare, hq, fixCompare_finite n.bounds hgrid, exactSign_swap]
    rfl
  · obtain ⟨s, hs, hv, hsc⟩ := clRational_spec hgrid
    obtain ⟨hc, hby⟩ := numberCompare_float_rational (not_exists.mp hfix) hq hs
    rw [← hv]
    exact ⟨_, compares_rational hsc hr hc hby⟩

end

theorem exists_compares {x y : RealNumber} {p q : ℚ} (hx : x.Denotes p) (hy : y.Denotes q) :
    ∃ c, Compares x y p q c := by
  cases x with
  | rational r =>
    obtain ⟨hr, rfl⟩ := hx
    cases y with
    | rational s =>
      obtain ⟨hs, rfl⟩ := hy
      exact ⟨_, compares_rational hr hs rfl trivial⟩
    | float t bits => exact compares_rational_float hr hy
  | float t bits =>
    cases y with
    | rational s =>
      obtain ⟨hs, rfl⟩ := hy
      exact compares_float_rational hs hx
    | float t' bits' =>
      refine ⟨_, compares_exactSign ?_ id⟩
      rw [numberCompare, show floatValue t bits = .finite p from hx,
        show floatValue t' bits' = .finite q from hy, compareFloat_finite]

/-- The comparison of finite real numbers always orders them as their exact values are ordered,
antisymmetrically and transitively, and its result is the sign of their difference unless they
are compared as bignums whose sizes are not adjacent. -/
theorem numberCompare_exact {x y : RealNumber} {p q : ℚ} (hx : x.Denotes p) (hy : y.Denotes q) :
    ∃ c, numberCompare x y = .ok c ∧ Orders c p q ∧
      (c = exactSign p q ↔ ¬ (ByRationals x y ∧ WidthsApart p q)) ∧
      (∃ d, numberCompare y x = .ok d ∧ (d < 0 ↔ 0 < c) ∧ (d = 0 ↔ c = 0)) ∧
      ∀ z r, z.Denotes r → ∃ d e, numberCompare y z = .ok d ∧ numberCompare x z = .ok e ∧
        (c ≤ 0 → d ≤ 0 → e ≤ 0) := by
  obtain ⟨c, hc⟩ := exists_compares hx hy
  obtain ⟨d, hd⟩ := exists_compares hy hx
  have hle {a : ℤ} {u v : ℚ} (h : Orders a u v) : a ≤ 0 ↔ u ≤ v := by
    rw [← not_lt, h.pos_iff, not_lt]
  refine ⟨c, hc.result, hc.orders, hc.isSign, ⟨d, hd.result, ?_, ?_⟩, ?_⟩
  · rw [hd.orders.1, hc.orders.pos_iff]
  · rw [hd.orders.2, hc.orders.2, eq_comm]
  · intro z r hz
    obtain ⟨d, hd⟩ := exists_compares hy hz
    obtain ⟨e, he⟩ := exists_compares hx hz
    refine ⟨d, e, hd.result, he.result, fun h1 h2 => ?_⟩
    rw [hle he.orders]
    exact ((hle hc.orders).mp h1).trans ((hle hd.orders).mp h2)

/-- The double 2^53 is less than the fixnum 2^53 + 1. -/
theorem numberCompare_exact_double :
    ∃ c, numberCompare (.float .double 0x4340000000000000)
        (.rational (.integer (makeFixnum (2 ^ 53 + 1)))) = .ok c ∧
      Orders c (2 ^ 53) (2 ^ 53 + 1 : ℤ) := by
  have hx : floatValue .double 0x4340000000000000 = .finite (2 ^ 53) := by decide +kernel
  obtain ⟨c, hc, ho, -⟩ := numberCompare_exact
    (x := .float .double 0x4340000000000000) (y := .rational (.integer (makeFixnum (2 ^ 53 + 1))))
    (p := 2 ^ 53) (q := (2 ^ 53 + 1 : ℤ)) hx
    ⟨⟨canonical_makeFixnum _, trivial⟩, congrArg Int.cast (value_makeFixnum (by decide))⟩
  exact ⟨c, hc, ho⟩

/-- 2^200 is compared with 2^100 by the two limbs that it has more. -/
theorem compare_two_limbs_apart :
    (RealNumber.rational (.integer (.bignum (2 ^ 200)))).Denotes (2 ^ 200 : ℤ) ∧
      (RealNumber.rational (.integer (.bignum (2 ^ 100)))).Denotes (2 ^ 100 : ℤ) ∧
      numberCompare (.rational (.integer (.bignum (2 ^ 200))))
        (.rational (.integer (.bignum (2 ^ 100)))) = .ok 2 ∧
      exactSign (2 ^ 200 : ℤ) (2 ^ 100 : ℤ) = 1 := by
  refine ⟨⟨⟨?_, trivial⟩, rfl⟩, ⟨⟨?_, trivial⟩, rfl⟩, ?_, ?_⟩
  · exact canonical_bignum.mpr (by decide)
  · exact canonical_bignum.mpr (by decide)
  · decide +kernel
  · decide +kernel

end NumberCompare
