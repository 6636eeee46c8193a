import Ecl.Rationals
import Mathlib.Data.Nat.Log

/-! The rational cases of ecl_number_compare in src/c/numbers/number_compare.d, with mpz_cmp
of src/gmp/mpz/cmp.c. -/
namespace RationalCompare

open Integers CanonicalIntegers Rationals

def limbs (n : ℕ) : ℕ := if n = 0 then 0 else Nat.log (2 ^ 64) n + 1

/-- The size field of an mpz_t: its limbs, with the sign of the number. -/
def mpzSize (z : ℤ) : ℤ := if z < 0 then -limbs z.natAbs else limbs z.natAbs

/-- mpz_cmp gives the difference of the sizes before it looks at a limb. -/
def bigCompare (u v : ℤ) : ℤ :=
  if mpzSize u - mpzSize v ≠ 0 then mpzSize u - mpzSize v
  else if u < v then -1 else if u = v then 0 else 1

def compareInteger : Integer → Integer → ℤ
  | .fixnum ix, .fixnum iy =>
    if ix.toInt < iy.toInt then -1 else if ix.toInt ≠ iy.toInt then 1 else 0
  | .fixnum _, .bignum y => if y < 0 then 1 else -1
  | .bignum x, .fixnum _ => if x < 0 then -1 else 1
  | .bignum x, .bignum y => bigCompare x y

def cross : Rational → Rational → Integer × Integer
  | .integer x, .integer y => (x, y)
  | .integer x, .ratio n d => (times x d, n)
  | .ratio n d, .integer y => (n, times y d)
  | .ratio n d, .ratio n' d' => (times n d', times n' d)

def compareRational (x y : Rational) : ℤ := compareInteger (cross x y).1 (cross x y).2

def Orders (c : ℤ) (x y : ℚ) : Prop := (c < 0 ↔ x < y) ∧ (c = 0 ↔ x = y)

def exactSign (x y : ℚ) : ℤ := if x < y then -1 else if x = y then 0 else 1

theorem orders_exactSign (x y : ℚ) : Orders (exactSign x y) x y := by
  unfold exactSign
  split
  · next h => simp [Orders, h, h.ne]
  · next h => split <;> simp_all [Orders]

theorem Orders.pos_iff {c : ℤ} {x y : ℚ} (h : Orders c x y) : 0 < c ↔ y < x := by
  obtain ⟨hlt, heq⟩ := h
  rw [← not_le, ← not_le, le_iff_lt_or_eq, le_iff_lt_or_eq, hlt, heq]

theorem Orders.eq_exactSign {c : ℤ} {x y : ℚ} (h : Orders c x y) :
    c = exactSign x y ↔ c.natAbs ≤ 1 := by
  have hpos := h.pos_iff
  obtain ⟨hlt, heq⟩ := h
  unfold exactSign
  split
  · next hxy =>
    have := hlt.mpr hxy
    omega
  · next hxy =>
    have hc := mt hlt.mp hxy
    split
    · next hxy' =>
      have := heq.mpr hxy'
      omega
    · next hxy' =>
      have := mt heq.mp hxy'
      omega

theorem Orders.of_int {c a b : ℤ} (hlt : c < 0 ↔ a < b) (heq : c = 0 ↔ a = b) :
    Orders c (a : ℚ) b := ⟨by exact_mod_cast hlt, by exact_mod_cast heq⟩

theorem Orders.of_mul {c : ℤ} {x y k : ℚ} (hk : 0 < k) (h : Orders c (x * k) (y * k)) :
    Orders c x y := by
  obtain ⟨hlt, heq⟩ := h
  exact ⟨hlt.trans (mul_lt_mul_iff_left₀ hk), heq.trans (mul_left_inj' hk.ne')⟩

theorem limbs_mono {m n : ℕ} (h : m ≤ n) : limbs m ≤ limbs n := by
  unfold limbs
  split
  · exact Nat.zero_le _
  · rw [if_neg (by omega)]
    exact Nat.add_le_add_right (Nat.log_mono_right h) 1

theorem mpzSize_mono {u v : ℤ} (h : u ≤ v) : mpzSize u ≤ mpzSize v := by
  unfold mpzSize
  split
  · next hu =>
    split
    · next hv =>
      have := limbs_mono (show v.natAbs ≤ u.natAbs by omega)
      omega
    · omega
  · next hu =>
    rw [if_neg (by omega)]
    have := limbs_mono (show u.natAbs ≤ v.natAbs by omega)
    omega

theorem orders_bigCompare (u v : ℤ) : Orders (bigCompare u v) u v := by
  have huv : mpzSize u < mpzSize v → u < v := fun h =>
    lt_of_not_ge (fun hle => absurd (mpzSize_mono hle) (by omega))
  have hvu : mpzSize v < mpzSize u → v < u := fun h =>
    lt_of_not_ge (fun hle => absurd (mpzSize_mono hle) (by omega))
  apply Orders.of_int <;> unfold bigCompare <;> split
  · constructor
    · intro h
      exact huv (by omega)
    · intro h
      have := mpzSize_mono h.le
      omega
  · split
    · simp_all
    · split <;> simp_all
  · constructor
    · intro h
      omega
    · rintro rfl
      omega
  · split
    · next h => simp [h.ne]
    · split <;> simp_all

theorem bigCompare_natAbs_le (u v : ℤ) :
    (bigCompare u v).natAbs ≤ 1 ↔ (mpzSize u - mpzSize v).natAbs ≤ 1 := by
  unfold bigCompare
  split
  · exact Iff.rfl
  · next h =>
    rw [not_not] at h
    simp only [h, Int.natAbs_zero, Nat.zero_le, iff_true]
    split
    · decide
    · split <;> decide

def Nearly (x : Integer) : Prop := Canonical x ∨ x = .bignum mostNegativeFixnum

theorem nearly_times {x y : Integer} (hx : Canonical x) (hy : Canonical y) : Nearly (times x y) := by
  by_cases h : (Operation.times x y).CrossesRange
  · exact Or.inr (times_crosses hx hy h)
  · exact Or.inl (canonical_times hx hy h)

theorem Nearly.bignum {z : ℤ} (h : Nearly (.bignum z)) : z ≤ mostNegativeFixnum ∨ mostPositiveFixnum < z := by
  rcases h with h | h
  · have := canonical_bignum.mp h
    simp only [FitsFixnum, mostNegativeFixnum, mostPositiveFixnum] at *
    omega
  · rw [Integer.bignum.inj h]
    exact Or.inl le_rfl

/-- Comparison goes by the representation, so that equal numbers have to have the same one. -/
theorem orders_compareInteger {a b : Integer} (ha : Nearly a) (hb : Nearly b)
    (h : a.value = b.value → a.isFixnum = b.isFixnum) :
    Orders (compareInteger a b) a.value b.value := by
  cases a with
  | fixnum n =>
    cases b with
    | fixnum m =>
      simp only [compareInteger, value_fixnum]
      apply Orders.of_int <;> split <;> [simp_all; (split <;> simp_all); omega; (split <;> omega)]
    | bignum w =>
      have hne : n.toInt ≠ w := fun e => by simpa [Integer.isFixnum] using h e
      obtain ⟨hl, hu⟩ := n.bounds
      have hw := hb.bignum
      simp only [mostNegativeFixnum, mostPositiveFixnum] at *
      simp only [compareInteger, value_fixnum, value_bignum]
      apply Orders.of_int <;> split <;> omega
  | bignum z =>
    cases b with
    | fixnum m =>
      have hne : z ≠ m.toInt := fun e => by simpa [Integer.isFixnum] using h e
      obtain ⟨hl, hu⟩ := m.bounds
      have hz := ha.bignum
      simp only [mostNegativeFixnum, mostPositiveFixnum] at *
      simp only [compareInteger, value_fixnum, value_bignum]
      apply Orders.of_int <;> split <;> omega
    | bignum w => exact orders_bigCompare z w

theorem eq_of_canonical_value {x y : Integer} (hx : Canonical x) (hy : Canonical y)
    (h : x.value = y.value) : x = y := by
  have heql := (eql_iff_value hx hy).mpr h.symm
  cases x <;> cases y <;> simp_all [Integer.eql]

theorem not_integer_of_reduced {n d : Integer} (h : (Rational.ratio n d).Reduced) (z : ℤ) :
    (Rational.ratio n d).value ≠ z := by
  obtain ⟨-, hd, hg⟩ := h
  intro e
  have hq : (n.value : ℚ) = z * d.value := by
    rw [← e, Rational.value, div_mul_cancel₀]
    have : d.value ≠ 0 := by omega
    exact_mod_cast this
  have hz : n.value = z * d.value := by exact_mod_cast hq
  rw [hz, Int.gcd_mul_left_left] at hg
  omega

theorem eq_of_value_eq {x y : Rational} (hx : x.Canonical) (hy : y.Canonical)
    (h : x.value = y.value) : x = y := by
  cases x with
  | integer n =>
    cases y with
    | integer m => rw [eq_of_canonical_value hx.num hy.num (by simpa [Rational.value] using h)]
    | ratio m e => exact absurd h.symm (not_integer_of_reduced hy.reduced n.value)
  | ratio n d =>
    cases y with
    | integer m => exact absurd h (not_integer_of_reduced hx.reduced m.value)
    | ratio m e =>
      obtain ⟨hd, hd2, hdg⟩ := hx.reduced
      obtain ⟨he, he2, heg⟩ := hy.reduced
      obtain ⟨hnum, hden⟩ := Rat.div_int_inj (by omega) (by omega) hdg heg h
      rw [eq_of_canonical_value hx.num hy.num hnum, eq_of_canonical_value hd he hden]

def denominator : Rational → ℤ
  | .integer _ => 1
  | .ratio _ d => d.value

theorem denominator_pos {x : Rational} (h : x.Reduced) : 0 < denominator x := by
  cases x with
  | integer n => exact Int.one_pos
  | ratio n d =>
    have := h.2.1
    simp only [denominator]
    omega

theorem cross_value {x y : Rational} (hx : x.Reduced) (hy : y.Reduced) :
    ((cross x y).1.value : ℚ) = x.value * (denominator x * denominator y) ∧
      ((cross x y).2.value : ℚ) = y.value * (denominator x * denominator y) := by
  have hdx : (denominator x : ℚ) ≠ 0 := by exact_mod_cast (denominator_pos hx).ne'
  have hdy : (denominator y : ℚ) ≠ 0 := by exact_mod_cast (denominator_pos hy).ne'
  cases x <;> cases y <;>
    simp only [cross, Rational.value, denominator, value_times, Int.cast_mul] at * <;>
    constructor <;> field_simp <;> push_cast <;> ring

theorem nearly_cross {x y : Rational} (hx : x.Canonical) (hy : y.Canonical) :
    Nearly (cross x y).1 ∧ Nearly (cross x y).2 := by
  cases x with
  | integer n =>
    cases y with
    | integer m => exact ⟨Or.inl hx.num, Or.inl hy.num⟩
    | ratio m e => exact ⟨nearly_times hx.num hy.reduced.1, Or.inl hy.num⟩
  | ratio n d =>
    cases y with
    | integer m => exact ⟨Or.inl hx.num, nearly_times hy.num hx.reduced.1⟩
    | ratio m e => exact ⟨nearly_times hx.num hy.reduced.1, nearly_times hy.num hx.reduced.1⟩

theorem orders_compareRational {x y : Rational} (hx : x.Canonical) (hy : y.Canonical) :
    Orders (compareRational x y) x.value y.value := by
  obtain ⟨h1, h2⟩ := cross_value hx.reduced hy.reduced
  have hk : (0 : ℚ) < denominator x * denominator y := by
    have := denominator_pos hx.reduced
    have := denominator_pos hy.reduced
    positivity
  apply Orders.of_mul hk
  rw [← h1, ← h2]
  apply orders_compareInteger (nearly_cross hx hy).1 (nearly_cross hx hy).2
  intro h
  have hv : x.value = y.value := by
    apply mul_right_cancel₀ hk.ne'
    rw [← h1, ← h2, h]
  rw [eq_of_value_eq hx hy hv]
  cases y <;> rfl

end RationalCompare
