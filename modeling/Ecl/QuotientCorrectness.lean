import Ecl.FloatFormats
import Ecl.Quotients
import Mathlib.Tactic.IntervalCases

/-! The quotients of rationals are exact, unless they are brought to the division of the most
negative fixnum by -1. -/
namespace Quotients

open Integers CanonicalIntegers Rationals RationalCompare FloatFormats

theorem Splits.scale {P : ℚ → Prop} {a b : ℤ} {p : Integer × Integer} (h : Splits P a b p)
    {x y r k : ℚ} (hk : k ≠ 0) (hx : x = a / k) (hy : y = b / k)
    (hr : r = p.2.value / k) : x = p.1.value * y + r ∧ P (r / y) := by
  have hsum : (a : ℚ) = p.1.value * b + p.2.value := by exact_mod_cast h.exact
  have hfrac : r / y = p.2.value / b := by
    rw [hr, hy]
    exact div_div_div_cancel_right₀ hk _ _
  constructor
  · rw [hx, hy, hr, hsum]
    ring
  · rw [hfrac]
    exact h.fraction

/-- A numerator that comes out as the most negative fixnum comes from two fixnums. -/
theorem overflows_of_times {x d n : Integer} (hd : Canonical d) (hd2 : 2 ≤ d.value)
    (h1 : times x d = makeFixnum mostNegativeFixnum) (h2 : n = makeFixnum (-1)) :
    Overflows (.integer x) (.ratio n d) := by
  have hv : x.value * d.value = mostNegativeFixnum := by
    rw [← value_times, h1]
    decide
  have hz {z : ℤ} {i : Fixnum} (hi : i.toInt ≠ 0) : (bigTimesFix z i).isFixnum = false := by
    have hi0 : i ≠ 0 := fun e => hi (by rw [e]; rfl)
    unfold bigTimesFix
    rw [if_neg hi0]
    split <;> rfl
  subst h2
  cases x with
  | fixnum a =>
    cases d with
    | fixnum e => exact ⟨hv, by decide⟩
    | bignum e =>
      have ha : a.toInt ≠ 0 := by
        intro h
        rw [value_fixnum, h, zero_mul] at hv
        exact absurd hv (by decide)
      have := hz (z := e) ha
      rw [show bigTimesFix e a = _ from h1] at this
      exact absurd this (by decide)
  | bignum z =>
    cases d with
    | fixnum e =>
      have := hz (z := z) (i := e) (by simp only [value_fixnum] at hd2; omega)
      rw [show bigTimesFix z e = _ from h1] at this
      exact absurd this (by decide)
    | bignum e => exact absurd (congrArg Integer.isFixnum h1) Bool.false_ne_true

theorem bind_ok {ε α β : Type} {m : Except ε α} {a : α} (h : m = .ok a) (f : α → Except ε β) :
    m >>= f = f a := by
  rw [h]
  rfl

section
variable {P : ℚ → Prop} {fix big : ℤ → ℤ → Integer × Integer}
  (hfix : ∀ a b, Divisible a b → Splits P a b (fix a b))
  (hbig : ∀ a b, b ≠ 0 → Splits P a b (big a b))
include hfix hbig

theorem divideIntegers_spec {x y : Integer} (h0 : y.value ≠ 0)
    (h : ¬ (x = makeFixnum mostNegativeFixnum ∧ y = makeFixnum (-1))) :
    ∃ p, divideIntegers fix big x y = .ok p ∧ Splits P x.value y.value p := by
  cases x with
  | fixnum n =>
    cases y with
    | fixnum m =>
      have hm : m ≠ 0 := fun e => h0 (by rw [e]; rfl)
      refine ⟨_, if_neg hm, hfix _ _ ⟨n.bounds, m.bounds, h0, ?_⟩⟩
      rintro ⟨h1, h2⟩
      exact h ⟨(eq_makeFixnum (canonical_fixnum n) (by decide)).mpr h1,
        (eq_makeFixnum (canonical_fixnum m) (by decide)).mpr h2⟩
    | bignum w => exact ⟨_, rfl, hbig _ _ h0⟩
  | bignum z =>
    cases y with
    | fixnum m =>
      have hm : m ≠ 0 := fun e => h0 (by rw [e]; rfl)
      exact ⟨_, if_neg hm, hbig _ _ h0⟩
    | bignum w => exact ⟨_, rfl, hbig _ _ h0⟩

theorem divideRationals_spec {x y : Rational} (hx : x.Canonical) (hy : y.Canonical)
    (h0 : y.value ≠ 0) (h : ¬ Overflows x y) :
    ∃ q r, divideRationals fix big x y = .ok (q, r) ∧ x.value = q.value * y.value + r.value ∧
      P (r.value / y.value) ∧ Canonical q := by
  cases x with
  | integer n =>
    cases y with
    | integer m =>
      have hm : m.value ≠ 0 := by simpa [Rational.value] using h0
      have hov : ¬ (n = makeFixnum mostNegativeFixnum ∧ m = makeFixnum (-1)) := by
        rintro ⟨rfl, rfl⟩
        exact h ⟨by decide, by decide⟩
      obtain ⟨p, hp, hs⟩ := divideIntegers_spec hfix hbig hm hov
      obtain ⟨h1, h2⟩ := hs.scale (x := n.value) (y := m.value) (r := p.2.value) one_ne_zero
        (by ring) (by ring) (by ring)
      exact ⟨p.1, .integer p.2, bind_ok hp _, h1, h2, hs.canonical⟩
    | ratio m e =>
      obtain ⟨he, he2, -⟩ := hy.reduced
      have hm : m.value ≠ 0 := num_ne_zero h0
      have heq : (e.value : ℚ) ≠ 0 := by exact_mod_cast (value_pos_of_two_le he2).ne'
      obtain ⟨p, hp, hs⟩ := divideIntegers_spec hfix hbig hm
        (fun hov => h (overflows_of_times he he2 hov.1 hov.2))
      obtain ⟨r, hr, hrv, -⟩ := makeRatio_spec p.2 (value_pos_of_two_le he2).ne' (fun _ => he)
      obtain ⟨h1, h2⟩ := hs.scale (x := n.value) (y := (Rational.ratio m e).value) heq
        (by rw [value_times]; push_cast; field_simp) rfl hrv
      exact ⟨p.1, r, (bind_ok hp _).trans (bind_ok hr _), h1, h2, hs.canonical⟩
  | ratio n d =>
    obtain ⟨hd, hd2, -⟩ := hx.reduced
    have hdpos := value_pos_of_two_le hd2
    have hdq : (d.value : ℚ) ≠ 0 := by exact_mod_cast hdpos.ne'
    have hno {m : Integer} : times d m ≠ makeFixnum (-1) := by
      intro e
      have hv : d.value * m.value = -1 := by rw [← value_times, e]; decide
      have hdvd : d.value ∣ 1 := (Int.dvd_neg).mp ⟨m.value, hv.symm⟩
      have := Int.le_of_dvd one_pos hdvd
      omega
    cases y with
    | integer m =>
      have hm : m.value ≠ 0 := by simpa [Rational.value] using h0
      have hdm : (times d m).value ≠ 0 := times_ne_zero hdpos.ne' hm
      obtain ⟨p, hp, hs⟩ := divideIntegers_spec hfix hbig hdm (fun hov => hno hov.2)
      obtain ⟨r, hr, hrv, -⟩ := makeRatio_spec p.2 hdpos.ne' (fun _ => hd)
      obtain ⟨h1, h2⟩ := hs.scale (x := (Rational.ratio n d).value) (y := m.value) hdq rfl
        (by rw [value_times]; push_cast; field_simp) hrv
      exact ⟨p.1, r, (bind_ok hp _).trans (bind_ok hr _), h1, h2, hs.canonical⟩
    | ratio m e =>
      obtain ⟨he, he2, -⟩ := hy.reduced
      have hm : m.value ≠ 0 := num_ne_zero h0
      have heq : (e.value : ℚ) ≠ 0 := by exact_mod_cast (value_pos_of_two_le he2).ne'
      have hdm : (times d m).value ≠ 0 := times_ne_zero hdpos.ne' hm
      obtain ⟨hc, hde⟩ := canonical_times_den hd he hd2 he2
      obtain ⟨p, hp, hs⟩ :=
        divideIntegers_spec hfix hbig (x := times n e) hdm (fun hov => hno hov.2)
      obtain ⟨r, hr, hrv, -⟩ := makeRatio_spec p.2 hde (fun _ => hc)
      obtain ⟨h1, h2⟩ := hs.scale (x := (Rational.ratio n d).value) (y := (Rational.ratio m e).value)
        (by exact_mod_cast hde)
        (by rw [Rational.value, value_times, value_times]; push_cast; field_simp)
        (by rw [Rational.value, value_times, value_times]; push_cast; field_simp) hrv
      exact ⟨p.1, r, (bind_ok hp _).trans (bind_ok hr _), h1, h2, hs.canonical⟩

end

theorem value_neg_iff {x : Rational} (hx : x.Reduced) : x.minusp = true ↔ x.value < 0 := by
  cases x with
  | integer n =>
    rw [Rational.minusp, minusp_iff, Rational.value]
    norm_cast
  | ratio n d =>
    have hd : (0 : ℚ) < d.value := by exact_mod_cast value_pos_of_two_le hx.2.1
    rw [Rational.minusp, minusp_iff, Rational.value, div_neg_iff]
    constructor
    · intro h
      exact Or.inr ⟨by exact_mod_cast h, hd⟩
    · rintro (⟨-, h⟩ | ⟨h, -⟩)
      · exact absurd h (not_lt.mpr hd.le)
      · exact_mod_cast h

theorem value_pos_iff {x : Rational} (hx : x.Reduced) : x.plusp = true ↔ 0 < x.value := by
  cases x with
  | integer n =>
    rw [Rational.plusp, plusp_iff, Rational.value]
    norm_cast
  | ratio n d =>
    have hd : (0 : ℚ) < d.value := by exact_mod_cast value_pos_of_two_le hx.2.1
    rw [Rational.plusp, plusp_iff, Rational.value, div_pos_iff_of_pos_right hd]
    norm_cast

theorem oddp_iff (x : Integer) : oddp x = true ↔ ¬ Even x.value := by
  cases x <;> simp [oddp, Int.even_iff]

theorem onePlus_spec (x : Integer) : (onePlus x).value = x.value + 1 ∧ Canonical (onePlus x) := by
  cases x with
  | fixnum n =>
    rw [onePlus]
    split
    · next h =>
      rw [value_makeInteger, value_fixnum, h]
      exact ⟨rfl, canonical_makeInteger _⟩
    · next h =>
      obtain ⟨hl, hu⟩ := n.bounds
      exact ⟨value_makeFixnum ⟨by omega, by omega⟩, canonical_makeFixnum _⟩
  | bignum z =>
    rw [onePlus]
    refine ⟨?_, canonical_plus _ _⟩
    rw [value_plus, value_makeFixnum (by decide)]

theorem oneMinus_spec (x : Integer) : (oneMinus x).value = x.value - 1 ∧ Canonical (oneMinus x) := by
  cases x with
  | fixnum n =>
    rw [oneMinus]
    split
    · next h =>
      rw [value_makeInteger, value_fixnum, h]
      exact ⟨rfl, canonical_makeInteger _⟩
    · next h =>
      obtain ⟨hl, hu⟩ := n.bounds
      exact ⟨value_makeFixnum ⟨by omega, by omega⟩, canonical_makeFixnum _⟩
  | bignum z =>
    rw [oneMinus]
    refine ⟨?_, canonical_minus _ _⟩
    rw [value_minus, value_makeFixnum (by decide)]

theorem canonical_half : plusHalf.Canonical ∧ minusHalf.Canonical :=
  ⟨⟨canonical_makeFixnum _, canonical_makeFixnum _, by decide, by decide⟩,
    ⟨canonical_makeFixnum _, canonical_makeFixnum _, by decide, by decide⟩⟩

theorem value_half : plusHalf.value = 1 / 2 ∧ minusHalf.value = -(1 / 2) := by
  simp only [plusHalf, minusHalf, Rational.value, value_makeFixnum (show FitsFixnum 1 by decide),
    value_makeFixnum (show FitsFixnum 2 by decide), value_makeFixnum (show FitsFixnum (-1) by decide)]
  norm_num

theorem adjust_spec {q : Integer} {r : Rational} (hq : Canonical q) (hr : r.Canonical)
    (hlt : |r.value| < 1) :
    Nearest (adjust q r).value (q.value + r.value) ∧ Canonical (adjust q r) := by
  obtain ⟨hl, hu⟩ := abs_lt.mp hlt
  obtain ⟨hcp, hcm⟩ := canonical_half
  obtain ⟨hvp, hvm⟩ := value_half
  unfold adjust
  split
  · next hneg =>
    rw [value_neg_iff hr.reduced] at hneg
    have hc := orders_compareRational hcm hr
    have hgt := hc.pos_iff
    have heq := hc.2
    rw [hvm] at hgt heq
    split
    · next h =>
      obtain ⟨hv, hcan⟩ := oneMinus_spec q
      refine ⟨?_, hcan⟩
      have hdist : (q.value : ℚ) + r.value - (oneMinus q).value = r.value + 1 := by
        rw [hv]
        push_cast
        ring
      rcases h with h | ⟨h, hodd⟩
      · have hlow := hgt.mp h
        apply nearest_of_abs_lt
        rw [hdist, abs_lt]
        constructor <;> linarith
      · have hhalf := heq.mp h
        refine ⟨by rw [hdist, ← hhalf]; norm_num, fun _ => ?_⟩
        rw [oddp_iff, Int.not_even_iff_odd] at hodd
        rw [hv]
        exact hodd.sub_odd odd_one
    · next h =>
      refine ⟨?_, hq⟩
      rw [not_or] at h
      have hdist : (q.value : ℚ) + r.value - q.value = r.value := by ring
      have hge : -(1 / 2) ≤ r.value := not_lt.mp (mt hgt.mpr h.1)
      refine ⟨by rw [hdist, abs_le]; constructor <;> linarith, fun e => ?_⟩
      rw [hdist, abs_of_neg hneg] at e
      by_contra hodd
      exact h.2 ⟨heq.mpr (by linarith), (oddp_iff q).mpr hodd⟩
  · next hneg =>
    rw [value_neg_iff hr.reduced, not_lt] at hneg
    have hc := orders_compareRational hr hcp
    have hgt := hc.pos_iff
    have heq := hc.2
    rw [hvp] at hgt heq
    split
    · next h =>
      obtain ⟨hv, hcan⟩ := onePlus_spec q
      refine ⟨?_, hcan⟩
      have hdist : (q.value : ℚ) + r.value - (onePlus q).value = r.value - 1 := by
        rw [hv]
        push_cast
        ring
      rcases h with h | ⟨h, hodd⟩
      · have hlow := hgt.mp h
        apply nearest_of_abs_lt
        rw [hdist, abs_lt]
        constructor <;> linarith
      · have hhalf := heq.mp h
        refine ⟨by rw [hdist, hhalf]; norm_num, fun _ => ?_⟩
        rw [oddp_iff, Int.not_even_iff_odd] at hodd
        rw [hv]
        exact hodd.add_odd odd_one
    · next h =>
      refine ⟨?_, hq⟩
      rw [not_or] at h
      have hdist : (q.value : ℚ) + r.value - q.value = r.value := by ring
      have hge : r.value ≤ 1 / 2 := not_lt.mp (mt hgt.mpr h.1)
      refine ⟨by rw [hdist, abs_le]; constructor <;> linarith, fun e => ?_⟩
      rw [hdist, abs_of_nonneg hneg] at e
      by_contra hodd
      exact h.2 ⟨heq.mpr e, (oddp_iff q).mpr hodd⟩

theorem tdiv_close {n d : ℤ} (hd : 0 < d) : |(n / d : ℚ) - n.tdiv d| < 1 := by
  obtain ⟨hsum, habs, -, -⟩ := tmod_facts n hd.ne'
  have hdq : (0 : ℚ) < d := by exact_mod_cast hd
  have hr : (n / d : ℚ) - n.tdiv d = n.tmod d / d := by
    have : (n : ℚ) = n.tdiv d * d + n.tmod d := by exact_mod_cast hsum
    rw [eq_div_iff hdq.ne', sub_mul, div_mul_cancel₀ _ hdq.ne']
    linarith
  have hlt : |n.tmod d| < d := by
    rw [Int.abs_eq_natAbs]
    omega
  rw [hr, abs_div, abs_of_pos hdq, div_lt_one hdq]
  exact_mod_cast hlt

theorem round2Integer_spec {x y : Rational} {n d : Integer} (hx : x.Canonical) (hy : y.Canonical)
    (hq : (Rational.ratio n d).Reduced)
    (hv : (Rational.ratio n d).value = x.value / y.value) :
    ∃ q r, round2Integer x y n d = .ok (q, r) ∧ x.value = q.value * y.value + r.value ∧
      Nearest q.value (x.value / y.value) ∧ Canonical q := by
  have hd := value_pos_of_two_le hq.2.1
  obtain ⟨q1, hq1, hq1v, hq1c⟩ := correct_integerDivide (x := n) (y := d) hd.ne' (by
    rintro ⟨-, h⟩
    omega)
  obtain ⟨r, hr, hrv, hrc⟩ := minus_spec hq (show (Rational.integer q1).Reduced from trivial)
  have hlt : |r.value| < 1 := by
    rw [hrv, Rational.value, Rational.value, hq1v]
    exact tdiv_close hd
  obtain ⟨hnear, hcan⟩ := adjust_spec hq1c hrc hlt
  have hqr : (q1.value : ℚ) + r.value = x.value / y.value := by
    rw [hrv, hv, Rational.value]
    ring
  rw [hqr] at hnear
  obtain ⟨z, hz, hzv, hzr⟩ :=
    times_spec (show (Rational.integer (adjust q1 r)).Reduced from trivial) hy.reduced
  obtain ⟨w, hw, hwv, -⟩ := minus_spec hx.reduced hzr
  have hrem : numberRemainder x y (adjust q1 r) = .ok w := (bind_ok hz _).trans hw
  refine ⟨adjust q1 r, w, ?_, ?_, hnear, hcan⟩
  · exact (bind_ok hq1 _).trans ((bind_ok hr _).trans (bind_ok hrem _))
  · rw [hwv, hzv, Rational.value]
    ring

theorem round2_spec {x y : Rational} (hx : x.Canonical) (hy : y.Canonical) (h0 : y.value ≠ 0) :
    ∃ q r, round2 x y = .ok (q, r) ∧ x.value = q.value * y.value + r.value ∧
      Nearest q.value (x.value / y.value) ∧
      (∀ n m, x = .integer n → y = .integer m → Canonical q) := by
  obtain ⟨q, hq, hqv, hqr, hqc⟩ := divide_spec hx hy h0
  cases q with
  | integer n =>
    have hn : (n.value : ℚ) = x.value / y.value := hqv
    refine ⟨n, .integer (makeFixnum 0), bind_ok hq _, ?_, ?_, fun a b ha hb => (hqc a b ha hb).num⟩
    · rw [hn, div_mul_cancel₀ _ h0, Rational.value, value_makeFixnum (by decide)]
      simp
    · apply nearest_of_abs_lt
      rw [← hn]
      norm_num
  | ratio n d =>
    obtain ⟨q, r, hqr', h1, h2, h3⟩ := round2Integer_spec hx hy hqr hqv
    exact ⟨q, r, (bind_ok hq _).trans hqr', h1, h2, fun _ _ _ _ => h3⟩

def Rounding.Correct (m : Rounding) (x y : Rational) : Prop :=
  ∃ q r, m.run x y = .ok (q, r) ∧ x.value = q.value * y.value + r.value ∧
    m.Promise x.value y.value q.value r.value ∧
    (∀ a b, x = .integer (.fixnum a) → y = .integer (.fixnum b) → Canonical q)

section
variable {x y : Rational} (hx : x.Canonical) (hy : y.Canonical) (h0 : y.value ≠ 0)
include hx hy h0

theorem floor2_spec (h : ¬ Overflows x y) :
    ∃ q r, floor2 x y = .ok (q, r) ∧ x.value = q.value * y.value + r.value ∧
      FloorFraction (r.value / y.value) ∧ Canonical q :=
  divideRationals_spec (fun _ _ => splits_fixFloor) (fun _ _ => splits_bigFloor) hx hy h0 h

theorem ceiling2_spec (h : ¬ Overflows x y) :
    ∃ q r, ceiling2 x y = .ok (q, r) ∧ x.value = q.value * y.value + r.value ∧
      CeilingFraction (r.value / y.value) ∧ Canonical q :=
  divideRationals_spec (fun _ _ => splits_fixCeiling) (fun _ _ => splits_bigCeiling) hx hy h0 h

end

theorem remainder_zero {x y r : ℚ} {q : ℤ} (hy : y ≠ 0) (hsum : x = q * y + r) (hx : x = 0)
    (hf : |r / y| < 1) : r = 0 := by
  have hr : r / y = -q := by
    rw [div_eq_iff hy]
    linarith
  have hq : |q| < 1 := by
    rw [hr, abs_neg] at hf
    exact_mod_cast hf
  rw [div_eq_iff hy] at hr
  rw [hr, Int.abs_lt_one_iff.mp hq]
  simp

theorem truncate_promise {x y r : ℚ} {q : ℤ} (hy : y ≠ 0) (hsum : x = q * y + r)
    (h : (0 < x ↔ 0 < y) ∧ FloorFraction (r / y) ∨ ¬ (0 < x ↔ 0 < y) ∧ CeilingFraction (r / y)) :
    Rounding.truncate.Promise x y q r := by
  have hf : |r / y| < 1 := by
    rw [abs_lt]
    rcases h with ⟨-, h1, h2⟩ | ⟨-, h1, h2⟩ <;> constructor <;> linarith
  have hry : r = r / y * y := (div_mul_cancel₀ r hy).symm
  refine ⟨by rwa [abs_div, div_lt_one (abs_pos.mpr hy)] at hf, ?_⟩
  rcases lt_trichotomy x 0 with hx | hx | hx
  · have hr : r ≤ 0 := by
      rw [hry]
      rcases h with ⟨h, h1, h2⟩ | ⟨h, h1, h2⟩
      · have hyn : y ≤ 0 := not_lt.mp (mt h.mpr (by linarith))
        exact mul_nonpos_of_nonneg_of_nonpos h1 hyn
      · have hyp : 0 < y := by
          by_contra hn
          exact h ⟨fun h => absurd h (by linarith), fun h => absurd h hn⟩
        exact mul_nonpos_of_nonpos_of_nonneg h2 hyp.le
    rcases hr.eq_or_lt with hr | hr
    · exact Or.inl hr
    · exact Or.inr (Or.inr ⟨hr, hx⟩)
  · exact Or.inl (remainder_zero hy hsum hx hf)
  · have hr : 0 ≤ r := by
      rw [hry]
      rcases h with ⟨h, h1, h2⟩ | ⟨h, h1, h2⟩
      · exact mul_nonneg h1 (h.mp hx).le
      · have hyn : y ≤ 0 := not_lt.mp (fun hyp => h ⟨fun _ => hyp, fun _ => hx⟩)
        exact mul_nonneg_of_nonpos_of_nonpos h2 hyn
    rcases hr.eq_or_lt with hr | hr
    · exact Or.inl hr.symm
    · exact Or.inr (Or.inl ⟨hr, hx⟩)

theorem correct_of_not_overflows {m : Rounding} {x y : Rational} (hx : x.Canonical)
    (hy : y.Canonical) (h0 : y.value ≠ 0) (h : m = .round ∨ ¬ Overflows x y) : m.Correct x y := by
  have hno (hm : m ≠ .round) : ¬ Overflows x y := h.resolve_left hm
  cases m with
  | floor =>
    obtain ⟨q, r, hrun, hsum, hf, hq⟩ := floor2_spec hx hy h0 (hno (by decide))
    exact ⟨q, r, hrun, hsum, hf, fun _ _ _ _ => hq⟩
  | ceiling =>
    obtain ⟨q, r, hrun, hsum, hf, hq⟩ := ceiling2_spec hx hy h0 (hno (by decide))
    exact ⟨q, r, hrun, hsum, hf, fun _ _ _ _ => hq⟩
  | truncate =>
    have hsign : x.plusp = y.plusp ↔ (0 < x.value ↔ 0 < y.value) := by
      rw [← value_pos_iff hx.reduced, ← value_pos_iff hy.reduced, Bool.eq_iff_iff]
    by_cases hxy : x.plusp = y.plusp
    · obtain ⟨q, r, hrun, hsum, hf, hq⟩ := floor2_spec hx hy h0 (hno (by decide))
      refine ⟨q, r, ?_, hsum, truncate_promise h0 hsum (Or.inl ⟨hsign.mp hxy, hf⟩), fun _ _ _ _ => hq⟩
      exact (if_neg (not_not.mpr hxy)).trans hrun
    · obtain ⟨q, r, hrun, hsum, hf, hq⟩ := ceiling2_spec hx hy h0 (hno (by decide))
      refine ⟨q, r, ?_, hsum, truncate_promise h0 hsum (Or.inr ⟨mt hsign.mpr hxy, hf⟩), fun _ _ _ _ => hq⟩
      exact (if_pos hxy).trans hrun
  | round =>
    obtain ⟨q, r, hrun, hsum, hnear, hq⟩ := round2_spec hx hy h0
    have hdist : r.value / y.value = x.value / y.value - q.value := by
      rw [eq_sub_iff_add_eq, div_add' _ _ _ h0, hsum]
      congr 1
      ring
    refine ⟨q, r, hrun, hsum, ?_, fun a b ha hb => hq _ _ ha hb⟩
    rw [Rounding.Promise, hdist]
    exact hnear

theorem fix_overflow : fixFloor mostNegativeFixnum (-1) = (makeFixnum mostNegativeFixnum, makeFixnum 0) ∧
    fixCeiling mostNegativeFixnum (-1) = (makeFixnum mostNegativeFixnum, makeFixnum 0) := by
  decide

theorem divideRationals_overflow {fix big : ℤ → ℤ → Integer × Integer} {x y : Rational}
    (hfix : fix mostNegativeFixnum (-1) = (makeFixnum mostNegativeFixnum, makeFixnum 0))
    (hy : y.Canonical) (h : Overflows x y) : divideRationals fix big x y =
      .ok (makeFixnum mostNegativeFixnum, .integer (makeFixnum 0)) := by
  match x, y, h with
  | .integer (.fixnum a), .integer (.fixnum b), ⟨h1, h2⟩ =>
    have hb : b ≠ 0 := by
      rintro rfl
      exact absurd h2 (by decide)
    have hp : divideIntegers fix big (.fixnum a) (.fixnum b) =
        .ok (makeFixnum mostNegativeFixnum, makeFixnum 0) := by
      rw [divideIntegers, if_neg hb, h1, h2, hfix]
    exact bind_ok hp _
  | .integer (.fixnum a), .ratio (.fixnum n) (.fixnum d), ⟨h1, h2⟩ =>
    have hn : n ≠ 0 := by
      rintro rfl
      exact absurd h2 (by decide)
    have ht : times (.fixnum a) (.fixnum d) = .fixnum (BitVec.ofInt 62 mostNegativeFixnum) := by
      rw [times, fixTimesFix, h1]
      decide
    have hp : divideIntegers fix big (times (.fixnum a) (.fixnum d)) (.fixnum n) =
        .ok (makeFixnum mostNegativeFixnum, makeFixnum 0) := by
      rw [ht, divideIntegers, if_neg hn, h2, ← hfix]
      rfl
    have hd : Integer.fixnum d ≠ makeFixnum 0 := by
      intro e
      have := value_of_eq_makeFixnum (by decide) e
      have := hy.reduced.2.1
      omega
    have hr : makeRatio (makeFixnum 0) (.fixnum d) = .ok (.integer (makeFixnum 0)) :=
      (if_neg hd).trans (if_pos (Or.inl rfl))
    exact (bind_ok hp _).trans (bind_ok hr _)

theorem overflows_neg {x y : Rational} (hy : y.Canonical) (h : Overflows x y) :
    x.value < 0 ∧ y.value < 0 := by
  match x, y, h with
  | .integer (.fixnum a), .integer (.fixnum b), ⟨h1, h2⟩ =>
    simp only [Rational.value, value_fixnum, h1, h2]
    decide
  | .integer (.fixnum a), .ratio (.fixnum n) (.fixnum d), ⟨h1, h2⟩ =>
    have hd : 0 < d.toInt := value_pos_of_two_le hy.reduced.2.1
    have ha : a.toInt < 0 := by
      by_contra hn
      have : 0 ≤ a.toInt * d.toInt := mul_nonneg (by omega) hd.le
      rw [h1] at this
      exact absurd this (by decide)
    constructor
    · simp only [Rational.value, value_fixnum]
      exact_mod_cast ha
    · simp only [Rational.value, value_fixnum, h2]
      apply div_neg_of_neg_of_pos (by norm_num)
      exact_mod_cast hd

theorem run_overflow {m : Rounding} {x y : Rational} (hm : m ≠ .round) (hx : x.Canonical)
    (hy : y.Canonical) (h : Overflows x y) :
    m.run x y = .ok (makeFixnum mostNegativeFixnum, .integer (makeFixnum 0)) := by
  have hfloor : floor2 x y = _ := divideRationals_overflow fix_overflow.1 hy h
  cases m with
  | floor => exact hfloor
  | ceiling => exact divideRationals_overflow fix_overflow.2 hy h
  | truncate =>
    obtain ⟨hxn, hyn⟩ := overflows_neg hy h
    have hxp := mt (value_pos_iff hx.reduced).mp (not_lt.mpr hxn.le)
    have hyp := mt (value_pos_iff hy.reduced).mp (not_lt.mpr hyn.le)
    have hsame : ¬ (x.plusp ≠ y.plusp) := by
      rw [Bool.eq_false_of_not_eq_true hxp, Bool.eq_false_of_not_eq_true hyp]
      exact fun h => h rfl
    exact (if_neg hsame).trans hfloor
  | round => exact absurd rfl hm

/-- Every quotient of rationals is exact, if and only if it is rounded to the nearest or the
operands are not brought to the division of the most negative fixnum by -1. -/
theorem quotients_exact (m : Rounding) {x y : Rational} (hx : x.Canonical) (hy : y.Canonical)
    (h0 : y.value ≠ 0) : m.Correct x y ↔ (m = .round ∨ ¬ Overflows x y) := by
  constructor
  · intro hcorrect
    by_contra hno
    rw [not_or, not_not] at hno
    obtain ⟨q, r, hrun, hsum, -, -⟩ := hcorrect
    have hqr := Except.ok.inj ((run_overflow hno.1 hx hy hno.2).symm.trans hrun)
    obtain ⟨hxn, hyn⟩ := overflows_neg hy hno.2
    obtain ⟨hq, hr⟩ := Prod.mk.inj hqr
    rw [← hq, ← hr, value_makeFixnum (by decide), Rational.value, value_makeFixnum (by decide)] at hsum
    have hpos : 0 < ((mostNegativeFixnum : ℤ) : ℚ) * y.value :=
      mul_pos_of_neg_of_neg (by decide) hyn
    rw [Int.cast_zero, add_zero] at hsum
    linarith
  · exact correct_of_not_overflows hx hy h0

theorem quotients_exact_floor :
    Rounding.floor.Correct (.integer (makeFixnum (-7))) (.integer (makeFixnum 2)) ↔
      (Rounding.floor = .round ∨ ¬ Overflows (.integer (makeFixnum (-7))) (.integer (makeFixnum 2))) := by
  have hc (i : ℤ) : (Rational.integer (makeFixnum i)).Canonical := ⟨canonical_makeFixnum i, trivial⟩
  apply quotients_exact .floor (hc (-7)) (hc 2)
  rw [Rational.value, value_makeFixnum (by decide)]
  norm_num

/-- (floor most-negative-fixnum -1) is most-negative-fixnum, with nothing left. -/
theorem most_negative_by_minus_one :
    floor2 (.integer (makeFixnum mostNegativeFixnum)) (.integer (makeFixnum (-1))) =
        .ok (makeFixnum mostNegativeFixnum, .integer (makeFixnum 0)) ∧
      ¬ Rounding.floor.Correct (.integer (makeFixnum mostNegativeFixnum)) (.integer (makeFixnum (-1))) := by
  refine ⟨by decide, ?_⟩
  rintro ⟨q, r, hrun, hsum, -, -⟩
  have hqr : (makeFixnum mostNegativeFixnum, Rational.integer (makeFixnum 0)) = (q, r) :=
    Except.ok.inj (Eq.trans (by decide) hrun)
  obtain ⟨rfl, rfl⟩ := Prod.mk.inj hqr
  rw [Rational.value, Rational.value, Rational.value, value_makeFixnum (by decide),
    value_makeFixnum (by decide), value_makeFixnum (by decide)] at hsum
  norm_num [mostNegativeFixnum] at hsum

end Quotients
