import Ecl.Midnums
import Ecl.Quotients
import Mathlib.Data.Int.ModEq

/-! Each helper of midnum.d gives the exact number, or reports that it has no room for it; only
one subtraction overflows. -/
namespace Midnums

variable {w : Width} {x y : SbigNum w} {z : ℤ}

theorem SbigNum.eq_of_value (h : x.value = y.value) : x = y := by
  cases x
  cases h
  rfl

def exactly (z : ℤ) : Checked (SbigNum w) := if h : w.Fits z then .ok ⟨z, h⟩ else storageExhausted

theorem signed_of_fits (h : w.Fits z) : signed z = .ok (⟨z, h⟩ : SbigNum w) := dif_pos h

theorem exactly_of_fits (h : w.Fits z) : exactly z = .ok (⟨z, h⟩ : SbigNum w) := dif_pos h

theorem exactly_of_not (h : ¬ w.Fits z) : (exactly z : Checked (SbigNum w)) = storageExhausted :=
  dif_neg h

theorem exactly_value (x : SbigNum w) : exactly x.value = .ok x := exactly_of_fits x.fits

theorem both_eq {a b : Bool} {m : Checked Bool} (h : a = true → m = .ok b) :
    both a m = .ok (a && b) := by
  cases a with
  | true => exact h rfl
  | false => rfl

theorem either_eq {a b : Bool} {m n : Checked Bool} (hm : m = .ok a) (hn : n = .ok b) :
    either m n = .ok (a || b) := by
  rw [hm]
  cases a with
  | true => rfl
  | false => exact hn

theorem greater_signed {m : Checked (SbigNum w)} (hm : m = signed z) (h : w.Fits z) :
    (do return greater x (← m)) = (.ok (decide (z < x.value)) : Checked Bool) := by
  rw [hm, signed_of_fits h]
  rfl

theorem signed_greater {m : Checked (SbigNum w)} (hm : m = signed z) (h : w.Fits z) :
    (do return greater (← m) x) = (.ok (decide (x.value < z)) : Checked Bool) := by
  rw [hm, signed_of_fits h]
  rfl

theorem tested_eq_exactly {test : Checked Bool} {b : Bool} {m : Checked (SbigNum w)}
    (htest : test = .ok b) (h : b = true ↔ ¬ w.Fits z) (hm : m = signed z) :
    (do if ← test then storageExhausted else m) = exactly z := by
  rw [htest, hm]
  cases b with
  | true => exact (exactly_of_not (h.mp rfl)).symm
  | false =>
    have hfits : w.Fits z := not_not.mp (mt h.mpr Bool.false_ne_true)
    exact (signed_of_fits hfits).trans (exactly_of_fits hfits).symm

theorem intAddInt_eq (x y : SbigNum w) : intAddInt x y = exactly (x.value + y.value) := by
  obtain ⟨hxl, hxu⟩ := x.fits
  obtain ⟨hyl, hyu⟩ := y.fits
  refine tested_eq_exactly (either_eq (both_eq fun h => greater_signed rfl ?_)
    (both_eq fun h => signed_greater rfl ?_)) ?_ rfl
  · simp only [Bool.and_eq_true, decide_eq_true_eq] at h
    rw [value_mostPositive]
    constructor <;> omega
  · simp only [Bool.and_eq_true, decide_eq_true_eq] at h
    rw [value_mostNegative]
    constructor <;> omega
  · simp only [Bool.or_eq_true, Bool.and_eq_true, decide_eq_true_eq, Width.Fits]
    simp only [value_mostPositive, value_mostNegative]
    omega

theorem intSubInt_eq (h : ¬ (x.value = 0 ∧ y.value = -w.half)) :
    intSubInt x y = exactly (x.value - y.value) := by
  obtain ⟨hxl, hxu⟩ := x.fits
  obtain ⟨hyl, hyu⟩ := y.fits
  refine tested_eq_exactly (either_eq (both_eq fun h => greater_signed rfl ?_)
    (both_eq fun h => signed_greater rfl ?_)) ?_ rfl
  · simp only [Bool.and_eq_true, decide_eq_true_eq] at h
    rw [value_mostPositive]
    constructor <;> omega
  · simp only [Bool.and_eq_true, decide_eq_true_eq] at h
    rw [value_mostNegative]
    constructor <;> omega
  · simp only [Bool.or_eq_true, Bool.and_eq_true, decide_eq_true_eq, Width.Fits]
    simp only [value_mostPositive, value_mostNegative]
    omega

theorem intSubInt_overflows :
    intSubInt 0 (mostNegativeBignum : SbigNum w) = .error .signedOverflow := by
  have hpos := half_pos w
  have hfits : ¬ w.Fits (0 - -w.half) := by
    rintro ⟨-, hu⟩
    omega
  have hsub : sub 0 (mostNegativeBignum : SbigNum w) = .error .signedOverflow := dif_neg hfits
  rw [← hsub]
  rfl

theorem fits_tdiv (h0 : y.value ≠ 0) (h : ¬ (x.value = -w.half ∧ y.value = -1)) :
    w.Fits (x.value.tdiv y.value) := by
  obtain ⟨hxl, hxu⟩ := x.fits
  have hpos := half_pos w
  by_cases hminus : y.value = -1
  · rw [hminus, Int.tdiv_neg, Int.tdiv_one]
    constructor <;> omega
  by_cases hone : y.value = 1
  · rw [hone, Int.tdiv_one]
    exact x.fits
  -- the divisor is at least two, so the quotient is at most half as large
  have habs := Int.natAbs_tdiv x.value y.value
  have hhalf : x.value.natAbs / y.value.natAbs ≤ x.value.natAbs / 2 :=
    Nat.div_le_div_left (by omega) (by decide)
  change _ = x.value.natAbs / y.value.natAbs at habs
  constructor <;> omega

theorem quotient_eq (h0 : y.value ≠ 0) : quotient x y = signed (x.value.tdiv y.value) := if_neg h0

theorem mostNegative_iff : x = mostNegativeBignum ∧ y.value = -1 ↔
    x.value = -w.half ∧ y.value = -1 := by
  exact and_congr_left' ⟨fun h => h ▸ rfl, fun h => SbigNum.eq_of_value h⟩

theorem not_fits_tdiv (h : x.value = -w.half ∧ y.value = -1) :
    ¬ w.Fits (x.value.tdiv y.value) := by
  rw [h.1, h.2, Int.tdiv_neg, Int.tdiv_one, neg_neg]
  rintro ⟨-, hu⟩
  exact absurd hu (lt_irrefl _)

theorem bigDiv_eq (h0 : y.value ≠ 0) : bigDiv x y = exactly (x.value.tdiv y.value) := by
  by_cases h : x.value = -w.half ∧ y.value = -1
  · rw [exactly_of_not (not_fits_tdiv h)]
    exact if_pos (mostNegative_iff.mpr h)
  · rw [exactly_of_fits (fits_tdiv h0 h), ← signed_of_fits (fits_tdiv h0 h), ← quotient_eq h0]
    exact if_neg (mostNegative_iff.not.mpr h)

theorem tdiv_lt_iff {a b c : ℤ} (ha : 0 ≤ a) (hb : 0 < b) : a.tdiv b < c ↔ a < b * c := by
  rw [Int.tdiv_eq_ediv_of_nonneg ha, Int.ediv_lt_iff_lt_mul hb, mul_comm]

theorem lt_neg_tdiv_iff {a b c : ℤ} (ha : 0 ≤ a) (hb : 0 < b) :
    c < (-a).tdiv b ↔ b * c < -a := by
  rw [Int.neg_tdiv, lt_neg, tdiv_lt_iff ha hb, mul_neg, lt_neg]

theorem lt_tdiv_iff_of_neg {a b c : ℤ} (ha : 0 ≤ a) (hb : b < 0) : c < a.tdiv b ↔ a < b * c := by
  rw [← neg_neg b, Int.tdiv_neg, lt_neg, tdiv_lt_iff ha (neg_pos.mpr hb), neg_neg, neg_mul_comm,
    neg_neg]

theorem mostPositive_fits (hy : y.value ≠ 0) :
    w.Fits ((mostPositiveBignum : SbigNum w).value.tdiv y.value) := by
  have hpos := half_pos w
  refine fits_tdiv hy fun h => ?_
  rw [value_mostPositive] at h
  omega

theorem mostNegative_fits (hy : 0 < y.value) :
    w.Fits ((mostNegativeBignum : SbigNum w).value.tdiv y.value) :=
  fits_tdiv hy.ne' fun h => by omega

theorem productTooLarge_eq (x y : SbigNum w) : ∃ b : Bool, productTooLarge x y = .ok b ∧
    (b = true ↔ ¬ w.Fits (x.value * y.value)) := by
  have hpos := half_pos w
  have hmax : (0 : ℤ) ≤ w.half - 1 := by omega
  refine ⟨_, either_eq (both_eq fun h => greater_signed (quotient_eq ?_) ?_) <|
    either_eq (both_eq fun h => signed_greater (quotient_eq ?_) ?_) <|
    either_eq (both_eq fun h => signed_greater (quotient_eq ?_) ?_) <|
    both_eq fun h => signed_greater (quotient_eq ?_) ?_, ?_⟩
  case refine_9 =>
    simp only [Bool.or_eq_true, Bool.and_eq_true, decide_eq_true_eq, Width.Fits]
    simp only [value_mostPositive, value_mostNegative]
    rcases lt_trichotomy x.value 0 with hx | hx | hx
    · rcases lt_trichotomy y.value 0 with hy | hy | hy
      · have hprod := mul_pos_of_neg_of_neg hx hy
        rw [lt_tdiv_iff_of_neg hmax hy, mul_comm y.value]
        omega
      · rw [hy, mul_zero]
        omega
      · have hprod := mul_neg_of_neg_of_pos hx hy
        rw [lt_neg_tdiv_iff hpos.le hy, mul_comm y.value]
        omega
    · rw [hx, zero_mul]
      omega
    · rcases lt_trichotomy y.value 0 with hy | hy | hy
      · have hprod := mul_neg_of_pos_of_neg hx hy
        rw [lt_neg_tdiv_iff hpos.le hx]
        omega
      · rw [hy, mul_zero]
        omega
      · have hprod := mul_pos hx hy
        rw [tdiv_lt_iff hmax hy, mul_comm y.value]
        omega
  all_goals simp only [Bool.and_eq_true, decide_eq_true_eq] at h
  · exact h.2.ne'
  · exact mostPositive_fits h.2.ne'
  · exact h.2.ne
  · exact mostPositive_fits h.2.ne
  · exact h.1.ne'
  · exact mostNegative_fits h.1
  · exact h.2.ne'
  · exact mostNegative_fits h.2

theorem intMulInt_eq (x y : SbigNum w) : intMulInt x y = exactly (x.value * y.value) := by
  obtain ⟨b, hb, hiff⟩ := productTooLarge_eq x y
  refine tested_eq_exactly (both_eq fun _ => hb) ?_ rfl
  have hzero : x.value = 0 ∨ y.value = 0 → w.Fits (x.value * y.value) := by
    intro h
    rw [mul_eq_zero.mpr h]
    exact (0 : SbigNum w).fits
  rw [Bool.and_eq_true, hiff, Bool.and_eq_true, decide_eq_true_eq, decide_eq_true_eq]
  tauto

theorem ofUnsigned_of_fits {u : ℤ} (hu : u % 2 ^ w.bits = z % 2 ^ w.bits) (h : w.Fits z) :
    ofUnsigned u = (⟨z, h⟩ : SbigNum w) := by
  have hsame : (u + w.half) % 2 ^ w.bits = (z + w.half) % 2 ^ w.bits := Int.ModEq.add_right _ hu
  have hmod : (z + w.half) % (2 * w.half) = z + w.half := by
    obtain ⟨hl, hh⟩ := h
    exact Int.emod_eq_of_lt (by omega) (by omega)
  apply SbigNum.eq_of_value
  change (u + w.half) % 2 ^ w.bits - w.half = z
  rw [hsame, two_half, hmod, add_sub_cancel_right]

theorem toUnsigned_of_nonneg (h : 0 ≤ x.value) : toUnsigned x = x.value := by
  have hu := x.fits.2
  rw [toUnsigned, two_half]
  exact Int.emod_eq_of_lt h (by omega)

theorem toUnsigned_of_neg (h : x.value < 0) : toUnsigned x = x.value + 2 * w.half := by
  have hl := x.fits.1
  have hpos := half_pos w
  rw [toUnsigned, two_half, ← Int.add_emod_right]
  exact Int.emod_eq_of_lt (by omega) (by omega)

theorem not_fits_shifted {bits : ℕ} (h0 : x.value ≠ 0) (h : w.bits ≤ bits) :
    ¬ w.Fits (x.value * 2 ^ bits) := by
  have hpow : (2 : ℤ) * w.half ≤ 2 ^ bits := two_half w ▸ pow_le_pow_right₀ (by decide) h
  have hpos := half_pos w
  rintro ⟨hl, hu⟩
  rcases lt_or_gt_of_ne h0 with hx | hx
  · nlinarith
  · nlinarith

theorem bigMul2exp_test (x : SbigNum w) (bits : ℕ) :
    (x.value > 0 ∧ toUnsigned x >
        unsignedShiftRight (toUnsigned (mostPositiveBignum : SbigNum w)) bits) ∨
      (x.value < 0 ∧ toUnsigned x ≤
        unsignedNot w (unsignedShiftRight (toUnsigned (mostNegativeBignum : SbigNum w)) bits)) ↔
    ¬ w.Fits (x.value * 2 ^ bits) := by
  have hpos := half_pos w
  have hp : (0 : ℤ) < 2 ^ bits := by positivity
  have hmax : toUnsigned (mostPositiveBignum : SbigNum w) = w.half - 1 :=
    toUnsigned_of_nonneg (by rw [value_mostPositive]; omega)
  have hmin : toUnsigned (mostNegativeBignum : SbigNum w) = -w.half + 2 * w.half :=
    toUnsigned_of_neg (by rw [value_mostNegative]; omega)
  rw [unsignedNot, unsignedShiftRight, unsignedShiftRight, hmax, hmin, two_half, Width.Fits]
  have hhigh := Int.ediv_lt_iff_lt_mul (a := w.half - 1) (b := x.value) hp
  have hlow := Int.ediv_lt_iff_lt_mul (a := -w.half + 2 * w.half) (b := -x.value) hp
  rcases lt_trichotomy x.value 0 with hx | hx | hx
  · have hprod := mul_neg_of_neg_of_pos hx hp
    rw [toUnsigned_of_neg hx]
    rw [neg_mul] at hlow
    omega
  · rw [hx, zero_mul]
    omega
  · have hprod := mul_pos hx hp
    rw [toUnsigned_of_nonneg hx.le]
    omega

theorem bigMul2exp_eq (x : SbigNum w) (bits : ℕ) :
    bigMul2exp x bits = exactly (x.value * 2 ^ bits) := by
  simp only [bigMul2exp]
  by_cases h0 : x.value = 0
  · rw [if_pos h0, h0, zero_mul]
    exact (exactly_value 0).symm
  rw [if_neg h0]
  by_cases hbits : bits ≥ w.bits
  · rw [if_pos hbits, exactly_of_not (not_fits_shifted h0 hbits)]
  rw [if_neg hbits]
  by_cases hfits : w.Fits (x.value * 2 ^ bits)
  · rw [if_neg ((bigMul2exp_test x bits).not.mpr (not_not.mpr hfits)), exactly_of_fits hfits,
      ofUnsigned_of_fits ?_ hfits]
    · rfl
    · rw [unsignedShiftLeft, Int.emod_emod, toUnsigned]
      exact Int.ModEq.mul_right _ (Int.mod_modEq _ _)
  · rw [if_pos ((bigMul2exp_test x bits).mpr hfits), exactly_of_not hfits]

theorem complement_ediv (a : ℤ) {b : ℤ} (hb : 0 < b) : a / b = -((-a - 1) / b) - 1 := by
  have hlow := Int.ediv_mul_le (-a - 1) hb.ne'
  have hhigh := Int.lt_ediv_add_one_mul_self (-a - 1) hb
  rw [Int.ediv_eq_iff_of_pos hb]
  constructor <;> linarith

theorem bigDiv2exp_eq (x : SbigNum w) (bits : ℕ) :
    bigDiv2exp x bits = exactly (x.value / 2 ^ bits) := by
  have hp : (0 : ℤ) < 2 ^ bits := by positivity
  rw [exactly_of_fits (shifted_fits x bits)]
  unfold bigDiv2exp
  split
  · next h =>
    refine congrArg Except.ok (SbigNum.eq_of_value ?_)
    change _ = x.value / 2 ^ bits
    -- a shift past the width leaves the sign only
    have hlarge : x.value ≠ 0 → 2 * w.half ≤ 2 ^ bits := fun h0 =>
      two_half w ▸ pow_le_pow_right₀ (by decide) (h.resolve_left h0)
    obtain ⟨hl, hu⟩ := x.fits
    split
    · next hneg =>
      have hwide := hlarge hneg.ne
      rw [Int.ediv_eq_neg_one_of_neg_of_le hneg (by omega)]
      rfl
    · next hneg =>
      by_cases h0 : x.value = 0
      · rw [h0, Int.zero_ediv]
        rfl
      · have hwide := hlarge h0
        rw [Int.ediv_eq_zero_of_lt (by omega) (by omega)]
        rfl
  · split
    · exact congrArg Except.ok (SbigNum.eq_of_value (complement_ediv x.value hp).symm)
    · rfl

def exactPair (q r : ℤ) : Checked (SbigNum w × SbigNum w) := do return (← exactly q, ← exactly r)

theorem exactPair_of_fits {q r : ℤ} (hq : w.Fits q) (hr : w.Fits r) :
    exactPair q r = .ok ((⟨q, hq⟩, ⟨r, hr⟩) : SbigNum w × SbigNum w) := by
  rw [exactPair, exactly_of_fits hq, exactly_of_fits hr]
  rfl

theorem exactPair_of_not {q r : ℤ} (hq : ¬ w.Fits q) :
    (exactPair q r : Checked (SbigNum w × SbigNum w)) = storageExhausted := by
  rw [exactPair, exactly_of_not hq]
  rfl

theorem fits_tmod (h0 : y.value ≠ 0) : w.Fits (x.value.tmod y.value) := by
  obtain ⟨-, hsmall, -, -⟩ := Quotients.tmod_facts x.value h0
  obtain ⟨hl, hu⟩ := y.fits
  constructor <;> omega

theorem bigDivQr_exhausted (h : x.value = -w.half ∧ y.value = -1) :
    bigDivQr x y = storageExhausted :=
  if_pos (mostNegative_iff.mpr h)

theorem bigDivQr_fits (h0 : y.value ≠ 0) (h : ¬ (x.value = -w.half ∧ y.value = -1)) :
    bigDivQr x y = .ok (⟨x.value.tdiv y.value, fits_tdiv h0 h⟩,
      ⟨x.value.tmod y.value, fits_tmod h0⟩) := by
  rw [bigDivQr, if_neg (mostNegative_iff.not.mpr h), remainder, quotient_eq h0,
    signed_of_fits (fits_tdiv h0 h), signed_of_fits (fits_tmod h0)]
  rfl

theorem bigTruncate_eq (h0 : y.value ≠ 0) :
    bigTruncate x y = exactPair (x.value.tdiv y.value) (x.value.tmod y.value) := by
  by_cases h : x.value = -w.half ∧ y.value = -1
  · rw [exactPair_of_not (not_fits_tdiv h)]
    exact bigDivQr_exhausted h
  · rw [exactPair_of_fits (fits_tdiv h0 h) (fits_tmod h0)]
    exact bigDivQr_fits h0 h

theorem fdiv_unique {a b q r : ℤ} (h : a = q * b + r) (hr : 0 ≤ r ∧ r < b ∨ b < r ∧ r ≤ 0) :
    a.fdiv b = q ∧ a.fmod b = r := by
  have hsum : r + b * q = a := by rw [h, mul_comm, add_comm]
  rcases hr with ⟨hlow, hhigh⟩ | ⟨hlow, hhigh⟩
  · exact (Int.fdiv_fmod_unique (by omega)).mpr ⟨hsum, hlow, hhigh⟩
  · exact (Int.fdiv_fmod_unique' (by omega)).mpr ⟨hsum, hlow, hhigh⟩

section
variable {a b : ℤ}

theorem floor_adjusted (hb : b ≠ 0) (h : a.tmod b ≠ 0 ∧ ¬ (a < 0 ↔ b < 0)) :
    a.fdiv b = a.tdiv b - 1 ∧ a.fmod b = a.tmod b + b := by
  obtain ⟨hsum, hsmall, hpos, hneg⟩ := Quotients.tmod_facts a hb
  exact fdiv_unique (by linarith) (by omega)

theorem floor_exact (hb : b ≠ 0) (h : ¬ (a.tmod b ≠ 0 ∧ ¬ (a < 0 ↔ b < 0))) :
    a.fdiv b = a.tdiv b ∧ a.fmod b = a.tmod b := by
  obtain ⟨hsum, hsmall, hpos, hneg⟩ := Quotients.tmod_facts a hb
  exact fdiv_unique hsum (by omega)

def cdiv (a b : ℤ) : ℤ := -(-a).fdiv b

theorem ceiling_adjusted (hb : b ≠ 0) (h : a.tmod b ≠ 0 ∧ (a < 0 ↔ b < 0)) :
    cdiv a b = a.tdiv b + 1 ∧ a - cdiv a b * b = a.tmod b - b := by
  obtain ⟨hsum, hsmall, hpos, hneg⟩ := Quotients.tmod_facts a hb
  have hquot : cdiv a b = a.tdiv b + 1 := by
    rw [cdiv, (fdiv_unique (show -a = (-a.tdiv b - 1) * b + (b - a.tmod b) by linarith)
      (by omega)).1]
    ring
  exact ⟨hquot, by rw [hquot]; linarith⟩

theorem ceiling_exact (hb : b ≠ 0) (h : ¬ (a.tmod b ≠ 0 ∧ (a < 0 ↔ b < 0))) :
    cdiv a b = a.tdiv b ∧ a - cdiv a b * b = a.tmod b := by
  obtain ⟨hsum, hsmall, hpos, hneg⟩ := Quotients.tmod_facts a hb
  have hquot : cdiv a b = a.tdiv b := by
    rw [cdiv, (fdiv_unique (show -a = (-a.tdiv b) * b + -a.tmod b by linarith) (by omega)).1,
      neg_neg]
  exact ⟨hquot, by rw [hquot]; linarith⟩

end

theorem tmod_of_exhausted (h : x.value = -w.half ∧ y.value = -1) : x.value.tmod y.value = 0 := by
  rw [h.2, Int.tmod_neg, Int.tmod_one]

theorem bigFloor_eq (h0 : y.value ≠ 0) :
    bigFloor x y = exactPair (x.value.fdiv y.value) (x.value.fmod y.value) := by
  by_cases h : x.value = -w.half ∧ y.value = -1
  · rw [(floor_exact h0 fun hr => hr.1 (tmod_of_exhausted h)).1,
      exactPair_of_not (not_fits_tdiv h), bigFloor, bigDivQr_exhausted h]
    rfl
  rw [bigFloor, bigDivQr_fits h0 h]
  by_cases hr : x.value.tmod y.value ≠ 0 ∧ ¬ (x.value < 0 ↔ y.value < 0)
  · obtain ⟨hq, hm⟩ := floor_adjusted h0 hr
    have hone : (1 : SbigNum w).value ≠ -w.half := by
      have hpos := half_pos w
      rw [value_one]
      omega
    refine (if_pos hr).trans ?_
    rw [hq, hm, intSubInt_eq fun h => hone h.2, exactPair, intAddInt_eq]
    rfl
  · obtain ⟨hq, hm⟩ := floor_exact h0 hr
    rw [hq, hm, exactPair_of_fits (fits_tdiv h0 h) (fits_tmod h0)]
    exact if_neg hr

theorem bigCeiling_eq (h0 : y.value ≠ 0) : bigCeiling x y =
    exactPair (cdiv x.value y.value) (x.value - cdiv x.value y.value * y.value) := by
  by_cases h : x.value = -w.half ∧ y.value = -1
  · rw [(ceiling_exact h0 fun hr => hr.1 (tmod_of_exhausted h)).1,
      exactPair_of_not (not_fits_tdiv h), bigCeiling, bigDivQr_exhausted h]
    rfl
  rw [bigCeiling, bigDivQr_fits h0 h]
  by_cases hr : x.value.tmod y.value ≠ 0 ∧ (x.value < 0 ↔ y.value < 0)
  · obtain ⟨hq, hm⟩ := ceiling_adjusted h0 hr
    refine (if_pos hr).trans ?_
    rw [hm, hq, intAddInt_eq, intSubInt_eq fun h => hr.1 h.1, exactPair]
    rfl
  · obtain ⟨hq, hm⟩ := ceiling_exact h0 hr
    rw [hm, hq, exactPair_of_fits (fits_tdiv h0 h) (fits_tmod h0)]
    exact if_neg hr

/-- A call of a helper; callers never divide by zero. -/
inductive Call (w : Width) where
  | add (x y : SbigNum w)
  | sub (x y : SbigNum w)
  | mul (x y : SbigNum w)
  | mul2exp (x : SbigNum w) (bits : ℕ)
  | div2exp (x : SbigNum w) (bits : ℕ)
  | div (x y : SbigNum w) (h0 : y.value ≠ 0)
  | truncate (x y : SbigNum w) (h0 : y.value ≠ 0)
  | ceiling (x y : SbigNum w) (h0 : y.value ≠ 0)
  | floor (x y : SbigNum w) (h0 : y.value ≠ 0)
  deriving DecidableEq

def single (m : Checked (SbigNum w)) : Checked (List ℤ) := do return [(← m).value]

def pair (m : Checked (SbigNum w × SbigNum w)) : Checked (List ℤ) := do
  let (q, r) ← m
  return [q.value, r.value]

def Call.run : Call w → Checked (List ℤ)
  | add x y => single (intAddInt x y)
  | sub x y => single (intSubInt x y)
  | mul x y => single (intMulInt x y)
  | mul2exp x bits => single (bigMul2exp x bits)
  | div2exp x bits => single (bigDiv2exp x bits)
  | div x y _ => single (bigDiv x y)
  | truncate x y _ => pair (bigTruncate x y)
  | ceiling x y _ => pair (bigCeiling x y)
  | floor x y _ => pair (bigFloor x y)

def Call.exact : Call w → List ℤ
  | add x y => [x.value + y.value]
  | sub x y => [x.value - y.value]
  | mul x y => [x.value * y.value]
  | mul2exp x bits => [x.value * 2 ^ bits]
  | div2exp x bits => [x.value / 2 ^ bits]
  | div x y _ => [x.value.tdiv y.value]
  | truncate x y _ => [x.value.tdiv y.value, x.value.tmod y.value]
  | ceiling x y _ => [cdiv x.value y.value, x.value - cdiv x.value y.value * y.value]
  | floor x y _ => [x.value.fdiv y.value, x.value.fmod y.value]

def Call.Settled (c : Call w) : Prop := c.run = .ok c.exact ∨ c.run = storageExhausted

def Call.Sharp (c : Call w) : Prop :=
  c.run = if ∀ z ∈ c.exact, w.Fits z then .ok c.exact else storageExhausted

theorem single_exactly (z : ℤ) : single (exactly z : Checked (SbigNum w)) =
    if ∀ v ∈ [z], w.Fits v then .ok [z] else storageExhausted := by
  by_cases h : w.Fits z
  · rw [exactly_of_fits h, if_pos (by simpa using h)]
    rfl
  · rw [exactly_of_not h, if_neg (by simpa using h)]
    rfl

theorem pair_exactPair (q r : ℤ) : pair (exactPair q r : Checked (SbigNum w × SbigNum w)) =
    if ∀ v ∈ [q, r], w.Fits v then .ok [q, r] else storageExhausted := by
  by_cases hq : w.Fits q
  · by_cases hr : w.Fits r
    · rw [exactPair_of_fits hq hr, if_pos (by simpa using ⟨hq, hr⟩)]
      rfl
    · rw [exactPair, exactly_of_fits hq, exactly_of_not hr, if_neg (by simpa using fun _ => hr)]
      rfl
  · rw [exactPair_of_not hq, if_neg (by simpa using fun h => absurd h hq)]
    rfl

theorem Call.sharp {c : Call w} (h : c ≠ .sub 0 mostNegativeBignum) : c.Sharp := by
  cases c with
  | add x y => exact (congrArg single (intAddInt_eq x y)).trans (single_exactly _)
  | sub x y =>
    have hzero : ¬ (x.value = 0 ∧ y.value = -w.half) := by
      rintro ⟨hx, hy⟩
      obtain rfl : x = 0 := SbigNum.eq_of_value hx
      obtain rfl : y = mostNegativeBignum := SbigNum.eq_of_value hy
      exact h rfl
    exact (congrArg single (intSubInt_eq hzero)).trans (single_exactly _)
  | mul x y => exact (congrArg single (intMulInt_eq x y)).trans (single_exactly _)
  | mul2exp x bits => exact (congrArg single (bigMul2exp_eq x bits)).trans (single_exactly _)
  | div2exp x bits => exact (congrArg single (bigDiv2exp_eq x bits)).trans (single_exactly _)
  | div x y h0 => exact (congrArg single (bigDiv_eq h0)).trans (single_exactly _)
  | truncate x y h0 => exact (congrArg pair (bigTruncate_eq h0)).trans (pair_exactPair _ _)
  | ceiling x y h0 => exact (congrArg pair (bigCeiling_eq h0)).trans (pair_exactPair _ _)
  | floor x y h0 => exact (congrArg pair (bigFloor_eq h0)).trans (pair_exactPair _ _)

theorem Call.Sharp.settled {c : Call w} (h : c.Sharp) : c.Settled := by
  rw [Call.Sharp] at h
  split at h
  · exact .inl h
  · exact .inr h

theorem run_overflows : (Call.sub 0 mostNegativeBignum : Call w).run = .error .signedOverflow :=
  congrArg single intSubInt_overflows

theorem overflow_not_settled : ¬ (Call.sub 0 mostNegativeBignum : Call w).Settled := by
  rintro (h | h)
  · rw [run_overflows] at h
    cases h
  · rw [run_overflows] at h
    cases h

/-- Of all calls only the one that takes the most negative number from zero overflows; all others
find the exact numbers, if these are numbers of the type, and report exhaustion otherwise. -/
theorem midnum_settled_iff (c : Call w) :
    (c.Settled ↔ c ≠ .sub 0 mostNegativeBignum) ∧ (c.Sharp ↔ c ≠ .sub 0 mostNegativeBignum) := by
  have hsettled : c.Settled → c ≠ .sub 0 mostNegativeBignum := by
    rintro h rfl
    exact overflow_not_settled h
  exact ⟨⟨hsettled, fun h => (Call.sharp h).settled⟩,
    ⟨fun h => hsettled h.settled, fun h => Call.sharp h⟩⟩

def intmax : Width := ⟨64, le_rfl⟩

/-- 0 - (-2^63) is computed. -/
theorem zero_minus_mostNegative_overflows :
    (Call.sub 0 mostNegativeBignum : Call intmax).run = .error .signedOverflow ∧
      ¬ ∀ c : Call intmax, c.Settled :=
  ⟨run_overflows, fun h => overflow_not_settled (h _)⟩

end Midnums
