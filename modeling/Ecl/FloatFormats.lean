import Mathlib.Data.Int.Log
import Mathlib.Data.Rat.Floor
import Mathlib.Tactic.Positivity

/-! Rounding to nearest with ties to even: of a rational to an integer, and to the numbers of
a binary floating point format. -/
namespace FloatFormats

def Nearest (z : ℤ) (q : ℚ) : Prop := |q - z| ≤ 1 / 2 ∧ (|q - z| = 1 / 2 → Even z)

theorem nearest_of_abs_lt {z : ℤ} {q : ℚ} (h : |q - z| < 1 / 2) : Nearest z q :=
  ⟨h.le, fun e => absurd e h.ne⟩

theorem Nearest.neg {z : ℤ} {q : ℚ} (h : Nearest z q) : Nearest (-z) (-q) := by
  have habs : |(-q) - ((-z : ℤ) : ℚ)| = |q - z| := by
    rw [← abs_neg]
    congr 1
    push_cast
    ring
  rw [Nearest, habs, even_neg]
  exact h

theorem Nearest.le {z w : ℤ} {q : ℚ} (hz : Nearest z q) (hw : Nearest w q) : w ≤ z := by
  refine not_lt.mp fun h => ?_
  obtain ⟨-, hupper⟩ := abs_le.mp hz.1
  obtain ⟨hlower, -⟩ := abs_le.mp hw.1
  have hle : (w : ℚ) ≤ z + 1 := by linarith
  obtain rfl : w = z + 1 := le_antisymm (by exact_mod_cast hle) h
  push_cast at hlower
  obtain rfl : q = z + 1 / 2 := by linarith
  -- Two neighbours at the same distance are both even.
  obtain ⟨a, ha⟩ := hz.2 (by norm_num)
  obtain ⟨b, hb⟩ := hw.2 (by push_cast; norm_num)
  omega

theorem Nearest.unique {z w : ℤ} {q : ℚ} (hz : Nearest z q) (hw : Nearest w q) : z = w :=
  le_antisymm (hw.le hz) (hz.le hw)

def roundEven (q : ℚ) : ℤ :=
  if q - ⌊q⌋ < 1 / 2 then ⌊q⌋
  else if q - ⌊q⌋ > 1 / 2 then ⌊q⌋ + 1
  else if ⌊q⌋ % 2 = 0 then ⌊q⌋ else ⌊q⌋ + 1

theorem nearest_roundEven (q : ℚ) : Nearest (roundEven q) q := by
  have h0 := Int.floor_le q
  have h1 := Int.lt_floor_add_one q
  unfold roundEven
  split
  · next h =>
    apply nearest_of_abs_lt
    rw [abs_of_nonneg] <;> linarith
  · next h =>
    have hup : |q - ((⌊q⌋ + 1 : ℤ) : ℚ)| = 1 - (q - ⌊q⌋) := by
      push_cast
      rw [abs_of_nonpos] <;> linarith
    split
    · next h' =>
      apply nearest_of_abs_lt
      rw [hup]
      linarith
    · next h' =>
      split
      · next he => exact ⟨by rw [abs_of_nonneg] <;> linarith, fun _ => Int.even_iff.mpr he⟩
      · next he => exact ⟨by rw [hup]; linarith, fun _ => Int.even_iff.mpr (by omega)⟩

theorem roundEven_eq {z : ℤ} {q : ℚ} (h : Nearest z q) : roundEven q = z :=
  (nearest_roundEven q).unique h

theorem roundEven_neg (q : ℚ) : roundEven (-q) = -roundEven q :=
  roundEven_eq (nearest_roundEven q).neg

theorem le_roundEven {z : ℤ} {q : ℚ} (h : (z : ℚ) ≤ q) : z ≤ roundEven q := by
  obtain ⟨h1, h2⟩ := (nearest_roundEven q)
  rw [abs_le] at h1
  by_contra hlt
  have hle : (roundEven q : ℚ) + 1 ≤ z := by exact_mod_cast (show roundEven q + 1 ≤ z by omega)
  linarith

/-- Significant bits, the place of the last bit of the smallest numbers, and the power of two
that no finite number reaches. -/
structure Format where
  precision : ℕ
  minExponent : ℤ
  maxExponent : ℤ
  precision_pos : 1 ≤ precision

def Format.OnGrid (F : Format) (q : ℚ) : Prop :=
  ∃ m e : ℤ, m.natAbs < 2 ^ F.precision ∧ F.minExponent ≤ e ∧ q = m * 2 ^ e

def Format.place (F : Format) (q : ℚ) : ℤ :=
  max (Int.log 2 |q| + 1 - F.precision) F.minExponent

def Format.roundUnbounded (F : Format) (q : ℚ) : ℚ :=
  roundEven (q / 2 ^ F.place q) * 2 ^ F.place q

def Format.round (F : Format) (q : ℚ) : Option ℚ :=
  if |F.roundUnbounded q| < 2 ^ F.maxExponent then some (F.roundUnbounded q) else none

section
variable {F : Format} {d q : ℚ}

theorem Format.OnGrid.neg (h : F.OnGrid q) : F.OnGrid (-q) := by
  obtain ⟨m, e, hm, he, rfl⟩ := h
  exact ⟨-m, e, by rwa [Int.natAbs_neg], he, by push_cast; ring⟩

theorem place_neg (F : Format) (q : ℚ) : F.place (-q) = F.place q := by
  rw [Format.place, Format.place, abs_neg]

theorem roundUnbounded_neg (F : Format) (q : ℚ) : F.roundUnbounded (-q) = -F.roundUnbounded q := by
  rw [Format.roundUnbounded, place_neg, neg_div, roundEven_neg, Format.roundUnbounded]
  push_cast
  ring

theorem two_zpow_pos (e : ℤ) : (0 : ℚ) < 2 ^ e := zpow_pos (by norm_num) e

theorem zpow_eq_mul {e k : ℤ} (h : k ≤ e) : (2 : ℚ) ^ e = ((2 ^ (e - k).toNat : ℤ) : ℚ) * 2 ^ k := by
  push_cast
  rw [← zpow_natCast, ← zpow_add₀ (by norm_num)]
  congr 1
  omega

/-- A multiple of 2 ^ k that is not below the last one up to q passes no number of the format. -/
theorem le_of_floor_le {k z : ℤ} (hk : k ≤ F.place q) (hz : ⌊q / 2 ^ k⌋ ≤ z) (hd : F.OnGrid d)
    (h : d ≤ q) : d ≤ z * 2 ^ k := by
  have hp := two_zpow_pos k
  have hmul (w : ℤ) (hw : (w : ℚ) * 2 ^ k ≤ q) : (w : ℚ) * 2 ^ k ≤ z * 2 ^ k := by
    have hle : w ≤ z := (Int.le_floor.mpr ((le_div_iff₀ hp).mpr hw)).trans hz
    exact mul_le_mul_of_nonneg_right (by exact_mod_cast hle) hp.le
  obtain ⟨m, e, hm, he, rfl⟩ := hd
  by_cases hplace : k ≤ e
  · have hmultiple : (m : ℚ) * 2 ^ e = (m * 2 ^ (e - k).toNat : ℤ) * 2 ^ k := by
      rw [zpow_eq_mul hplace]
      push_cast
      ring
    rw [hmultiple] at h ⊢
    exact hmul _ h
  · -- The place lies above e only for numbers beyond every mantissa with this exponent.
    rcases eq_or_ne q 0 with rfl | hq
    · have hzero := hmul 0 (by simp)
      rw [Int.cast_zero, zero_mul] at hzero
      exact h.trans hzero
    rw [Format.place] at hk
    have hlog : e + F.precision ≤ Int.log 2 |q| := by omega
    have hself : (2 : ℚ) ^ Int.log 2 |q| ≤ |q| := by
      have := Int.zpow_log_le_self (b := 2) (by norm_num) (abs_pos.mpr hq)
      exact_mod_cast this
    have hsmall : |(m : ℚ) * 2 ^ e| < 2 ^ Int.log 2 |q| := by
      have hmq : |(m : ℚ)| < 2 ^ (F.precision : ℤ) := by
        rw [zpow_natCast, ← Int.cast_abs, Int.abs_eq_natAbs]
        exact_mod_cast hm
      calc |(m : ℚ) * 2 ^ e| = |(m : ℚ)| * 2 ^ e := by rw [abs_mul, abs_of_pos (two_zpow_pos e)]
        _ < 2 ^ (F.precision : ℤ) * 2 ^ e := mul_lt_mul_of_pos_right hmq (two_zpow_pos e)
        _ = 2 ^ (F.precision + e : ℤ) := (zpow_add₀ (by norm_num) _ _).symm
        _ ≤ 2 ^ Int.log 2 |q| := zpow_le_zpow_right₀ (by norm_num) (by omega)
    rcases lt_or_gt_of_ne hq with hneg | hpos
    · rw [abs_of_neg hneg] at hself hsmall
      have := neg_abs_le ((m : ℚ) * 2 ^ e)
      linarith
    · rw [abs_of_pos hpos] at hself hsmall hk
      have hprecision := F.precision_pos
      rw [zpow_eq_mul (show k ≤ Int.log 2 q by omega)] at hself hsmall
      exact (lt_of_abs_lt hsmall).le.trans (hmul _ hself)

/-- Rounding does not cross a number of the format. -/
theorem le_roundUnbounded (hd : F.OnGrid d) (h : d ≤ q) : d ≤ F.roundUnbounded q :=
  le_of_floor_le le_rfl (le_roundEven (Int.floor_le _)) hd h

theorem roundUnbounded_le (hd : F.OnGrid d) (h : q ≤ d) : F.roundUnbounded q ≤ d := by
  have hneg := le_roundUnbounded hd.neg (neg_le_neg h)
  rw [roundUnbounded_neg] at hneg
  linarith

theorem roundUnbounded_eq_self (h : F.OnGrid q) : F.roundUnbounded q = q :=
  le_antisymm (roundUnbounded_le h le_rfl) (le_roundUnbounded h le_rfl)

/-- Rounding stays in the format: a mantissa rounded up to a power of two is halved. -/
theorem onGrid_roundUnbounded (q : ℚ) : F.OnGrid (F.roundUnbounded q) := by
  have hp := two_zpow_pos (F.place q)
  have hlt : |q / 2 ^ F.place q| < 2 ^ (F.precision : ℤ) := by
    rw [abs_div, abs_of_pos hp, div_lt_iff₀ hp, ← zpow_add₀ (by norm_num)]
    have hself : |q| < 2 ^ (Int.log 2 |q| + 1) := by
      exact_mod_cast Int.lt_zpow_succ_log_self (b := 2) (by norm_num) |q|
    refine lt_of_lt_of_le hself (zpow_le_zpow_right₀ (by norm_num) ?_)
    rw [Format.place]
    omega
  have hplace : F.minExponent ≤ F.place q := le_max_right _ _
  have hround : (roundEven (q / 2 ^ F.place q)).natAbs ≤ 2 ^ F.precision := by
    rw [zpow_natCast, abs_lt] at hlt
    have hup : roundEven (q / 2 ^ F.place q) ≤ 2 ^ F.precision := by
      have := le_roundEven (z := -2 ^ F.precision) (q := -(q / 2 ^ F.place q))
        (by push_cast; linarith [hlt.2])
      rw [roundEven_neg] at this
      omega
    have hlow : -2 ^ F.precision ≤ roundEven (q / 2 ^ F.place q) :=
      le_roundEven (by push_cast; linarith [hlt.1])
    zify
    exact abs_le.mpr ⟨hlow, hup⟩
  rcases Nat.lt_or_eq_of_le hround with h | h
  · exact ⟨_, _, h, hplace, rfl⟩
  · have hdouble : 2 ^ F.precision = 2 * 2 ^ (F.precision - 1) := by
      rw [← pow_succ', Nat.sub_add_cancel F.precision_pos]
    obtain ⟨m, hm⟩ : ∃ m : ℤ, roundEven (q / 2 ^ F.place q) = 2 * m :=
      Int.natAbs_dvd_natAbs.mp ⟨2 ^ (F.precision - 1), by rw [h, hdouble]; rfl⟩
    refine ⟨m, F.place q + 1, ?_, by omega, ?_⟩
    · rw [hm, Int.natAbs_mul, hdouble] at h
      have hpos : 0 < 2 ^ (F.precision - 1) := by positivity
      omega
    · rw [Format.roundUnbounded, hm, zpow_add_one₀ (by norm_num)]
      push_cast
      ring

theorem lt_of_lt_roundUnbounded (hd : F.OnGrid d) (h : d < F.roundUnbounded q) : d < q :=
  lt_of_not_ge (fun hle => absurd (roundUnbounded_le hd hle) (not_le.mpr h))

theorem lt_of_roundUnbounded_lt (hd : F.OnGrid d) (h : F.roundUnbounded q < d) : q < d :=
  lt_of_not_ge (fun hle => absurd (le_roundUnbounded hd hle) (not_le.mpr h))

/-- No number of the format lies strictly between q and r. -/
def Format.Faithful (F : Format) (q r : ℚ) : Prop :=
  ∀ d, F.OnGrid d → (d ≤ q → d ≤ r) ∧ (q ≤ d → r ≤ d)

section
variable {G : Format} {p r : ℚ}

theorem faithful_roundUnbounded (q : ℚ) : F.Faithful q (F.roundUnbounded q) :=
  fun _ hd => ⟨le_roundUnbounded hd, roundUnbounded_le hd⟩

theorem Format.Faithful.neg (h : F.Faithful q r) : F.Faithful (-q) (-r) := by
  intro d hd
  obtain ⟨hl, hu⟩ := h (-d) hd.neg
  exact ⟨fun hle => le_neg.mp (hu (le_neg.mp hle)), fun hle => neg_le.mp (hl (neg_le.mp hle))⟩

theorem Format.Faithful.trans (h : F.Faithful p q) (h' : F.Faithful q r) : F.Faithful p r :=
  fun d hd => ⟨fun hle => (h' d hd).1 ((h d hd).1 hle), fun hle => (h' d hd).2 ((h d hd).2 hle)⟩

theorem Format.Faithful.eq (h : F.Faithful q r) (hq : F.OnGrid q) : r = q :=
  le_antisymm ((h q hq).2 le_rfl) ((h q hq).1 le_rfl)

theorem Format.Faithful.abs_le_abs (h : F.Faithful q r) (hd : F.OnGrid d) (hle : |q| ≤ |d|) :
    |r| ≤ |d| := by
  have habs : F.OnGrid |d| := by
    rcases abs_choice d with hd' | hd' <;> rw [hd']
    exacts [hd, hd.neg]
  obtain ⟨hl, hu⟩ := abs_le.mp hle
  exact abs_le.mpr ⟨(h _ habs.neg).1 hl, (h _ habs).2 hu⟩

theorem Format.OnGrid.finer (h : F.OnGrid q) (hp : F.precision ≤ G.precision)
    (hmin : G.minExponent ≤ F.minExponent) : G.OnGrid q := by
  obtain ⟨m, e, hm, he, rfl⟩ := h
  exact ⟨m, e, hm.trans_le (Nat.pow_le_pow_right two_pos hp), hmin.trans he, rfl⟩

/-- Rounding to a finer format first goes past no number of a coarser one. -/
theorem Format.Faithful.coarser (h : G.Faithful q r) (hp : F.precision ≤ G.precision)
    (hmin : G.minExponent ≤ F.minExponent) : F.Faithful q r :=
  fun d hd => h d (hd.finer hp hmin)

theorem faithful_neighbour {k z : ℤ} (hk : k ≤ F.place q) (hl : ⌊q / 2 ^ k⌋ ≤ z)
    (hu : z ≤ ⌈q / 2 ^ k⌉) : F.Faithful q (z * 2 ^ k) := by
  intro d hd
  refine ⟨le_of_floor_le hk hl hd, fun h => ?_⟩
  have hneg : -d ≤ (-z : ℤ) * 2 ^ k := le_of_floor_le (by rwa [place_neg])
    (by rw [neg_div, Int.floor_neg]; omega) hd.neg (neg_le_neg h)
  push_cast at hneg
  linarith

end

end

end FloatFormats
