import Ecl.RatioFloats

/-! ecl_number_equalp of src/c/numbers/number_equalp.d, in a build that has complex floats. -/
namespace NumberEqualp

open Integers CanonicalIntegers Rationals RationalCompare FloatFormats FloatNumbers NumberCompare
  RatioFloats
open Objects (FloatType)
open Equalp (FloatValue floatValue)

inductive Number where
  | real (x : RealNumber)
  | complex (real imag : Rational)
  | complexFloat (t : FloatType) (real imag : ℕ)
  deriving DecidableEq

def integerEqualp : Integer → Integer → Bool
  | .fixnum x, .fixnum y => x = y
  | .bignum x, .bignum y => bigCompare x y = 0
  | _, _ => false

def rationalEqualp : Rational → Rational → Bool
  | .integer x, .integer y => integerEqualp x y
  | .ratio n d, .ratio n' d' => integerEqualp n n' && integerEqualp d d'
  | _, _ => false

def isNanOrInfinity : FloatValue → Bool
  | .finite _ => false
  | _ => true

/-- A float that is not a fixnum's operand is rationalised; a long float comes second then. -/
def floatEqualp (t : FloatType) (d : FloatValue) (y : Rational) : Except ArithmeticError Bool :=
  if isNanOrInfinity d then .ok false
  else do
    let x ← clRational t d
    return if t = .long then rationalEqualp y x else rationalEqualp x y

def realEqualp : RealNumber → RealNumber → Except ArithmeticError Bool
  | .rational x, .rational y => .ok (rationalEqualp x y)
  | .rational (.integer (.fixnum x)), .float t y => .ok (fixCompare t x.toInt (floatValue t y) = 0)
  | .float t x, .rational (.integer (.fixnum y)) => .ok (fixCompare t y.toInt (floatValue t x) = 0)
  | .rational x, .float t y =>
    if isNanOrInfinity (floatValue t y) then .ok false
    else do
      let y ← clRational t (floatValue t y)
      return rationalEqualp x y
  | .float t x, .rational y => floatEqualp t (floatValue t x) y
  | .float t x, .float t' y => .ok ((floatValue t x).eq (floatValue t' y))

def zerop : RealNumber → Bool
  | .rational (.integer (.fixnum n)) => n = 0
  | .rational _ => false
  | .float t bits => (floatValue t bits).eq (.finite 0)

/-- The comparison of a complex number, given its parts, with a real one. -/
def complexRealEqualp (realpart imagpart y : RealNumber) : Except ArithmeticError Bool :=
  if zerop imagpart then realEqualp realpart y else .ok false

def complexFloatEqualp (a b c d : FloatValue) : Bool := a.eq c && b.eq d

def numberEqualp : Number → Number → Except ArithmeticError Bool
  | .real x, .real y => realEqualp x y
  | .complex a b, .real y => complexRealEqualp (.rational a) (.rational b) y
  | .complexFloat t a b, .real y => complexRealEqualp (.float t a) (.float t b) y
  | .real x, .complex a b => complexRealEqualp (.rational a) (.rational b) x
  | .real x, .complexFloat t a b => complexRealEqualp (.float t a) (.float t b) x
  | .complex a b, .complex c d => .ok (rationalEqualp a c && rationalEqualp b d)
  | .complex a b, .complexFloat t c d => do
    let re ← eclToFloat a
    let im ← eclToFloat b
    return complexFloatEqualp re im (floatValue t c) (floatValue t d)
  | .complexFloat t a b, .complex c d => do
    let re ← eclToFloat c
    let im ← eclToFloat d
    return complexFloatEqualp (floatValue t a) (floatValue t b) re im
  | .complexFloat t a b, .complexFloat t' c d =>
    .ok (complexFloatEqualp (floatValue t a) (floatValue t b) (floatValue t' c) (floatValue t' d))

def RealNumber.exact : RealNumber → FloatValue
  | .rational x => .finite x.value
  | .float t bits => floatValue t bits

/-- Canonical, and not a NaN. -/
def RealNumber.Valid : RealNumber → Prop
  | .rational x => x.Canonical
  | .float t bits => floatValue t bits ≠ .nan

def Number.exact : Number → FloatValue × FloatValue
  | .real x => (RealNumber.exact x, .finite 0)
  | .complex a b => (.finite a.value, .finite b.value)
  | .complexFloat t a b => (floatValue t a, floatValue t b)

def Number.Valid : Number → Prop
  | .real x => RealNumber.Valid x
  | .complex a b => a.Canonical ∧ b.Canonical
  | .complexFloat t a b => floatValue t a ≠ .nan ∧ floatValue t b ≠ .nan

def OverflowsSingle (x : Rational) : Prop := ∃ s, nearestSingle x = .infinity s

def SurvivesRounding (a b : Rational) (y : FloatValue × FloatValue) : Prop :=
  ¬ OverflowsSingle a ∧ ¬ OverflowsSingle b ∧
    (IsSingle a.value ∧ IsSingle b.value ∨
      y ≠ (.finite a.value, .finite b.value) ∧ y ≠ (nearestSingle a, nearestSingle b))

def Faithful : Number → Number → Prop
  | .complex a b, .complexFloat t c d => SurvivesRounding a b (floatValue t c, floatValue t d)
  | .complexFloat t c d, .complex a b => SurvivesRounding a b (floatValue t c, floatValue t d)
  | _, _ => True

theorem integerEqualp_iff {x y : Integer} (hx : Canonical x) (hy : Canonical y) :
    integerEqualp x y = true ↔ x.value = y.value := by
  cases x with
  | fixnum n =>
    cases y with
    | fixnum m => simp [integerEqualp, ← fixnum_value_inj]
    | bignum w =>
      have hw := canonical_bignum.mp hy
      simp only [integerEqualp, Bool.false_eq_true, value_fixnum, value_bignum, false_iff]
      rintro rfl
      exact hw n.bounds
  | bignum z =>
    cases y with
    | fixnum m =>
      have hz := canonical_bignum.mp hx
      simp only [integerEqualp, Bool.false_eq_true, value_fixnum, value_bignum, false_iff]
      rintro rfl
      exact hz m.bounds
    | bignum w =>
      simp only [integerEqualp, decide_eq_true_eq, value_bignum]
      rw [(orders_bigCompare z w).2, Int.cast_inj]

theorem rationalEqualp_iff {x y : Rational} (hx : x.Canonical) (hy : y.Canonical) :
    rationalEqualp x y = true ↔ x.value = y.value := by
  constructor
  · intro h
    cases x <;> cases y <;> simp only [rationalEqualp, Bool.and_eq_true, Bool.false_eq_true] at h
    · rw [Rational.value, Rational.value, (integerEqualp_iff hx.num hy.num).mp h]
    · rw [Rational.value, Rational.value, (integerEqualp_iff hx.num hy.num).mp h.1,
        (integerEqualp_iff hx.reduced.1 hy.reduced.1).mp h.2]
  · intro h
    obtain rfl := eq_of_value_eq hx hy h
    cases x with
    | integer n => exact (integerEqualp_iff hx.num hx.num).mpr rfl
    | ratio n d =>
      rw [rationalEqualp, Bool.and_eq_true]
      exact ⟨(integerEqualp_iff hx.num hx.num).mpr rfl,
        (integerEqualp_iff hx.reduced.1 hx.reduced.1).mpr rfl⟩

theorem eq_iff {d e : FloatValue} (h : d ≠ .nan) : d.eq e = true ↔ d = e := by
  cases d <;> cases e <;> simp_all [FloatValue.eq]

theorem doubleFixCompare_infinity {n : ℤ} (hn : FitsFixnum n) (s : Bool) :
    doubleFixCompare n (.infinity s) ≠ 0 := by
  obtain ⟨z, hz, -⟩ := toFloat_fixnum (t := .double) hn
  rw [doubleFixCompare, hz]
  cases s <;> simp [less]

theorem longDoubleFixCompare_infinity {n : ℤ} (hn : FitsFixnum n) (s : Bool) :
    longDoubleFixCompare n (.infinity s) ≠ 0 := by
  rw [longDoubleFixCompare, toFloat_long hn]
  cases s <;> simp [less]

theorem fixCompare_infinity {t : FloatType} {n : ℤ} (hn : FitsFixnum n) (s : Bool) :
    fixCompare t n (.infinity s) ≠ 0 := by
  cases t with
  | long => exact longDoubleFixCompare_infinity hn s
  | single => exact doubleFixCompare_infinity hn s
  | double => exact doubleFixCompare_infinity hn s

theorem fixCompare_eq_zero {t : FloatType} {bits : ℕ} (n : Fixnum) (h : floatValue t bits ≠ .nan) :
    fixCompare t n.toInt (floatValue t bits) = 0 ↔ FloatValue.finite n.toInt = floatValue t bits := by
  cases hd : floatValue t bits with
  | nan => exact absurd hd h
  | infinity s => simp [fixCompare_infinity n.bounds]
  | finite q =>
    rw [fixCompare_finite n.bounds (onGrid_floatValue hd), (orders_exactSign _ q).2]
    simp

def Decides (r : Except ArithmeticError Bool) (p : Prop) : Prop := ∃ b, r = .ok b ∧ (b = true ↔ p)

theorem Decides.iff {r : Except ArithmeticError Bool} {p q : Prop} (h : Decides r p) (hpq : p ↔ q) :
    Decides r q := by rwa [hpq] at h

theorem decides_ok {b : Bool} {p : Prop} (h : b = true ↔ p) : Decides (.ok b) p := ⟨b, rfl, h⟩

section
variable {t : FloatType} {bits : ℕ} {r : Rational}

theorem decides_clRational {f : Rational → Bool} (h : floatValue t bits ≠ .nan)
    (hf : ∀ s : Rational, s.Canonical → (f s = true ↔ r.value = s.value)) :
    Decides (if isNanOrInfinity (floatValue t bits) then .ok false
      else clRational t (floatValue t bits) >>= fun s => pure (f s))
      (FloatValue.finite r.value = floatValue t bits) := by
  cases hd : floatValue t bits with
  | nan => exact absurd hd h
  | infinity s => exact ⟨false, rfl, by simp⟩
  | finite q =>
    obtain ⟨s, hs, hv, hc⟩ := clRational_spec (onGrid_floatValue hd)
    refine ⟨f s, ?_, ?_⟩
    · simp only [isNanOrInfinity, hs]
      rfl
    · rw [hf s hc, hv, FloatValue.finite.injEq]

theorem realEqualp_rational_float (hr : r.Canonical) (h : floatValue t bits ≠ .nan) :
    Decides (realEqualp (.rational r) (.float t bits)) (FloatValue.finite r.value = floatValue t bits) := by
  have hrat := decides_clRational (f := rationalEqualp r) h (fun s hs => rationalEqualp_iff hr hs)
  cases r with
  | integer x =>
    cases x with
    | fixnum n => exact decides_ok (by rw [decide_eq_true_eq, fixCompare_eq_zero n h]; rfl)
    | bignum z => exact hrat
  | ratio n d => exact hrat

theorem realEqualp_float_rational (hr : r.Canonical) (h : floatValue t bits ≠ .nan) :
    Decides (realEqualp (.float t bits) (.rational r)) (FloatValue.finite r.value = floatValue t bits) := by
  have hrat := decides_clRational h
    (f := fun s => if t = .long then rationalEqualp r s else rationalEqualp s r) (r := r)
    (fun s hs => by
      split
      · exact rationalEqualp_iff hr hs
      · rw [rationalEqualp_iff hs hr, eq_comm])
  cases r with
  | integer x =>
    cases x with
    | fixnum n => exact decides_ok (by rw [decide_eq_true_eq, fixCompare_eq_zero n h]; rfl)
    | bignum z => exact hrat
  | ratio n d => exact hrat

end

theorem realEqualp_spec {x y : RealNumber} (hx : RealNumber.Valid x) (hy : RealNumber.Valid y) :
    Decides (realEqualp x y) (RealNumber.exact x = RealNumber.exact y) := by
  cases x with
  | rational r =>
    cases y with
    | rational s =>
      apply decides_ok
      rw [rationalEqualp_iff hx hy, RealNumber.exact, RealNumber.exact, FloatValue.finite.injEq]
    | float t bits => exact realEqualp_rational_float hx hy
  | float t bits =>
    cases y with
    | rational s => exact (realEqualp_float_rational hy hx).iff eq_comm
    | float t' bits' => exact decides_ok (eq_iff hx)

theorem zerop_iff {x : RealNumber} (hx : RealNumber.Valid x) :
    zerop x = true ↔ RealNumber.exact x = .finite 0 := by
  cases x with
  | rational r =>
    have h0 : (Rational.integer (.fixnum 0)).Canonical := ⟨canonical_fixnum 0, trivial⟩
    rw [RealNumber.exact, FloatValue.finite.injEq]
    constructor
    · intro h
      cases r with
      | integer x =>
        cases x with
        | fixnum n =>
          obtain rfl : n = 0 := by simpa [zerop] using h
          rfl
        | bignum z => simp [zerop] at h
      | ratio n d => simp [zerop] at h
    · intro h
      obtain rfl := eq_of_value_eq hx h0 (h.trans rfl)
      rfl
  | float t bits => exact eq_iff hx

theorem complexRealEqualp_spec {a b y : RealNumber} (ha : RealNumber.Valid a)
    (hb : RealNumber.Valid b) (hy : RealNumber.Valid y) :
    Decides (complexRealEqualp a b y) ((RealNumber.exact a, RealNumber.exact b) = (RealNumber.exact y, .finite 0)) := by
  have hz := zerop_iff hb
  rw [complexRealEqualp, Prod.mk.injEq, ← hz]
  split
  · next h =>
    exact (realEqualp_spec ha hy).iff (by simp [h])
  · next h => exact decides_ok (by simp [h])

theorem complexFloatEqualp_iff {a b c d : FloatValue} (ha : a ≠ .nan) (hb : b ≠ .nan) :
    complexFloatEqualp a b c d = true ↔ (a, b) = (c, d) := by
  rw [complexFloatEqualp, Bool.and_eq_true, eq_iff ha, eq_iff hb, Prod.mk.injEq]

theorem not_decides_error {e : ArithmeticError} {p : Prop} : ¬ Decides (.error e) p := by
  rintro ⟨b, h, -⟩
  exact absurd h (by simp)

theorem decides_ok_iff {b : Bool} {p : Prop} : Decides (.ok b) p ↔ (b = true ↔ p) := by
  constructor
  · rintro ⟨b', h, hb⟩
    rwa [Except.ok.inj h]
  · exact decides_ok

theorem nearestSingle_cases (x : Rational) :
    (∃ s, nearestSingle x = .infinity s) ∨ ∃ q, nearestSingle x = .finite q := by
  have htoFloat (q : ℚ) : (∃ s, toFloat .single q = .infinity s) ∨ ∃ r, toFloat .single q = .finite r := by
    rw [toFloat, Format.round]
    split
    · exact Or.inr ⟨_, rfl⟩
    · exact Or.inl ⟨_, rfl⟩
  unfold nearestSingle
  split <;> exact htoFloat _

theorem isSingle_of_nearestSingle {x : Rational} {q : ℚ} (h : nearestSingle x = .finite q) :
    IsSingle q := by
  unfold nearestSingle at h
  split at h <;> exact isSingle_of_toFloat h

theorem roundAway_intCast (z : ℤ) : roundAway z = z := by
  have hfloor (w : ℤ) : ⌊(w : ℚ) + 1 / 2⌋ = w := by
    rw [Int.floor_intCast_add]
    norm_num
  rw [roundAway, hfloor]
  split
  · rw [← Int.cast_neg, hfloor, neg_neg]
  · rfl

theorem roundDigits_of_isSingle {q : ℚ} (h : IsSingle q) : roundDigits 24 q = q := by
  obtain ⟨⟨m, e, hm, -, hq⟩, -⟩ := h
  rcases eq_or_ne q 0 with rfl | hq0
  · have h0 : roundAway 0 = 0 := roundAway_intCast 0
    rw [roundDigits, zero_div, h0, Int.cast_zero, zero_mul]
  have hplace : exponent q - 24 ≤ e := by
    have hlt : |q| < 2 ^ (24 + e : ℤ) := by
      have hmq : |(m : ℚ)| < 2 ^ (24 : ℤ) := by
        rw [← Int.cast_abs, Int.abs_eq_natAbs]
        exact_mod_cast hm
      rw [hq, abs_mul, abs_of_pos (two_zpow_pos e), zpow_add₀ (by norm_num)]
      exact mul_lt_mul_of_pos_right hmq (two_zpow_pos e)
    have hexp := lt_of_le_of_lt (exponent_bounds hq0).1 hlt
    have := (zpow_lt_zpow_iff_right₀ (by norm_num)).mp hexp
    omega
  have hdiv : q / 2 ^ (exponent q - 24) = ((m * 2 ^ (e - (exponent q - 24)).toNat : ℤ) : ℚ) := by
    rw [div_eq_iff (two_zpow_pos _).ne']
    nth_rewrite 1 [hq]
    rw [zpow_eq_mul hplace]
    push_cast
    ring
  rw [roundDigits, Nat.cast_ofNat, hdiv, roundAway_intCast, ← hdiv,
    div_mul_cancel₀ _ (two_zpow_pos _).ne']

theorem nearestSingle_of_isSingle {x : Rational} (h : IsSingle x.value) :
    nearestSingle x = .finite x.value := by
  have hround := roundDigits_of_isSingle h
  unfold nearestSingle
  split
  · exact toFloat_of_isSingle h
  · rw [hround]
    exact toFloat_of_isSingle h

theorem OverflowsSingle.error {x : Rational} (hx : x.Canonical) (h : OverflowsSingle x) :
    eclToFloat x = .error .floatingPointOverflow := by
  obtain ⟨s, hs⟩ := h
  rw [eclToFloat_eq hx, hs]
  rfl

/-- The comparison after rounding is exact for the numbers that survive it only. -/
theorem rounded_spec {a b : Rational} (ha : a.Canonical) (hb : b.Canonical)
    {f : FloatValue → FloatValue → Bool} {y : FloatValue × FloatValue}
    (hf : ∀ p q : ℚ, f (.finite p) (.finite q) = true ↔ y = (.finite p, .finite q)) :
    Decides (do let re ← eclToFloat a; let im ← eclToFloat b; return f re im)
      (y = (.finite a.value, .finite b.value)) ↔ SurvivesRounding a b y := by
  rcases nearestSingle_cases a with hinf | ⟨p, hp⟩
  · rw [OverflowsSingle.error ha hinf]
    exact ⟨fun h => absurd h not_decides_error, fun h => absurd hinf h.1⟩
  rcases nearestSingle_cases b with hinf | ⟨q, hq⟩
  · rw [eclToFloat_eq ha, hp, OverflowsSingle.error hb hinf]
    exact ⟨fun h => absurd h not_decides_error, fun h => absurd hinf h.2.1⟩
  have hfin (x : Rational) {r : ℚ} (h : nearestSingle x = .finite r) : ¬ OverflowsSingle x := by
    rintro ⟨s, hs⟩
    exact absurd (hs.symm.trans h) (by simp)
  rw [eclToFloat_eq ha, eclToFloat_eq hb, hp, hq]
  change Decides (.ok (f (.finite p) (.finite q))) _ ↔ _
  rw [decides_ok_iff, hf, SurvivesRounding, hp, hq]
  constructor
  · intro h
    refine ⟨hfin a hp, hfin b hq, ?_⟩
    by_cases hy : y = (.finite p, .finite q)
    · have hexact := (h.mp hy).symm.trans hy
      simp only [Prod.mk.injEq, FloatValue.finite.injEq] at hexact
      rw [hexact.1, hexact.2]
      exact Or.inl ⟨isSingle_of_nearestSingle hp, isSingle_of_nearestSingle hq⟩
    · exact Or.inr ⟨mt h.mpr hy, hy⟩
  · rintro ⟨-, -, ⟨hpa, hqb⟩ | ⟨hne, hne'⟩⟩
    · rw [nearestSingle_of_isSingle hpa] at hp
      rw [nearestSingle_of_isSingle hqb] at hq
      rw [← hp, ← hq]
    · exact ⟨fun h => absurd h hne', fun h => absurd h hne⟩

/-- Two numbers are told equal exactly when their parts are, except where a rational complex
number is rounded to be compared with a complex float. -/
theorem numberEqualp_exact {x y : Number} (hx : x.Valid) (hy : y.Valid) :
    Decides (numberEqualp x y) (x.exact = y.exact) ↔ Faithful x y := by
  have htrue {r : Except ArithmeticError Bool} {p : Prop} (h : Decides r p) : Decides r p ↔ True :=
    iff_true_intro h
  cases x with
  | real x =>
    cases y with
    | real y =>
      apply htrue
      refine (realEqualp_spec hx hy).iff ?_
      rw [Number.exact, Number.exact, Prod.mk.injEq, and_iff_left rfl]
    | complex c d =>
      exact htrue ((complexRealEqualp_spec (a := .rational c) (b := .rational d) hy.1 hy.2 hx).iff eq_comm)
    | complexFloat t c d =>
      exact htrue ((complexRealEqualp_spec (a := .float t c) (b := .float t d) hy.1 hy.2 hx).iff eq_comm)
  | complex a b =>
    cases y with
    | real y => exact htrue (complexRealEqualp_spec (a := .rational a) (b := .rational b) hx.1 hx.2 hy)
    | complex c d =>
      apply htrue
      apply decides_ok
      rw [Bool.and_eq_true, rationalEqualp_iff hx.1 hy.1, rationalEqualp_iff hx.2 hy.2]
      simp [Number.exact]
    | complexFloat t c d =>
      rw [eq_comm]
      exact rounded_spec hx.1 hx.2 (fun p q => by
        rw [complexFloatEqualp_iff (by simp) (by simp), eq_comm]
        rfl)
  | complexFloat t a b =>
    cases y with
    | real y => exact htrue (complexRealEqualp_spec (a := .float t a) (b := .float t b) hx.1 hx.2 hy)
    | complex c d =>
      exact rounded_spec hy.1 hy.2 (fun p q => complexFloatEqualp_iff hx.1 hx.2)
    | complexFloat t' c d => exact htrue (decides_ok (complexFloatEqualp_iff hx.1 hx.2))

/-- The fixnum 3 against the double 3.0. -/
theorem numberEqualp_exact_fixnum :
    Decides (numberEqualp (.real (.rational (.integer (makeFixnum 3)))) (.real (.float .double 0x4008000000000000)))
      (Number.exact (.real (.rational (.integer (makeFixnum 3)))) =
        Number.exact (.real (.float .double 0x4008000000000000))) := by
  have hy : floatValue .double 0x4008000000000000 = .finite 3 := by decide +kernel
  refine (numberEqualp_exact (x := .real (.rational (.integer (makeFixnum 3))))
    (y := .real (.float .double 0x4008000000000000)) ⟨canonical_makeFixnum 3, trivial⟩ ?_).mpr trivial
  change floatValue .double 0x4008000000000000 ≠ .nan
  rw [hy]
  exact FloatValue.noConfusion

/-- #C(16777217 1) is told to be equal to #C(16777216d0 1d0). -/
theorem complex_rounded_to_single :
    Number.Valid (.complex (.integer (makeFixnum 16777217)) (.integer (makeFixnum 1))) ∧
      Number.Valid (.complexFloat .double 0x4170000000000000 0x3FF0000000000000) ∧
      numberEqualp (.complex (.integer (makeFixnum 16777217)) (.integer (makeFixnum 1)))
        (.complexFloat .double 0x4170000000000000 0x3FF0000000000000) = .ok true ∧
      Number.exact (.complex (.integer (makeFixnum 16777217)) (.integer (makeFixnum 1))) ≠
        Number.exact (.complexFloat .double 0x4170000000000000 0x3FF0000000000000) := by
  refine ⟨⟨⟨canonical_makeFixnum _, trivial⟩, canonical_makeFixnum _, trivial⟩, ⟨?_, ?_⟩, ?_, ?_⟩
  · decide +kernel
  · decide +kernel
  · decide +kernel
  · decide +kernel

end NumberEqualp
