import Ecl.FloatText
import Ecl.RatioFloats

/-! make_float of src/c/reader/parse_number.d, with the conversions of rationals in
src/c/number.d that it uses. Overflow is trapped, and the sign of a zero is not kept. -/
namespace DecimalFloats

open Characters Integers CanonicalIntegers Rationals FloatFormats FloatNumbers RatioFloats
open NumberReader NumberSyntax NumberValues
open Objects (FloatType)
open Equalp (FloatValue)
open FloatText (ReadDefaultFormat DigitString exponentMarker fraction siFloatToStringFree
  siFloatToStringFree_layout no_point)

/-- ldexp and ldexpl; their exponent is an int. -/
def ldexp (t : FloatType) (d : ℚ) (exponent : ℤ) : Except ArithmeticError FloatValue :=
  trapOverflow (toFloat t (d * 2 ^ exponent.bmod (2 ^ 32)))

/-- ratio_to_double and ratio_to_long_double. -/
def ratioTo (t : FloatType) (num den : Integer) : Except ArithmeticError FloatValue := do
  let (mantissa, exponent) ← mantissaAndExponentFromRatio num den (mantDig t)
  ldexp t mantissa.value exponent

def eclTo (t : FloatType) : Rational → Except ArithmeticError FloatValue
  | .integer (.fixnum n) => .ok (toFloat t n.toInt)
  | .integer (.bignum z) => ratioTo t (.bignum z) (makeFixnum 1)
  | .ratio n d => ratioTo t n d

def eclToDouble : Rational → Except ArithmeticError FloatValue := eclTo .double
def eclToLongDouble : Rational → Except ArithmeticError FloatValue := eclTo .long

/-- A double as the argument of ecl_make_single_float. -/
def castSingle : FloatValue → Except ArithmeticError FloatValue
  | .finite q => trapOverflow (toFloat .single q)
  | d => .ok d

/-- cl_float of a rational and a float. -/
def clFloat (x : Rational) : FloatType → Except ArithmeticError FloatValue
  | .single => eclToDouble x >>= castSingle
  | .double => eclToDouble x
  | .long => eclToLongDouble x

def expt10Loop (accum factor : ℤ) (expt : ℕ) : ℤ :=
  if expt = 0 then accum
  else expt10Loop (if expt % 2 = 1 then accum * factor else accum) (factor * factor) (expt / 2)
termination_by expt
decreasing_by omega

def expt10 (expt : ℕ) : Integer := bigNormalize (expt10Loop 1 10 expt)

inductive ReadError where
  | arithmetic (e : ArithmeticError)
  | readDefaultFloatFormat

def eclCurrentReadDefaultFloatFormat : ReadDefaultFormat → Except ReadError ℕ
  | .singleFloat | .shortFloat => .ok 70
  | .doubleFloat => .ok 68
  | .longFloat => .ok 76
  | .other => .error .readDefaultFloatFormat

/-- The cases of an exponent marker but e. -/
def markedType (expChar : ℕ) : Option FloatType :=
  if expChar = 115 ∨ expChar = 83 ∨ expChar = 102 ∨ expChar = 70 then some .single
  else if expChar = 100 ∨ expChar = 68 then some .double
  else if expChar = 108 ∨ expChar = 76 then some .long
  else none

def designatedType (r : ReadDefaultFormat) (expChar : ℕ) : Except ReadError (Option FloatType) :=
  if expChar = 101 ∨ expChar = 69 then markedType <$> eclCurrentReadDefaultFloatFormat r
  else .ok (markedType expChar)

/-- None is OBJNULL. -/
abbrev Result := Except ReadError (Option (FloatType × FloatValue))

def infinity (r : ReadDefaultFormat) (expChar : ℕ) (sign : ℤ) : Result :=
  Option.map (fun t => (t, .infinity (sign < 0))) <$> designatedType r expChar

def signed (sign : ℤ) : FloatValue → FloatValue
  | .finite q => .finite (sign * q)
  | .infinity negative => .infinity (xor negative (sign < 0))
  | .nan => .nan

/-- The floats that make_float makes. -/
def makeType (num : Rational) (sign : ℤ) : FloatType → Except ArithmeticError FloatValue
  | .single => signed sign <$> eclToDouble num >>= castSingle
  | .double => signed sign <$> eclToDouble num
  | .long => signed sign <$> eclToLongDouble num

def scale (num : Integer) (exp : ℤ) : Except ArithmeticError Rational :=
  if 0 < exp then (Rational.integer num).times (.integer (expt10 exp.toNat))
  else if exp < 0 then (Rational.integer num).divide (.integer (expt10 (-exp).toNat))
  else .ok (.integer num)

def ofType (t : FloatType) (d : Except ArithmeticError FloatValue) : Result :=
  (fun d => some (t, d)) <$> d.mapError .arithmetic

def makeFloat (r : ReadDefaultFormat) (num exp : Integer) (expChar : ℕ) (sign : ℤ) : Result :=
  match exp with
  | .bignum _ => infinity r expChar sign
  | .fixnum fixExp => do
    let num ← (scale num fixExp.toInt).mapError .arithmetic
    match ← designatedType r expChar with
    | none => return none
    | some t => ofType t (makeType num sign t)

/-- The finite floats. -/
def IsFloat (t : FloatType) (q : ℚ) : Prop :=
  (format t).OnGrid q ∧ |q| < 2 ^ (format t).maxExponent

/-- A float with no other between it and the number, or overflow above all floats. -/
inductive Converted (t : FloatType) (q : ℚ) : Except ArithmeticError FloatValue → Prop
  | float {r : ℚ} : IsFloat t r → (format t).Faithful q r → Converted t q (.ok (.finite r))
  | overflow : (∀ d, IsFloat t d → |d| < |q|) → Converted t q (.error .floatingPointOverflow)

/-- The numbers whose exponents ldexp gets as they are. -/
def IntExponent (q : ℚ) : Prop := -2 ^ 31 + 64 ≤ exponent q ∧ exponent q < 2 ^ 31

section
variable {t : FloatType} {p q : ℚ} {x : Rational} {sign : ℤ}

theorem converted_toFloat (h : (format t).Faithful q p) :
    Converted t q (trapOverflow (toFloat t p)) := by
  have hr := h.trans (faithful_roundUnbounded p)
  by_cases hlt : |(format t).roundUnbounded p| < 2 ^ (format t).maxExponent
  · rw [toFloat_of_lt rfl hlt]
    exact .float ⟨onGrid_roundUnbounded p, hlt⟩ hr
  · rw [toFloat, Format.round, if_neg hlt]
    refine .overflow fun d hd => lt_of_not_ge fun hle => hlt ?_
    exact (hr.abs_le_abs hd.1 hle).trans_lt hd.2

theorem roundAway_between (a : ℚ) : ⌊a⌋ ≤ roundAway a ∧ roundAway a ≤ ⌈a⌉ := by
  obtain ⟨hl, hu⟩ := abs_le.mp (roundAway_close a)
  have hfloor : (⌊a⌋ : ℚ) < roundAway a + 1 := by linarith [Int.floor_le a]
  have hceil : (roundAway a : ℚ) < ⌈a⌉ + 1 := by linarith [Int.le_ceil a]
  exact ⟨Int.lt_add_one_iff.mp (by exact_mod_cast hfloor),
    Int.lt_add_one_iff.mp (by exact_mod_cast hceil)⟩

theorem faithful_roundDigits (F : Format) (q : ℚ) : F.Faithful q (roundDigits F.precision q) :=
  faithful_neighbour (le_max_left _ _) (roundAway_between _).1 (roundAway_between _).2

theorem ratioTo_converted {num den : Integer} (ht : mantDig t = (format t).precision)
    (hn : Canonical num) (hn0 : num.value ≠ 0) (hd : 0 < den.value) (hq : q = num.value / den.value)
    (hint : IntExponent q) : Converted t q (ratioTo t num den) := by
  obtain ⟨m, hm, hv, -, -⟩ := mantissaAndExponentFromRatio_spec (mantDig t) hn hn0 hd hq
  obtain ⟨hl, hu⟩ := hint
  have hdigits : (mantDig t : ℤ) ≤ 64 := by cases t <;> decide
  have hbmod : (exponent q - mantDig t).bmod (2 ^ 32) = exponent q - mantDig t := by
    rw [Int.bmod_eq_iff (by decide)]
    omega
  have hround := faithful_roundDigits (format t) q
  rw [roundDigits, ← ht, ← hv] at hround
  rw [ratioTo, hm]
  change Converted t q (trapOverflow (toFloat t (_ * 2 ^ Int.bmod _ _)))
  rw [hbmod]
  exact converted_toFloat hround

theorem eclTo_converted (ht : mantDig t = (format t).precision) (hx : x.Canonical)
    (hint : IntExponent x.value) : Converted t x.value (eclTo t x) := by
  cases x with
  | integer n =>
    cases n with
    | fixnum n =>
      obtain ⟨z, hz, -⟩ := NumberCompare.toFloat_fixnum (t := t) n.bounds
      rw [eclTo, ← trapOverflow_finite hz]
      exact converted_toFloat fun _ _ => ⟨id, id⟩
    | bignum z =>
      obtain ⟨hz, hd, hq⟩ := bignum_quotient hx.num
      exact ratioTo_converted ht hx.num hz hd hq hint
  | ratio n d =>
    obtain ⟨hn, hd⟩ := ratio_quotient hx.reduced
    exact ratioTo_converted ht hx.num hn hd rfl hint

theorem signed_one (d : FloatValue) : signed 1 d = d := by
  cases d <;> simp [signed]

theorem Converted.signed {d : Except ArithmeticError FloatValue} (h : Converted t q d)
    (hs : sign = 1 ∨ sign = -1) : Converted t (sign * q) (signed sign <$> d) := by
  rcases hs with rfl | rfl
  · rwa [funext signed_one, id_map', Int.cast_one, one_mul]
  · cases h with
    | float hr hq =>
      change Converted t _ (.ok (.finite _))
      rw [Int.cast_neg, Int.cast_one, neg_one_mul, neg_one_mul]
      exact .float ⟨hr.1.neg, by rw [abs_neg]; exact hr.2⟩ hq.neg
    | overflow h => exact .overflow (by simpa using h)

theorem IsFloat.double (h : IsFloat .single q) : IsFloat .double q :=
  ⟨h.1.finer (by decide) (by decide), h.2.trans (zpow_lt_zpow_right₀ (by norm_num) (by decide))⟩

theorem makeType_converted (t : FloatType) (hx : x.Canonical) (hint : IntExponent x.value)
    (hs : sign = 1 ∨ sign = -1) : Converted t (sign * x.value) (makeType x sign t) := by
  cases t with
  | single =>
    have h : Converted .double _ (signed sign <$> eclToDouble x) :=
      (eclTo_converted rfl hx hint).signed hs
    rw [makeType]
    generalize signed sign <$> eclToDouble x = d at h ⊢
    cases h with
    | float hr hq => exact converted_toFloat (hq.coarser (by decide) (by decide))
    | overflow h => exact .overflow fun d hd => h d hd.double
  | double | long => exact (eclTo_converted rfl hx hint).signed hs

theorem makeType_one (x : Rational) (t : FloatType) : makeType x 1 t = clFloat x t := by
  cases t <;> simp only [makeType, clFloat, funext signed_one, id_map']

theorem intExponent_of_isFloat (h : IsFloat t q) : IntExponent q := by
  rcases eq_or_ne q 0 with rfl | hq
  · rw [IntExponent, exponent, abs_zero, Int.log_zero_right]
    decide
  obtain ⟨⟨m, e, -, he, rfl⟩, hmax⟩ := h
  obtain ⟨hl, hu⟩ := exponent_bounds hq
  have hone : (1 : ℚ) ≤ |(m : ℚ)| := by
    have hm : m ≠ 0 := by
      rintro rfl
      simp at hq
    exact_mod_cast Int.one_le_abs hm
  have hlow : (2 : ℚ) ^ e ≤ |(m : ℚ) * 2 ^ e| := by
    rw [abs_mul, abs_of_pos (two_zpow_pos e)]
    exact le_mul_of_one_le_left (two_zpow_pos e).le hone
  have hmin := (zpow_lt_zpow_iff_right₀ (by norm_num)).mp (hlow.trans_lt hu)
  have hlt := (zpow_lt_zpow_iff_right₀ (by norm_num)).mp (hl.trans_lt hmax)
  rw [IntExponent]
  cases t <;> (simp only [format] at he hlt; omega)

/-- A finite float is the float of its rational. -/
theorem clFloat_clRational (h : IsFloat t q) :
    ∃ x, clRational t (.finite q) = .ok x ∧ clFloat x t = .ok (.finite q) := by
  obtain ⟨x, hx, hv, hc⟩ := clRational_spec h.1
  refine ⟨x, hx, ?_⟩
  have hconv := makeType_converted t hc (hv ▸ intExponent_of_isFloat h) (.inl rfl)
  rw [makeType_one, hv, Int.cast_one, one_mul] at hconv
  generalize clFloat x t = d at hconv
  cases hconv with
  | float hr hq => rw [hq.eq h.1]
  | overflow hd => exact absurd (hd q h) (lt_irrefl _)

theorem clFloat_clRational_three_halves : ∃ x, clRational .single (.finite (3 / 2)) = .ok x ∧
    clFloat x .single = .ok (.finite (3 / 2)) :=
  clFloat_clRational ⟨⟨3, -1, by decide, by decide, by norm_num⟩, by norm_num [format]⟩

theorem intExponent_of {e : ℤ} (hl : 2 ^ (e - 1) ≤ |q|) (hu : |q| < 2 ^ e)
    (he : -2 ^ 31 + 64 ≤ e ∧ e < 2 ^ 31) : IntExponent q := by
  rwa [IntExponent, exponent_eq hl hu]

theorem expt10Loop_eq (accum factor : ℤ) (n : ℕ) :
    expt10Loop accum factor n = accum * factor ^ n := by
  induction n using Nat.strong_induction_on generalizing accum factor with
  | _ n ih =>
    rw [expt10Loop]
    split
    · next h => rw [h, pow_zero, mul_one]
    · next h =>
      have hn := Nat.div_add_mod n 2
      rw [ih (n / 2) (by omega), ← pow_two, ← pow_mul]
      split
      · next hodd => rw [mul_assoc, ← pow_succ', ← hodd, hn]
      · next heven => rw [(by omega : 2 * (n / 2) = n)]

theorem value_expt10 (n : ℕ) : (expt10 n).value = 10 ^ n := by
  rw [expt10, value_bigNormalize, expt10Loop_eq, one_mul]

theorem scale_spec {num : Integer} (hn : Canonical num) (h0 : 0 ≤ num.value) (exp : ℤ) :
    ∃ x, scale num exp = .ok x ∧ x.Canonical ∧ x.value = num.value * 10 ^ exp := by
  rcases lt_trichotomy exp 0 with h | rfl | h
  · obtain ⟨n, rfl⟩ : ∃ n : ℕ, exp = -n := ⟨exp.natAbs, by omega⟩
    have hten : (Rational.integer (expt10 n)).value = 10 ^ n := by simp [Rational.value, value_expt10]
    obtain ⟨x, hx, hv, -, hc⟩ := divide_spec (x := .integer num) (y := .integer (expt10 n))
      ⟨hn, trivial⟩ ⟨canonical_bigNormalize _, trivial⟩ (by rw [hten]; positivity)
    rw [scale, if_neg (by omega), if_pos h, neg_neg, Int.toNat_natCast]
    refine ⟨x, hx, hc _ _ rfl rfl, ?_⟩
    rw [hv, hten, zpow_neg, zpow_natCast]
    rfl
  · exact ⟨.integer num, rfl, ⟨hn, trivial⟩, by simp [Rational.value]⟩
  · obtain ⟨n, rfl⟩ := Int.eq_ofNat_of_zero_le h.le
    have hten := value_expt10 n
    rw [scale, if_pos h, Int.toNat_natCast]
    refine ⟨_, rfl, ⟨canonical_times_of_ne hn (canonical_bigNormalize _) ?_, trivial⟩, ?_⟩
    · rw [hten]
      have := mul_nonneg h0 (by positivity : (0 : ℤ) ≤ 10 ^ n)
      omega
    · simp [Rational.value, value_times, hten]

theorem makeFloat_eq (r : ReadDefaultFormat) (num : ℕ) {exp : ℤ} (expChar : ℕ) (sign : ℤ)
    (hexp : FitsFixnum exp) (ht : designatedType r expChar = .ok (some t)) :
    ∃ x : Rational, x.Canonical ∧ x.value = num * 10 ^ exp ∧
      makeFloat r (bigNormalize num) (bigNormalize exp) expChar sign =
        ofType t (makeType x sign t) := by
  obtain ⟨e, he⟩ := canonical_of_fits (canonical_bigNormalize exp) (by rwa [value_bigNormalize])
  have hev : e.toInt = exp := by rw [← value_fixnum, ← he, value_bigNormalize]
  obtain ⟨x, hx, hc, hv⟩ := scale_spec (canonical_bigNormalize num) (by simp [value_bigNormalize]) exp
  rw [value_bigNormalize, Int.cast_natCast] at hv
  refine ⟨x, hc, hv, ?_⟩
  rw [he]
  simp only [makeFloat, hev, hx, ht]
  rfl

/-- What make_float makes of a token: no float of its format lies between it and the number. -/
theorem makeFloat_converted (r : ReadDefaultFormat) (num : ℕ) {exp : ℤ} (expChar : ℕ)
    (hexp : FitsFixnum exp) (hs : sign = 1 ∨ sign = -1)
    (ht : designatedType r expChar = .ok (some t)) (hint : IntExponent (num * 10 ^ exp)) :
    ∃ d, makeFloat r (bigNormalize num) (bigNormalize exp) expChar sign = ofType t d ∧
      Converted t (sign * (num * 10 ^ exp)) d := by
  obtain ⟨x, hc, hv, hread⟩ := makeFloat_eq r num expChar sign hexp ht
  rw [← hv] at hint ⊢
  exact ⟨_, hread, makeType_converted t hc hint hs⟩

/-- The token -2.5 with single floats as the default. -/
theorem makeFloat_converted_minus_five_halves : FitsFixnum (-1) ∧ ∃ d,
    makeFloat .singleFloat (bigNormalize (25 : ℕ)) (bigNormalize (-1)) 101 (-1) = ofType .single d ∧
      Converted .single ((-1 : ℤ) * ((25 : ℕ) * 10 ^ (-1 : ℤ))) d :=
  ⟨by decide, makeFloat_converted .singleFloat 25 101 (by decide) (.inr rfl) rfl
    (intExponent_of (e := 2) (by norm_num) (by norm_num) (by decide))⟩

def printedType : FloatText.FloatType → FloatType
  | .single => .single
  | .double => .double
  | .long => .long

theorem designatedType_exponentMarker (type : FloatText.FloatType) (r : ReadDefaultFormat) :
    designatedType r (exponentMarker type r) = .ok (some (printedType type)) := by
  cases type <;> cases r <;> rfl

/-- Printed digits are read as a float of the printed type next to the number they denote, with
any default format. -/
theorem printed_float_converted (ucd : Ucd) (buffer : List ℕ) (type : FloatText.FloatType)
    (signbit : Bool) (digits : DigitString) {k : ℤ} (hlow : mostNegativeFixnum < k)
    (hhigh : k ≤ mostPositiveFixnum) (eMin eMax : ℚ) (r : ReadDefaultFormat)
    (hint : IntExponent (fraction digits.chars * 10 ^ k)) :
    ∃ text num exp sign, siFloatToStringFree buffer ⟨type, signbit, .finite digits k⟩ eMin eMax r =
        .ok (buffer ++ text) ∧
      (∀ (str : TokenString) (readBase : ℕ), str.chars = text → readBase ≤ 36 →
        parseNumber ucd str readBase =
          (.number (.float num exp (exponentMarker type r) sign), text.length)) ∧
      (FitsFixnum exp → ∃ d, Converted (printedType type)
          ((if signbit then -1 else 1) * (fraction digits.chars * 10 ^ k)) d ∧
        makeFloat r (bigNormalize num) (bigNormalize exp) (exponentMarker type r) sign =
          ofType (printedType type) d) := by
  obtain ⟨int, frac, x, hlayout, htext⟩ :=
    siFloatToStringFree_layout buffer type signbit digits hlow hhigh eMin eMax r
  obtain ⟨s, hs⟩ : ∃ s, s = if signbit then [45] else [] := ⟨_, rfl⟩
  obtain ⟨hsign, hone, hcast⟩ : Sign s ∧ (signOf s = 1 ∨ signOf s = -1) ∧
      ((signOf s : ℤ) : ℚ) = if signbit then -1 else 1 := by
    subst hs
    cases signbit
    · exact ⟨.inl rfl, .inl rfl, by norm_num [signOf]⟩
    · exact ⟨.inr (.inr rfl), .inr rfl, by norm_num [signOf]⟩
  obtain ⟨num, exp, hbody, hvalue⟩ := hlayout.read ucd type r (signOf s)
  rw [← hvalue] at hint ⊢
  rw [← hs] at htext
  refine ⟨_, num, exp, signOf s, htext, ?_, fun hexp => ?_⟩
  · intro str readBase hstr hreadBase
    have htoken := TokenValue.decimal _ _ _ hsign hbody (no_point hreadBase (by simp))
    rw [← hstr] at htoken ⊢
    exact parseNumber_value hreadBase htoken
  · obtain ⟨q, hc, hv, hread⟩ := makeFloat_eq r num (exponentMarker type r) (signOf s) hexp
      (designatedType_exponentMarker type r)
    rw [← hv] at hint ⊢
    rw [← hcast]
    exact ⟨_, makeType_converted _ hc hint hone, hread⟩

theorem printed_float_converted_five_halves : ∃ text, siFloatToStringFree []
    ⟨.double, true, .finite ⟨[50, 53], by decide, by decide⟩ 1⟩ (-3) 8 .singleFloat = .ok text := by
  obtain ⟨text, -, -, -, htext, -⟩ := printed_float_converted SymbolRoundTrip.asciiUcd [] .double
    true ⟨[50, 53], by decide, by decide⟩ (k := 1) (by decide) (by decide) (-3) 8 .singleFloat
    (intExponent_of (e := 2) (by norm_num [fraction]) (by norm_num [fraction]) (by decide))
  exact ⟨text, htext⟩

end

end DecimalFloats
