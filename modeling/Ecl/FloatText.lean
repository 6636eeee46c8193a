import Ecl.IntegerPrinter
import Ecl.NumberValues
import Ecl.SymbolRoundTrip

/-! si_float_to_string_free of src/c/printer/float_to_string.d. A buffer is the text in it up to
the fill pointer, as in IntegerPrinter. -/
namespace FloatText

open Characters Integers IntegerPrinter NumberReader NumberSyntax NumberValues

inductive FloatType where
  | single | double | long
  deriving DecidableEq

/-- The value of *READ-DEFAULT-FLOAT-FORMAT*. -/
inductive ReadDefaultFormat where
  | shortFloat | singleFloat | doubleFloat | longFloat
  | other
  deriving DecidableEq

structure DigitString where
  chars : List ℕ
  ne_nil : chars ≠ []
  digit : ∀ c ∈ chars, 48 ≤ c ∧ c ≤ 57

/-- A float that is not finite has the text that ext::float-nan-string or
ext::float-infinity-string returns; the others have the results of si_float_to_digits. -/
inductive Magnitude where
  | nan (text : List ℕ)
  | infinity (text : List ℕ)
  | finite (digits : DigitString) (exp : ℤ)

structure FloatObject where
  type : FloatType
  signbit : Bool
  magnitude : Magnitude

/-- memmove in one buffer. -/
def moveChars (buffer : List ℕ) (i0 i1 l : ℕ) : List ℕ :=
  buffer.take i0 ++ ((buffer.drop i1).take l ++ buffer.drop (i0 + l))

/-- insert_char; the place is not after the end. -/
def insertChar (buffer : List ℕ) (place c : ℕ) : List ℕ :=
  (moveChars (buffer ++ [46]) (place + 1) place (buffer.length - place)).set place c

def pushBaseString (buffer text : List ℕ) : List ℕ := buffer ++ text.takeWhile (· ≠ 0)

/-- The marker that print_float_exponent chooses. -/
def exponentMarker (type : FloatType) (r : ReadDefaultFormat) : ℕ :=
  match type with
  | .single => if r = .singleFloat ∨ r = .shortFloat then 101 else 102
  | .double => if r = .doubleFloat then 101 else 100
  | .long => if r = .longFloat then 101 else 108

/-- print_float_exponent. -/
def printFloatExponent (buffer : List ℕ) (type : FloatType) (r : ReadDefaultFormat) (exp : ℤ) :
    Except PrintError (List ℕ) :=
  let e := exponentMarker type r
  if e ≠ 101 ∨ exp ≠ 0 then siIntegerToString (buffer ++ [e]) (makeFixnum exp) 10 false false
  else .ok buffer

/-- The loop that fills with zeros up to the point and one place after it. -/
def pushZeros (buffer : List ℕ) (l e : ℕ) : List ℕ :=
  if l ≤ e then pushZeros (buffer ++ [48]) (l + 1) e else buffer
termination_by e + 1 - l

/-- The loop that puts zeros before the digits. -/
def insertZeros (buffer : List ℕ) (base : ℕ) : ℕ → List ℕ
  | 0 => buffer
  | e + 1 => insertZeros (insertChar buffer base 48) (base + 1) e

/-- si_float_to_string_free. The limits are rationals. -/
def siFloatToStringFree (buffer : List ℕ) (number : FloatObject) (eMin eMax : ℚ)
    (r : ReadDefaultFormat) : Except PrintError (List ℕ) :=
  match number.magnitude with
  | .nan text => .ok (pushBaseString buffer text)
  | .infinity text => .ok (pushBaseString buffer text)
  | .finite digits exp =>
    let base := buffer.length
    let buffer := buffer ++ digits.chars
    let (buffer, base) :=
      if number.signbit then (insertChar buffer base 45, base + 1) else (buffer, base)
    if exp ≤ eMin ∨ eMax ≤ exp then
      let buffer :=
        if buffer.length = base + 1 then insertChar (insertChar buffer (base + 1) 46) (base + 2) 48
        else insertChar buffer (base + 1) 46
      printFloatExponent buffer number.type r (exp - 1)
    else if 0 < exp then
      let buffer := pushZeros buffer (buffer.length - base) exp.toNat
      printFloatExponent (insertChar buffer (base + exp.toNat) 46) number.type r 0
    else
      let buffer := insertChar (insertChar buffer base 48) (base + 1) 46
      printFloatExponent (insertZeros buffer (base + 2) (-exp).toNat) number.type r 0

theorem insertChar_append (a b : List ℕ) (c : ℕ) :
    insertChar (a ++ b) a.length c = a ++ c :: b := by
  have hend : (a ++ b).length - a.length = b.length := by simp
  -- the characters from the place on move by one, over the point at the end
  have hmove : moveChars (a ++ b ++ [46]) (a.length + 1) a.length b.length =
      (a ++ b ++ [46]).take (a.length + 1) ++ b := by
    have hdrop : (a ++ b ++ [46]).drop (a.length + 1 + b.length) = [] := by
      simp
      omega
    rw [moveChars, hdrop, List.append_nil, List.append_assoc, List.drop_left, List.take_left]
  rw [insertChar, hend, hmove, List.append_assoc]
  obtain ⟨d, rest, hcons⟩ := List.exists_cons_of_ne_nil (by simp : b ++ [46] ≠ [])
  rw [hcons, List.take_length_add_append, List.take_one, List.append_assoc]
  simp

theorem pushZeros_eq (buffer : List ℕ) (l e : ℕ) :
    pushZeros buffer l e = buffer ++ List.replicate (e + 1 - l) 48 := by
  induction hgap : e + 1 - l generalizing buffer l with
  | zero =>
    rw [pushZeros, if_neg (by omega)]
    simp
  | succ gap ih =>
    rw [pushZeros, if_pos (by omega), ih _ _ (by omega), List.replicate_succ, List.append_assoc]
    rfl

theorem insertZeros_append (a b : List ℕ) (e : ℕ) :
    insertZeros (a ++ b) a.length e = a ++ (List.replicate e 48 ++ b) := by
  induction e generalizing a with
  | zero => rfl
  | succ e ih =>
    have hnext := ih (a ++ [48])
    rw [List.length_append, List.length_singleton, List.append_assoc] at hnext
    rw [insertZeros, insertChar_append, List.replicate_succ]
    simpa using hnext

def fraction : List ℕ → ℚ
  | [] => 0
  | c :: rest => ((c - 48 : ℕ) + fraction rest) / 10

theorem fraction_zeros (e : ℕ) (l : List ℕ) :
    fraction (List.replicate e 48 ++ l) = fraction l * 10 ^ (-e : ℤ) := by
  induction e with
  | zero => simp
  | succ e ih =>
    rw [List.replicate_succ, List.cons_append, fraction, ih, Nat.cast_succ, neg_add,
      zpow_add₀ (by norm_num)]
    norm_num
    ring

theorem fraction_append_zeros (l : List ℕ) (e : ℕ) :
    fraction (l ++ List.replicate e 48) = fraction l := by
  induction l with
  | nil =>
    have hzeros := fraction_zeros e []
    rw [List.append_nil, fraction, zero_mul] at hzeros
    rw [List.nil_append, hzeros, fraction]
  | cons c l ih => rw [List.cons_append, fraction, ih, fraction]

section
variable {ucd : Ucd} {digits int frac : List ℕ} {k x : ℤ} {type : FloatType}
  {r : ReadDefaultFormat}

theorem digitp_decimal (ucd : Ucd) {c : ℕ} (hc : 48 ≤ c ∧ c ≤ 57) :
    ucd.digitp c 10 = some (c - 48) := by
  unfold Ucd.digitp
  rw [if_pos (by omega)]

theorem digits_decimal (ucd : Ucd) (h : ∀ c ∈ digits, 48 ≤ c ∧ c ≤ 57) : Digits ucd 10 digits := by
  intro c hc
  rw [digitp_decimal ucd (h c hc)]
  rfl

theorem digitsFrom_fraction (ucd : Ucd) (h : ∀ c ∈ digits, 48 ≤ c ∧ c ≤ 57) (v : ℕ) :
    (digitsFrom ucd 10 v digits : ℚ) = (v + fraction digits) * 10 ^ (digits.length : ℤ) := by
  induction digits generalizing v with
  | nil => simp [digitsFrom, fraction]
  | cons c digits ih =>
    have hhead := digitp_decimal ucd (h c List.mem_cons_self)
    have htail := ih (fun d hd => h d (List.mem_cons_of_mem c hd)) (v * 10 + (c - 48))
    rw [digitsFrom] at htail ⊢
    rw [List.foldl_cons, hhead, Option.getD_some, htail, fraction, List.length_cons,
      Nat.cast_succ, zpow_add₀ (by norm_num)]
    push_cast
    ring

def exponentText (type : FloatType) (r : ReadDefaultFormat) (exp : ℤ) : List ℕ :=
  if exponentMarker type r ≠ 101 ∨ exp ≠ 0 then
    exponentMarker type r :: (signText exp ++ digitText 10 exp)
  else []

theorem printFloatExponent_eq (buffer : List ℕ) (type : FloatType) (r : ReadDefaultFormat)
    (hx : FitsFixnum x) :
    printFloatExponent buffer type r x = .ok (buffer ++ exponentText type r x) := by
  unfold printFloatExponent exponentText
  by_cases h : exponentMarker type r ≠ 101 ∨ x ≠ 0
  · have hten := bignumToString_eq (by decide : 2 ≤ 10) (by decide)
      (buffer ++ [exponentMarker type r]) x
    rw [if_pos h, if_pos h, siIntegerToString, if_neg Bool.false_ne_true, value_makeFixnum hx,
      hten, List.append_assoc]
    rfl
  · rw [if_neg h, if_neg h, List.append_nil]

theorem exponentMarker_charp (type : FloatType) (r : ReadDefaultFormat) :
    exponentCharp (exponentMarker type r) := by
  unfold exponentMarker
  cases type <;> (dsimp only; split <;> decide)

structure Layout (digits : List ℕ) (k : ℤ) (int frac : List ℕ) (x : ℤ) : Prop where
  int_ne : int ≠ []
  frac_ne : frac ≠ []
  digit : ∀ c ∈ int ++ frac, 48 ≤ c ∧ c ≤ 57
  value : fraction (int ++ frac) * 10 ^ (int.length + x) = fraction digits * 10 ^ k

theorem no_point {base : ℕ} {text : List ℕ} (hbase : base ≤ 36) (hmem : 46 ∈ text) :
    ¬ IntegerSyntax ucd base text := by
  rintro ⟨s, ds, rfl, hs, hne, hds⟩
  rcases List.mem_append.mp hmem with hmem | hmem
  · rcases hs with rfl | rfl | rfl <;> simp at hmem
  · have hdigit := hds 46 hmem
    rw [digitp_dot hbase] at hdigit
    cases hdigit

theorem Layout.read (h : Layout digits k int frac x) (ucd : Ucd) (type : FloatType)
    (r : ReadDefaultFormat) (sign : ℤ) :
    ∃ num exp, DecimalValue ucd sign (int ++ 46 :: (frac ++ exponentText type r x))
        (.float num exp (exponentMarker type r) sign) ∧
      (num : ℚ) * 10 ^ exp = fraction digits * 10 ^ k := by
  have hint := digits_decimal ucd fun c hc => h.digit c (List.mem_append_left frac hc)
  have hfrac := digits_decimal ucd fun c hc => h.digit c (List.mem_append_right int hc)
  have hvalue : (digitsValue ucd 10 (int ++ frac) : ℚ) * 10 ^ (-frac.length + x : ℤ) =
      fraction digits * 10 ^ k := by
    rw [← h.value, digitsValue, digitsFrom_fraction ucd h.digit, Nat.cast_zero, zero_add, mul_assoc,
      ← zpow_add₀ (by norm_num), List.length_append, Nat.cast_add]
    congr 2
    ring
  unfold exponentText
  by_cases hx : exponentMarker type r ≠ 101 ∨ x ≠ 0
  · have hten : 10 ≤ 36 := by decide
    have hbody : DecimalValue ucd sign _ _ := .scaledFraction int frac (exponentMarker type r)
      (signText x) (digitText 10 x) hint hfrac (by simp [h.int_ne]) (exponentMarker_charp type r)
      (sign_signText x) (digitText_ne_nil 10 x) (digits_digitText ucd (by decide) hten x)
    rw [digitsValue_digitText ucd (by decide) hten, signOf_signText] at hbody
    rw [if_pos hx]
    exact ⟨_, _, hbody, hvalue⟩
  · rw [not_or, not_not, not_not] at hx
    obtain ⟨hmarker, rfl⟩ := hx
    have hbody : DecimalValue ucd sign _ _ := .fraction int frac hint hfrac h.frac_ne
    rw [if_neg (by simp [hmarker]), List.append_nil, hmarker]
    rw [add_zero] at hvalue
    exact ⟨_, _, hbody, hvalue⟩

section
variable (p : List ℕ)

theorem exponent_layout (digits : DigitString) (k : ℤ) :
    ∃ int frac, Layout digits.chars k int frac (k - 1) ∧
      (if (p ++ digits.chars).length = p.length + 1 then
          insertChar (insertChar (p ++ digits.chars) (p.length + 1) 46) (p.length + 2) 48
        else insertChar (p ++ digits.chars) (p.length + 1) 46) = p ++ (int ++ 46 :: frac) := by
  obtain ⟨chars, hne, hdigit⟩ := digits
  obtain ⟨c, rest, rfl⟩ := List.exists_cons_of_ne_nil hne
  have hone : ∀ l : List ℕ, insertChar (p ++ c :: l) (p.length + 1) 46 = p ++ c :: 46 :: l := by
    intro l
    have hinsert := insertChar_append (p ++ [c]) l 46
    rw [List.length_append, List.length_singleton] at hinsert
    simpa using hinsert
  dsimp only
  cases rest with
  | nil =>
    refine ⟨[c], [48], ⟨by simp, by simp, ?_, ?_⟩, ?_⟩
    · intro d hd
      rcases List.mem_cons.mp hd with rfl | hd
      · exact hdigit d List.mem_cons_self
      · have hzero := List.mem_singleton.mp hd
        omega
    · have hzero := fraction_append_zeros [c] 1
      rw [List.replicate_one] at hzero
      rw [hzero, List.length_singleton, Nat.cast_one, add_sub_cancel]
    · have hinsert := insertChar_append (p ++ [c, 46]) [] 48
      rw [List.length_append, List.append_nil, List.append_assoc] at hinsert
      rw [if_pos (by simp), hone []]
      exact hinsert
  | cons d rest =>
    refine ⟨[c], d :: rest, ⟨by simp, by simp, hdigit, ?_⟩, ?_⟩
    · rw [List.length_singleton, Nat.cast_one, add_sub_cancel]
      rfl
    · rw [if_neg (by simp), hone]
      rfl

theorem positive_layout (digits : DigitString) {k : ℤ} (hk : 0 < k) :
    ∃ int frac, Layout digits.chars k int frac 0 ∧
      insertChar (pushZeros (p ++ digits.chars) ((p ++ digits.chars).length - p.length) k.toNat)
        (p.length + k.toNat) 46 = p ++ (int ++ 46 :: frac) := by
  obtain ⟨chars, hne, hdigit⟩ := digits
  dsimp only
  generalize hzeros : List.replicate (k.toNat + 1 - chars.length) 48 = zeros
  have hlength : zeros.length = k.toNat + 1 - chars.length := by rw [← hzeros, List.length_replicate]
  have hint : ((chars ++ zeros).take k.toNat).length = k.toNat := by
    rw [List.length_take, List.length_append]
    omega
  have hsplit := List.take_append_drop k.toNat (chars ++ zeros)
  generalize (chars ++ zeros).take k.toNat = int at hint hsplit
  refine ⟨int, (chars ++ zeros).drop k.toNat, ⟨?_, ?_, ?_, ?_⟩, ?_⟩
  · rintro rfl
    rw [List.length_nil] at hint
    omega
  · rw [← List.length_pos_iff, List.length_drop, List.length_append]
    omega
  · intro c hc
    rw [hsplit, ← hzeros] at hc
    rcases List.mem_append.mp hc with hc | hc
    · exact hdigit c hc
    · have hzero := List.eq_of_mem_replicate hc
      omega
  · rw [hsplit, ← hzeros, fraction_append_zeros, hint, Int.toNat_of_nonneg hk.le, add_zero]
  · have hinsert := insertChar_append (p ++ int) ((chars ++ zeros).drop k.toNat) 46
    rw [List.append_assoc, hsplit, List.length_append, hint, List.append_assoc] at hinsert
    rw [List.length_append, Nat.add_sub_cancel_left, pushZeros_eq, hzeros, List.append_assoc]
    exact hinsert

theorem negative_layout (digits : DigitString) {k : ℤ} (hk : k ≤ 0) :
    ∃ int frac, Layout digits.chars k int frac 0 ∧
      insertZeros (insertChar (insertChar (p ++ digits.chars) p.length 48) (p.length + 1) 46)
        (p.length + 2) (-k).toNat = p ++ (int ++ 46 :: frac) := by
  obtain ⟨chars, hne, hdigit⟩ := digits
  dsimp only
  have hnat : ((-k).toNat : ℤ) = -k := Int.toNat_of_nonneg (by omega)
  refine ⟨[48], List.replicate (-k).toNat 48 ++ chars, ⟨by simp, by simp [hne], ?_, ?_⟩, ?_⟩
  · intro c hc
    rw [List.mem_append, List.mem_append, List.mem_singleton] at hc
    rcases hc with hc | hc | hc
    · omega
    · have hzero := List.eq_of_mem_replicate hc
      omega
    · exact hdigit c hc
  · rw [List.cons_append, List.nil_append, fraction, fraction_zeros, hnat, neg_neg,
      List.length_singleton]
    norm_num
  · have hpoint := insertChar_append (p ++ [48]) chars 46
    have hzeros := insertZeros_append (p ++ [48, 46]) chars (-k).toNat
    rw [List.length_append, List.length_singleton, List.append_assoc] at hpoint
    rw [List.length_append] at hzeros
    rw [insertChar_append]
    simp only [List.append_assoc, List.cons_append, List.nil_append, List.length_cons,
      List.length_nil] at hpoint hzeros ⊢
    rw [hpoint, hzeros]

end

/-- The text of a finite float in the free format: a sign, digits on both sides of a point, an
exponent. -/
theorem siFloatToStringFree_layout (buffer : List ℕ) (type : FloatType) (signbit : Bool)
    (digits : DigitString) {k : ℤ} (hlow : mostNegativeFixnum < k) (hhigh : k ≤ mostPositiveFixnum)
    (eMin eMax : ℚ) (r : ReadDefaultFormat) :
    ∃ int frac x, Layout digits.chars k int frac x ∧
      siFloatToStringFree buffer ⟨type, signbit, .finite digits k⟩ eMin eMax r =
        .ok (buffer ++ ((if signbit then [45] else []) ++
          (int ++ 46 :: (frac ++ exponentText type r x)))) := by
  have hsign : (if signbit then (insertChar (buffer ++ digits.chars) buffer.length 45,
      buffer.length + 1) else (buffer ++ digits.chars, buffer.length)) =
      (buffer ++ (if signbit then [45] else []) ++ digits.chars,
        (buffer ++ (if signbit then [45] else [])).length) := by
    cases signbit with
    | true => simp [insertChar_append]
    | false => simp
  simp only [siFloatToStringFree, hsign]
  simp only [← List.append_assoc buffer]
  generalize buffer ++ (if signbit then [45] else []) = p
  split
  · obtain ⟨int, frac, hlayout, htext⟩ := exponent_layout p digits k
    have hfits : FitsFixnum (k - 1) := by
      unfold FitsFixnum
      omega
    refine ⟨int, frac, k - 1, hlayout, ?_⟩
    rw [htext, printFloatExponent_eq _ _ _ hfits]
    simp
  split
  · next hk =>
    obtain ⟨int, frac, hlayout, htext⟩ := positive_layout p digits hk
    refine ⟨int, frac, 0, hlayout, ?_⟩
    rw [htext, printFloatExponent_eq _ _ _ (by decide)]
    simp
  · next hk =>
    obtain ⟨int, frac, hlayout, htext⟩ := negative_layout p digits (not_lt.mp hk)
    refine ⟨int, frac, 0, hlayout, ?_⟩
    rw [htext, printFloatExponent_eq _ _ _ (by decide)]
    simp

def DigitsAroundPoint (text : List ℕ) : Prop :=
  ∃ a c d b, text = a ++ c :: 46 :: d :: b ∧ (48 ≤ c ∧ c ≤ 57) ∧ (48 ≤ d ∧ d ≤ 57)

theorem Layout.around (h : Layout digits k int frac x) (s t : List ℕ) :
    DigitsAroundPoint (s ++ (int ++ 46 :: (frac ++ t))) := by
  obtain ⟨d, rest, rfl⟩ := List.exists_cons_of_ne_nil h.frac_ne
  obtain ⟨before, c, rfl⟩ := (List.eq_nil_or_concat' int).resolve_left h.int_ne
  refine ⟨s ++ before, c, d, rest ++ t, by simp, h.digit c (by simp), h.digit d (by simp)⟩

/-- The free format denotes 0.d1...dn times ten to the k, whatever the radix of the reader. -/
theorem siFloatToStringFree_denotes (ucd : Ucd) (buffer : List ℕ) (type : FloatType)
    (signbit : Bool) (digits : DigitString) {k : ℤ} (hlow : mostNegativeFixnum < k)
    (hhigh : k ≤ mostPositiveFixnum) (eMin eMax : ℚ) (r : ReadDefaultFormat) :
    ∃ text, siFloatToStringFree buffer ⟨type, signbit, .finite digits k⟩ eMin eMax r =
        .ok (buffer ++ text) ∧
      DigitsAroundPoint text ∧
      ∀ (str : TokenString) (readBase : ℕ), str.chars = text → readBase ≤ 36 →
        ∃ num exp, parseNumber ucd str readBase =
            (.number (.float num exp (exponentMarker type r) (if signbit then -1 else 1)),
              text.length) ∧
          (num : ℚ) * 10 ^ exp = fraction digits.chars * 10 ^ k := by
  obtain ⟨int, frac, x, hlayout, htext⟩ :=
    siFloatToStringFree_layout buffer type signbit digits hlow hhigh eMin eMax r
  refine ⟨_, htext, hlayout.around _ _, ?_⟩
  intro str readBase hstr hreadBase
  have hsign : Sign (if signbit then [45] else []) := by
    cases signbit with
    | true => exact .inr (.inr rfl)
    | false => exact .inl rfl
  have hsignOf : signOf (if signbit then [45] else []) = if signbit then -1 else 1 := by
    cases signbit <;> rfl
  obtain ⟨num, exp, hbody, hvalue⟩ := hlayout.read ucd type r (if signbit then -1 else 1)
  rw [← hsignOf] at hbody
  have hpoint : ¬ IntegerSyntax ucd readBase ((if signbit then [45] else []) ++
      (int ++ 46 :: (frac ++ exponentText type r x))) := no_point hreadBase (by simp)
  have htoken := TokenValue.decimal _ _ _ hsign hbody hpoint
  rw [← hstr] at htoken ⊢
  rw [hsignOf] at htoken
  exact ⟨num, exp, parseNumber_value hreadBase htoken, hvalue⟩

/-- A double of -0.05 with single floats as the default. -/
theorem siFloatToStringFree_denotes_hundredths :
    mostNegativeFixnum < -1 ∧ ∃ text, siFloatToStringFree []
        ⟨.double, true, .finite ⟨[53], by decide, by decide⟩ (-1)⟩ (-3) 8 .singleFloat = .ok text ∧
      DigitsAroundPoint text := by
  obtain ⟨text, htext, haround, -⟩ := siFloatToStringFree_denotes SymbolRoundTrip.asciiUcd []
    .double true ⟨[53], by decide, by decide⟩ (k := -1) (by decide) (by decide) (-3) 8 .singleFloat
  exact ⟨by decide, text, htext, haround⟩

end

end FloatText
