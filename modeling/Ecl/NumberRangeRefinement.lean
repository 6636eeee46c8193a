import Ecl.NumberParsing
import Ecl.NumberRanges

/-! The parser of ranges does what the parser of whole tokens does, on the characters of the
range. -/
namespace NumberRanges

open Characters NumberReader AccessLogs Integers Rationals

def slice (str : List ℕ) (a n : ℕ) : List ℕ := (str.drop a).take n

def token (str : List ℕ) (start stop : ℕ) : TokenString where
  chars := slice str start (stop - start)
  dim := str.length - start
  stale j := str.getD (start + j) 0

inductive SameNumber : NumberReader.Number → Number → Prop
  | integer (z : ℤ) (x : Integer) (hx : Canonical x) (hv : x.value = z) :
      SameNumber (.integer z) (.rational (.integer x))
  | ratio (n d : ℤ) (num den : Integer) (hx : (Rational.ratio num den).Canonical)
      (hv : (Rational.ratio num den).value = n / d) :
      SameNumber (.ratio n d) (.rational (.ratio num den))
  | float (n : ℕ) (e : ℤ) (marker : ℕ) (sign : ℤ) (num exp : Integer) (hnum : num.value = n)
      (hexp : exp.value = e) : SameNumber (.float n e marker sign) (.float num exp marker sign)

inductive SameParsed : NumberReader.Parsed → Parsed → Prop
  | objnull : SameParsed .objnull .objnull
  | nil : SameParsed .nil .nil
  | number (q : NumberReader.Number) (num : Number) (h : SameNumber q num) :
      SameParsed (.number q) (.number num)

inductive SamePass (start : ℕ) : NumberReader.Pass → Option Pass → Prop
  | done (x : NumberReader.Parsed) (x' : Parsed) (ep : ℕ) (h : SameParsed x x') :
      SamePass start (.done x ep) (some (.done x' (start + ep)))
  | indexError (ep : ℕ) : SamePass start (.done .indexError ep) none
  | again (someDigit : Bool) : SamePass start (.again someDigit) (some (.again someDigit))
  | tryDecimal : SamePass start .tryDecimal (some .tryDecimal)

inductive SameResult (start : ℕ) : NumberReader.Parsed × ℕ → Option (Option (Parsed × ℕ)) → Prop
  | done (x : NumberReader.Parsed) (x' : Parsed) (ep : ℕ) (h : SameParsed x x') :
      SameResult start (x, ep) (some (some (x', start + ep)))
  | indexError (ep : ℕ) : SameResult start (.indexError, ep) none

section
variable {str : List ℕ} {a n : ℕ}

@[simp] theorem slice_zero : slice str a 0 = [] := List.take_zero

theorem slice_succ (h : a < str.length) : slice str a (n + 1) = str[a] :: slice str (a + 1) n := by
  rw [slice, List.drop_eq_getElem_cons h, List.take_succ_cons, slice]

theorem length_slice (h : a + n ≤ str.length) : (slice str a n).length = n := by
  rw [slice, List.length_take, List.length_drop]
  omega

theorem charAt_result (i : ℕ) : (charAt str i).result = str[i]? := rfl

theorem charAt_inside {i : ℕ} (h : i < str.length) : (charAt str i).result = some str[i] :=
  List.getElem?_eq_getElem h

theorem charAt_token {start stop i : ℕ} (hstop : stop ≤ str.length) (hi : start + i + n = stop) :
    (token str start stop).charAt (slice str (start + i) n) i = str[start + i]? := by
  cases n with
  | zero =>
    have hdim : (token str start stop).dim = str.length - start := rfl
    have hstale : (token str start stop).stale i = str.getD (start + i) 0 := rfl
    rw [slice_zero, TokenString.charAt, hstale]
    by_cases h : start + i < str.length
    · rw [if_pos (by omega), List.getElem?_eq_getElem h, List.getD_eq_getElem?_getD,
        List.getElem?_eq_getElem h, Option.getD_some]
    · rw [if_neg (by omega), List.getElem?_eq_none (by omega)]
  | succ n =>
    have h : start + i < str.length := by omega
    rw [slice_succ h, List.getElem?_eq_getElem h, TokenString.charAt]

end

theorem makeRatio_refines (n : ℤ) {d : ℤ} (hd : d ≠ 0) :
    ∃ x, Rationals.makeRatio (bigNormalize n) (bigNormalize d) = .ok x ∧
      SameNumber (NumberReader.makeRatio n d) (.rational x) := by
  obtain ⟨x, hx, hv, hred, hc⟩ := makeRatio_spec (bigNormalize n)
    (show (bigNormalize d).value ≠ 0 by rwa [value_bigNormalize])
    fun _ => canonical_bigNormalize d
  have hcanonical := hc (canonical_bigNormalize n)
  rw [value_bigNormalize, value_bigNormalize] at hv
  have hd' : (d : ℚ) ≠ 0 := Int.cast_ne_zero.mpr hd
  refine ⟨x, hx, ?_⟩
  cases x with
  | integer k =>
    have hk : k.value * d = n := by
      have hmul : (k.value : ℚ) * d = n := (eq_div_iff hd').mp hv
      exact_mod_cast hmul
    rw [NumberReader.makeRatio, if_pos ⟨k.value, by rw [← hk, mul_comm]⟩]
    exact .integer _ k hcanonical.num (Int.eq_ediv_of_mul_eq_left hd hk)
  | ratio num den =>
    rw [NumberReader.makeRatio, if_neg]
    · exact .ratio n d num den hcanonical hv
    · rintro ⟨k, hk⟩
      obtain ⟨-, htwo, hgcd⟩ := hred
      -- the ratio would be the integer k
      have hden : (den.value : ℚ) ≠ 0 := by
        exact_mod_cast (show den.value ≠ 0 by omega)
      have hnum : num.value = k * den.value := by
        have hmul : (num.value : ℚ) = k * den.value := by
          rw [Rational.value, hk, Int.cast_mul, mul_div_cancel_left₀ _ hd'] at hv
          exact (div_eq_iff hden).mp hv
        exact_mod_cast hmul
      rw [hnum, Int.gcd_mul_left_left] at hgcd
      omega

section loops
variable (ucd : Ucd) {str : List ℕ} {r start i n : ℕ}

theorem digitLoop_refines (value : ℕ) (h : start + i + n ≤ str.length) :
    (digitLoop ucd str r n (start + i) value).result =
      some ((NumberReader.digitLoop ucd r (slice str (start + i) n) value i).1,
        start + (NumberReader.digitLoop ucd r (slice str (start + i) n) value i).2) := by
  induction n generalizing i value with
  | zero => simp [digitLoop, NumberReader.digitLoop]
  | succ n ih =>
    have hi : start + i < str.length := by omega
    rw [digitLoop, Logged.result_bind, charAt_inside hi, Option.bind_some, slice_succ hi,
      NumberReader.digitLoop]
    cases hd : ucd.digitp str[start + i] r with
    | none => simp
    | some d =>
      dsimp only
      rw [Nat.add_assoc start i 1]
      exact ih (i := i + 1) _ (by omega)

theorem integerFrom_refines (sign : ℤ) (h : start + i + n ≤ str.length) :
    (integerFrom ucd str (start + i + n) r sign (start + i)).result =
      some ((NumberReader.integerFrom ucd r sign (slice str (start + i) n) i).1.map bigNormalize,
        start + (NumberReader.integerFrom ucd r sign (slice str (start + i) n) i).2) := by
  rw [integerFrom, Logged.result_bind, Nat.add_sub_cancel_left, digitLoop_refines ucd 0 h,
    Option.bind_some, NumberReader.integerFrom]
  simp only [Logged.result_pure, Nat.add_left_cancel_iff]
  split <;> rfl

theorem parseInteger_refines (h : start + i + n ≤ str.length) :
    (parseInteger ucd str (start + i) (start + i + n) r).result =
      some ((NumberReader.parseInteger ucd (slice str (start + i) n) i r).1.map bigNormalize,
        start + (NumberReader.parseInteger ucd (slice str (start + i) n) i r).2) := by
  cases n with
  | zero => simp [parseInteger, NumberReader.parseInteger]
  | succ n =>
    have hi : start + i < str.length := by omega
    have hnext : start + i + (n + 1) = start + (i + 1) + n := by omega
    have hrest : ∀ sign, (integerFrom ucd str (start + i + (n + 1)) r sign (start + i + 1)).result =
        some ((NumberReader.integerFrom ucd r sign (slice str (start + i + 1) n)
            (i + 1)).1.map bigNormalize,
          start + (NumberReader.integerFrom ucd r sign (slice str (start + i + 1) n)
            (i + 1)).2) := by
      intro sign
      rw [hnext]
      exact integerFrom_refines ucd sign (by omega)
    rw [parseInteger]
    by_cases h36 : 36 < r
    · rw [if_pos (.inr h36), slice_succ hi, NumberReader.parseInteger, if_pos h36]
      rfl
    · rw [if_neg (by omega), Logged.result_bind, charAt_inside hi, Option.bind_some]
      have hplain := integerFrom_refines ucd (r := r) 1 h
      rw [slice_succ hi] at hplain ⊢
      rw [NumberReader.parseInteger, if_neg h36]
      by_cases hplus : str[start + i] = 43
      · rw [if_pos hplus, if_pos hplus]
        exact hrest 1
      · rw [if_neg hplus, if_neg hplus]
        by_cases hminus : str[start + i] = 45
        · rw [if_pos hminus, if_pos hminus]
          exact hrest (-1)
        · rw [if_neg hminus, if_neg hminus]
          exact hplain

end loops

section scan
variable (ucd : Ucd) {str : List ℕ} {r start stop i n : ℕ}

theorem length_token (hrange : start ≤ stop) (hstop : stop ≤ str.length) :
    (token str start stop).chars.length = stop - start :=
  length_slice (by omega)

theorem scanRatio_refines (sign : ℤ) {decimal : ℕ} (num : ℕ) (someDigit : Bool)
    (hstop : stop ≤ str.length) (hdecimal : ¬ decimal < stop - start)
    (hi : start + i + 1 + n = stop) :
    SamePass start
      (NumberReader.scan ucd (token str start stop) r sign (47 :: slice str (start + i + 1) n) i
        decimal num someDigit)
      (scanRatio ucd str stop r sign (start + i) num).result := by
  have hlen : (token str start stop).chars.length = stop - start := length_token (by omega) hstop
  rw [NumberReader.scan, if_pos rfl, hlen, if_neg hdecimal,
    Nat.add_assoc start i 1, charAt_token hstop (by omega), scanRatio, Logged.result_bind,
    charAt_result, Nat.add_assoc start i 1]
  cases hchar : str[start + (i + 1)]? with
  | none => exact .indexError _
  | some c =>
    rw [Option.bind_some]
    dsimp only
    by_cases hc : ucd.digitp c r = none
    · rw [if_pos hc, if_pos hc]
      exact .done _ _ _ .objnull
    · have hparse := parseInteger_refines ucd (r := r)
        (show start + (i + 1) + n ≤ str.length by omega)
      rw [show start + (i + 1) + n = stop by omega] at hparse
      rw [if_neg hc, if_neg hc, Logged.result_bind, hparse, Option.bind_some]
      cases NumberReader.parseInteger ucd (slice str (start + (i + 1)) n) (i + 1) r with
      | mk den ep =>
        cases den with
        | none => exact .done _ _ _ .objnull
        | some den =>
          dsimp only [Option.map_some]
          by_cases hep : ep < stop - start
          · rw [if_pos hep, if_pos (show start + ep < stop by omega)]
            exact .done _ _ _ .objnull
          · rw [if_neg hep, if_neg (show ¬ start + ep < stop by omega)]
            by_cases hzero : den = 0
            · rw [if_pos hzero, if_pos (by rw [hzero]; rfl)]
              exact .done _ _ _ .nil
            · have hden : bigNormalize den ≠ makeFixnum 0 := by
                intro heq
                have hvalue := value_of_eq_makeFixnum (by decide) heq
                rw [value_bigNormalize] at hvalue
                exact hzero hvalue
              obtain ⟨x, hx, hsame⟩ := makeRatio_refines (sign * num) hzero
              rw [if_neg hzero, if_neg hden, hx]
              exact .done _ _ _ (.number _ _ hsame)

theorem value_decimals (decimal : ℕ) (hsize : (str.length : ℤ) ≤ mostPositiveFixnum)
    (hi : start + i ≤ str.length) :
    (makeFixnum (if start + decimal < start + i then ((start + decimal : ℕ) : ℤ) - (start + i : ℕ)
      else 0)).value = if decimal < i then (decimal : ℤ) - i else 0 := by
  have hfits : FitsFixnum (if decimal < i then (decimal : ℤ) - i else 0) := by
    simp only [FitsFixnum, mostNegativeFixnum, mostPositiveFixnum] at hsize ⊢
    split <;> omega
  rw [← value_makeFixnum hfits]
  simp only [Nat.add_lt_add_iff_left, Nat.cast_add, add_sub_add_left_eq_sub]

theorem scanExponent_refines {e : ℕ} (he : exponentCharp e) (sign : ℤ) (decimal num : ℕ)
    (hsize : (str.length : ℤ) ≤ mostPositiveFixnum) (hstop : stop ≤ str.length)
    (hi : start + i + 1 + n = stop) :
    SamePass start
      (NumberReader.scan ucd (token str start stop) 10 sign (e :: slice str (start + i + 1) n) i
        decimal num true)
      (scanExponent ucd str stop e sign (start + i) (start + decimal) num).result := by
  have hlen : (token str start stop).chars.length = stop - start := length_token (by omega) hstop
  have hascii := NumberSyntax.exponentCharp_ascii he
  have hparse := parseInteger_refines ucd (r := 10)
    (show start + (i + 1) + n ≤ str.length by omega)
  rw [show start + (i + 1) + n = stop by omega] at hparse
  rw [NumberReader.scan, if_neg (by omega), if_neg (by omega), NumberSyntax.digitp_exponent he,
    scanExponent, Logged.result_bind, Nat.add_assoc start i 1, hparse, Option.bind_some, hlen]
  simp only [he, if_true, Bool.not_true, Bool.false_eq_true, if_false, ne_eq, not_true]
  cases NumberReader.parseInteger ucd (slice str (start + (i + 1)) n) (i + 1) 10 with
  | mk exp ep =>
    cases exp with
    | none => exact .done _ _ _ .objnull
    | some exp =>
      dsimp only [Option.map_some]
      by_cases hep : ep < stop - start
      · rw [if_pos hep, if_pos (show start + ep < stop by omega)]
        exact .done _ _ _ .objnull
      · rw [if_neg hep, if_neg (show ¬ start + ep < stop by omega)]
        refine .done _ _ _ (.number _ _ (.float _ _ _ _ _ _ (value_bigNormalize _) ?_))
        rw [value_plus, value_bigNormalize, value_decimals decimal hsize (by omega)]

theorem scan_refines (sign : ℤ) (hsize : (str.length : ℤ) ≤ mostPositiveFixnum)
    (hrange : start ≤ stop) (hstop : stop ≤ str.length) {i n : ℕ} (hi : start + i + n = stop)
    (decimal num : ℕ) (someDigit : Bool) :
    SamePass start
      (NumberReader.scan ucd (token str start stop) r sign (slice str (start + i) n) i decimal num
        someDigit)
      (scan ucd str stop r sign n (start + i) (start + decimal) num someDigit).result := by
  have hlen : (token str start stop).chars.length = stop - start := length_token hrange hstop
  induction n generalizing i decimal num someDigit with
  | zero =>
    rw [slice_zero, NumberReader.scan, scan]
    cases someDigit with
    | false => exact .done _ _ _ .objnull
    | true =>
      simp only [Bool.not_true, Bool.false_eq_true, if_false, Nat.add_lt_add_iff_left]
      by_cases hdecimal : decimal < i
      · rw [if_pos hdecimal, if_pos hdecimal]
        refine .done _ _ _ (.number _ _ (.float _ _ _ _ _ _ (value_bigNormalize _) ?_))
        have hvalue := value_decimals decimal hsize
          (show start + i ≤ str.length by omega)
        simpa only [Nat.add_lt_add_iff_left, if_pos hdecimal] using hvalue
      · rw [if_neg hdecimal, if_neg hdecimal]
        exact .done _ _ _ (.number _ _ (.integer _ _ (canonical_bigNormalize _)
          (value_bigNormalize _)))
  | succ n ih =>
    have hin : start + i < str.length := by omega
    rw [slice_succ hin, scan, Logged.result_bind, charAt_inside hin, Option.bind_some]
    by_cases hslash : str[start + i] = 47
    · rw [if_pos hslash, hslash]
      by_cases hdecimal : decimal < stop - start
      · rw [if_pos (show start + decimal < stop by omega), NumberReader.scan, if_pos rfl, hlen,
          if_pos hdecimal]
        exact .done _ _ _ .objnull
      · rw [if_neg (show ¬ start + decimal < stop by omega)]
        exact scanRatio_refines ucd sign num someDigit hstop hdecimal (by omega)
    · rw [if_neg hslash]
      by_cases hdot : str[start + i] = 46
      · rw [if_pos hdot, hdot, NumberReader.scan, if_neg (by omega), if_pos rfl]
        by_cases hdecimal : decimal ≤ i
        · rw [if_pos hdecimal, if_pos (show start + decimal ≤ start + i by omega)]
          exact .done _ _ _ .objnull
        · rw [if_neg hdecimal, if_neg (show ¬ start + decimal ≤ start + i by omega)]
          by_cases hten : r ≠ 10
          · rw [if_pos hten, if_pos hten]
            exact .again _
          · rw [if_neg hten, if_neg hten]
            exact ih (i := i + 1) (by omega) (i + 1) num someDigit
      · rw [if_neg hdot]
        cases hdigit : ucd.digitp str[start + i] r with
        | some d =>
          rw [NumberReader.scan, if_neg hslash, if_neg hdot, hdigit]
          exact ih (i := i + 1) (by omega) _ _ _
        | none =>
          by_cases he : exponentCharp str[start + i]
          · by_cases hplain : someDigit = true ∧ r = 10
            · obtain ⟨rfl, rfl⟩ := hplain
              have hexponent := scanExponent_refines ucd he sign decimal num
                hsize hstop (show start + i + 1 + n = stop by omega)
              simpa [he] using hexponent
            · rw [NumberReader.scan, if_neg hslash, if_neg hdot, hdigit]
              simp only [he, if_true]
              cases someDigit with
              | false => exact .done _ _ _ .objnull
              | true =>
                have hten : r ≠ 10 := by simpa using hplain
                simp only [hten, ne_eq, not_false_eq_true, if_true, Bool.not_true,
                  Bool.false_eq_true, if_false]
                exact .again _
          · rw [NumberReader.scan, if_neg hslash, if_neg hdot, hdigit]
            simp only [he, Bool.false_eq_true, if_false]
            by_cases hten : r ≠ 10
            · rw [if_pos hten, if_pos hten]
              exact .tryDecimal
            · rw [if_neg hten, if_neg hten]
              exact .done _ _ _ .objnull

theorem signed_refines (sign : ℤ) (someDigit : Bool)
    (hsize : (str.length : ℤ) ≤ mostPositiveFixnum) (hstop : stop ≤ str.length)
    (hi : start + i + n = stop) :
    SamePass start
      (NumberReader.afterSign ucd (token str start stop) r someDigit sign
        (slice str (start + i) n) i)
      (signed ucd str stop r someDigit sign (start + i)).result := by
  have hlen : (token str start stop).chars.length = stop - start := length_token (by omega) hstop
  cases n with
  | zero =>
    rw [slice_zero, signed, if_pos (show start + i = stop from hi)]
    exact .done _ _ _ .objnull
  | succ n =>
    have hin : start + i < str.length := by omega
    have hscan := scan_refines ucd (r := r) sign hsize (by omega) hstop hi (stop - start) 0
      someDigit
    rw [slice_succ hin, show start + (stop - start) = stop by omega] at hscan
    rw [slice_succ hin, signed, if_neg (by omega), Logged.result_bind, charAt_inside hin,
      Option.bind_some, NumberReader.afterSign, afterSign]
    by_cases hslash : str[start + i] = 47
    · rw [if_pos hslash, if_pos hslash]
      exact .done _ _ _ .objnull
    · rw [if_neg hslash, if_neg hslash, hlen, show stop - (start + i) = n + 1 by omega]
      exact hscan

theorem readPass_refines (someDigit : Bool) (hsize : (str.length : ℤ) ≤ mostPositiveFixnum)
    (hrange : start < stop) (hstop : stop ≤ str.length) :
    SamePass start (NumberReader.readPass ucd (token str start stop) r someDigit)
      (readPass ucd str start stop r someDigit).result := by
  have hin : start < str.length := by omega
  obtain ⟨n, hn⟩ : ∃ n, stop - start = n + 1 := ⟨stop - start - 1, by omega⟩
  have hchars : (token str start stop).chars = str[start] :: slice str (start + 1) n := by
    rw [token, hn, slice_succ hin]
  have hrest : ∀ sign, SamePass start
      (NumberReader.afterSign ucd (token str start stop) r someDigit sign
        (slice str (start + 1) n) 1)
      (signed ucd str stop r someDigit sign (start + 1)).result :=
    fun sign => signed_refines ucd sign someDigit hsize hstop (by omega)
  have hplain : SamePass start
      (NumberReader.afterSign ucd (token str start stop) r someDigit 1
        (slice str (start + 0) (n + 1)) 0)
      (signed ucd str stop r someDigit 1 (start + 0)).result :=
    signed_refines ucd 1 someDigit hsize hstop (by omega)
  rw [Nat.add_zero, slice_succ hin, signed, if_neg (by omega), Logged.result_bind,
    charAt_inside hin, Option.bind_some] at hplain
  rw [NumberReader.readPass, hchars, readPass, Logged.result_bind, charAt_inside hin,
    Option.bind_some]
  dsimp only
  by_cases hplus : str[start] = 43
  · rw [if_pos hplus, if_pos hplus]
    exact hrest 1
  · rw [if_neg hplus, if_neg hplus]
    by_cases hminus : str[start] = 45
    · rw [if_pos hminus, if_pos hminus]
      exact hrest (-1)
    · rw [if_neg hminus, if_neg hminus]
      exact hplain

theorem decimalPass_refines (fuel : ℕ) (someDigit : Bool)
    (hsize : (str.length : ℤ) ≤ mostPositiveFixnum) (hrange : start < stop)
    (hstop : stop ≤ str.length) :
    SameResult start (decimalPass ucd (token str start stop) someDigit)
      (passes ucd str start stop (fuel + 1) 10 someDigit).result := by
  obtain ⟨x, ep, hpass⟩ := NumberParsing.pass_ten ucd (token str start stop) someDigit
  have hsame := readPass_refines ucd (r := 10) someDigit hsize hrange hstop
  rw [NumberParsing.decimalPass_eq hpass, passes, Logged.result_bind]
  rw [hpass] at hsame
  generalize (readPass ucd str start stop 10 someDigit).result = res at hsame
  cases hsame with
  | done x x' ep h => exact .done x x' ep h
  | indexError ep => exact .indexError ep

theorem keepDecimal_refines {q : NumberReader.Number} {num : Number} {ep : ℕ}
    (h : SameNumber q num) (hep : ep ≤ stop - start) (hstop : stop ≤ str.length) :
    SameResult start (NumberReader.keepDecimal (token str start stop) (.number q, ep))
      (keepDecimal str start num (start + ep)).result := by
  cases h with
  | float n e marker sign num exp hnum hexp =>
    exact .done _ _ _ (.number _ _ (.float n e marker sign num exp hnum hexp))
  | ratio n d num den hx hv => exact .done _ _ _ .objnull
  | integer z x hx hv =>
    rw [NumberReader.keepDecimal, keepDecimal]
    by_cases hpos : 0 < ep
    · have hin : start + ep - 1 < str.length := by omega
      have hchar : (token str start stop).chars[ep - 1]? = some str[start + ep - 1] := by
        rw [token, slice, List.getElem?_take_of_lt (by omega), List.getElem?_drop,
          List.getElem?_eq_getElem (by omega)]
        congr 2
        omega
      rw [if_pos (show start < start + ep by omega), hchar, Logged.result_bind,
        charAt_inside hin, Option.bind_some]
      by_cases hdot : str[start + ep - 1] = 46
      · rw [if_pos hdot, if_pos ⟨hpos, by rw [hdot]⟩]
        exact .done _ _ _ (.number _ _ (.integer z x hx hv))
      · rw [if_neg hdot, if_neg (fun h => hdot (Option.some.inj h.2))]
        exact .done _ _ _ .objnull
    · rw [if_neg (show ¬ start < start + ep by omega), if_neg (fun h => hpos h.1)]
      exact .done _ _ _ .objnull

/-- Two passes are enough for every radix. -/
theorem parseNumber_refines (fuel : ℕ) (hsize : (str.length : ℤ) ≤ mostPositiveFixnum)
    (hrange : start ≤ stop) (hstop : stop ≤ str.length) :
    SameResult start (NumberReader.parseNumber ucd (token str start stop) r)
      (parseNumber ucd str (fuel + 2) start stop r).result := by
  have hlen : (token str start stop).chars.length = stop - start := length_token hrange hstop
  rw [NumberReader.parseNumber, parseNumber]
  by_cases hnone : stop ≤ start ∨ 36 < r
  · rw [if_pos hnone, if_pos]
    · exact .done _ _ _ .objnull
    · exact hnone.imp_left fun h => List.length_eq_zero_iff.mp (by omega)
  · have hne : (token str start stop).chars ≠ [] := List.ne_nil_of_length_pos (by omega)
    rw [if_neg hnone, if_neg (fun h => h.elim hne fun h => hnone (.inr h)), passes,
      Logged.result_bind]
    have hsame := readPass_refines ucd (r := r) false hsize (show start < stop by omega) hstop
    generalize (readPass ucd str start stop r false).result = res at hsame
    generalize NumberReader.readPass ucd (token str start stop) r false = pass at hsame
    cases hsame with
    | done x x' ep h => exact .done x x' ep h
    | indexError ep => exact .indexError ep
    | again someDigit => exact decimalPass_refines ucd fuel someDigit hsize (by omega) hstop
    | tryDecimal =>
      obtain ⟨s, l, hsplit⟩ := NumberParsing.exists_split (token str start stop).chars
      have hdecimal := decimalPass_refines ucd fuel false hsize (show start < stop by omega) hstop
      have hsound : ∀ x ep, decimalPass ucd (token str start stop) false = (x, ep) →
          x ≠ .objnull → ep = stop - start ∨ x = .indexError := by
        intro x ep heq hobj
        rw [← hlen]
        exact (NumberParsing.decimalPass_sound hne hsplit heq hobj).1
      rw [Option.bind_some]
      dsimp only
      rw [Logged.result_bind]
      generalize (passes ucd str start stop (fuel + 1) 10 false).result = res at hdecimal
      generalize decimalPass ucd (token str start stop) false = pass at hdecimal hsound
      cases hdecimal with
      | indexError ep => exact .indexError ep
      | done x x' ep h =>
        cases h with
        | objnull => exact .done _ _ _ .objnull
        | nil => exact .done _ _ _ .objnull
        | number q num h =>
          have hep := (hsound _ _ rfl (by simp)).resolve_right (by simp)
          exact keepDecimal_refines h (by omega) hstop

end scan

end NumberRanges
