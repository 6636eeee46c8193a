import Ecl.NumberParsing

/-! The number that a token denotes, and that ecl_parse_number returns it. -/
namespace NumberValues

open Characters NumberReader NumberSyntax NumberParsing

/-- Decimal notation after its sign. A float has the digits on both sides of the point as its
mantissa. -/
inductive DecimalValue (ucd : Ucd) (sign : ℤ) : List ℕ → Number → Prop
  | point (int : List ℕ) (hint : Digits ucd 10 int) (hne : int ≠ []) :
      DecimalValue ucd sign (int ++ [46]) (.integer (sign * digitsValue ucd 10 int))
  | fraction (int frac : List ℕ) (hint : Digits ucd 10 int) (hfrac : Digits ucd 10 frac)
      (hne : frac ≠ []) :
      DecimalValue ucd sign (int ++ 46 :: frac)
        (.float (digitsValue ucd 10 (int ++ frac)) (-frac.length) 101 sign)
  | scaledFraction (int frac : List ℕ) (e : ℕ) (s ds : List ℕ) (hint : Digits ucd 10 int)
      (hfrac : Digits ucd 10 frac) (hsome : int ++ frac ≠ []) (he : exponentCharp e) (hs : Sign s)
      (hne : ds ≠ []) (hds : Digits ucd 10 ds) :
      DecimalValue ucd sign (int ++ 46 :: (frac ++ e :: (s ++ ds)))
        (.float (digitsValue ucd 10 (int ++ frac))
          (-frac.length + signOf s * digitsValue ucd 10 ds) e sign)
  | scaled (int : List ℕ) (e : ℕ) (s ds : List ℕ) (hint : Digits ucd 10 int) (hsome : int ≠ [])
      (he : exponentCharp e) (hs : Sign s) (hne : ds ≠ []) (hds : Digits ucd 10 ds) :
      DecimalValue ucd sign (int ++ e :: (s ++ ds))
        (.float (digitsValue ucd 10 int) (signOf s * digitsValue ucd 10 ds) e sign)

inductive TokenValue (ucd : Ucd) (r : ℕ) : List ℕ → Number → Prop
  | integer (s ds : List ℕ) (hs : Sign s) (hne : ds ≠ []) (hds : Digits ucd r ds) :
      TokenValue ucd r (s ++ ds) (.integer (signOf s * digitsValue ucd r ds))
  | ratio (s ds den : List ℕ) (hs : Sign s) (hne : ds ≠ []) (hds : Digits ucd r ds)
      (hden : Digits ucd r den) (hzero : digitsValue ucd r den ≠ 0) :
      TokenValue ucd r (s ++ (ds ++ 47 :: den))
        (makeRatio (signOf s * digitsValue ucd r ds) (digitsValue ucd r den))
  | decimal (s l : List ℕ) (q : Number) (hs : Sign s) (hq : DecimalValue ucd (signOf s) l q)
      (hint : ¬ IntegerSyntax ucd r (s ++ l)) : TokenValue ucd r (s ++ l) q

def EndsInSlash (ucd : Ucd) (r : ℕ) (text : List ℕ) : Prop :=
  ∃ s ds, text = s ++ (ds ++ [47]) ∧ Sign s ∧ ds ≠ [] ∧ (Digits ucd r ds ∨ Digits ucd 10 ds)

structure RatioToken (ucd : Ucd) (r : ℕ) (text s ds den : List ℕ) : Prop where
  text : text = s ++ (ds ++ 47 :: den)
  sign : Sign s
  numerator : ds ≠ [] ∧ Digits ucd r ds
  denominator : den ≠ [] ∧ Digits ucd r den

def ZeroDenominator (ucd : Ucd) (r : ℕ) (text : List ℕ) : Prop :=
  ∃ s ds den, RatioToken ucd r text s ds den ∧ digitsValue ucd r den = 0

/-- The texts of numbers: integers and ratios of the radix, and decimal notation. -/
def NumberToken (ucd : Ucd) (r : ℕ) (text : List ℕ) : Prop :=
  IntegerSyntax ucd r text ∨
    (∃ s ds den, RatioToken ucd r text s ds den ∧ digitsValue ucd r den ≠ 0) ∨
    DecimalSyntax ucd text

section decimal
variable {ucd : Ucd} {str : TokenString} {sign : ℤ} {l : List ℕ} {q : Number}

theorem DecimalValue.body (h : DecimalValue ucd sign l q) : DecimalBody ucd l := by
  cases h with
  | point int hint hne =>
    exact .dot int [] [] hint (by simp [Digits]) (by simpa using hne) (.inl rfl)
  | fraction int frac hint hfrac hne =>
    have hbody := DecimalBody.dot int frac [] hint hfrac (by simp [hne]) (.inl rfl)
    rwa [List.append_nil] at hbody
  | scaledFraction int frac e s ds hint hfrac hsome he hs hne hds =>
    exact .dot int frac _ hint hfrac hsome (.inr ⟨e, s, ds, rfl, he, hs, hne, hds⟩)
  | scaled int e s ds hint hsome he hs hne hds =>
    exact .exponent int _ hint hsome ⟨e, s, ds, rfl, he, hs, hne, hds⟩

theorem DecimalBody.value (h : DecimalBody ucd l) (sign : ℤ) :
    ∃ q, DecimalValue ucd sign l q := by
  cases h with
  | dot int frac exp hint hfrac hsome hexp =>
    rcases hexp with rfl | ⟨e, s, ds, rfl, he, hs, hne, hds⟩
    · rw [List.append_nil]
      by_cases hnil : frac = []
      · subst hnil
        exact ⟨_, .point int hint (by simpa using hsome)⟩
      · exact ⟨_, .fraction int frac hint hfrac hnil⟩
    · exact ⟨_, .scaledFraction int frac e s ds hint hfrac hsome he hs hne hds⟩
  | exponent int exp hint hsome hexp =>
    obtain ⟨e, s, ds, rfl, he, hs, hne, hds⟩ := hexp
    exact ⟨_, .scaled int e s ds hint hsome he hs hne hds⟩

theorem digitsValue_append (r : ℕ) (ds ds' : List ℕ) :
    digitsValue ucd r (ds ++ ds') = digitsFrom ucd r (digitsValue ucd r ds) ds' :=
  List.foldl_append

theorem scan_marker (str : TokenString) (sign : ℤ) {e : ℕ} {s ds : List ℕ} {i : ℕ}
    (decimal num : ℕ) (he : exponentCharp e) (hs : Sign s) (hne : ds ≠ [])
    (hds : Digits ucd 10 ds) (hi : i + (e :: (s ++ ds)).length = str.chars.length) :
    scan ucd str 10 sign (e :: (s ++ ds)) i decimal num true =
      .done (.number (.float num ((if decimal < i then (decimal : ℤ) - i else 0) +
        signOf s * digitsValue ucd 10 ds) e sign)) str.chars.length := by
  have hascii := exponentCharp_ascii he
  rw [List.length_cons] at hi
  rw [scan, if_neg (by omega), if_neg (by omega), digitp_exponent he,
    parseInteger_digits (by omega) hs hne hds]
  simp only [he, if_true, ne_eq, not_true, if_false, Bool.not_true, Bool.false_eq_true]
  rw [if_neg (by omega), show i + 1 + (s ++ ds).length = str.chars.length by omega]

theorem scan_point (str : TokenString) (sign : ℤ) {int : List ℕ} (rest : List ℕ) {i : ℕ}
    (hint : Digits ucd 10 int) (hi : i + (int ++ 46 :: rest).length = str.chars.length) :
    scan ucd str 10 sign (int ++ 46 :: rest) i str.chars.length 0 false =
      scan ucd str 10 sign rest (i + int.length + 1) (i + int.length + 1)
        (digitsValue ucd 10 int) (!int.isEmpty) := by
  rw [List.length_append, List.length_cons] at hi
  rw [scan_digitsFrom str sign (by omega) hint, scan, if_neg (by omega), if_pos rfl,
    if_neg (by omega), Bool.false_or]
  simp only [ne_eq, not_true, if_false]
  rfl

theorem afterSign_value (h : DecimalValue ucd sign l q) (str : TokenString) {i : ℕ}
    (hi : i + l.length = str.chars.length) :
    afterSign ucd str 10 false sign l i = .done (.number q) str.chars.length := by
  have hscan : afterSign ucd str 10 false sign l i =
      scan ucd str 10 sign l i str.chars.length 0 false := by
    obtain ⟨c, rest, rfl, hc⟩ := decimalBody_head h.body
    rw [afterSign, if_neg]
    rintro rfl
    simp [digitp_slash] at hc
  rw [hscan]
  cases h with
  | point int hint hne =>
    rw [List.length_append, List.length_singleton] at hi
    rw [scan_point str sign [] hint (by simp; omega), scan]
    simp only [List.isEmpty_eq_false_iff.mpr hne, Bool.not_false, Bool.not_true,
      Bool.false_eq_true, if_false, Nat.lt_irrefl]
    rw [show i + int.length + 1 = str.chars.length by omega]
  | fraction int frac hint hfrac hne =>
    have hseen : (!int.isEmpty || !frac.isEmpty) = true := by
      simp [List.isEmpty_eq_false_iff.mpr hne]
    have hpos := List.length_pos_iff.mpr hne
    have hdigits := scan_digitsFrom str sign (by omega) hfrac [] (i + int.length + 1)
      (i + int.length + 1) (digitsValue ucd 10 int) (!int.isEmpty)
    rw [List.append_nil, hseen, ← digitsValue_append, scan] at hdigits
    rw [scan_point str sign frac hint hi, hdigits]
    rw [List.length_append, List.length_cons] at hi
    simp only [Bool.not_true, Bool.false_eq_true, if_false]
    rw [if_pos (by omega), show i + int.length + 1 + frac.length = str.chars.length by omega]
    congr 3
    omega
  | scaledFraction int frac e s ds hint hfrac hsome he hs hne hds =>
    have hseen : (!int.isEmpty || !frac.isEmpty) = true := by
      cases int with
      | nil => simpa using hsome
      | cons c int => rfl
    rw [scan_point str sign _ hint hi, scan_digitsFrom str sign (by omega) hfrac, hseen,
      ← digitsValue_append]
    rw [List.length_append, List.length_cons, List.length_append] at hi
    rw [scan_marker str sign _ _ he hs hne hds (by omega)]
    congr 4
    split <;> omega
  | scaled int e s ds hint hsome he hs hne hds =>
    rw [List.length_append] at hi
    rw [scan_digitsFrom str sign (by omega) hint, List.isEmpty_eq_false_iff.mpr hsome,
      Bool.false_or, Bool.not_false, scan_marker str sign _ _ he hs hne hds (by omega),
      if_neg (by omega), zero_add]
    rfl

end decimal

theorem exists_value_iff {ucd : Ucd} {r : ℕ} {text : List ℕ} :
    (∃ q, TokenValue ucd r text q) ↔ NumberToken ucd r text := by
  constructor
  · rintro ⟨q, hq⟩
    cases hq with
    | integer s ds hs hne hds => exact .inl ⟨s, ds, rfl, hs, hne, hds⟩
    | ratio s ds den hs hne hds hden hzero =>
      have hnil : den ≠ [] := by
        rintro rfl
        exact hzero rfl
      exact .inr (.inl ⟨s, ds, den, ⟨rfl, hs, ⟨hne, hds⟩, hnil, hden⟩, hzero⟩)
    | decimal s l q hs hq hint => exact .inr (.inr ⟨s, l, rfl, hs, hq.body⟩)
  · intro h
    by_cases hint : IntegerSyntax ucd r text
    · obtain ⟨s, ds, rfl, hs, hne, hds⟩ := hint
      exact ⟨_, .integer s ds hs hne hds⟩
    · rcases h.resolve_left hint with ⟨s, ds, den, hratio, hzero⟩ | ⟨s, l, rfl, hs, hbody⟩
      · obtain ⟨rfl, hs, ⟨hne, hds⟩, -, hden⟩ := hratio
        exact ⟨_, .ratio s ds den hs hne hds hden hzero⟩
      · obtain ⟨q, hq⟩ := DecimalBody.value hbody (signOf s)
        exact ⟨q, .decimal s l q hs hq hint⟩

section token
variable {ucd : Ucd} {str : TokenString} {r : ℕ} {s ds den t : List ℕ} (hr : r ≤ 36)
include hr

theorem split_digits (hs : Sign s) (hne : ds ≠ []) (hds : Digits ucd r ds)
    (htext : str.chars = s ++ (ds ++ t)) : Split str.chars s (ds ++ t) := by
  refine ⟨htext, hs, fun _ c rest hcons => ?_⟩
  obtain ⟨c', ds', rfl⟩ := List.exists_cons_of_ne_nil hne
  obtain ⟨rfl, -⟩ := List.cons.inj hcons
  have hc := (digits_cons.mp hds).1
  constructor <;> rintro rfl <;> simp [digitp_sign hr] at hc

theorem readPass_digits (hs : Sign s) (hne : ds ≠ []) (hds : Digits ucd r ds)
    (htext : str.chars = s ++ (ds ++ t)) :
    readPass ucd str r false = scan ucd str r (signOf s) t (s.length + ds.length)
      str.chars.length (digitsValue ucd r ds) true := by
  have hsplit := split_digits hr hs hne hds htext
  rw [pass_signOf ucd (by rw [htext]; simp [hne]) hsplit]
  have hscan := scan_digitsFrom str (signOf s) hr hds t s.length str.chars.length 0 false
  rw [List.isEmpty_eq_false_iff.mpr hne] at hscan
  obtain ⟨c, ds', rfl⟩ := List.exists_cons_of_ne_nil hne
  have hslash : c ≠ 47 := by
    rintro rfl
    simpa [digitp_slash hr] using (digits_cons.mp hds).1
  rw [List.cons_append] at hscan ⊢
  rw [afterSign, if_neg hslash, hscan]
  rfl

theorem parseNumber_integer (hs : Sign s) (hne : ds ≠ []) (hds : Digits ucd r ds)
    (htext : str.chars = s ++ ds) :
    parseNumber ucd str r =
      (.number (.integer (signOf s * digitsValue ucd r ds)), str.chars.length) := by
  have hpass := readPass_digits hr hs hne hds (t := []) (by rw [htext, List.append_nil])
  have hlen : s.length + ds.length = str.chars.length := by rw [htext, List.length_append]
  have hnil : str.chars ≠ [] := by simp [htext, hne]
  rw [parseNumber, if_neg (fun h => h.elim hnil (by omega)), hpass, scan, hlen]
  simp only [Bool.not_true, Bool.false_eq_true, if_false, Nat.lt_irrefl]

theorem parseNumber_ratio (hs : Sign s) (hne : ds ≠ []) (hds : Digits ucd r ds) (hnil : den ≠ [])
    (hden : Digits ucd r den) (htext : str.chars = s ++ (ds ++ 47 :: den)) :
    parseNumber ucd str r =
      (if digitsValue ucd r den = 0 then .nil
        else .number (makeRatio (signOf s * digitsValue ucd r ds) (digitsValue ucd r den)),
        str.chars.length) := by
  have hpass := readPass_digits hr hs hne hds htext
  have hlen : s.length + ds.length + 1 + den.length = str.chars.length := by
    rw [htext]
    simp only [List.length_append, List.length_cons]
    omega
  have hparse := parseInteger_digits hr (.inl rfl) hnil hden (s.length + ds.length + 1)
  rw [List.nil_append, hlen] at hparse
  have hchars : str.chars ≠ [] := by simp [htext]
  obtain ⟨c, den, rfl⟩ := List.exists_cons_of_ne_nil hnil
  have hc := (digits_cons.mp hden).1
  rw [parseNumber, if_neg (fun h => h.elim hchars (by omega)), hpass, scan, if_pos rfl,
    if_neg (Nat.lt_irrefl _), TokenString.charAt]
  dsimp only
  rw [if_neg (by rintro hnone; simp [hnone] at hc), hparse]
  simp only [Nat.lt_irrefl, if_false, signOf, List.nil_eq, reduceCtorEq, one_mul, Nat.cast_eq_zero]
  by_cases hzero : digitsValue ucd r (c :: den) = 0
  · rw [if_pos hzero, if_pos hzero]
  · rw [if_neg hzero, if_neg hzero]

theorem parseNumber_slash (hs : Sign s) (hne : ds ≠ []) (hds : Digits ucd r ds)
    (htext : str.chars = s ++ (ds ++ [47])) :
    (parseNumber ucd str r).1 = .objnull ∨ (parseNumber ucd str r).1 = .indexError := by
  have hpass := readPass_digits hr hs hne hds htext
  have hlen : s.length + ds.length + 1 = str.chars.length := by
    rw [htext]
    simp only [List.length_append, List.length_singleton]
    omega
  have hchars : str.chars ≠ [] := by simp [htext]
  rw [parseNumber, if_neg (fun h => h.elim hchars (by omega)), hpass, scan, if_pos rfl,
    if_neg (Nat.lt_irrefl _), parseInteger]
  cases str.charAt [] (s.length + ds.length + 1) with
  | none => exact .inr rfl
  | some c =>
    refine .inl ?_
    dsimp only
    by_cases hc : ucd.digitp c r = none
    · rw [if_pos hc]
    · rw [if_neg hc]

theorem parseNumber_decimalPass (hint : ¬ IntegerSyntax ucd r str.chars)
    (hratio : ¬ RatioSyntax ucd r str.chars) {q : Number} {ep : ℕ}
    (h : parseNumber ucd str r = (.number q, ep)) :
    decimalPass ucd str false = (.number q, ep) := by
  by_cases hne : str.chars = []
  · rw [parseNumber, if_pos (.inl hne)] at h
    cases h
  · rw [parseNumber, if_neg (fun h => h.elim hne (by omega))] at h
    obtain ⟨s, l, hsplit⟩ := exists_split str.chars
    by_cases hten : r = 10
    · subst hten
      obtain ⟨x, ep', hx⟩ := pass_ten ucd str false
      rw [hx] at h
      rw [decimalPass_eq hx]
      exact h
    · rw [pass_signOf ucd hne hsplit] at h
      have hradix := afterSign_radix ucd str hr hten (signOf s) (l := l) (i := s.length)
        (by rw [hsplit.text, List.length_append])
      generalize afterSign ucd str r false (signOf s) l s.length = result at hradix h
      cases hradix with
      | noDigit i hl => cases h
      | digits x ep' hnil hl => exact absurd ⟨s, l, hsplit.text, hsplit.sign, hnil, hl⟩ hint
      | slash ds den x ep' hl hds hx =>
        obtain ⟨rfl, rfl⟩ := Prod.mk.inj h
        obtain ⟨hnil, hden⟩ := hx (by simp)
        exact absurd ⟨s, ds, den, hl ▸ hsplit.text, hsplit.sign, hnil, hds, hden⟩ hratio
      | mark ds t rest hl hds ht =>
        rcases decimalPass_again hr hsplit hl hds ht with heq | ⟨hseen, -⟩
        · rw [← heq]
          exact h
        · dsimp only at h
          rw [h] at hseen
          cases hseen
      | other => exact (keepDecimal_number h).1

omit hr in
theorem decimal_no_ratio {l : List ℕ} (hs : Sign s) (hl : DecimalBody ucd l) :
    ¬ RatioSyntax ucd r (s ++ l) := by
  rintro ⟨s', ds', den', htext, -⟩
  have hmem : 47 ∈ s ++ l := by
    rw [htext]
    simp
  rcases List.mem_append.mp hmem with hmem | hmem
  · rcases hs with rfl | rfl | rfl <;> simp at hmem
  · exact decimalBody_no_slash hl hmem

theorem parseNumber_value {q : Number} (h : TokenValue ucd r str.chars q) :
    parseNumber ucd str r = (.number q, str.chars.length) := by
  generalize htext : str.chars = text at h
  cases h with
  | integer s ds hs hne hds => rw [parseNumber_integer hr hs hne hds htext, htext]
  | ratio s ds den hs hne hds hden hzero =>
    have hnil : den ≠ [] := by
      rintro rfl
      exact hzero rfl
    rw [parseNumber_ratio hr hs hne hds hnil hden htext, if_neg hzero, htext]
  | decimal s l q hs hq hint =>
    have hsyntax : DecimalSyntax ucd str.chars := ⟨s, l, htext, hs, hq.body⟩
    have hratio := decimal_no_ratio (r := r) hs hq.body
    rw [← htext] at hint hratio
    have hnil : str.chars ≠ [] := by
      obtain ⟨c, rest, rfl, -⟩ := decimalBody_head hq.body
      simp [htext]
    obtain ⟨q', hq'⟩ := (parseNumber_outcome hr hnil hint hratio).decimal hsyntax
    have hdecimal := parseNumber_decimalPass hr hint hratio hq'
    have hpass := pass_signOf ucd hnil (split_decimal htext hs hq.body) 10 false
    rw [afterSign_value hq str (by rw [htext, List.length_append])] at hpass
    rw [decimalPass_eq hpass] at hdecimal
    obtain ⟨hnumber, -⟩ := Prod.mk.inj hdecimal
    rw [hq', ← hnumber, htext]

theorem exists_tokenValue {q : Number} {ep : ℕ} (h : parseNumber ucd str r = (.number q, ep)) :
    ∃ q', TokenValue ucd r str.chars q' := by
  by_cases hint : IntegerSyntax ucd r str.chars
  · obtain ⟨s, ds, htext, hs, hne, hds⟩ := hint
    rw [htext]
    exact ⟨_, .integer s ds hs hne hds⟩
  · by_cases hratio : RatioSyntax ucd r str.chars
    · obtain ⟨s, ds, den, htext, hs, hne, hds, hden⟩ := hratio
      by_cases hnil : den = []
      · subst hnil
        have hslash := parseNumber_slash hr hs hne hds htext
        simp [h] at hslash
      · have hvalue := parseNumber_ratio hr hs hne hds hnil hden htext
        have hzero : digitsValue ucd r den ≠ 0 := by
          intro hzero
          rw [h, if_pos hzero] at hvalue
          cases hvalue
        rw [htext]
        exact ⟨_, .ratio s ds den hs hne hds hden hzero⟩
    · have hnil : str.chars ≠ [] := by
        intro hnil
        rw [parseNumber, if_pos (.inl hnil)] at h
        cases h
      have houtcome := parseNumber_outcome hr hnil hint hratio
      obtain ⟨s, l, htext, hs, hbody⟩ := (houtcome.number q (by rw [h])).2
      obtain ⟨q', hq'⟩ := DecimalBody.value hbody (signOf s)
      rw [htext] at hint ⊢
      exact ⟨q', .decimal s l q' hs hq' hint⟩

theorem parseNumber_iff (q : Number) (ep : ℕ) :
    parseNumber ucd str r = (.number q, ep) ↔
      TokenValue ucd r str.chars q ∧ ep = str.chars.length := by
  constructor
  · intro h
    obtain ⟨q', hq'⟩ := exists_tokenValue hr h
    have hvalue := parseNumber_value hr hq'
    rw [h] at hvalue
    obtain ⟨hnumber, rfl⟩ := Prod.mk.inj hvalue
    obtain rfl := Parsed.number.inj hnumber
    exact ⟨hq', rfl⟩
  · rintro ⟨hq, rfl⟩
    exact parseNumber_value hr hq

theorem parseNumber_nil :
    (parseNumber ucd str r).1 = .nil ↔ ZeroDenominator ucd r str.chars := by
  constructor
  · intro h
    have hint : ¬ IntegerSyntax ucd r str.chars := by
      rintro ⟨s, ds, htext, hs, hne, hds⟩
      rw [parseNumber_integer hr hs hne hds htext] at h
      cases h
    by_cases hratio : RatioSyntax ucd r str.chars
    · obtain ⟨s, ds, den, htext, hs, hne, hds, hden⟩ := hratio
      by_cases hnil : den = []
      · subst hnil
        have hslash := parseNumber_slash hr hs hne hds htext
        simp [h] at hslash
      · refine ⟨s, ds, den, ⟨htext, hs, ⟨hne, hds⟩, hnil, hden⟩, ?_⟩
        by_contra hzero
        rw [parseNumber_ratio hr hs hne hds hnil hden htext, if_neg hzero] at h
        cases h
    · have hnil : str.chars ≠ [] := by
        intro hnil
        rw [parseNumber, if_pos (.inl hnil)] at h
        cases h
      exact absurd h (parseNumber_outcome hr hnil hint hratio).nil
  · rintro ⟨s, ds, den, ⟨htext, hs, ⟨hne, hds⟩, hnil, hden⟩, hzero⟩
    rw [parseNumber_ratio hr hs hne hds hnil hden htext, if_pos hzero]

theorem parseNumber_index (h : (parseNumber ucd str r).1 = .indexError) :
    EndsInSlash ucd r str.chars := by
  have hint : ¬ IntegerSyntax ucd r str.chars := by
    rintro ⟨s, ds, htext, hs, hne, hds⟩
    rw [parseNumber_integer hr hs hne hds htext] at h
    cases h
  by_cases hratio : RatioSyntax ucd r str.chars
  · obtain ⟨s, ds, den, htext, hs, hne, hds, hden⟩ := hratio
    by_cases hnil : den = []
    · subst hnil
      exact ⟨s, ds, htext, hs, hne, .inl hds⟩
    · rw [parseNumber_ratio hr hs hne hds hnil hden htext] at h
      dsimp only at h
      split at h <;> cases h
  · have hnil : str.chars ≠ [] := by
      intro hnil
      rw [parseNumber, if_pos (.inl hnil)] at h
      cases h
    obtain ⟨⟨s, ds, htext, hs, hne, hds⟩, -⟩ :=
      (parseNumber_outcome hr hnil hint hratio).index.mp h
    exact ⟨s, ds, htext, hs, hne, .inr hds⟩

end token

end NumberValues
