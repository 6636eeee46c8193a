import Ecl.NumberParsing
import Ecl.SymbolTokens

/-! A printed symbol is read back as itself, except for numbers that the printer does not see
as such. -/
namespace SymbolRoundTrip

open Characters NumberReader NumberSyntax NumberParsing SymbolPrinter SymbolReader SymbolTokens

variable {ucd : Ucd} {base : ℕ}

theorem potentialRest_digits {ds : List ℕ} (hds : Digits ucd base ds) (t : List ℕ)
    (someDigit : Bool) : potentialRest ucd base (ds ++ t) someDigit =
      potentialRest ucd base t (someDigit || !ds.isEmpty) := by
  induction ds generalizing someDigit with
  | nil => simp
  | cons c ds ih =>
    obtain ⟨hc, hds⟩ := digits_cons.mp hds
    rw [List.cons_append, potentialRest, if_pos hc, ih hds]
    simp

theorem potentialRest_mark {c : ℕ} (hbase : base ≤ 36) (hc : c ∈ [43, 45, 47, 46]) (t : List ℕ)
    (someDigit : Bool) :
    potentialRest ucd base (c :: t) someDigit = potentialRest ucd base t someDigit := by
  have hascii : c = 43 ∨ c = 45 ∨ c = 47 ∨ c = 46 := by simpa using hc
  have hnone : ucd.digitp c base = none :=
    Ucd.digitp_eq_none hbase (by omega) (by omega) (by omega) (by omega)
  rw [potentialRest, hnone, if_neg (by simp), if_pos]
  rcases hascii with rfl | rfl | rfl | rfl <;> decide

theorem potentialRest_letter {e : ℕ} {t : List ℕ} (halpha : ucd.alphaCharP e)
    (hnext : t.head?.any ucd.alphaCharP = false) (he : e ∉ [43, 45, 47, 46, 94, 95]) :
    potentialRest ucd base (e :: t) true = potentialRest ucd base t true := by
  rw [potentialRest]
  by_cases hdigit : (ucd.digitp e base).isSome
  · rw [if_pos hdigit]
  · rw [if_neg hdigit, if_neg he, if_pos (by simp [halpha, hnext])]

theorem digit_of_potentialRest (hucd : ucd.Lawful) {l : List ℕ} : ∀ {someDigit : Bool},
    potentialRest ucd base l someDigit = true →
      ∀ c ∈ l, (ucd.digitp c 10).isSome → (ucd.digitp c base).isSome := by
  induction l with
  | nil => simp
  | cons c l ih =>
    intro someDigit h
    rw [potentialRest] at h
    have hrest : ∀ d ∈ l, (ucd.digitp d 10).isSome → (ucd.digitp d base).isSome := by
      split at h
      · exact ih h
      · split at h
        · exact ih h
        · split at h
          · exact ih h
          · cases h
    intro d hd hdecimal
    rcases List.mem_cons.mp hd with rfl | hd
    · obtain ⟨v, hv⟩ := Option.isSome_iff_exists.mp hdecimal
      have halpha := Ucd.not_alpha_of_decimal hucd hv
      by_contra hnone
      rw [if_neg hnone, if_neg, if_neg (by simp [halpha])] at h
      · cases h
      · intro hmem
        have hascii : d = 43 ∨ d = 45 ∨ d = 47 ∨ d = 46 ∨ d = 94 ∨ d = 95 := by simpa using hmem
        have hzero : ucd.digitp d 10 = none :=
          Ucd.digitp_eq_none (by omega) (by omega) (by omega) (by omega) (by omega)
        rw [hzero] at hv
        cases hv
    · exact hrest d hd hdecimal

theorem potential_of_rest {s l : List ℕ} (hs : Sign s) (hne : l ≠ [])
    (hfirst : s = [] → ∃ c rest, l = c :: rest ∧ (ucd.digitp c base).isSome)
    (hlast : l.getLast? ≠ some 43 ∧ l.getLast? ≠ some 45) (hbase : base ≤ 36)
    (hrest : potentialRest ucd base l false = true) : potentialNumberP ucd base (s ++ l) = true := by
  have hsign : ∀ c, c = 43 ∨ c = 45 → potentialNumberP ucd base (c :: l) = true := by
    intro c hc
    have hnone : ucd.digitp c base = none := digitp_sign hbase hc
    have hmem : c ∈ [43, 45, 94, 95] := by
      rcases hc with rfl | rfl <;> decide
    rw [potentialNumberP, hnone]
    simp only [Option.isSome_none, Bool.not_false, Bool.true_and, hmem, not_true, decide_false,
      Bool.false_eq_true, if_false]
    rw [List.getLast?_cons_of_ne_nil hne, if_neg (by simp [hlast]), hrest]
  rcases hs with rfl | rfl | rfl
  · obtain ⟨c, rest, rfl, hc⟩ := hfirst rfl
    rw [List.nil_append, potentialNumberP]
    simp only [hc, Bool.not_true, Bool.false_and, Bool.false_eq_true, if_false]
    rw [if_neg (by simp [hlast])]
    rw [potentialRest, if_pos hc] at hrest
    exact hrest
  · exact hsign 43 (.inl rfl)
  · exact hsign 45 (.inr rfl)

theorem digits_last {r : ℕ} (hr : r ≤ 36) {ds : List ℕ} (hds : Digits ucd r ds) (hne : ds ≠ [])
    (l : List ℕ) : (l ++ ds).getLast? ≠ some 43 ∧ (l ++ ds).getLast? ≠ some 45 := by
  rw [List.getLast?_append_of_ne_nil _ hne]
  constructor <;> intro hlast <;>
    simpa [digitp_sign hr] using hds _ (List.mem_of_getLast? hlast)

theorem digits_head {r : ℕ} {ds : List ℕ} (hds : Digits ucd r ds) (hne : ds ≠ []) (t : List ℕ) :
    ∃ c rest, ds ++ t = c :: rest ∧ (ucd.digitp c r).isSome := by
  obtain ⟨c, ds, rfl⟩ := List.exists_cons_of_ne_nil hne
  exact ⟨c, ds ++ t, rfl, (digits_cons.mp hds).1⟩

theorem integer_potential (hbase : base ≤ 36) {n : List ℕ} (h : IntegerSyntax ucd base n) :
    potentialNumberP ucd base n = true := by
  obtain ⟨s, ds, rfl, hs, hne, hds⟩ := h
  refine potential_of_rest hs hne (fun _ => ?_) (digits_last hbase hds hne []) hbase ?_
  · simpa using digits_head hds hne []
  · have h := potentialRest_digits hds [] false
    rw [List.append_nil] at h
    rw [h, potentialRest]
    simpa using hne

theorem ratio_potential (hbase : base ≤ 36) {n : List ℕ} (h : RatioSyntax ucd base n) :
    potentialNumberP ucd base n = true := by
  obtain ⟨s, ds, den, rfl, hs, hne, hds, hden⟩ := h
  refine potential_of_rest hs (by simp) (fun _ => digits_head hds hne _) ?_ hbase ?_
  · cases den with
    | nil => simp
    | cons c den =>
      have := digits_last hbase hden (by simp) (ds ++ [47])
      simpa using this
  · rw [potentialRest_digits hds, potentialRest_mark hbase (by decide)]
    have h := potentialRest_digits hden [] (false || !ds.isEmpty)
    rw [List.append_nil] at h
    rw [h, potentialRest]
    simp [hne]

theorem exponent_potential (hucd : ucd.Lawful) (hbase : base ≤ 36) {exp : List ℕ}
    (h : Exponent ucd exp) (hdigits : ∀ c ∈ exp, (ucd.digitp c 10).isSome → (ucd.digitp c base).isSome) :
    potentialRest ucd base exp true = true := by
  obtain ⟨e, s, ds, rfl, he, hs, hne, hds⟩ := h
  have hascii := exponentCharp_ascii he
  have halpha : ucd.alphaCharP e := by
    rw [hucd.asciiAlpha e (by omega)]
    simp only [exponentCharp, List.mem_cons, List.not_mem_nil, or_false, decide_eq_true_eq] at he
    omega
  have hbaseDigits : Digits ucd base ds := fun c hc => hdigits c (by simp [hc]) (hds c hc)
  have hdigit : potentialRest ucd base ds true = true := by
    have h := potentialRest_digits hbaseDigits [] true
    rw [List.append_nil] at h
    rw [h]
    rfl
  have hsign : ∀ c, c = 43 ∨ c = 45 → ucd.alphaCharP c = false := by
    intro c hc
    rw [← Bool.not_eq_true, hucd.asciiAlpha c (by omega)]
    omega
  have hmark : e ∉ [43, 45, 47, 46, 94, 95] := by
    simp only [List.mem_cons, List.not_mem_nil, or_false]
    simp only [exponentCharp, List.mem_cons, List.not_mem_nil, or_false, decide_eq_true_eq] at he
    omega
  rcases hs with rfl | rfl | rfl
  · obtain ⟨c, ds, rfl⟩ := List.exists_cons_of_ne_nil hne
    obtain ⟨v, hv⟩ := Option.isSome_iff_exists.mp (digits_cons.mp hds).1
    rw [potentialRest_letter halpha (by simp [Ucd.not_alpha_of_decimal hucd hv]) hmark]
    exact hdigit
  · rw [potentialRest_letter halpha (by simp [hsign 43 (.inl rfl)]) hmark, List.cons_append,
      potentialRest_mark hbase (by decide)]
    exact hdigit
  · rw [potentialRest_letter halpha (by simp [hsign 45 (.inr rfl)]) hmark, List.cons_append,
      potentialRest_mark hbase (by decide)]
    exact hdigit

theorem exponent_last {exp : List ℕ} (h : Exponent ucd exp) (l : List ℕ) :
    (l ++ exp).getLast? ≠ some 43 ∧ (l ++ exp).getLast? ≠ some 45 := by
  obtain ⟨e, s, ds, rfl, he, hs, hne, hds⟩ := h
  have := digits_last (by omega) hds hne (l ++ e :: s)
  simpa using this

theorem digit_of_potential (hucd : ucd.Lawful) {n : List ℕ}
    (h : potentialNumberP ucd base n = true) :
    ∀ c ∈ n, (ucd.digitp c 10).isSome → (ucd.digitp c base).isSome := by
  cases n with
  | nil => simp
  | cons c rest =>
    intro d hd hdecimal
    rw [potentialNumberP] at h
    split at h
    · cases h
    · rename_i hfirst
      split at h
      · cases h
      · rcases List.mem_cons.mp hd with rfl | hd
        · by_contra hnone
          refine hfirst ?_
          have hmem : d ∉ [43, 45, 94, 95] := by
            intro hmem
            have hascii : d = 43 ∨ d = 45 ∨ d = 94 ∨ d = 95 := by simpa using hmem
            have hzero : ucd.digitp d 10 = none :=
              Ucd.digitp_eq_none (by omega) (by omega) (by omega) (by omega) (by omega)
            simp [hzero] at hdecimal
          simp only [hmem, not_false_eq_true, decide_true, Bool.and_true, Bool.not_eq_true']
          simpa using hnone
        · exact digit_of_potentialRest hucd h d hd hdecimal

/-- The two kinds of decimal numbers that potential_number_p does not see. -/
def Overlooked (ucd : Ucd) (base : ℕ) (n : List ℕ) : Prop :=
  n.head? = some 46 ∨ ∃ c ∈ n, (ucd.digitp c 10).isSome ∧ ucd.digitp c base = none

theorem decimal_potential (hucd : ucd.Lawful) (hbase : base ≤ 36) {n : List ℕ}
    (h : DecimalSyntax ucd n) :
    potentialNumberP ucd base n = false ↔ Overlooked ucd base n := by
  constructor
  · intro hpotential
    by_contra hnot
    simp only [Overlooked, not_or, not_exists, not_and] at hnot
    obtain ⟨hdot, hdigits⟩ := hnot
    have hdigits : ∀ c ∈ n, (ucd.digitp c 10).isSome → (ucd.digitp c base).isSome := by
      intro c hc hdecimal
      rw [← Option.ne_none_iff_isSome]
      exact hdigits c hc hdecimal
    refine absurd hpotential ?_
    rw [Bool.not_eq_false]
    obtain ⟨s, body, rfl, hs, hbody⟩ := h
    have hsub : ∀ ds, Digits ucd 10 ds → (∀ c ∈ ds, c ∈ s ++ body) → Digits ucd base ds :=
      fun ds hds hmem c hc => hdigits c (hmem c hc) (hds c hc)
    cases hbody with
    | dot int frac exp hint hfrac hsome hexp =>
      have hint' := hsub int hint (by simp +contextual)
      have hfrac' := hsub frac hfrac (by simp +contextual)
      refine potential_of_rest hs (by simp) (fun hnil => ?_) ?_ hbase ?_
      · refine digits_head hint' ?_ _
        rintro rfl
        subst hnil
        exact hdot rfl
      · rcases hexp with rfl | hexp
        · by_cases hfracNil : frac = []
          · subst hfracNil
            simp
          · have := digits_last (by omega) hfrac hfracNil (int ++ [46])
            simpa using this
        · have := exponent_last hexp (int ++ 46 :: frac)
          simpa using this
      · rw [potentialRest_digits hint', potentialRest_mark hbase (by decide),
          potentialRest_digits hfrac']
        have hseen : (false || !int.isEmpty || !frac.isEmpty) = true := by
          cases int with
          | nil => simpa using hsome
          | cons c int => simp
        rw [hseen]
        rcases hexp with rfl | hexp
        · rfl
        · exact exponent_potential hucd hbase hexp fun c hc => hdigits c (by simp [hc])
    | exponent int exp hint hsome hexp =>
      have hint' := hsub int hint (by simp +contextual)
      refine potential_of_rest hs (by simp [hsome]) (fun _ => digits_head hint' hsome _)
        (exponent_last hexp int) hbase ?_
      rw [potentialRest_digits hint', show (false || !int.isEmpty) = true by simpa using hsome]
      exact exponent_potential hucd hbase hexp fun c hc => hdigits c (by simp [hc])
  · rintro (hdot | ⟨c, hc, hdecimal, hnone⟩)
    · obtain ⟨rest, rfl⟩ : ∃ rest, n = 46 :: rest := by
        cases n with
        | nil => simp at hdot
        | cons c rest => exact ⟨rest, by rw [Option.some.inj hdot]⟩
      rw [potentialNumberP, digitp_dot hbase]
      rfl
    · by_contra hpotential
      rw [Bool.not_eq_false] at hpotential
      have := digit_of_potential hucd hpotential c hc hdecimal
      simp [hnone] at this

theorem slash_potential (hucd : ucd.Lawful) (hbase : base ≤ 36) {n : List ℕ}
    (h : SlashSyntax ucd n) : potentialNumberP ucd base n = false ↔ Overlooked ucd base n := by
  obtain ⟨s, ds, rfl, hs, hne, hds⟩ := h
  constructor
  · intro hpotential
    by_contra hnot
    simp only [Overlooked, not_or, not_exists, not_and] at hnot
    refine absurd hpotential ?_
    rw [Bool.not_eq_false]
    refine ratio_potential hbase ⟨s, ds, [], rfl, hs, hne, fun c hc => ?_, by simp [Digits]⟩
    rw [← Option.ne_none_iff_isSome]
    exact hnot.2 c (by simp [hc]) (hds c hc)
  · rintro (hdot | ⟨c, hc, hdecimal, hnone⟩)
    · exfalso
      rcases hs with rfl | rfl | rfl
      · obtain ⟨c, ds, rfl⟩ := List.exists_cons_of_ne_nil hne
        have hc := (digits_cons.mp hds).1
        rw [Option.some.inj hdot, digitp_dot (by omega)] at hc
        cases hc
      all_goals simp at hdot
    · by_contra hpotential
      rw [Bool.not_eq_false] at hpotential
      have := digit_of_potential hucd hpotential c hc hdecimal
      simp [hnone] at this

theorem scanRun_plain {l : List ℕ} (h : 58 ∉ l) : ∀ (index : ℕ) (m : Markers),
    scanRun l index m = .ok m := by
  induction l with
  | nil => exact fun _ _ => rfl
  | cons c rest ih =>
    intro index m
    simp only [List.mem_cons, not_or] at h
    have hc : c ≠ 58 := fun hc => h.1 hc.symm
    cases rest with
    | nil => rw [scanRun, if_pos hc]
    | cons next rest => rw [scanRun, if_pos hc, ih h.2]

theorem scanRun_append {l : List ℕ} (h : 58 ∉ l) (t : List ℕ) : ∀ (index : ℕ) (m : Markers),
    scanRun (l ++ t) index m = scanRun t (index + l.length) m := by
  induction l with
  | nil => exact fun _ _ => rfl
  | cons c rest ih =>
    intro index m
    simp only [List.mem_cons, not_or] at h
    have hc : c ≠ 58 := fun hc => h.1 hc.symm
    have hskip : scanRun (c :: (rest ++ t)) index m = scanRun (rest ++ t) (index + 1) m := by
      cases hrest : rest ++ t with
      | nil => simp [scanRun, hc]
      | cons next rest' => rw [scanRun, if_pos hc]
    rw [List.cons_append, hskip, ih h.2, List.length_cons, Nat.add_assoc, Nat.add_comm 1]

theorem bare_no_colon {readCase : ReadtableCase} {s : List ℕ} (h : Bare ucd readCase s) :
    58 ∉ s := fun hmem => (h.constituent 58 hmem).2.2 rfl

section
variable {escaped packEscaped : Bool}

theorem scan_name (name : List ℕ) (escaped : Bool) (h : escaped = false → 58 ∉ name) :
    scanRuns name (runs 0 (partsOf 0 name escaped) name.length) ⟨0, 0, false⟩ =
      .ok ⟨0, 0, false⟩ := by
  cases escaped with
  | true => simp [partsOf, runs, scanRuns, scanRun]
  | false => simp [partsOf, runs, scanRuns, scanRun_plain (h rfl)]

theorem scan_keyword (name : List ℕ) (h : escaped = false → 58 ∉ name) :
    ∃ external, scanRuns (58 :: name) (runs 0 (partsOf 1 name escaped) (58 :: name).length)
      ⟨0, 0, false⟩ = .ok ⟨1, 0, external⟩ := by
  cases escaped with
  | true =>
    refine ⟨true, ?_⟩
    have hdrop : (58 :: name).drop (1 + name.length) = [] := by
      rw [List.drop_eq_nil_iff, List.length_cons, Nat.add_comm]
    simp [partsOf, runs, scanRuns, scanRun, hdrop]
  | false =>
    refine ⟨true, ?_⟩
    have hname := h rfl
    cases name with
    | nil => simp [partsOf, runs, scanRuns, scanRun]
    | cons c rest =>
      simp only [List.mem_cons, not_or] at hname
      have hc : c ≠ 58 := fun hc => hname.1 hc.symm
      simp [partsOf, runs, scanRuns, scanRun, hc, scanRun_plain hname.2]

theorem scan_prefix (name pack : List ℕ) (h : escaped = false → 58 ∉ name) (hpack : packEscaped = false → 58 ∉ pack) :
    scanRuns (pack ++ 58 :: 58 :: name)
      (runs 0 (partsOf 0 pack packEscaped ++ partsOf (pack.length + 2) name escaped)
        (pack ++ 58 :: 58 :: name).length) ⟨0, 0, false⟩ =
      .ok ⟨pack.length + 2, pack.length, false⟩ := by
  have hlen : (pack ++ 58 :: 58 :: name).length = pack.length + 2 + name.length := by
    simp
    omega
  have htake : (pack ++ 58 :: 58 :: name).take (pack.length + 2) = pack ++ [58, 58] := by
    rw [List.take_append, List.take_of_length_le (by omega)]
    simp
  rw [hlen]
  cases packEscaped with
  | true =>
    cases escaped with
    | true =>
      simp only [partsOf, if_true, List.cons_append, List.nil_append, runs, scanRuns]
      rw [Nat.zero_add, htake]
      simp [scanRun]
    | false =>
      simp only [partsOf, if_true, if_false, Bool.false_eq_true, List.append_nil, runs, scanRuns]
      rw [Nat.zero_add, ← hlen, List.take_length]
      simp [scanRun, scanRun_plain (h rfl)]
  | false =>
    cases escaped with
    | true =>
      simp only [partsOf, if_true, if_false, Bool.false_eq_true, List.nil_append, runs, scanRuns]
      rw [htake, List.drop_zero, scanRun_append (hpack rfl)]
      simp [scanRun]
    | false =>
      simp only [partsOf, if_false, Bool.false_eq_true, List.append_nil, runs, scanRuns]
      rw [← hlen, List.take_length, List.drop_zero, scanRun_append (hpack rfl)]
      simp [scanRun, scanRun_plain (h rfl)]

end

/-- A name is left without bars and is a decimal number that the printer overlooks. The second
case is an error of the reader, at the end of a buffer without a free place. -/
def MissedNumber (ucd : Ucd) (base : ℕ) (readCase : ReadtableCase) (dim : ℕ) (n : List ℕ) : Prop :=
  (∀ c ∈ n, ucd.lowerCaseP c = false ∧ (readCase = .downcase → ucd.upperCaseP c = false)) ∧
  Overlooked ucd base n ∧
  (DecimalSyntax ucd n ∨ SlashSyntax ucd n ∧ dimAfter dim n.length = n.length)

theorem numeral_bare (hucd : ucd.Lawful) {readCase : ReadtableCase} {n : List ℕ}
    (h : DecimalSyntax ucd n ∨ SlashSyntax ucd n)
    (hcase : ∀ c ∈ n, ucd.lowerCaseP c = false ∧
      (readCase = .downcase → ucd.upperCaseP c = false)) : Bare ucd readCase n := by
  have hchars : ∀ c ∈ n, (ucd.digitp c 10).isSome ∨ c ∈ [43, 45, 46, 47] ∨ exponentCharp c := by
    have hsign : ∀ s, Sign s → ∀ c ∈ s, c ∈ [43, 45, 46, 47] := by
      rintro s (rfl | rfl | rfl) c hc <;> simp at hc <;> simp [hc]
    have hexponent : ∀ exp, Exponent ucd exp → ∀ c ∈ exp,
        (ucd.digitp c 10).isSome ∨ c ∈ [43, 45, 46, 47] ∨ exponentCharp c := by
      rintro exp ⟨e, s, ds, rfl, he, hs, -, hds⟩ c hc
      rcases List.mem_cons.mp hc with rfl | hc
      · exact .inr (.inr he)
      · rcases List.mem_append.mp hc with hc | hc
        · exact .inr (.inl (hsign s hs c hc))
        · exact .inl (hds c hc)
    rcases h with ⟨s, body, rfl, hs, hbody⟩ | ⟨s, ds, rfl, hs, -, hds⟩
    · intro c hc
      rcases List.mem_append.mp hc with hc | hc
      · exact .inr (.inl (hsign s hs c hc))
      · cases hbody with
        | dot int frac exp hint hfrac hsome hexp =>
          simp only [List.mem_append, List.mem_cons] at hc
          rcases hc with hc | rfl | hc | hc
          · exact .inl (hint c hc)
          · exact .inr (.inl (by simp))
          · exact .inl (hfrac c hc)
          · rcases hexp with rfl | hexp
            · cases hc
            · exact hexponent exp hexp c hc
        | exponent int exp hint hsome hexp =>
          rcases List.mem_append.mp hc with hc | hc
          · exact .inl (hint c hc)
          · exact hexponent exp hexp c hc
    · intro c hc
      simp only [List.mem_append, List.mem_singleton] at hc
      rcases hc with hc | hc | rfl
      · exact .inr (.inl (hsign s hs c hc))
      · exact .inl (hds c hc)
      · exact .inr (.inl (by simp))
  refine ⟨fun c hc => ?_, fun c hc => (hcase c hc).1, fun hdown c hc => (hcase c hc).2 hdown⟩
  have hplain : c ∉ [9, 10, 12, 13, 32, 0xfeff] → c ≠ 92 → c ≠ 124 →
      c ∉ [34, 39, 40, 41, 44, 59, 96] → c ≠ 35 → readtableGet c = .constituent := by
    intro h₁ h₂ h₃ h₄ h₅
    rw [readtableGet, if_neg h₁, if_neg h₂, if_neg h₃, if_neg h₄, if_neg h₅]
  simp only [List.mem_cons, List.not_mem_nil, or_false] at hplain
  simp only [invalidCharacterP, Bool.or_eq_false_iff, decide_eq_false_iff_not]
  rcases hchars c hc with hdigit | hmark | hexp
  · obtain ⟨v, hv⟩ := Option.isSome_iff_exists.mp hdigit
    rcases Ucd.decimal_cases hucd hv with ⟨hlow, hhigh, -⟩ | ⟨hhigh, -⟩
    · exact ⟨hplain (by omega) (by omega) (by omega) (by omega) (by omega), by omega, by omega⟩
    · have hbom : c ≠ 65279 := by
        rintro rfl
        have hten := hucd.byteOrderMark.2
        rw [Ucd.digitp, if_neg (by omega), if_neg (by omega), if_neg (by omega),
          if_pos (by omega)] at hv
        simp only [if_neg (show ¬ ucd.decimalDigit (ucd.charData 65279).value0 < 10 by omega)]
          at hv
        cases hv
      exact ⟨hplain (by omega) (by omega) (by omega) (by omega) (by omega), by omega, by omega⟩
  · simp only [List.mem_cons, List.not_mem_nil, or_false] at hmark
    exact ⟨hplain (by omega) (by omega) (by omega) (by omega) (by omega), by omega, by omega⟩
  · have := exponentCharp_ascii hexp
    simp only [exponentCharp, List.mem_cons, List.not_mem_nil, or_false, decide_eq_true_eq] at hexp
    exact ⟨hplain (by omega) (by omega) (by omega) (by omega) (by omega), by omega, by omega⟩

theorem not_escaped_iff (hucd : ucd.Lawful) {st : PrintSettings} (hbase : st.printBase ≤ 36)
    {n : List ℕ} (h : DecimalSyntax ucd n ∨ SlashSyntax ucd n) :
    needsToBeEscaped ucd st n = false ↔
      (∀ c ∈ n, ucd.lowerCaseP c = false ∧
        (st.readCase = .downcase → ucd.upperCaseP c = false)) ∧
      Overlooked ucd st.printBase n := by
  have hover : potentialNumberP ucd st.printBase n = false ↔ Overlooked ucd st.printBase n :=
    h.elim (decimal_potential hucd hbase) (slash_potential hucd hbase)
  constructor
  · intro hescape
    obtain ⟨hpotential, hbare⟩ := bare_of_not_escaped hescape
    exact ⟨fun c hc => ⟨hbare.noLower c hc, fun hdown => hbare.noUpper hdown c hc⟩,
      hover.mp hpotential⟩
  · rintro ⟨hcase, hoverlooked⟩
    have hbare := numeral_bare hucd h hcase
    rw [needsToBeEscaped, hover.mpr hoverlooked, Bool.false_or, List.any_eq_false]
    intro c hc
    obtain ⟨hgrammar, hinvalid, hcolon⟩ := hbare.constituent c hc
    simp only [hgrammar, hinvalid, hcolon, hbare.noLower c hc, ne_eq, not_true, decide_false,
      Bool.or_false, Bool.false_or, Bool.not_eq_true, Bool.and_eq_false_iff,
      decide_eq_false_iff_not]
    by_cases hdown : st.readCase = .downcase
    · exact .inr (hbare.noUpper hdown c hc)
    · exact .inl hdown

theorem numeral_head (hucd : ucd.Lawful) {n : List ℕ}
    (h : DecimalSyntax ucd n ∨ SlashSyntax ucd n) : n.head?.any ucd.alphaCharP = false := by
  have hascii : ∀ c, c = 43 ∨ c = 45 ∨ c = 46 → ucd.alphaCharP c = false := by
    intro c hc
    rw [← Bool.not_eq_true, hucd.asciiAlpha c (by omega)]
    omega
  have hcons : ∀ s l : List ℕ, Sign s → (∃ c rest, l = c :: rest ∧ ucd.alphaCharP c = false) →
      (s ++ l).head?.any ucd.alphaCharP = false := by
    rintro s l (rfl | rfl | rfl) ⟨c, rest, rfl, hc⟩
    · simpa using hc
    · simpa using hascii 43 (by omega)
    · simpa using hascii 45 (by omega)
  have hdecimal : ∀ c, (ucd.digitp c 10).isSome → ucd.alphaCharP c = false := by
    intro c hc
    obtain ⟨v, hv⟩ := Option.isSome_iff_exists.mp hc
    exact Ucd.not_alpha_of_decimal hucd hv
  rcases h with ⟨s, body, rfl, hs, hbody⟩ | ⟨s, ds, rfl, hs, hne, hds⟩
  · obtain ⟨c, rest, rfl, hc⟩ := decimalBody_head hbody
    exact hcons s _ hs ⟨c, rest, rfl, hc.elim (fun h => hascii c (by omega)) (hdecimal c)⟩
  · obtain ⟨c, rest, heq, hc⟩ := digits_head hds hne [47]
    exact hcons s _ hs ⟨c, rest, heq, hdecimal c hc⟩

theorem numeral_not_dots {n : List ℕ} (h : DecimalSyntax ucd n ∨ SlashSyntax ucd n) :
    allDots n = false := by
  have hmem : ∀ c ∈ n, c ≠ 46 → allDots n = false := by
    intro c hc hdot
    rw [allDots, List.all_eq_false]
    exact ⟨c, hc, by simpa using hdot⟩
  have hdigits : ∀ ds, Digits ucd 10 ds → ∀ c ∈ ds, c ≠ 46 := by
    rintro ds hds c hc rfl
    simpa [digitp_dot] using hds 46 hc
  rcases h with ⟨s, body, rfl, hs, hbody⟩ | ⟨s, ds, rfl, hs, hne, hds⟩
  · cases hbody with
    | dot int frac exp hint hfrac hsome hexp =>
      obtain ⟨c, rest, hcons⟩ := List.exists_cons_of_ne_nil hsome
      have hc : c ∈ int ++ frac := by
        rw [hcons]
        simp
      refine hmem c ?_ (hdigits _ (digits_append.mpr ⟨hint, hfrac⟩) c hc)
      simp only [List.mem_append, List.mem_cons] at hc ⊢
      tauto
    | exponent int exp hint hsome hexp =>
      obtain ⟨c, int, rfl⟩ := List.exists_cons_of_ne_nil hsome
      exact hmem c (by simp) (hdigits _ hint c (by simp))
  · exact hmem 47 (by simp) (by omega)

section
variable {Sym : Type} {w : World Sym} {st : PrintSettings} {buffer : TokenString} {x : Sym}

def RoundTrips [DecidableEq Sym] (ucd : Ucd) (w : World Sym) (st : PrintSettings) (buffer : TokenString) (x : Sym) :
    Prop :=
  ∃ out, writeSymbol ucd w st x [] = .ok out ∧
    readObject ucd w st.printBase st.readCase buffer out = .ok (.symbol x)

def prefixPackage (w : World Sym) (package : ℕ) : Option ℕ :=
  if (w.package package).name = [] then some w.keywordPackage
  else w.findPackage (w.package package).name

/-- ecl_intern, as the reader uses it. -/
def symbolIn (w : World Sym) (name : List ℕ) (package : ℕ) : Outcome Sym :=
  match w.findSymbol name package with
  | some (y, _) => .symbol y
  | none => .intern name package

theorem parseSymbol_internal {chars : List ℕ} {m : Markers} (hm : m.external = false)
    (package : Option ℕ) : parseSymbol w chars m package =
      .ok (symbolIn w (chars.drop m.symStart) (package.getD w.currentPackage)) := by
  simp only [parseSymbol, symbolIn, hm]
  cases w.findSymbol (chars.drop m.symStart) (package.getD w.currentPackage) <;> rfl

theorem symbolIn_iff {name : List ℕ} {package : ℕ} :
    symbolIn w name package = .symbol x ↔
      ∃ flag, w.findSymbol name package = some (x, flag) := by
  unfold symbolIn
  cases h : w.findSymbol name package with
  | none => simp
  | some found => simp [Prod.ext_iff]

theorem parseSymbol_found {chars : List ℕ} {m : Markers} {package : Option ℕ} {flag : InternFlag}
    (hm : m.external = false)
    (hfind : w.findSymbol (chars.drop m.symStart) (package.getD w.currentPackage) =
      some (x, flag)) : parseSymbol w chars m package = .ok (.symbol x) := by
  rw [parseSymbol_internal hm, symbolIn_iff.mpr ⟨flag, hfind⟩]

theorem nameText_head (hucd : ucd.Lawful) {s : List ℕ} {escaped : Bool}
    (hbare : escaped = false → Bare ucd st.readCase s) (rest : List ℕ)
    (hrest : escaped = false → s = [] → ∃ c t, rest = c :: t ∧ readtableGet c = .constituent) :
    ∃ c t, nameText ucd st s escaped ++ rest = c :: t ∧
      (readtableGet c = .constituent ∨ readtableGet c = .multipleEscape) := by
  cases escaped with
  | true => exact ⟨124, _, rfl, .inr (by decide)⟩
  | false =>
    have hprints := nameText_prints (hbare rfl)
    generalize nameText ucd st s false = out at hprints
    cases hprints with
    | nil =>
      obtain ⟨c, t, rfl, hc⟩ := hrest rfl rfl
      exact ⟨c, t, rfl, .inl hc⟩
    | @cons c o s out ho hout =>
      obtain ⟨hc, -⟩ := bare_cons.mp (hbare rfl)
      refine ⟨o, _, rfl, .inl ?_⟩
      rcases ho with ⟨rfl, -⟩ | ⟨hup, rfl, -⟩
      · exact hc.1
      · exact (Ucd.constituent_of_lower hucd (hucd.upper c hup).1).1

theorem readObject_token {c : ℕ} {t : List ℕ} {token : Token} {base : ℕ} {readCase : ReadtableCase}
    (hc : readtableGet c = .constituent ∨ readtableGet c = .multipleEscape)
    (hread : readToken ucd readCase buffer (c :: t) = .ok (token, [])) :
    readObject ucd w base readCase buffer (c :: t) = parseToken ucd w base false token := by
  rcases hc with hc | hc <;> simp only [readObject, hc, hread]

theorem initial_reads (ucd : Ucd) (readCase : ReadtableCase) (buffer : TokenString) :
    Reads ucd readCase buffer.dim ⟨{ buffer with chars := [] }, [], 0, 0, .normal⟩ [] [] :=
  ⟨rfl, rfl, rfl, by simp [Within], rfl, fun _ => rfl, fun _ => ⟨rfl, rfl, fun _ => rfl⟩⟩

theorem unmarked_iff (hucd : ucd.Lawful) (hbase : st.printBase ≤ 36) {string : TokenString}
    {flag : InternFlag} (hdim : string.dim = dimAfter buffer.dim string.chars.length)
    (hescape : needsToBeEscaped ucd st string.chars = false) (hdots : allDots string.chars = false)
    (hfind : w.findSymbol string.chars w.currentPackage = some (x, flag)) :
    parseUnmarked ucd w st.printBase false string ⟨0, 0, false⟩ = .ok (.symbol x) ↔
      ¬ MissedNumber ucd st.printBase st.readCase buffer.dim string.chars := by
  have hsymbol : parseSymbol w string.chars ⟨0, 0, false⟩ none = .ok (.symbol x) :=
    parseSymbol_found rfl (by simpa using hfind)
  have hne : string.chars ≠ [] := by
    intro hnil
    simp [allDots, hnil] at hdots
  have hdot : string.chars ≠ [46] := by
    intro hdot
    simp [allDots, hdot] at hdots
  rw [parseUnmarked, if_neg hdot, hdots, if_neg (by simp)]
  by_cases halpha : st.printBase ≤ 10 ∧ string.chars.head?.any ucd.alphaCharP
  · rw [if_pos halpha, hsymbol]
    refine iff_of_true rfl ?_
    rintro ⟨-, -, hgrammar⟩
    have := numeral_head hucd (hgrammar.imp_right And.left)
    rw [this] at halpha
    simp at halpha
  · rw [if_neg halpha]
    have hpotential := (bare_of_not_escaped hescape).1
    have houtcome : Outcome ucd string (parseNumber ucd string st.printBase) := by
      refine parseNumber_outcome hbase hne ?_ ?_
      · intro hint
        simp [integer_potential hbase hint] at hpotential
      · intro hratio
        simp [ratio_potential hbase hratio] at hpotential
    have hmissed : MissedNumber ucd st.printBase st.readCase buffer.dim string.chars ↔
        DecimalSyntax ucd string.chars ∨
          SlashSyntax ucd string.chars ∧ string.dim ≤ string.chars.length := by
      have hle := le_dimAfter buffer.dim string.chars.length
      have hfull : dimAfter buffer.dim string.chars.length = string.chars.length ↔
          string.dim ≤ string.chars.length := by
        rw [hdim]
        omega
      rw [MissedNumber, hfull]
      constructor
      · exact fun h => h.2.2
      · intro h
        obtain ⟨hcase, hover⟩ := (not_escaped_iff hucd hbase (h.imp_right And.left)).mp hescape
        exact ⟨hcase, hover, h⟩
    rw [hmissed]
    obtain ⟨hnumber, hdecimal, hnil, hindex⟩ := houtcome
    generalize parseNumber ucd string st.printBase = res at hnumber hdecimal hnil hindex
    obtain ⟨parsed, ep⟩ := res
    dsimp only at hnumber hnil hindex
    cases parsed with
    | objnull =>
      dsimp only
      rw [hsymbol]
      refine iff_of_true rfl ?_
      rintro (h | h)
      · obtain ⟨q, hq⟩ := hdecimal h
        cases hq
      · exact absurd (hindex.mpr h) (by simp)
    | nil => exact absurd rfl hnil
    | number q =>
      obtain ⟨rfl, hgrammar⟩ := hnumber q rfl
      refine iff_of_false ?_ (not_not.mpr (.inl hgrammar))
      simp
    | indexError =>
      refine iff_of_false (by simp) (not_not.mpr (.inr (hindex.mp rfl)))

variable [DecidableEq Sym] {home : ℕ}

structure Accessible (w : World Sym) (x : Sym) (home : ℕ) : Prop where
  interned : w.hpack x = some home
  inHome : ∃ flag, w.findSymbol (w.name x) home = some (x, flag)
  inCurrent : ∃ flag, w.findSymbol (w.name x) w.currentPackage = some (x, flag)

theorem keyword_trips (hucd : ucd.Lawful) (h : Accessible w x home)
    (hescape : st.printEscape ∨ st.printReadably) (hhome : home = w.keywordPackage) :
    RoundTrips ucd w st buffer x := by
  obtain ⟨hpack, ⟨flag, hfind⟩, -⟩ := h
  subst hhome
  have hprint : (!st.printReadably && !st.printEscape) = false := by
    rcases hescape with h | h <;> simp [h]
  have hbare : (needsToBeEscaped ucd st (w.name x) || allDots (w.name x)) = false →
      Bare ucd st.readCase (w.name x) :=
    fun h => (bare_of_not_escaped (Bool.or_eq_false_iff.mp h).1).2
  obtain ⟨st₁, hread₁, hst₁⟩ := read_colon hucd (initial_reads ucd st.readCase buffer)
    (nameText ucd st (w.name x) (needsToBeEscaped ucd st (w.name x) || allDots (w.name x)))
  obtain ⟨st₂, hread₂, hst₂⟩ := read_name hucd hst₁ hbare []
  rw [List.append_nil] at hread₂
  obtain ⟨token, htoken, hchars, hparts, -⟩ := readToken_eq (hread₁.trans hread₂) hst₂
  refine ⟨58 :: nameText ucd st (w.name x)
    (needsToBeEscaped ucd st (w.name x) || allDots (w.name x)), ?_, ?_⟩
  · simp [writeSymbol, hprint, hpack, writeSymbolString_eq, bind, Except.bind]
  · rw [readObject_token (.inl (by decide)) htoken]
    obtain ⟨external, hscan⟩ := scan_keyword (w.name x) fun h => bare_no_colon (hbare h)
    rw [parseToken, Token.runs, hchars, hparts]
    simp only [List.nil_append, List.length_singleton, List.singleton_append]
    rw [hscan]
    exact parseSymbol_found rfl (by simpa using hfind)

theorem forced_trips_iff (hucd : ucd.Lawful) (h : Accessible w x home)
    (hescape : st.printEscape ∨ st.printReadably) (hhome : home ≠ w.keywordPackage)
    (hforced : forcedPrintPackage st home = true) : RoundTrips ucd w st buffer x ↔
      ∃ p flag, prefixPackage w home = some p ∧ w.findSymbol (w.name x) p = some (x, flag) := by
  obtain ⟨hpack, ⟨flag, hfind⟩, -⟩ := h
  have hprint : (!st.printReadably && !st.printEscape) = false := by
    rcases hescape with h | h <;> simp [h]
  have hbare : (needsToBeEscaped ucd st (w.name x) || allDots (w.name x)) = false →
      Bare ucd st.readCase (w.name x) :=
    fun h => (bare_of_not_escaped (Bool.or_eq_false_iff.mp h).1).2
  have hpackBare : needsToBeEscaped ucd st (w.package home).name = false →
      Bare ucd st.readCase (w.package home).name := fun h => (bare_of_not_escaped h).2
  have hout : writeSymbol ucd w st x [] = .ok
      (nameText ucd st (w.package home).name (needsToBeEscaped ucd st (w.package home).name) ++
        58 :: 58 :: nameText ucd st (w.name x)
          (needsToBeEscaped ucd st (w.name x) || allDots (w.name x))) := by
    simp [writeSymbol, writePackage, hprint, hpack, hhome, hforced, hfind, writeSymbolString_eq,
      bind, Except.bind]
  obtain ⟨st₁, hread₁, hst₁⟩ := read_name hucd (initial_reads ucd st.readCase buffer) hpackBare
    (58 :: 58 :: nameText ucd st (w.name x)
      (needsToBeEscaped ucd st (w.name x) || allDots (w.name x)))
  obtain ⟨st₂, hread₂, hst₂⟩ := read_colon hucd hst₁ (58 :: nameText ucd st (w.name x)
    (needsToBeEscaped ucd st (w.name x) || allDots (w.name x)))
  obtain ⟨st₃, hread₃, hst₃⟩ := read_colon hucd hst₂ (nameText ucd st (w.name x)
    (needsToBeEscaped ucd st (w.name x) || allDots (w.name x)))
  obtain ⟨st₄, hread₄, hst₄⟩ := read_name hucd hst₃ hbare []
  rw [List.append_nil] at hread₄
  obtain ⟨token, htoken, hchars, hparts, -⟩ :=
    readToken_eq (hread₁.trans (hread₂.trans (hread₃.trans hread₄))) hst₄
  have htext : token.string.chars = (w.package home).name ++ 58 :: 58 :: w.name x := by
    rw [hchars]
    simp
  obtain ⟨c, t, hcons, hc⟩ := nameText_head hucd hpackBare
    (58 :: 58 :: nameText ucd st (w.name x)
      (needsToBeEscaped ucd st (w.name x) || allDots (w.name x)))
    fun _ _ => ⟨58, _, rfl, by decide⟩
  have hobject : readObject ucd w st.printBase st.readCase buffer
      (nameText ucd st (w.package home).name (needsToBeEscaped ucd st (w.package home).name) ++
        58 :: 58 :: nameText ucd st (w.name x)
          (needsToBeEscaped ucd st (w.name x) || allDots (w.name x))) =
      parseToken ucd w st.printBase false token := by
    rw [hcons] at htoken ⊢
    exact readObject_token hc htoken
  have hscan : scanRuns token.string.chars token.runs ⟨0, 0, false⟩ =
      .ok ⟨(w.package home).name.length + 2, (w.package home).name.length, false⟩ := by
    have hscan := scan_prefix (w.name x) (w.package home).name
      (fun h => bare_no_colon (hbare h)) fun h => bare_no_colon (hpackBare h)
    rw [Token.runs, hparts, htext]
    simpa using hscan
  have hdrop : token.string.chars.drop ((w.package home).name.length + 2) = w.name x := by
    rw [htext]
    simp
  have hparse : parseToken ucd w st.printBase false token =
      (prefixPackage w home).elim (.error (.noPackage (w.package home).name))
        fun p => .ok (symbolIn w (w.name x) p) := by
    rw [parseToken, hscan]
    by_cases hempty : (w.package home).name = []
    · simp only [hempty, List.length_nil] at hdrop
      simp [prefixPackage, hempty, parseSymbol_internal, hdrop]
    · have hlen : (w.package home).name.length ≠ 0 := by simpa using hempty
      have htake : token.string.chars.take (w.package home).name.length =
          (w.package home).name := by
        rw [htext]
        simp
      simp only [prefixPackage, hempty, hlen, htake, ne_eq, Nat.add_eq_zero_iff, if_false]
      cases w.findPackage (w.package home).name with
      | none => rfl
      | some p => simp [parseSymbol_internal, hdrop]
  constructor
  · rintro ⟨out, hwrite, hread⟩
    rw [hout] at hwrite
    cases hwrite
    rw [hobject, hparse] at hread
    cases hfront : prefixPackage w home with
    | none => simp [hfront] at hread
    | some p =>
      rw [hfront] at hread
      obtain ⟨flag', hsymbol⟩ := symbolIn_iff.mp (Except.ok.inj hread)
      exact ⟨p, flag', rfl, hsymbol⟩
  · rintro ⟨p, flag', hfront, hsymbol⟩
    refine ⟨_, hout, ?_⟩
    rw [hobject, hparse, hfront, Option.elim_some, symbolIn_iff.mpr ⟨flag', hsymbol⟩]

theorem plain_trips_iff (hucd : ucd.Lawful) (hbase : st.printBase ≤ 36) (h : Accessible w x home)
    (hescape : st.printEscape ∨ st.printReadably) (hhome : home ≠ w.keywordPackage)
    (hforced : forcedPrintPackage st home = false) : RoundTrips ucd w st buffer x ↔
      ¬ MissedNumber ucd st.printBase st.readCase buffer.dim (w.name x) := by
  obtain ⟨hpack, -, ⟨flag, hfind⟩⟩ := h
  have hprint : (!st.printReadably && !st.printEscape) = false := by
    rcases hescape with h | h <;> simp [h]
  generalize hbars : (needsToBeEscaped ucd st (w.name x) || allDots (w.name x)) = escaped
  have hbare : escaped = false → Bare ucd st.readCase (w.name x) := by
    rintro rfl
    exact (bare_of_not_escaped (Bool.or_eq_false_iff.mp hbars).1).2
  have hout : writeSymbol ucd w st x [] = .ok (nameText ucd st (w.name x) escaped) := by
    simp [writeSymbol, hprint, hpack, hhome, hforced, hfind, hbars, writeSymbolString_eq, bind,
      Except.bind]
  obtain ⟨st₁, hread₁, hst₁⟩ := read_name hucd (initial_reads ucd st.readCase buffer) hbare []
  rw [List.append_nil] at hread₁
  obtain ⟨token, htoken, hchars, hparts, hdim⟩ := readToken_eq hread₁ hst₁
  simp only [List.nil_append, List.length_nil] at hchars hparts hdim
  have hne : escaped = false → w.name x ≠ [] := by
    rintro rfl hnil
    simp [hnil, allDots] at hbars
  obtain ⟨c, t, hcons, hc⟩ := nameText_head hucd hbare [] fun h hnil => absurd hnil (hne h)
  rw [List.append_nil] at hcons
  have hobject : readObject ucd w st.printBase st.readCase buffer
      (nameText ucd st (w.name x) escaped) = parseToken ucd w st.printBase false token := by
    rw [hcons] at htoken ⊢
    exact readObject_token hc htoken
  have hscan := scan_name (w.name x) escaped fun h => bare_no_colon (hbare h)
  have hparse : parseToken ucd w st.printBase false token =
      if escaped then parseSymbol w (w.name x) ⟨0, 0, false⟩ none
      else parseUnmarked ucd w st.printBase false token.string ⟨0, 0, false⟩ := by
    rw [parseToken, Token.runs, Token.escaped, hchars, hparts, hscan]
    cases escaped with
    | true => simp [partsOf]
    | false => simp [partsOf, hne rfl]
  have htrips : RoundTrips ucd w st buffer x ↔
      parseToken ucd w st.printBase false token = .ok (.symbol x) := by
    rw [← hobject]
    constructor
    · rintro ⟨out, hwrite, hread⟩
      rw [hout] at hwrite
      cases hwrite
      exact hread
    · exact fun hread => ⟨_, hout, hread⟩
  rw [htrips, hparse]
  cases escaped with
  | true =>
    rw [if_pos rfl, parseSymbol_found rfl (by simpa using hfind)]
    refine iff_of_true rfl ?_
    rintro ⟨hcase, hover, hgrammar⟩
    have hgrammar := hgrammar.imp_right And.left
    rw [(not_escaped_iff hucd hbase hgrammar).mpr ⟨hcase, hover⟩, numeral_not_dots hgrammar] at hbars
    cases hbars
  | false =>
    obtain ⟨hneeds, hdots⟩ := Bool.or_eq_false_iff.mp hbars
    rw [if_neg (by simp), ← hchars]
    rw [← hchars] at hneeds hdots hfind hdim
    exact unmarked_iff hucd hbase hdim hneeds hdots hfind

/-- Printing and reading give the symbol back exactly when the name, if it is alone, is not
an overlooked number, and the package in front of it, if there is one, is found. -/
theorem symbols_round_trip (hucd : ucd.Lawful) (hbase : st.printBase ≤ 36)
    (h : Accessible w x home) (hescape : st.printEscape ∨ st.printReadably) :
    RoundTrips ucd w st buffer x ↔ home ≠ w.keywordPackage →
      if forcedPrintPackage st home then
        ∃ p flag, prefixPackage w home = some p ∧ w.findSymbol (w.name x) p = some (x, flag)
      else ¬ MissedNumber ucd st.printBase st.readCase buffer.dim (w.name x) := by
  by_cases hhome : home = w.keywordPackage
  · exact iff_of_true (keyword_trips hucd h hescape hhome) fun hne => absurd hhome hne
  · cases hforced : forcedPrintPackage st home with
    | true => simpa [hhome] using forced_trips_iff hucd h hescape hhome hforced
    | false => simpa [hhome] using plain_trips_iff hucd hbase h hescape hhome hforced

end

/-- The ASCII part of the database. -/
def asciiUcd : Ucd where
  charData c :=
    if 65 ≤ c ∧ c ≤ 90 then ⟨0, c + 32⟩ else if 97 ≤ c ∧ c ≤ 122 then ⟨2, c - 32⟩ else ⟨9, 0⟩
  generalCategory v := if v < 2 then 0 else if v < 4 then 1 else 20
  decimalDigit _ := 255

theorem asciiUcd_lawful : asciiUcd.Lawful where
  upper := by
    intro c hc
    have hrange : 65 ≤ c ∧ c ≤ 90 := by
      by_contra hrange
      simp only [asciiUcd, Ucd.upperCaseP, if_neg hrange, decide_eq_true_eq] at hc
      split at hc <;> simp at hc
    have hdown : asciiUcd.charDowncase c = c + 32 := by
      rw [Ucd.charDowncase, if_pos hc]
      simp [asciiUcd, hrange]
    have hdata : asciiUcd.charData (c + 32) = ⟨2, c⟩ := by
      simp only [asciiUcd]
      rw [if_neg (by omega), if_pos (by omega), Nat.add_sub_cancel]
    rw [hdown]
    simp [Ucd.lowerCaseP, Ucd.charUpcase, hdata]
  asciiUpper := by decide +kernel
  asciiLower := by decide +kernel
  asciiAlpha := by decide +kernel
  byteOrderMark := by decide
  decimal := by
    intro c _ hdigit
    simp [asciiUcd] at hdigit

def oneSymbol (name : List ℕ) : World Unit where
  name _ := name
  hpack _ := some 5
  nil := ()
  packages := [1, 5]
  package p := if p = 5 then ⟨[85], [], []⟩ else ⟨[75], [], []⟩
  keywordPackage := 1
  currentPackage := 5
  findSymbol n p := if n = name ∧ p = 5 then some ((), .internal) else none

def standardSettings : PrintSettings :=
  ⟨.upcase, .upcase, 10, true, false, true, none, 4192⟩

def emptyBuffer : TokenString := ⟨[], 4192, fun _ => 0⟩

theorem oneSymbol_accessible (name : List ℕ) : Accessible (oneSymbol name) () 5 where
  interned := rfl
  inHome := ⟨.internal, by simp [oneSymbol]⟩
  inCurrent := ⟨.internal, by simp [oneSymbol]⟩

theorem symbols_round_trip_dotFive :
    ¬ RoundTrips asciiUcd (oneSymbol [46, 53]) standardSettings emptyBuffer () := by
  rw [symbols_round_trip asciiUcd_lawful (by decide) (oneSymbol_accessible [46, 53])
    (.inl rfl)]
  intro h
  refine h (by decide) ⟨by decide, .inl rfl, .inl ⟨[], [46, 53], rfl, .inl rfl, ?_⟩⟩
  exact .dot [] [53] [] (by decide) (by decide) (by decide) (.inl rfl)

/-- It is printed without bars and read back as a float. -/
theorem dotFive_reads_as_number :
    Accessible (oneSymbol [46, 53]) () 5 ∧
    writeSymbol asciiUcd (oneSymbol [46, 53]) standardSettings () [] = .ok [46, 53] ∧
    readObject asciiUcd (oneSymbol [46, 53]) 10 .upcase emptyBuffer [46, 53] =
      .ok (.number (.float 5 (-1) 101 1)) :=
  ⟨oneSymbol_accessible [46, 53], rfl, rfl⟩

end SymbolRoundTrip
