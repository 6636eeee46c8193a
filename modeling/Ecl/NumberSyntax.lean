import Ecl.NumberReader
import Mathlib.Data.List.TakeWhile

/-! What the number parser accepts, as a grammar. -/
namespace NumberSyntax

open Characters NumberReader

section
variable (ucd : Ucd)

def Digits (r : ℕ) (l : List ℕ) : Prop := ∀ c ∈ l, (ucd.digitp c r).isSome

instance (r : ℕ) (l : List ℕ) : Decidable (Digits ucd r l) :=
  inferInstanceAs (Decidable (∀ c ∈ l, (ucd.digitp c r).isSome))

def digitsFrom (r v : ℕ) (ds : List ℕ) : ℕ :=
  ds.foldl (fun v c => v * r + (ucd.digitp c r).getD 0) v

def digitsValue (r : ℕ) (ds : List ℕ) : ℕ := digitsFrom ucd r 0 ds

def Sign (l : List ℕ) : Prop := l = [] ∨ l = [43] ∨ l = [45]

def signOf (s : List ℕ) : ℤ := if s = [45] then -1 else 1

def Exponent (l : List ℕ) : Prop :=
  ∃ e s ds, l = e :: (s ++ ds) ∧ exponentCharp e ∧ Sign s ∧ ds ≠ [] ∧ Digits ucd 10 ds

inductive DecimalBody : List ℕ → Prop
  | dot (int frac exp : List ℕ) (hint : Digits ucd 10 int) (hfrac : Digits ucd 10 frac)
      (hsome : int ++ frac ≠ []) (hexp : exp = [] ∨ Exponent ucd exp) :
      DecimalBody (int ++ 46 :: (frac ++ exp))
  | exponent (int exp : List ℕ) (hint : Digits ucd 10 int) (hsome : int ≠ [])
      (hexp : Exponent ucd exp) : DecimalBody (int ++ exp)

def DecimalSyntax (n : List ℕ) : Prop := ∃ s body, n = s ++ body ∧ Sign s ∧ DecimalBody ucd body

def SlashSyntax (n : List ℕ) : Prop :=
  ∃ s ds, n = s ++ (ds ++ [47]) ∧ Sign s ∧ ds ≠ [] ∧ Digits ucd 10 ds

def IntegerSyntax (r : ℕ) (n : List ℕ) : Prop :=
  ∃ s ds, n = s ++ ds ∧ Sign s ∧ ds ≠ [] ∧ Digits ucd r ds

def RatioSyntax (r : ℕ) (n : List ℕ) : Prop :=
  ∃ s ds den, n = s ++ (ds ++ 47 :: den) ∧ Sign s ∧ ds ≠ [] ∧ Digits ucd r ds ∧ Digits ucd r den

end

variable {ucd : Ucd} {r : ℕ}

theorem digits_cons {c : ℕ} {l : List ℕ} :
    Digits ucd r (c :: l) ↔ (ucd.digitp c r).isSome ∧ Digits ucd r l := by
  simp [Digits]

theorem digits_append {l m : List ℕ} :
    Digits ucd r (l ++ m) ↔ Digits ucd r l ∧ Digits ucd r m := by
  simp [Digits, or_imp, forall_and]

theorem exists_digits (ucd : Ucd) (r : ℕ) (l : List ℕ) :
    ∃ ds t, l = ds ++ t ∧ Digits ucd r ds ∧ ∀ c rest, t = c :: rest → ucd.digitp c r = none := by
  induction l with
  | nil => exact ⟨[], [], rfl, by simp [Digits], by simp⟩
  | cons c l ih =>
    cases hc : ucd.digitp c r with
    | none => exact ⟨[], c :: l, rfl, by simp [Digits], by rintro _ _ ⟨⟩; exact hc⟩
    | some d =>
      obtain ⟨ds, t, rfl, hds, ht⟩ := ih
      exact ⟨c :: ds, t, rfl, digits_cons.mpr ⟨by simp [hc], hds⟩, ht⟩

section
variable (hr : r ≤ 36)
include hr

theorem digitp_sign {c : ℕ} (hc : c = 43 ∨ c = 45) : ucd.digitp c r = none :=
  Ucd.digitp_eq_none hr (by omega) (by omega) (by omega) (by omega)

theorem digitp_dot : ucd.digitp 46 r = none :=
  Ucd.digitp_eq_none hr (by omega) (by omega) (by omega) (by omega)

theorem digitp_slash : ucd.digitp 47 r = none :=
  Ucd.digitp_eq_none hr (by omega) (by omega) (by omega) (by omega)

end

theorem exponentCharp_ascii {c : ℕ} (h : exponentCharp c) : 68 ≤ c ∧ c ≤ 115 ∧ (c ≤ 83 ∨ 97 ≤ c) := by
  simp only [exponentCharp, List.mem_cons, List.not_mem_nil, or_false, decide_eq_true_eq] at h
  omega

theorem digitp_exponent {c : ℕ} (h : exponentCharp c) : ucd.digitp c 10 = none := by
  have := exponentCharp_ascii h
  unfold Ucd.digitp
  rw [if_neg (by omega), if_neg (by omega), if_neg (by omega), if_neg (by omega)]

theorem digitLoop_index (l : List ℕ) (value i : ℕ) :
    (digitLoop ucd r l value i).2 = i + (l.takeWhile fun c => (ucd.digitp c r).isSome).length := by
  induction l generalizing value i with
  | nil => rfl
  | cons c l ih =>
    unfold digitLoop
    cases hc : ucd.digitp c r with
    | none => simp [hc]
    | some d =>
      simp only [hc, List.takeWhile_cons, Option.isSome_some, if_true, List.length_cons]
      rw [ih]
      omega

theorem digitLoop_value {l : List ℕ} (h : Digits ucd r l) (value i : ℕ) :
    (digitLoop ucd r l value i).1 = digitsFrom ucd r value l := by
  induction l generalizing value i with
  | nil => rfl
  | cons c l ih =>
    obtain ⟨hc, hl⟩ := digits_cons.mp h
    obtain ⟨d, hd⟩ := Option.isSome_iff_exists.mp hc
    rw [digitLoop, hd]
    dsimp only
    rw [ih hl, digitsFrom, digitsFrom, List.foldl_cons, hd, Option.getD_some]

theorem digitLoop_all {l : List ℕ} (h : Digits ucd r l) (value i : ℕ) :
    (digitLoop ucd r l value i).2 = i + l.length := by
  rw [digitLoop_index, List.takeWhile_eq_self_iff.mpr h]

theorem digits_of_digitLoop {l : List ℕ} {value i : ℕ}
    (h : i + l.length ≤ (digitLoop ucd r l value i).2) : Digits ucd r l := by
  rw [digitLoop_index] at h
  have hfront := List.takeWhile_prefix (fun c => (ucd.digitp c r).isSome) (l := l)
  exact List.takeWhile_eq_self_iff.mp (hfront.eq_of_length_le (by omega))

theorem integerFrom_digits {ds : List ℕ} (hne : ds ≠ []) (hds : Digits ucd r ds) (sign : ℤ)
    (i : ℕ) :
    integerFrom ucd r sign ds i = (some (sign * digitsValue ucd r ds), i + ds.length) := by
  have hloop := digitLoop_all hds 0 i
  have hpos := List.length_pos_iff.mpr hne
  simp only [integerFrom]
  rw [hloop, if_neg (by omega), digitLoop_value hds, digitsValue]

theorem integerFrom_some {ds : List ℕ} {sign z : ℤ} {i ep : ℕ}
    (h : integerFrom ucd r sign ds i = (some z, ep)) (hep : i + ds.length ≤ ep) :
    ep = i + ds.length ∧ ds ≠ [] ∧ Digits ucd r ds := by
  obtain ⟨hz, rfl⟩ := Prod.mk.inj h
  have hds := digits_of_digitLoop hep
  have hloop := digitLoop_all hds 0 i
  refine ⟨hloop, ?_, hds⟩
  rintro rfl
  rw [if_pos (by rw [hloop]; simp)] at hz
  cases hz

theorem parseInteger_digits (hr : r ≤ 36) {s ds : List ℕ} (hs : Sign s) (hne : ds ≠ [])
    (hds : Digits ucd r ds) (i : ℕ) :
    parseInteger ucd (s ++ ds) i r =
      (some (signOf s * digitsValue ucd r ds), i + (s ++ ds).length) := by
  have h36 : ¬ 36 < r := by omega
  rcases hs with rfl | rfl | rfl
  · obtain ⟨c, rest, rfl⟩ := List.exists_cons_of_ne_nil hne
    have hc : c ≠ 43 ∧ c ≠ 45 := by
      have hsome := (digits_cons.mp hds).1
      constructor <;> rintro rfl <;> simp [digitp_sign hr] at hsome
    simpa [parseInteger, h36, hc.1, hc.2, signOf] using integerFrom_digits hne hds 1 i
  · have hz := integerFrom_digits hne hds 1 (i + 1)
    simp [parseInteger, h36, hz, signOf]
    omega
  · have hz := integerFrom_digits hne hds (-1) (i + 1)
    simp [parseInteger, h36, hz, signOf]
    omega

theorem parseInteger_some {l : List ℕ} {i ep : ℕ} {z : ℤ}
    (h : parseInteger ucd l i r = (some z, ep)) (hep : i + l.length ≤ ep) :
    ep = i + l.length ∧ ∃ s ds, l = s ++ ds ∧ Sign s ∧ ds ≠ [] ∧ Digits ucd r ds := by
  cases l with
  | nil => simp [parseInteger] at h
  | cons c rest =>
    rw [List.length_cons] at hep ⊢
    simp only [parseInteger] at h
    split at h
    · cases h
    · split at h
      · rename_i hc
        obtain ⟨hlen, hne, hds⟩ := integerFrom_some h (by omega)
        exact ⟨by omega, [43], rest, by simp [hc], .inr (.inl rfl), hne, hds⟩
      · split at h
        · rename_i hc
          obtain ⟨hlen, hne, hds⟩ := integerFrom_some h (by omega)
          exact ⟨by omega, [45], rest, by simp [hc], .inr (.inr rfl), hne, hds⟩
        · obtain ⟨hlen, hne, hds⟩ := integerFrom_some h (by simpa using hep)
          exact ⟨by simpa using hlen, [], c :: rest, rfl, .inl rfl, hne, hds⟩

section
variable {str : TokenString} {sign : ℤ}

theorem scan_digitsFrom (str : TokenString) (sign : ℤ) (hr : r ≤ 36) {ds : List ℕ}
    (hds : Digits ucd r ds) (t : List ℕ) (i decimal num : ℕ) (someDigit : Bool) :
    scan ucd str r sign (ds ++ t) i decimal num someDigit =
      scan ucd str r sign t (i + ds.length) decimal (digitsFrom ucd r num ds)
        (someDigit || !ds.isEmpty) := by
  induction ds generalizing i num someDigit with
  | nil => simp [digitsFrom]
  | cons c ds ih =>
    obtain ⟨hc, hds⟩ := digits_cons.mp hds
    obtain ⟨d, hd⟩ := Option.isSome_iff_exists.mp hc
    have hslash : c ≠ 47 := by
      rintro rfl
      simp [digitp_slash hr] at hd
    have hdot : c ≠ 46 := by
      rintro rfl
      simp [digitp_dot hr] at hd
    have hfrom : digitsFrom ucd r num (c :: ds) = digitsFrom ucd r (num * r + d) ds := by
      rw [digitsFrom, digitsFrom, List.foldl_cons, hd, Option.getD_some]
    rw [List.cons_append, scan, if_neg hslash, if_neg hdot, hd, hfrom]
    simp only [ih hds, List.length_cons, List.isEmpty_cons, Bool.not_false, Bool.or_true,
      Bool.true_or]
    rw [Nat.add_assoc, Nat.add_comm 1]

theorem scan_digits (str : TokenString) (sign : ℤ) (hr : r ≤ 36) {ds : List ℕ}
    (hds : Digits ucd r ds) (t : List ℕ) (i decimal num : ℕ) (someDigit : Bool) : ∃ num',
    scan ucd str r sign (ds ++ t) i decimal num someDigit =
      scan ucd str r sign t (i + ds.length) decimal num' (someDigit || !ds.isEmpty) :=
  ⟨_, scan_digitsFrom str sign hr hds t i decimal num someDigit⟩

theorem seen_iff {someDigit : Bool} {l : List ℕ} :
    (someDigit || !l.isEmpty) = true ↔ someDigit = true ∨ l ≠ [] := by
  cases l <;> simp

def IsFloat (q : Number) : Prop := ∃ num exp marker sign, q = .float num exp marker sign

theorem scan_exponent {e : ℕ} {rest : List ℕ} {i decimal num ep : ℕ} {someDigit : Bool} {x : Parsed}
    (he : exponentCharp e) (hi : i + (e :: rest).length = str.chars.length)
    (h : scan ucd str 10 sign (e :: rest) i decimal num someDigit = .done x ep) (hx : x ≠ .objnull) :
    ep = str.chars.length ∧ someDigit ∧ Exponent ucd (e :: rest) ∧ ∃ q, x = .number q ∧ IsFloat q := by
  have hascii := exponentCharp_ascii he
  rw [List.length_cons] at hi
  rw [scan, if_neg (by omega), if_neg (by omega), digitp_exponent he] at h
  simp only [he, if_true, ne_eq, not_true, if_false] at h
  split at h
  · simp only [Pass.done.injEq] at h
    exact absurd h.1.symm hx
  · rename_i hsome
    split at h
    · simp only [Pass.done.injEq] at h
      exact absurd h.1.symm hx
    · rename_i z ep' heq
      split at h
      · simp only [Pass.done.injEq] at h
        exact absurd h.1.symm hx
      · simp only [Pass.done.injEq] at h
        obtain ⟨hend, s, ds, hrest, hs, hne, hds⟩ := parseInteger_some heq (by omega)
        exact ⟨by omega, by simpa using hsome, ⟨e, s, ds, by rw [hrest], he, hs, hne, hds⟩,
          _, h.1.symm, _, _, _, _, rfl⟩

theorem scan_exponent_of (str : TokenString) (sign : ℤ) {exp : List ℕ} (h : Exponent ucd exp) {i : ℕ} (decimal num : ℕ)
    (hi : i + exp.length = str.chars.length) :
    ∃ q, scan ucd str 10 sign exp i decimal num true = .done (.number q) str.chars.length ∧
      IsFloat q := by
  obtain ⟨e, s, ds, rfl, he, hs, hne, hds⟩ := h
  have hascii := exponentCharp_ascii he
  have hz := parseInteger_digits (r := 10) (by omega) hs hne hds (i + 1)
  rw [List.length_cons] at hi
  rw [scan, if_neg (by omega), if_neg (by omega), digitp_exponent he]
  simp only [he, if_true, ne_eq, not_true, if_false, Bool.not_true, Bool.false_eq_true, hz]
  rw [if_neg (by omega), show i + 1 + (s ++ ds).length = str.chars.length by omega]
  exact ⟨_, rfl, _, _, _, _, rfl⟩

theorem scan_fraction {l : List ℕ} {i decimal num ep : ℕ} {someDigit : Bool} {x : Parsed}
    (hi : i + l.length = str.chars.length) (hdec : decimal ≤ i)
    (h : scan ucd str 10 sign l i decimal num someDigit = .done x ep) (hx : x ≠ .objnull) :
    ep = str.chars.length ∧ ∃ frac exp, l = frac ++ exp ∧ Digits ucd 10 frac ∧
      (someDigit ∨ frac ≠ []) ∧ (exp = [] ∨ Exponent ucd exp) ∧
      ∃ q, x = .number q ∧ (IsFloat q ∨ (∃ z, q = .integer z) ∧ decimal = str.chars.length) := by
  obtain ⟨frac, t, rfl, hfrac, ht⟩ := exists_digits ucd 10 l
  obtain ⟨num', hscan⟩ := scan_digits str sign (by omega) hfrac t i decimal num
    someDigit
  rw [hscan] at h
  rw [List.length_append] at hi
  cases t with
  | nil =>
    rw [List.length_nil] at hi
    rw [scan] at h
    split at h
    · simp only [Pass.done.injEq] at h
      exact absurd h.1.symm hx
    · rename_i hsome
      have hsome := seen_iff.mp (by simpa only [Bool.not_eq_true', Bool.not_eq_false] using hsome)
      split at h
      · simp only [Pass.done.injEq] at h
        exact ⟨by omega, frac, [], rfl, hfrac, hsome, .inl rfl, _, h.1.symm,
          .inl ⟨_, _, _, _, rfl⟩⟩
      · simp only [Pass.done.injEq] at h
        exact ⟨by omega, frac, [], rfl, hfrac, hsome, .inl rfl, _, h.1.symm,
          .inr ⟨⟨_, rfl⟩, by omega⟩⟩
  | cons c rest =>
    rw [List.length_cons] at hi
    by_cases he : exponentCharp c
    · obtain ⟨hep, hsome, hexp, q, hq, hfloat⟩ := scan_exponent he (by
        rw [List.length_cons]; omega) h hx
      exact ⟨hep, frac, c :: rest, rfl, hfrac, seen_iff.mp hsome, .inr hexp, q, hq, .inl hfloat⟩
    · exfalso
      rw [scan, ht c rest rfl] at h
      simp only [he, ne_eq, not_true, if_false, Bool.false_eq_true] at h
      split at h
      · rw [if_pos (by omega)] at h
        simp only [Pass.done.injEq] at h
        exact hx h.1.symm
      · split at h
        · rw [if_pos (by omega)] at h
          simp only [Pass.done.injEq] at h
          exact hx h.1.symm
        · simp only [Pass.done.injEq] at h
          exact hx h.1.symm

theorem scan_fraction_of (str : TokenString) (sign : ℤ) {frac exp : List ℕ} {i decimal : ℕ}
    {someDigit : Bool} (num : ℕ)
    (hfrac : Digits ucd 10 frac) (hsome : someDigit ∨ frac ≠ []) (hexp : exp = [] ∨ Exponent ucd exp)
    (hi : i + (frac ++ exp).length = str.chars.length) (hdec : decimal ≤ i) :
    ∃ q, scan ucd str 10 sign (frac ++ exp) i decimal num someDigit =
        .done (.number q) str.chars.length ∧
      (IsFloat q ∨ (∃ z, q = .integer z) ∧ frac ++ exp = []) := by
  obtain ⟨num', hscan⟩ := scan_digits str sign (by omega) hfrac exp i decimal num
    someDigit
  rw [hscan, seen_iff.mpr hsome]
  rw [List.length_append] at hi
  rcases hexp with rfl | hexp
  · rw [List.length_nil] at hi
    simp only [scan, Bool.not_true, Bool.false_eq_true, if_false]
    split
    · exact ⟨_, by rw [show i + frac.length = str.chars.length by omega], .inl ⟨_, _, _, _, rfl⟩⟩
    · refine ⟨_, by rw [show i + frac.length = str.chars.length by omega], .inr ⟨⟨_, rfl⟩, ?_⟩⟩
      rw [List.append_nil, ← List.length_eq_zero_iff]
      omega
  · obtain ⟨q, hq, hfloat⟩ := scan_exponent_of str sign hexp (i := i + frac.length) decimal
      num' (by omega)
    exact ⟨q, hq, .inl hfloat⟩

inductive Reading (ucd : Ucd) (str : TokenString) (l : List ℕ) : Parsed → Prop
  | integer (z : ℤ) (hne : l ≠ []) (hl : Digits ucd 10 l) : Reading ucd str l (.number (.integer z))
  | ratio (ds den : List ℕ) (x : Parsed) (hl : l = ds ++ 47 :: den) (hne : ds ≠ [])
      (hds : Digits ucd 10 ds) (hden : den ≠ []) (hdigits : Digits ucd 10 den)
      (hx : x = .nil ∨ ∃ num d, x = .number (makeRatio num d)) : Reading ucd str l x
  | slash (ds : List ℕ) (hl : l = ds ++ [47]) (hne : ds ≠ []) (hds : Digits ucd 10 ds)
      (hdim : str.dim ≤ str.chars.length) : Reading ucd str l .indexError
  | decimal (q : Number) (hl : DecimalBody ucd l)
      (hq : IsFloat q ∨ (∃ z, q = .integer z) ∧ l.getLast? = some 46) :
      Reading ucd str l (.number q)

theorem scan_slash {rest : List ℕ} {i num ep : ℕ} {someDigit : Bool} {x : Parsed}
    (hr : r ≤ 36) (hi : i + (47 :: rest).length = str.chars.length)
    (h : scan ucd str r sign (47 :: rest) i str.chars.length num someDigit = .done x ep)
    (hx : x ≠ .objnull) :
    rest = [] ∧ x = .indexError ∧ str.dim ≤ str.chars.length ∨
      rest ≠ [] ∧ Digits ucd r rest ∧ ep = str.chars.length ∧
        (x = .nil ∨ ∃ num d, x = .number (makeRatio num d)) := by
  rw [List.length_cons] at hi
  rw [scan, if_pos rfl, if_neg (by omega)] at h
  split at h
  · rename_i hchar
    simp only [Pass.done.injEq] at h
    cases rest with
    | nil =>
      simp only [TokenString.charAt, ite_eq_right_iff, reduceCtorEq, imp_false, not_lt] at hchar
      exact .inl ⟨rfl, h.1.symm, by simp at hi; omega⟩
    | cons c rest => simp [TokenString.charAt] at hchar
  · rename_i c hchar
    split at h
    · simp only [Pass.done.injEq] at h
      exact absurd h.1.symm hx
    · rename_i hdigit
      split at h
      · simp only [Pass.done.injEq] at h
        exact absurd h.1.symm hx
      · rename_i den ep' heq
        split at h
        · simp only [Pass.done.injEq] at h
          exact absurd h.1.symm hx
        · obtain ⟨hend, s, ds, hrest, hs, hne, hds⟩ := parseInteger_some heq (by omega)
          have hsign : s = [] := by
            -- the next character is known to be a digit
            rcases hs with rfl | rfl | rfl
            · rfl
            all_goals
              subst hrest
              simp only [List.cons_append, TokenString.charAt, Option.some.injEq] at hchar
              subst hchar
              exact absurd (digitp_sign hr (by simp)) hdigit
          subst hsign
          subst hrest
          refine .inr ⟨by simpa using hne, by simpa using hds, ?_, ?_⟩
          · split at h
            all_goals
              simp only [Pass.done.injEq] at h
              omega
          · split at h
            all_goals simp only [Pass.done.injEq] at h
            · exact .inl h.1.symm
            · exact .inr ⟨_, _, h.1.symm⟩

theorem afterSign_sound {l : List ℕ} {i ep : ℕ} {x : Parsed}
    (hi : i + l.length = str.chars.length)
    (h : afterSign ucd str 10 false sign l i = .done x ep) (hx : x ≠ .objnull) :
    (ep = str.chars.length ∨ x = .indexError) ∧ Reading ucd str l x := by
  cases l with
  | nil =>
    simp only [afterSign, Pass.done.injEq] at h
    exact absurd h.1.symm hx
  | cons first others =>
    rw [afterSign] at h
    split at h
    · simp only [Pass.done.injEq] at h
      exact absurd h.1.symm hx
    · rename_i hfirst
      obtain ⟨ds, t, hl, hds, ht⟩ := exists_digits ucd 10 (first :: others)
      obtain ⟨num', hscan⟩ := scan_digits str sign (by omega) hds t i
        str.chars.length 0 false
      rw [hl] at h hi ⊢
      rw [hscan] at h
      rw [List.length_append] at hi
      cases t with
      | nil =>
        rw [List.length_nil] at hi
        rw [scan, if_neg (show ¬ str.chars.length < i + ds.length by omega)] at h
        split at h
        · simp only [Pass.done.injEq] at h
          exact absurd h.1.symm hx
        · rename_i hsome
          simp only [Pass.done.injEq] at h
          obtain ⟨rfl, rfl⟩ := h
          rw [List.append_nil]
          refine ⟨.inl (by omega), .integer _ ?_ hds⟩
          simpa using hsome
      | cons c rest =>
        rw [List.length_cons] at hi
        have hne_of_slash : c = 47 → ds ≠ [] := by
          rintro rfl rfl
          rw [List.nil_append, List.cons.injEq] at hl
          exact hfirst hl.1
        by_cases he : exponentCharp c
        · obtain ⟨hep, hsome, hexp, q, rfl, hfloat⟩ := scan_exponent he (by
            rw [List.length_cons]; omega) h hx
          exact ⟨.inl hep, .decimal q (.exponent ds _ hds (by simpa using hsome) hexp) (.inl hfloat)⟩
        · by_cases hslash : c = 47
          · subst hslash
            rcases scan_slash (by omega) (by rw [List.length_cons]; omega) h hx with
              ⟨rfl, rfl, hdim⟩ | ⟨hne, hden, hep, hq⟩
            · exact ⟨.inr rfl, .slash ds rfl (hne_of_slash rfl) hds hdim⟩
            · exact ⟨.inl hep, .ratio ds rest x rfl (hne_of_slash rfl) hds hne hden hq⟩
          · by_cases hdot : c = 46
            · subst hdot
              rw [scan, if_neg (by omega), if_pos rfl, if_neg (by omega)] at h
              simp only [ne_eq, not_true, if_false] at h
              obtain ⟨hep, frac, exp, rfl, hfrac, hsome, hexp, q, rfl, hq⟩ :=
                scan_fraction (by omega) (by omega) h hx
              refine ⟨.inl hep, .decimal q (.dot ds frac exp hds hfrac ?_ hexp) ?_⟩
              · rcases hsome with hsome | hsome
                · rw [Bool.false_or, Bool.not_eq_true', List.isEmpty_eq_false_iff] at hsome
                  simp [hsome]
                · simp [hsome]
              · refine hq.imp (fun hfloat => hfloat) fun hint => ⟨hint.1, ?_⟩
                have hnil : frac ++ exp = [] := List.length_eq_zero_iff.mp (by omega)
                rw [hnil]
                simp
            · exfalso
              rw [scan, if_neg hslash, if_neg hdot, ht c rest rfl] at h
              simp only [he, ne_eq, not_true, if_false, Bool.false_eq_true, Pass.done.injEq] at h
              exact hx h.1.symm

end

end NumberSyntax
