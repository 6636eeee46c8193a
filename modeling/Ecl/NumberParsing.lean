import Ecl.NumberSyntax

/-! The result of ecl_parse_number for every radix, by the syntax of the token. -/
namespace NumberParsing

open Characters NumberReader NumberSyntax

variable {ucd : Ucd} {str : TokenString} {r : ℕ}

theorem decimalBody_head {l : List ℕ} (h : DecimalBody ucd l) :
    ∃ c rest, l = c :: rest ∧ (c = 46 ∨ (ucd.digitp c 10).isSome) := by
  cases h with
  | dot int frac exp hint hfrac hsome hexp =>
    cases int with
    | nil => exact ⟨46, _, rfl, .inl rfl⟩
    | cons c int => exact ⟨c, _, rfl, .inr (digits_cons.mp hint).1⟩
  | exponent int exp hint hsome hexp =>
    obtain ⟨c, int, rfl⟩ := List.exists_cons_of_ne_nil hsome
    exact ⟨c, _, rfl, .inr (digits_cons.mp hint).1⟩

theorem decimalBody_no_slash {l : List ℕ} (h : DecimalBody ucd l) : 47 ∉ l := by
  have hdigits : ∀ ds, Digits ucd 10 ds → 47 ∉ ds := by
    intro ds hds hmem
    simpa [digitp_slash] using hds 47 hmem
  have hexponent : ∀ exp, Exponent ucd exp → 47 ∉ exp := by
    rintro exp ⟨e, s, ds, rfl, he, hs, -, hds⟩ hmem
    rcases List.mem_cons.mp hmem with rfl | hmem
    · simp [exponentCharp] at he
    · rcases List.mem_append.mp hmem with hmem | hmem
      · rcases hs with rfl | rfl | rfl <;> simp at hmem
      · exact hdigits ds hds hmem
  cases h with
  | dot int frac exp hint hfrac hsome hexp =>
    simp only [List.mem_append, List.mem_cons, not_or]
    refine ⟨hdigits _ hint, by omega, hdigits _ hfrac, ?_⟩
    rcases hexp with rfl | hexp
    · simp
    · exact hexponent exp hexp
  | exponent int exp hint hsome hexp =>
    simp only [List.mem_append, not_or]
    exact ⟨hdigits _ hint, hexponent exp hexp⟩

theorem mark_not_digit {c : ℕ} (h : c = 46 ∨ exponentCharp c) : ucd.digitp c 10 = none := by
  rcases h with rfl | h
  · exact digitp_dot (by omega)
  · exact digitp_exponent h

theorem afterSign_decimal (str : TokenString) (sign : ℤ) {l : List ℕ} {i : ℕ} (h : DecimalBody ucd l)
    (hi : i + l.length = str.chars.length) :
    ∃ q, afterSign ucd str 10 false sign l i = .done (.number q) str.chars.length ∧
      (IsFloat q ∨ (∃ z, q = .integer z) ∧ l.getLast? = some 46) := by
  have hscan : afterSign ucd str 10 false sign l i =
      scan ucd str 10 sign l i str.chars.length 0 false := by
    obtain ⟨c, rest, rfl, hc⟩ := decimalBody_head h
    rw [afterSign, if_neg]
    rintro rfl
    simp [digitp_slash] at hc
  rw [hscan]
  cases h with
  | dot int frac exp hint hfrac hsome hexp =>
    obtain ⟨num', hnum⟩ := scan_digits str sign (by omega) hint
      (46 :: (frac ++ exp)) i str.chars.length 0 false
    rw [List.length_append, List.length_cons] at hi
    rw [hnum, scan, if_neg (by omega), if_pos rfl, if_neg (by omega)]
    simp only [ne_eq, not_true, if_false]
    have hseen : (false || !int.isEmpty) = true ∨ frac ≠ [] := by
      cases int with
      | nil => exact .inr hsome
      | cons c int => exact .inl rfl
    obtain ⟨q, hq, hvalue⟩ := scan_fraction_of str sign (i := i + int.length + 1) num' hfrac
      hseen hexp (by omega) le_rfl
    refine ⟨q, hq, hvalue.imp (fun hfloat => hfloat) fun hint => ⟨hint.1, ?_⟩⟩
    rw [hint.2]
    simp
  | exponent int exp hint hsome hexp =>
    obtain ⟨num', hnum⟩ := scan_digits str sign (by omega) hint
      exp i str.chars.length 0 false
    rw [List.length_append] at hi
    rw [hnum, seen_iff.mpr (.inr hsome)]
    obtain ⟨q, hq, hfloat⟩ := scan_exponent_of str sign hexp
      (i := i + int.length) str.chars.length num' (by omega)
    exact ⟨q, hq, .inl hfloat⟩

theorem afterSign_slash (str : TokenString) (sign : ℤ) {ds : List ℕ} {i : ℕ} (hne : ds ≠ []) (hds : Digits ucd 10 ds)
    (hi : i + (ds ++ [47]).length = str.chars.length) (hdim : str.dim ≤ str.chars.length) :
    ∃ ep, afterSign ucd str 10 false sign (ds ++ [47]) i = .done .indexError ep := by
  obtain ⟨num', hnum⟩ := scan_digits str sign (by omega) hds
    [47] i str.chars.length 0 false
  obtain ⟨c, rest, rfl⟩ := List.exists_cons_of_ne_nil hne
  have hc : c ≠ 47 := by
    rintro rfl
    simpa [digitp_slash] using (digits_cons.mp hds).1
  rw [List.length_append, List.length_singleton] at hi
  rw [List.cons_append] at hnum ⊢
  rw [afterSign, if_neg hc, hnum, scan, if_pos rfl, if_neg (by omega), TokenString.charAt,
    if_neg (by omega)]
  exact ⟨_, rfl⟩

structure Split (n s l : List ℕ) : Prop where
  text : n = s ++ l
  sign : Sign s
  head : s = [] → ∀ c rest, l = c :: rest → c ≠ 43 ∧ c ≠ 45

theorem exists_split (n : List ℕ) : ∃ s l, Split n s l := by
  cases n with
  | nil => exact ⟨[], [], rfl, .inl rfl, by simp⟩
  | cons c rest =>
    by_cases hplus : c = 43
    · exact ⟨[43], rest, by rw [hplus]; rfl, .inr (.inl rfl), by simp⟩
    · by_cases hminus : c = 45
      · exact ⟨[45], rest, by rw [hminus]; rfl, .inr (.inr rfl), by simp⟩
      · refine ⟨[], c :: rest, rfl, .inl rfl, ?_⟩
        rintro - c' rest' heq
        cases heq
        exact ⟨hplus, hminus⟩

theorem Split.unique {n s l s' l' : List ℕ} (h : Split n s l) (h' : Split n s' l') :
    s = s' ∧ l = l' := by
  obtain ⟨htext, hsign, hhead⟩ := h
  obtain ⟨htext', hsign', hhead'⟩ := h'
  subst htext
  rcases hsign with rfl | rfl | rfl
  · rcases hsign' with rfl | rfl | rfl
    · exact ⟨rfl, htext'⟩
    · exact absurd rfl (hhead rfl 43 l' htext').1
    · exact absurd rfl (hhead rfl 45 l' htext').2
  · rcases hsign' with rfl | rfl | rfl
    · exact absurd rfl (hhead' rfl 43 l htext'.symm).1
    · exact ⟨rfl, (List.cons.inj htext').2⟩
    · simp at htext'
  · rcases hsign' with rfl | rfl | rfl
    · exact absurd rfl (hhead' rfl 45 l htext'.symm).2
    · simp at htext'
    · exact ⟨rfl, (List.cons.inj htext').2⟩

theorem pass_signOf (ucd : Ucd) (hne : str.chars ≠ []) {s l : List ℕ} (h : Split str.chars s l)
    (r : ℕ) (someDigit : Bool) :
    readPass ucd str r someDigit = afterSign ucd str r someDigit (signOf s) l s.length := by
  obtain ⟨htext, hsign, hhead⟩ := h
  rcases hsign with rfl | rfl | rfl
  · rw [List.nil_append] at htext
    obtain ⟨c, rest, rfl⟩ := List.exists_cons_of_ne_nil (htext ▸ hne)
    obtain ⟨hplus, hminus⟩ := hhead rfl c rest rfl
    simp [readPass, htext, hplus, hminus, signOf]
  · simp [readPass, htext, signOf]
  · simp [readPass, htext, signOf]

theorem pass_eq (ucd : Ucd) (hne : str.chars ≠ []) {s l : List ℕ} (h : Split str.chars s l) :
    ∃ sign, ∀ r someDigit,
      readPass ucd str r someDigit = afterSign ucd str r someDigit sign l s.length :=
  ⟨signOf s, pass_signOf ucd hne h⟩

theorem scan_ten (sign : ℤ) (l : List ℕ) : ∀ i decimal num someDigit,
    ∃ x ep, scan ucd str 10 sign l i decimal num someDigit = .done x ep := by
  induction l with
  | nil =>
    intro i decimal num someDigit
    rw [scan]
    split
    · exact ⟨_, _, rfl⟩
    · split <;> exact ⟨_, _, rfl⟩
  | cons c rest ih =>
    intro i decimal num someDigit
    rw [scan]
    simp only [ne_eq, not_true, if_false]
    split
    · repeat' split
      all_goals exact ⟨_, _, rfl⟩
    · split
      · split
        · exact ⟨_, _, rfl⟩
        · exact ih _ _ _ _
      · split
        · exact ih _ _ _ _
        · repeat' split
          all_goals exact ⟨_, _, rfl⟩

theorem pass_ten (ucd : Ucd) (str : TokenString) (someDigit : Bool) : ∃ x ep, readPass ucd str 10 someDigit = .done x ep := by
  by_cases hne : str.chars = []
  · exact ⟨.objnull, 0, by simp [readPass, hne]⟩
  · obtain ⟨s, l, hsplit⟩ := exists_split str.chars
    obtain ⟨sign, hpass⟩ := pass_eq ucd hne hsplit
    rw [hpass]
    cases l with
    | nil => exact ⟨_, _, rfl⟩
    | cons c rest =>
      rw [afterSign]
      split
      · exact ⟨_, _, rfl⟩
      · exact scan_ten _ _ _ _ _ _

theorem decimalPass_eq {someDigit : Bool} {x : Parsed} {ep : ℕ}
    (h : readPass ucd str 10 someDigit = .done x ep) : decimalPass ucd str someDigit = (x, ep) := by
  rw [decimalPass, h]

inductive RadixPass (ucd : Ucd) (r : ℕ) (l : List ℕ) : Pass → Prop
  | noDigit (i : ℕ) (hl : l = [] ∨ ∃ e rest, l = e :: rest ∧ exponentCharp e) :
      RadixPass ucd r l (.done .objnull i)
  | digits (x : Parsed) (ep : ℕ) (hne : l ≠ []) (hl : Digits ucd r l) :
      RadixPass ucd r l (.done x ep)
  | slash (ds den : List ℕ) (x : Parsed) (ep : ℕ) (hl : l = ds ++ 47 :: den)
      (hds : Digits ucd r ds) (hx : x ≠ .objnull → ds ≠ [] ∧ Digits ucd r den) :
      RadixPass ucd r l (.done x ep)
  | mark (ds : List ℕ) (t : ℕ) (rest : List ℕ) (hl : l = ds ++ t :: rest)
      (hds : Digits ucd r ds) (ht : t = 46 ∨ exponentCharp t) :
      RadixPass ucd r l (.again (!ds.isEmpty))
  | other : RadixPass ucd r l .tryDecimal

theorem afterSign_radix (ucd : Ucd) (str : TokenString) (hr : r ≤ 36) (hten : r ≠ 10) (sign : ℤ) {l : List ℕ} {i : ℕ}
    (hi : i + l.length = str.chars.length) :
    RadixPass ucd r l (afterSign ucd str r false sign l i) := by
  cases l with
  | nil => exact .noDigit i (.inl rfl)
  | cons first others =>
    rw [afterSign]
    split
    · rename_i hfirst
      exact .slash [] others _ _ (by rw [hfirst]; rfl) (by simp [Digits]) (by simp)
    · rename_i hfirst
      obtain ⟨ds, t, hl, hds, ht⟩ := exists_digits ucd r (first :: others)
      obtain ⟨num', hnum⟩ := scan_digits str sign hr hds t i
        str.chars.length 0 false
      rw [hl] at hi ⊢
      rw [hnum, Bool.false_or]
      rw [List.length_append] at hi
      cases t with
      | nil =>
        have hne : ds ++ [] ≠ [] := hl ▸ List.cons_ne_nil first others
        rw [scan]
        split
        · exact .digits _ _ hne (by simpa using hds)
        · split
          all_goals exact .digits _ _ hne (by simpa using hds)
      | cons c rest =>
        rw [List.length_cons] at hi
        by_cases hslash : c = 47
        · subst hslash
          have hne : ds ≠ [] := by
            rintro rfl
            exact hfirst (List.cons.inj hl).1
          obtain ⟨x, ep, hx⟩ : ∃ x ep, scan ucd str r sign (47 :: rest) (i + ds.length)
              str.chars.length num' (!ds.isEmpty) = .done x ep := by
            rw [scan, if_pos rfl]
            repeat' split
            all_goals exact ⟨_, _, rfl⟩
          rw [hx]
          refine .slash ds rest x ep rfl hds fun hobj => ⟨hne, ?_⟩
          rcases scan_slash hr (by rw [List.length_cons]; omega) hx hobj with
            ⟨rfl, -⟩ | ⟨-, hden, -⟩
          · simp [Digits]
          · exact hden
        · by_cases hdot : c = 46
          · subst hdot
            rw [scan, if_neg (by omega), if_pos rfl, if_neg (by omega), if_pos hten]
            exact .mark ds 46 rest rfl hds (.inl rfl)
          · rw [scan, if_neg hslash, if_neg hdot, ht c rest rfl]
            dsimp only
            split
            · rename_i he
              split
              · rename_i hnone
                have hnil : ds = [] := by simpa using hnone
                subst hnil
                exact .noDigit _ (.inr ⟨c, rest, rfl, he⟩)
              · exact .mark ds c rest rfl hds (.inr he)
            · exact .other

/-- Going back to the start keeps the note that a digit was seen. It makes no difference. -/
theorem decimalPass_again (hr : r ≤ 36) {s l ds rest : List ℕ} {t : ℕ}
    (hsplit : Split str.chars s l) (hl : l = ds ++ t :: rest) (hds : Digits ucd r ds)
    (ht : t = 46 ∨ exponentCharp t) :
    decimalPass ucd str (!ds.isEmpty) = decimalPass ucd str false ∨
      (decimalPass ucd str (!ds.isEmpty)).1 = .objnull ∧
        (decimalPass ucd str false).1 = .objnull := by
  cases ds with
  | nil => exact .inl rfl
  | cons c ds =>
    obtain ⟨hc, -⟩ := digits_cons.mp hds
    have hslash : c ≠ 47 := by
      rintro rfl
      simp [digitp_slash hr] at hc
    have hdot : c ≠ 46 := by
      rintro rfl
      simp [digitp_dot hr] at hc
    have hlen : str.chars.length = s.length + (c :: (ds ++ t :: rest)).length := by
      rw [hsplit.text, List.length_append, hl, List.cons_append]
    obtain ⟨sign, hpass⟩ := pass_eq ucd (by rw [hsplit.text, hl]; simp) hsplit
    have hscan : ∀ someDigit, readPass ucd str 10 someDigit = scan ucd str 10 sign
        (c :: (ds ++ t :: rest)) s.length str.chars.length 0 someDigit := by
      intro someDigit
      rw [hpass, hl, List.cons_append, afterSign, if_neg hslash]
    rw [List.isEmpty_cons, Bool.not_false]
    cases hdigit : ucd.digitp c 10 with
    | some d =>
      refine .inl ?_
      have heq : readPass ucd str 10 true = readPass ucd str 10 false := by
        rw [hscan, hscan, scan, scan, if_neg hslash, if_neg hslash, if_neg hdot, if_neg hdot,
          hdigit]
      rw [decimalPass, decimalPass, heq]
    | none =>
      refine .inr ?_
      by_cases he : exponentCharp c
      · have hfalse : readPass ucd str 10 false = .done .objnull s.length := by
          rw [hscan, scan, if_neg hslash, if_neg hdot, hdigit]
          simp [he]
        obtain ⟨x, ep, hx⟩ := pass_ten ucd str true
        rw [decimalPass_eq hfalse, decimalPass_eq hx]
        refine ⟨?_, rfl⟩
        by_contra hobj
        rw [hscan] at hx
        -- the mark would be in the exponent
        obtain ⟨-, -, ⟨e, s', ds', heq, -, hs', -, hds'⟩, -⟩ := scan_exponent he hlen.symm hx hobj
        have hmem : t ∈ s' ++ ds' := by
          rw [← (List.cons.inj heq).2]
          simp
        rcases List.mem_append.mp hmem with hmem | hmem
        · have hsign : t = 43 ∨ t = 45 := by
            rcases hs' with rfl | rfl | rfl <;> simp_all
          rcases ht with rfl | ht
          · omega
          · have := exponentCharp_ascii ht
            omega
        · simpa [mark_not_digit ht] using hds' t hmem
      · have hnone : ∀ someDigit, readPass ucd str 10 someDigit = .done .objnull s.length := by
          intro someDigit
          rw [hscan, scan, if_neg hslash, if_neg hdot, hdigit]
          simp [he]
        rw [decimalPass_eq (hnone true), decimalPass_eq (hnone false)]
        exact ⟨rfl, rfl⟩

section
variable {s l : List ℕ}

theorem split_decimal {n : List ℕ} (htext : n = s ++ l) (hs : Sign s) (hbody : DecimalBody ucd l) :
    Split n s l := by
  refine ⟨htext, hs, fun _ c rest hcons => ?_⟩
  obtain ⟨c', rest', rfl, hc⟩ := decimalBody_head hbody
  cases hcons
  constructor <;> rintro rfl <;> simp [digitp_sign] at hc

theorem decimalSyntax_iff (h : Split str.chars s l) :
    DecimalSyntax ucd str.chars ↔ DecimalBody ucd l := by
  constructor
  · rintro ⟨s', l', htext, hs, hbody⟩
    obtain ⟨-, rfl⟩ := h.unique (split_decimal htext hs hbody)
    exact hbody
  · exact fun hbody => ⟨s, l, h.text, h.sign, hbody⟩

theorem slashSyntax_iff (h : Split str.chars s l) :
    SlashSyntax ucd str.chars ↔ ∃ ds, l = ds ++ [47] ∧ ds ≠ [] ∧ Digits ucd 10 ds := by
  constructor
  · rintro ⟨s', ds, htext, hs, hne, hds⟩
    have hsplit : Split str.chars s' (ds ++ [47]) := by
      refine ⟨htext, hs, fun _ c rest hcons => ?_⟩
      obtain ⟨c', rest', rfl⟩ := List.exists_cons_of_ne_nil hne
      cases hcons
      have hc := (digits_cons.mp hds).1
      constructor <;> rintro rfl <;> simp [digitp_sign] at hc
    exact ⟨ds, (h.unique hsplit).2, hne, hds⟩
  · rintro ⟨ds, rfl, hne, hds⟩
    exact ⟨s, ds, h.text, h.sign, hne, hds⟩

theorem decimalPass_sound (hne : str.chars ≠ []) (h : Split str.chars s l) {x : Parsed} {ep : ℕ}
    (hx : decimalPass ucd str false = (x, ep)) (hobj : x ≠ .objnull) :
    (ep = str.chars.length ∨ x = .indexError) ∧ Reading ucd str l x := by
  obtain ⟨sign, hpass⟩ := pass_eq ucd hne h
  obtain ⟨x', ep', hdone⟩ := pass_ten ucd str false
  have heq := decimalPass_eq hdone
  rw [hx] at heq
  cases heq
  rw [hpass] at hdone
  exact afterSign_sound (by rw [h.text, List.length_append]) hdone hobj

theorem decimalPass_decimal (hne : str.chars ≠ []) (h : Split str.chars s l)
    (hbody : DecimalBody ucd l) :
    ∃ q, decimalPass ucd str false = (.number q, str.chars.length) ∧
      (IsFloat q ∨ (∃ z, q = .integer z) ∧ l.getLast? = some 46) := by
  obtain ⟨sign, hpass⟩ := pass_eq ucd hne h
  obtain ⟨q, hq, hvalue⟩ := afterSign_decimal str sign (i := s.length) hbody
    (by rw [h.text, List.length_append])
  exact ⟨q, decimalPass_eq (by rw [hpass, hq]), hvalue⟩

theorem decimalPass_slash (hne : str.chars ≠ []) {ds : List ℕ} (h : Split str.chars s (ds ++ [47]))
    (hds : Digits ucd 10 ds) (hnil : ds ≠ []) (hdim : str.dim ≤ str.chars.length) :
    (decimalPass ucd str false).1 = .indexError := by
  obtain ⟨sign, hpass⟩ := pass_eq ucd hne h
  obtain ⟨ep, hep⟩ := afterSign_slash str sign (i := s.length) hnil hds
    (by rw [h.text]; simp) hdim
  rw [decimalPass_eq (by rw [hpass, hep])]

theorem getLast_digits {ds : List ℕ} (hds : Digits ucd 10 ds) (l : List ℕ) (hne : ds ≠ []) :
    (l ++ ds).getLast? ≠ some 46 := by
  rw [List.getLast?_append_of_ne_nil _ hne]
  intro hlast
  simpa [digitp_dot] using hds 46 (List.mem_of_getLast? hlast)

end

structure Outcome (ucd : Ucd) (str : TokenString) (res : Parsed × ℕ) : Prop where
  number : ∀ q, res.1 = .number q → res.2 = str.chars.length ∧ DecimalSyntax ucd str.chars
  decimal : DecimalSyntax ucd str.chars → ∃ q, res = (.number q, str.chars.length)
  nil : res.1 ≠ .nil
  index : res.1 = .indexError ↔ SlashSyntax ucd str.chars ∧ str.dim ≤ str.chars.length

section
variable {s l : List ℕ} (hne : str.chars ≠ []) (hsplit : Split str.chars s l)
include hne hsplit

/-- A decimal reading, when the token is no decimal integer or ratio either. -/
theorem decimalPass_outcome (hint : ¬ IntegerSyntax ucd 10 str.chars)
    (hratio : ¬ RatioSyntax ucd 10 str.chars) : Outcome ucd str (decimalPass ucd str false) := by
  have hnoslash : ¬ SlashSyntax ucd str.chars := by
    rintro ⟨s', ds, htext, hs, hds, hdigits⟩
    exact hratio ⟨s', ds, [], htext, hs, hds, hdigits, by simp [Digits]⟩
  have hreading : ∀ x, (decimalPass ucd str false).1 = x → x ≠ .objnull →
      DecimalBody ucd l ∧ (decimalPass ucd str false).2 = str.chars.length ∧
        ∃ q, x = .number q := by
    intro x hx hobj
    obtain ⟨hep, hread⟩ := decimalPass_sound hne hsplit (Prod.ext hx rfl) hobj
    cases hread with
    | integer z hnil hl => exact absurd ⟨s, l, hsplit.text, hsplit.sign, hnil, hl⟩ hint
    | ratio ds den x hl hnil hds hden hdigits hvalue =>
      exact absurd ⟨s, ds, den, hl ▸ hsplit.text, hsplit.sign, hnil, hds, hdigits⟩ hratio
    | slash ds hl hnil hds hdim =>
      exact absurd ((slashSyntax_iff hsplit).mpr ⟨ds, hl, hnil, hds⟩) hnoslash
    | decimal q hl hq => exact ⟨hl, by simpa using hep, q, rfl⟩
  refine ⟨fun q hq => ?_, fun hdecimal => ?_, fun hnil => ?_, ?_⟩
  · obtain ⟨hbody, hep, -⟩ := hreading _ hq (by simp)
    exact ⟨hep, (decimalSyntax_iff hsplit).mpr hbody⟩
  · obtain ⟨q, hq, -⟩ := decimalPass_decimal hne hsplit ((decimalSyntax_iff hsplit).mp hdecimal)
    exact ⟨q, hq⟩
  · obtain ⟨-, -, q, hq⟩ := hreading _ hnil (by simp)
    cases hq
  · refine ⟨fun hindex => ?_, fun hslash => absurd hslash.1 hnoslash⟩
    obtain ⟨-, -, q, hq⟩ := hreading _ hindex (by simp)
    cases hq

/-- A token with a mark is read in decimal by the readPass, whatever its radix. -/
theorem mark_outcome (hr : r ≤ 36) {ds rest : List ℕ} {t : ℕ} (hl : l = ds ++ t :: rest)
    (hds : Digits ucd r ds) (ht : t = 46 ∨ exponentCharp t) :
    Outcome ucd str (decimalPass ucd str (!ds.isEmpty)) := by
  have hmem : t ∈ l := by
    rw [hl]
    simp
  have hdigit : ucd.digitp t 10 = none := mark_not_digit ht
  have hslash : t ≠ 47 := by
    rintro rfl
    simp [exponentCharp] at ht
  have hnot : ∀ ds', Digits ucd 10 ds' → t ∉ ds' := by
    intro ds' hds' hmem
    simpa [hdigit] using hds' t hmem
  have houtcome : Outcome ucd str (decimalPass ucd str false) := by
    refine decimalPass_outcome hne hsplit ?_ ?_
    · rintro ⟨s', ds', htext, hs', hnil, hds'⟩
      have hsplit' : Split str.chars s' ds' := by
        refine ⟨htext, hs', fun _ c rest' hcons => ?_⟩
        have hc := hds' c (by rw [hcons]; simp)
        constructor <;> rintro rfl <;> simp [digitp_sign] at hc
      exact hnot ds' hds' ((hsplit.unique hsplit').2 ▸ hmem)
    · rintro ⟨s', ds', den, htext, hs', hnil, hds', hden⟩
      have hsplit' : Split str.chars s' (ds' ++ 47 :: den) := by
        refine ⟨htext, hs', fun _ c rest' hcons => ?_⟩
        obtain ⟨c', ds'', rfl⟩ := List.exists_cons_of_ne_nil hnil
        cases hcons
        have hc := (digits_cons.mp hds').1
        constructor <;> rintro rfl <;> simp [digitp_sign] at hc
      have hmem' := (hsplit.unique hsplit').2 ▸ hmem
      rcases List.mem_append.mp hmem' with hmem' | hmem'
      · exact hnot ds' hds' hmem'
      · rcases List.mem_cons.mp hmem' with hmem' | hmem'
        · exact hslash hmem'
        · exact hnot den hden hmem'
  rcases decimalPass_again hr hsplit hl hds ht with heq | ⟨hseen, hunseen⟩
  · rw [heq]
    exact houtcome
  · have hundecimal : ¬ DecimalSyntax ucd str.chars := by
      intro hdecimal
      obtain ⟨q, hq⟩ := houtcome.decimal hdecimal
      rw [hq] at hunseen
      cases hunseen
    refine ⟨fun q hq => ?_, fun hdecimal => absurd hdecimal hundecimal, by rw [hseen]; simp, ?_⟩
    · rw [hseen] at hq
      cases hq
    · rw [hseen, ← houtcome.index, hunseen]

end

theorem keepDecimal_number {q : Number} {ep : ℕ} {res : Parsed × ℕ}
    (h : keepDecimal str res = (.number q, ep)) :
    res = (.number q, ep) ∧ (IsFloat q ∨ 0 < ep ∧ str.chars[ep - 1]? = some 46) := by
  unfold keepDecimal at h
  split at h
  · cases h
    exact ⟨rfl, .inl ⟨_, _, _, _, rfl⟩⟩
  · split at h
    · rename_i hdot
      cases h
      exact ⟨rfl, .inr hdot⟩
    · cases h
  · cases h
  · cases h

theorem keepDecimal_index {ep : ℕ} {res : Parsed × ℕ} :
    keepDecimal str res = (.indexError, ep) ↔ res = (.indexError, ep) := by
  unfold keepDecimal
  split
  · simp
  · split <;> simp
  · simp
  · rename_i hindex
    simp only [Prod.mk.injEq, reduceCtorEq, false_and, false_iff, not_and]
    rintro rfl
    exact (hindex rfl).elim

/-- The recursive call is kept for floats and for integers that end with a dot. -/
theorem keepDecimal_outcome {s l : List ℕ} (hne : str.chars ≠ [])
    (hsplit : Split str.chars s l) :
    Outcome ucd str (keepDecimal str (decimalPass ucd str false)) := by
  have hlast : str.chars[str.chars.length - 1]? = str.chars.getLast? :=
    List.getLast?_eq_getElem?.symm
  have hpos := List.length_pos_iff.mpr hne
  refine ⟨fun q hq => ?_, fun hdecimal => ?_, fun hnil => ?_, ?_⟩
  · obtain ⟨heq, hkept⟩ := keepDecimal_number (Prod.ext hq rfl)
    obtain ⟨hep, hread⟩ := decimalPass_sound hne hsplit heq (by simp)
    have hep := hep.resolve_right (by simp)
    refine ⟨hep, ?_⟩
    rw [hep] at hkept
    generalize hx : Parsed.number q = x at hread
    cases hread with
    | integer z hnil hl =>
      cases hx
      obtain ⟨num, exp, marker, sign, hfloat⟩ | ⟨-, hdot⟩ := hkept
      · cases hfloat
      · rw [hlast, hsplit.text] at hdot
        exact absurd hdot (getLast_digits hl s hnil)
    | ratio ds den x hl hnil hds hden hdigits hvalue =>
      obtain rfl | ⟨num, d, rfl⟩ := hvalue
      · cases hx
      · cases hx
        obtain ⟨num', exp, marker, sign, hfloat⟩ | ⟨-, hdot⟩ := hkept
        · unfold makeRatio at hfloat
          split at hfloat <;> cases hfloat
        · rw [hlast, hsplit.text, hl, ← List.append_assoc, ← List.singleton_append,
            ← List.append_assoc] at hdot
          exact absurd hdot (getLast_digits hdigits _ hden)
    | slash ds hl hnil hds hdim => cases hx
    | decimal q' hl hq' => exact (decimalSyntax_iff hsplit).mpr hl
  · obtain ⟨q, hq, hvalue⟩ := decimalPass_decimal hne hsplit ((decimalSyntax_iff hsplit).mp hdecimal)
    refine ⟨q, ?_⟩
    rw [hq]
    rcases hvalue with ⟨num, exp, marker, sign, rfl⟩ | ⟨⟨z, rfl⟩, hdot⟩
    · rfl
    · have hl : l ≠ [] := by
        rintro rfl
        simp at hdot
      rw [keepDecimal, if_pos ⟨hpos, by
        rw [hlast, hsplit.text, List.getLast?_append_of_ne_nil _ hl, hdot]⟩]
  · unfold keepDecimal at hnil
    split at hnil
    · cases hnil
    · split at hnil <;> cases hnil
    · cases hnil
    · cases hnil
  · constructor
    · intro hindex
      have heq := keepDecimal_index.mp (Prod.ext hindex rfl)
      obtain ⟨-, hread⟩ := decimalPass_sound hne hsplit heq (by simp)
      cases hread with
      | ratio ds den x hl hnil hds hden hdigits hvalue =>
        rcases hvalue with hvalue | ⟨num, d, hvalue⟩ <;> cases hvalue
      | slash ds hl hnil hds hdim =>
        exact ⟨(slashSyntax_iff hsplit).mpr ⟨ds, hl, hnil, hds⟩, hdim⟩
    · rintro ⟨hslash, hdim⟩
      obtain ⟨ds, rfl, hnil, hds⟩ := (slashSyntax_iff hsplit).mp hslash
      have hindex := decimalPass_slash hne hsplit hds hnil hdim
      rw [keepDecimal_index.mpr (Prod.ext hindex rfl)]

/-- Apart from the integers and ratios of the radix, numbers are what has a dot or an exponent,
in decimal. -/
theorem parseNumber_outcome (hr : r ≤ 36) (hne : str.chars ≠ [])
    (hint : ¬ IntegerSyntax ucd r str.chars) (hratio : ¬ RatioSyntax ucd r str.chars) :
    Outcome ucd str (parseNumber ucd str r) := by
  obtain ⟨s, l, hsplit⟩ := exists_split str.chars
  rw [parseNumber, if_neg (by simp [hne]; omega)]
  by_cases hten : r = 10
  · subst hten
    obtain ⟨x, ep, hx⟩ := pass_ten ucd str false
    rw [hx]
    dsimp only
    rw [← decimalPass_eq hx]
    exact decimalPass_outcome hne hsplit hint hratio
  · obtain ⟨sign, hpass⟩ := pass_eq ucd hne hsplit
    have hradix := afterSign_radix ucd str hr hten sign (l := l) (i := s.length)
      (by rw [hsplit.text, List.length_append])
    rw [hpass]
    generalize hend : afterSign ucd str r false sign l s.length = result at hradix
    have hnothing : ∀ ep, ¬ DecimalBody ucd l →
        (∀ ds, l = ds ++ [47] → ds ≠ [] → ¬ Digits ucd 10 ds) →
        Outcome ucd str (.objnull, ep) := by
      intro ep hbody hslash
      refine ⟨by simp, fun h => absurd ((decimalSyntax_iff hsplit).mp h) hbody, by simp, ?_⟩
      simp only [reduceCtorEq, false_iff, not_and]
      intro h
      obtain ⟨ds, hl, hnil, hds⟩ := (slashSyntax_iff hsplit).mp h
      exact absurd hds (hslash ds hl hnil)
    cases hradix with
    | noDigit i hl =>
      refine hnothing i (fun hbody => ?_) fun ds hslash hnil hds => ?_
      · obtain ⟨c, rest, rfl, hc⟩ := decimalBody_head hbody
        obtain hl | ⟨e, rest', hl, he⟩ := hl
        · cases hl
        · cases hl
          rcases hc with rfl | hc
          · simp [exponentCharp] at he
          · simp [digitp_exponent he] at hc
      · obtain ⟨c, ds, rfl⟩ := List.exists_cons_of_ne_nil hnil
        obtain hl | ⟨e, rest', hl, he⟩ := hl
        · rw [hl] at hslash
          cases hslash
        · rw [hl] at hslash
          cases hslash
          simpa [digitp_exponent he] using (digits_cons.mp hds).1
    | digits x ep hnil hl => exact absurd ⟨s, l, hsplit.text, hsplit.sign, hnil, hl⟩ hint
    | slash ds den x ep hl hds hx =>
      have hobj : x = .objnull := by
        by_contra hobj
        obtain ⟨hnil, hden⟩ := hx hobj
        exact hratio ⟨s, ds, den, hl ▸ hsplit.text, hsplit.sign, hnil, hds, hden⟩
      subst hobj
      refine hnothing ep (fun hbody => ?_) fun ds' hslash hnil hds' => ?_
      · exact decimalBody_no_slash hbody (by rw [hl]; simp)
      · -- the slash at the end is the one that stopped the pass
        have hnone : 47 ∉ ds' := by
          intro hmem
          simpa [digitp_slash] using hds' 47 hmem
        rw [hl] at hslash
        rcases List.eq_nil_or_concat den with rfl | ⟨den', c, rfl⟩
        · obtain ⟨rfl, -⟩ := List.append_inj' hslash rfl
          exact hratio ⟨s, ds, [], hl ▸ hsplit.text, hsplit.sign, hnil, hds, by simp [Digits]⟩
        · rw [List.concat_eq_append, ← List.cons_append, ← List.append_assoc] at hslash
          obtain ⟨hds, -⟩ := List.append_inj' hslash rfl
          exact hnone (hds ▸ by simp)
    | mark ds t rest hl hds ht => exact mark_outcome hne hsplit hr hl hds ht
    | other => exact keepDecimal_outcome hne hsplit

end NumberParsing
