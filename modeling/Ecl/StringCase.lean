import Ecl.StringComparison

/-! The conversion of case in src/c/string.d. -/
namespace StringCase

open Characters Strings
open SequenceRemoval (SequenceError withStartEnd withStartEnd_eq)
open StringComparison (stringEq stringEq_active)

/-- The loops over the two representations, which differ in the cells they write. -/
def caseLoop (casefun : ℕ → ℕ) (stop i : ℕ) (s : LispString) : LispString :=
  if i < stop then caseLoop casefun stop (i + 1) (s.set i (casefun (s.char i))) else s
termination_by stop - i

def stringCase (casefun : ℕ → ℕ) (s : LispString) (kstart : ℕ) (kend : Option ℕ) :
    Except SequenceError LispString := do
  let s := s.copySeq
  let (start, stop) ← withStartEnd s.fillp kstart kend
  return caseLoop casefun stop start s

/-- The result is the argument itself. -/
def nstringCase (casefun : ℕ → ℕ) (s : LispString) (kstart : ℕ) (kend : Option ℕ) :
    Except SequenceError LispString := do
  let (start, stop) ← withStartEnd s.fillp kstart kend
  return caseLoop casefun stop start s

inductive CaseFunction where
  | stringUpcase | stringDowncase | nstringUpcase | nstringDowncase
  deriving DecidableEq

namespace CaseFunction

/-- char_upcase or char_downcase. -/
def casefun (ucd : Ucd) : CaseFunction → ℕ → ℕ
  | stringUpcase | nstringUpcase => ucd.charUpcase
  | stringDowncase | nstringDowncase => ucd.charDowncase

def run (ucd : Ucd) (f : CaseFunction) :
    LispString → ℕ → Option ℕ → Except SequenceError LispString :=
  match f with
  | stringUpcase | stringDowncase => stringCase (f.casefun ucd)
  | nstringUpcase | nstringDowncase => nstringCase (f.casefun ucd)

end CaseFunction

section
variable {casefun : ℕ → ℕ} {s r : LispString} {kstart start stop : ℕ} {kend : Option ℕ}

theorem caseLoop_kept (casefun : ℕ → ℕ) (stop i : ℕ) (s : LispString) :
    (caseLoop casefun stop i s).extended = s.extended ∧
      (caseLoop casefun stop i s).fillp = s.fillp ∧ (caseLoop casefun stop i s).dim = s.dim := by
  fun_induction caseLoop casefun stop i s with
  | case1 i s hlt ih => exact ⟨ih.1, ih.2.1, ih.2.2.trans (s.dim_set _ _)⟩
  | case2 i s hlt => exact ⟨rfl, rfl, rfl⟩

theorem char_caseLoop (hstop : stop ≤ s.dim) (i j : ℕ) :
    (caseLoop casefun stop i s).char j =
      if i ≤ j ∧ j < stop then s.cell (casefun (s.char j)) else s.char j := by
  fun_induction caseLoop casefun stop i s with
  | case1 i s hlt ih =>
    have hcell : (s.set i (casefun (s.char i))).cell = s.cell := rfl
    rw [ih (by rwa [s.dim_set]), hcell, s.char_set (by omega)]
    by_cases hj : j = i
    · subst hj
      rw [if_neg (by omega), if_pos rfl, if_pos ⟨le_rfl, hlt⟩]
    · simp only [if_neg hj]
      congr 1
      exact propext ⟨fun h => ⟨by omega, h.2⟩, fun h => ⟨by omega, h.2⟩⟩
  | case2 i s hlt => rw [if_neg (by omega)]

structure Converted (casefun : ℕ → ℕ) (s r : LispString) (start stop : ℕ) : Prop where
  extended : r.extended = s.extended
  fillp : r.fillp = s.fillp
  char : ∀ i < s.fillp,
    r.char i = if start ≤ i ∧ i < stop then casefun (s.char i) else s.char i

def Fits (casefun : ℕ → ℕ) (s : LispString) (start stop : ℕ) : Prop :=
  s.extended = true ∨ ∀ i, start ≤ i → i < stop → casefun (s.char i) < 256

theorem fits_iff : Fits casefun s start stop ↔
    ∀ i, start ≤ i → i < stop → s.cell (casefun (s.char i)) = casefun (s.char i) := by
  by_cases hs : s.extended = true
  · simp [Fits, LispString.cell, hs]
  · simp [Fits, LispString.cell, hs]

/-- The result of the loop from the original or from its copy. -/
structure Stored (casefun : ℕ → ℕ) (s r : LispString) (start stop : ℕ) : Prop where
  extended : r.extended = s.extended
  fillp : r.fillp = s.fillp
  char : ∀ i < s.fillp,
    r.char i = if start ≤ i ∧ i < stop then s.cell (casefun (s.char i)) else s.char i

theorem stored_caseLoop (casefun : ℕ → ℕ) (start : ℕ) (hstop : stop ≤ s.fillp) :
    Stored casefun s (caseLoop casefun stop start s) start stop ∧
      Stored casefun s (caseLoop casefun stop start s.copySeq) start stop := by
  constructor
  · obtain ⟨hextended, hfillp, -⟩ := caseLoop_kept casefun stop start s
    exact ⟨hextended, hfillp, fun i _ => char_caseLoop (hstop.trans s.fillp_le) start i⟩
  · obtain ⟨hextended, hfillp, -⟩ := caseLoop_kept casefun stop start s.copySeq
    refine ⟨hextended, hfillp, fun i hi => ?_⟩
    rw [char_caseLoop (by rwa [s.dim_copySeq]), s.char_copySeq hi]
    rfl

theorem run_eq (ucd : Ucd) (f : CaseFunction) (hstart : kstart ≤ kend.getD s.fillp)
    (hend : kend.getD s.fillp ≤ s.fillp) :
    ∃ r, f.run ucd s kstart kend = .ok r ∧
      Stored (f.casefun ucd) s r kstart (kend.getD s.fillp) := by
  have hloop := fun casefun => stored_caseLoop casefun kstart hend
  have hcase : ∀ casefun, stringCase casefun s kstart kend =
      .ok (caseLoop casefun (kend.getD s.fillp) kstart s.copySeq) := by
    intro casefun
    have hbounds : withStartEnd s.copySeq.fillp kstart kend = _ := withStartEnd_eq hstart hend
    simp only [stringCase, hbounds, bind, Except.bind, pure, Except.pure]
    rfl
  have hncase : ∀ casefun, nstringCase casefun s kstart kend =
      .ok (caseLoop casefun (kend.getD s.fillp) kstart s) := by
    intro casefun
    simp only [nstringCase, withStartEnd_eq hstart hend, bind, Except.bind, pure, Except.pure]
  cases f with
  | stringUpcase => exact ⟨_, hcase _, (hloop _).2⟩
  | stringDowncase => exact ⟨_, hcase _, (hloop _).2⟩
  | nstringUpcase => exact ⟨_, hncase _, (hloop _).1⟩
  | nstringDowncase => exact ⟨_, hncase _, (hloop _).1⟩

theorem Stored.converted_iff (h : Stored casefun s r start stop) (hstop : stop ≤ s.fillp) :
    Converted casefun s r start stop ↔ Fits casefun s start stop := by
  rw [fits_iff]
  constructor
  · intro hr i hi hlt
    have hchar := hr.char i (by omega)
    rw [h.char i (by omega), if_pos ⟨hi, hlt⟩, if_pos ⟨hi, hlt⟩] at hchar
    exact hchar
  · intro hfits
    refine ⟨h.extended, h.fillp, fun i hi => (h.char i hi).trans ?_⟩
    split
    · next hinside => exact hfits i hinside.1 hinside.2
    · rfl

theorem Stored.same_text_iff {t r' : LispString} (h : Stored casefun s r start stop)
    (h' : Stored casefun t r' start stop) (hstop : stop ≤ s.fillp) (hs : t.extended = true)
    (htext : s.active = t.active) : r.active = r'.active ↔ Fits casefun s start stop := by
  obtain ⟨hfillp, hchar⟩ := (s.active_eq_iff t).mp htext
  rw [r.active_eq_iff, fits_iff]
  have hcell : ∀ c, t.cell c = c := fun c => if_pos hs
  constructor
  · rintro ⟨-, hsame⟩ i hi hlt
    have hi' := hsame i (by rw [h.fillp]; omega)
    rw [h.char i (by omega), h'.char i (by omega), if_pos ⟨hi, hlt⟩, if_pos ⟨hi, hlt⟩, hcell,
      ← hchar i (by omega)] at hi'
    exact hi'
  · intro hfits
    refine ⟨by rw [h.fillp, h'.fillp, hfillp], fun i hi => ?_⟩
    rw [h.fillp] at hi
    rw [h.char i hi, h'.char i (hfillp ▸ hi), hcell, ← hchar i hi]
    split
    · next hinside => exact hfits i hinside.1 hinside.2
    · rfl

/-- The only base character with its other case beyond the base characters is U+FF. -/
structure Latin1 (ucd : Ucd) : Prop where
  upcase : ∀ c < 256, ucd.charUpcase c < 256 ↔ c ≠ 0xff
  downcase : ∀ c < 256, ucd.charDowncase c < 256

def CaseFunction.raises : CaseFunction → Bool
  | .stringUpcase | .nstringUpcase => true
  | .stringDowncase | .nstringDowncase => false

def Safe (f : CaseFunction) (s : LispString) (start stop : ℕ) : Prop :=
  s.extended = true ∨ f.raises = false ∨ ∀ i, start ≤ i → i < stop → s.char i ≠ 0xff

theorem safe_iff {ucd : Ucd} (hucd : Latin1 ucd) (f : CaseFunction) :
    Safe f s start stop ↔ Fits (f.casefun ucd) s start stop := by
  by_cases hs : s.extended = true
  · simp [Safe, Fits, hs]
  · have hlt := s.char_lt (Bool.not_eq_true _ ▸ hs)
    have hup := fun i => hucd.upcase _ (hlt i)
    have hdown := fun i => hucd.downcase _ (hlt i)
    cases f <;> simp [Safe, Fits, hs, CaseFunction.raises, CaseFunction.casefun, hup, hdown]

/-- The conversion is elementwise, and the same for both representations. -/
theorem case_conversion_iff {ucd : Ucd} (hucd : Latin1 ucd) (f : CaseFunction)
    (hstart : kstart ≤ kend.getD s.fillp) (hend : kend.getD s.fillp ≤ s.fillp) :
    ((∃ r, f.run ucd s kstart kend = .ok r ∧
        Converted (f.casefun ucd) s r kstart (kend.getD s.fillp)) ↔
      Safe f s kstart (kend.getD s.fillp)) ∧
    ∀ t : LispString, t.extended = true → s.active = t.active →
      ((∃ r r', f.run ucd s kstart kend = .ok r ∧ f.run ucd t kstart kend = .ok r' ∧
          stringEq r r' ⟨0, none, 0, none⟩ = .ok true) ↔
        Safe f s kstart (kend.getD s.fillp)) := by
  obtain ⟨r, hrun, hstored⟩ := run_eq ucd f hstart hend
  constructor
  · rw [safe_iff hucd, ← hstored.converted_iff hend]
    constructor
    · rintro ⟨r₁, hr₁, hconverted⟩
      cases hrun.symm.trans hr₁
      exact hconverted
    · exact fun hconverted => ⟨r, hrun, hconverted⟩
  · intro t ht htext
    have hfillp : s.fillp = t.fillp := ((s.active_eq_iff t).mp htext).1
    rw [hfillp] at hstart hend
    obtain ⟨r', hrun', hstored'⟩ := run_eq ucd f hstart hend
    rw [← hfillp] at hstored' hend
    rw [safe_iff hucd, ← hstored.same_text_iff hstored' hend ht htext]
    constructor
    · rintro ⟨r₁, r₂, hr₁, hr₂, heq⟩
      cases hrun.symm.trans hr₁
      cases hrun'.symm.trans hr₂
      exact stringEq_active.mp heq
    · exact fun heq => ⟨r, r', hrun, hrun', stringEq_active.mpr heq⟩

end

/-- The letters of ASCII and U+FF. -/
def latinUcd : Ucd where
  charData c :=
    if 65 ≤ c ∧ c ≤ 90 then ⟨0, c + 32⟩
    else if 97 ≤ c ∧ c ≤ 122 then ⟨2, c - 32⟩
    else if c = 0xff then ⟨2, 0x178⟩
    else ⟨9, 0⟩
  generalCategory v := if v < 2 then 0 else if v < 4 then 1 else 20
  decimalDigit _ := 255

theorem latinUcd_latin1 : Latin1 latinUcd where
  upcase := by decide +kernel
  downcase := by decide +kernel

def diaeresis : LispString := ⟨false, [97, 0xff], 2, by decide, by decide⟩

/-- The base string of a and U+FF becomes Ax. -/
theorem diaeresis_not_upcased : ¬∃ r,
    CaseFunction.stringUpcase.run latinUcd diaeresis 0 none = .ok r ∧
      Converted latinUcd.charUpcase diaeresis r 0 2 := by
  rintro ⟨r, hrun, hconverted⟩
  obtain ⟨r', hrun', hstored⟩ : ∃ r,
      CaseFunction.stringUpcase.run latinUcd diaeresis 0 none = .ok r ∧
        Stored latinUcd.charUpcase diaeresis r 0 2 :=
    run_eq latinUcd .stringUpcase (by decide) (by decide)
  cases hrun.symm.trans hrun'
  have hconverted1 : r.char 1 = 0x178 := (hconverted.char 1 (by decide)).trans (by decide)
  have hstored1 : r.char 1 = 0x78 := (hstored.char 1 (by decide)).trans (by decide)
  cases hconverted1.symm.trans hstored1

/-- Only the first letter is converted. -/
theorem case_conversion_first : ∃ r,
    CaseFunction.stringUpcase.run latinUcd diaeresis 0 (some 1) = .ok r ∧
      Converted latinUcd.charUpcase diaeresis r 0 1 := by
  refine (@case_conversion_iff diaeresis 0 (some 1) latinUcd latinUcd_latin1 .stringUpcase
    (by decide) (by decide)).1.mpr (.inr (.inr ?_))
  intro i _ hi
  obtain rfl : i = 0 := Nat.lt_one_iff.mp hi
  decide

end StringCase
