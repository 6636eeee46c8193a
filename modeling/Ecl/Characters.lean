import Mathlib.Tactic.Tauto
import Mathlib.Data.Nat.Notation

/-! Characters of src/c/char_ctype.d and src/c/character.d, and the standard syntax of
src/c/reader/rtab_cl.d. The pages of the Unicode database are generated tables: the database
is a parameter, and what is used of the tables is stated once, as a property of it. -/
namespace Characters

/-- The bytes of a character in its page: the row of the table of properties, and the other
case of the character. -/
structure CharData where
  value0 : ℕ
  caseBytes : ℕ
  deriving DecidableEq

structure Ucd where
  charData : ℕ → CharData
  generalCategory : ℕ → ℕ
  decimalDigit : ℕ → ℕ

namespace Ucd

variable (ucd : Ucd)

def upperCaseP (c : ℕ) : Bool := (ucd.charData c).value0 < 2

def lowerCaseP (c : ℕ) : Bool := 2 ≤ (ucd.charData c).value0 && (ucd.charData c).value0 < 4

def alphaCharP (c : ℕ) : Bool := ucd.generalCategory (ucd.charData c).value0 ≤ 4

def alphanumericp (c : ℕ) : Bool :=
  ucd.alphaCharP c || ucd.generalCategory (ucd.charData c).value0 = 12

def charUpcase (c : ℕ) : ℕ := if ucd.lowerCaseP c then (ucd.charData c).caseBytes else c

def charDowncase (c : ℕ) : ℕ := if ucd.upperCaseP c then (ucd.charData c).caseBytes else c

/-- ecl_digitp; none stands for -1. -/
def digitp (c r : ℕ) : Option ℕ :=
  if 48 ≤ c ∧ c ≤ 57 ∧ c < 48 + r then some (c - 48)
  else if 65 ≤ c ∧ 10 < r ∧ c < 65 + (r - 10) then some (c - 65 + 10)
  else if 97 ≤ c ∧ 10 < r ∧ c < 97 + (r - 10) then some (c - 97 + 10)
  else if 255 < c then
    let number := ucd.decimalDigit (ucd.charData c).value0
    if number < r then some number else none
  else none

/-- What the generated tables satisfy. The converse of upper fails: some small letters have a
titlecase letter in the place of a capital. -/
structure Lawful : Prop where
  upper : ∀ c, ucd.upperCaseP c → ucd.lowerCaseP (ucd.charDowncase c) ∧
    ucd.charUpcase (ucd.charDowncase c) = c
  asciiUpper : ∀ c, c < 128 → (ucd.upperCaseP c ↔ 65 ≤ c ∧ c ≤ 90)
  asciiLower : ∀ c, c < 128 → (ucd.lowerCaseP c ↔ 97 ≤ c ∧ c ≤ 122)
  asciiAlpha : ∀ c, c < 128 → (ucd.alphaCharP c ↔ 65 ≤ c ∧ c ≤ 90 ∨ 97 ≤ c ∧ c ≤ 122)
  byteOrderMark : ¬ ucd.lowerCaseP 0xfeff ∧
    36 ≤ ucd.decimalDigit (ucd.charData 0xfeff).value0
  decimal : ∀ c, 255 < c → ucd.decimalDigit (ucd.charData c).value0 < 36 →
    ucd.decimalDigit (ucd.charData c).value0 < 10 ∧ ¬ ucd.alphaCharP c

end Ucd

/-- enum ecl_chattrib. -/
inductive Syntax where
  | whitespace | terminating | nonTerminating | singleEscape | multipleEscape | constituent
  deriving DecidableEq

/-- ecl_readtable_get on the standard readtable. -/
def readtableGet (c : ℕ) : Syntax :=
  if c ∈ [9, 10, 12, 13, 32, 0xfeff] then .whitespace
  else if c = 92 then .singleEscape
  else if c = 124 then .multipleEscape
  else if c ∈ [34, 39, 40, 41, 44, 59, 96] then .terminating
  else if c = 35 then .nonTerminating
  else .constituent

def invalidCharacterP (c : ℕ) : Bool := c ≤ 32 || c = 127

inductive ReadtableCase where
  | upcase | downcase | preserve | invert
  deriving DecidableEq

namespace Ucd

variable {ucd : Ucd}

theorem not_lower_of_upper {c : ℕ} (h : ucd.upperCaseP c) : ucd.lowerCaseP c = false := by
  simp only [upperCaseP, lowerCaseP, decide_eq_true_eq, Bool.and_eq_false_iff,
    decide_eq_false_iff_not] at h ⊢
  omega

theorem not_upper_of_lower {c : ℕ} (h : ucd.lowerCaseP c) : ucd.upperCaseP c = false := by
  simp only [upperCaseP, lowerCaseP, Bool.and_eq_true, decide_eq_true_eq,
    decide_eq_false_iff_not] at h ⊢
  omega

theorem constituent_of_lower (h : ucd.Lawful) {c : ℕ} (hc : ucd.lowerCaseP c) :
    readtableGet c = .constituent ∧ invalidCharacterP c = false ∧ c ≠ 58 := by
  by_cases hascii : c < 128
  · have hletter := (h.asciiLower c hascii).mp hc
    simp only [readtableGet, invalidCharacterP, List.mem_cons, List.not_mem_nil, or_false]
    refine ⟨?_, by simp; omega, by omega⟩
    repeat rw [if_neg (by omega)]
  · have hbom : c ≠ 0xfeff := by
      rintro rfl
      exact h.byteOrderMark.1 hc
    simp only [readtableGet, invalidCharacterP, List.mem_cons, List.not_mem_nil, or_false]
    refine ⟨?_, by simp; omega, by omega⟩
    repeat rw [if_neg (by omega)]

theorem decimal_cases (h : ucd.Lawful) {c d : ℕ} (hd : ucd.digitp c 10 = some d) :
    (48 ≤ c ∧ c ≤ 57 ∧ d = c - 48) ∨ (255 < c ∧ ¬ ucd.alphaCharP c) := by
  unfold digitp at hd
  split at hd
  · cases hd
    exact .inl ⟨by omega, by omega, rfl⟩
  · split at hd
    · omega
    · split at hd
      · omega
      · split at hd
        · rename_i h255
          dsimp only at hd
          split at hd
          · exact .inr ⟨h255, (h.decimal c h255 (by omega)).2⟩
          · cases hd
        · cases hd

theorem not_alpha_of_decimal (h : ucd.Lawful) {c d : ℕ} (hd : ucd.digitp c 10 = some d) :
    ucd.alphaCharP c = false := by
  rcases decimal_cases h hd with ⟨hlow, hhigh, -⟩ | ⟨-, halpha⟩
  · have := h.asciiAlpha c (by omega)
    rw [← Bool.not_eq_true, this]
    omega
  · simpa using halpha

theorem digitp_eq_none {c r : ℕ} (hr : r ≤ 36) (hc : c < 128) (hdigit : c < 48 ∨ 57 < c)
    (hupper : c < 65 ∨ 90 < c) (hlower : c < 97 ∨ 122 < c) : ucd.digitp c r = none := by
  unfold digitp
  rw [if_neg (by omega), if_neg (by omega), if_neg (by omega), if_neg (by omega)]

end Ucd

end Characters
