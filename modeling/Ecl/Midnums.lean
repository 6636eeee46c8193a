import Mathlib.Tactic.Linarith
import Mathlib.Tactic.Ring

/-! Arithmetic of src/c/midnum.d, the bignums of a build without GMP. Signed operations are
those of C: one whose value is not of the type is an overflow, and nothing follows it. -/
namespace Midnums

/-- INTMAX_WIDTH. -/
structure Width where
  bits : ℕ
  atLeast : 64 ≤ bits

inductive Fault where
  | storageExhausted
  | signedOverflow
  | divisionByZero
  deriving DecidableEq

abbrev Checked (α : Type) := Except Fault α

variable {w : Width}

def Width.half (w : Width) : ℤ := 2 ^ (w.bits - 1)

def Width.Fits (w : Width) (z : ℤ) : Prop := -w.half ≤ z ∧ z < w.half

instance (w : Width) (z : ℤ) : Decidable (w.Fits z) := inferInstanceAs (Decidable (_ ∧ _))

/-- sbig_num_t. -/
structure SbigNum (w : Width) where
  value : ℤ
  fits : w.Fits value
  deriving DecidableEq

theorem half_pos (w : Width) : 0 < w.half := by
  unfold Width.half
  positivity

theorem one_lt_half (w : Width) : 1 < w.half := by
  have hw := w.atLeast
  unfold Width.half
  exact one_lt_pow₀ (by norm_num) (by omega)

theorem two_half (w : Width) : (2 : ℤ) ^ w.bits = 2 * w.half := by
  have hw := w.atLeast
  rw [Width.half, ← pow_succ']
  congr 1
  omega

def mostPositiveBignum : SbigNum w := ⟨w.half - 1, by have := half_pos w; constructor <;> omega⟩

def mostNegativeBignum : SbigNum w := ⟨-w.half, by have := half_pos w; constructor <;> omega⟩

instance : Zero (SbigNum w) := ⟨⟨0, by have := half_pos w; constructor <;> omega⟩⟩

instance : One (SbigNum w) := ⟨⟨1, by have := one_lt_half w; constructor <;> omega⟩⟩

@[simp] theorem value_mostPositive : (mostPositiveBignum : SbigNum w).value = w.half - 1 := rfl
@[simp] theorem value_mostNegative : (mostNegativeBignum : SbigNum w).value = -w.half := rfl
@[simp] theorem value_zero : (0 : SbigNum w).value = 0 := rfl
@[simp] theorem value_one : (1 : SbigNum w).value = 1 := rfl

def signed (z : ℤ) : Checked (SbigNum w) := if h : w.Fits z then .ok ⟨z, h⟩ else .error .signedOverflow

section
variable (x y : SbigNum w)

def add : Checked (SbigNum w) := signed (x.value + y.value)
def sub : Checked (SbigNum w) := signed (x.value - y.value)
def mul : Checked (SbigNum w) := signed (x.value * y.value)

def quotient : Checked (SbigNum w) :=
  if y.value = 0 then .error .divisionByZero else signed (x.value.tdiv y.value)

/-- The remainder is undefined where the quotient is. -/
def remainder : Checked (SbigNum w) := do
  let _ ← quotient x y
  signed (x.value.tmod y.value)

def greater : Bool := x.value > y.value

end

def both (a : Bool) (b : Checked Bool) : Checked Bool := if a then b else pure false
def either (a b : Checked Bool) : Checked Bool := do if ← a then pure true else b

/-- The conversion to ubig_num_t and, as compilers have it, back. -/
def toUnsigned (x : SbigNum w) : ℤ := x.value % 2 ^ w.bits

def ofUnsigned (u : ℤ) : SbigNum w :=
  ⟨(u + w.half) % 2 ^ w.bits - w.half, by
    have hpos := half_pos w
    have hlow := Int.emod_nonneg (u + w.half) (b := 2 ^ w.bits) (by rw [two_half]; omega)
    have hhigh := Int.emod_lt_of_pos (u + w.half) (b := 2 ^ w.bits) (by rw [two_half]; omega)
    rw [two_half] at hlow hhigh
    rw [two_half]
    constructor <;> omega⟩

def unsignedNot (w : Width) (u : ℤ) : ℤ := 2 ^ w.bits - 1 - u
def unsignedShiftRight (u : ℤ) (bits : ℕ) : ℤ := u / 2 ^ bits
def unsignedShiftLeft (w : Width) (u : ℤ) (bits : ℕ) : ℤ := u * 2 ^ bits % 2 ^ w.bits

/-- The operator ~, which never overflows. -/
def complement (x : SbigNum w) : SbigNum w :=
  ⟨-x.value - 1, by obtain ⟨hl, hu⟩ := x.fits; constructor <;> omega⟩

theorem shifted_fits (x : SbigNum w) (bits : ℕ) : w.Fits (x.value / 2 ^ bits) := by
  obtain ⟨hl, hu⟩ := x.fits
  have hp : (0 : ℤ) < 2 ^ bits := by positivity
  have hone : (1 : ℤ) ≤ 2 ^ bits := hp
  have hpos := half_pos w
  constructor
  · rw [Int.le_ediv_iff_mul_le hp]
    nlinarith
  · rw [Int.ediv_lt_iff_lt_mul hp]
    nlinarith

def shiftRight (x : SbigNum w) (bits : ℕ) : SbigNum w := ⟨x.value / 2 ^ bits, shifted_fits x bits⟩

def storageExhausted {α : Type} : Checked α := .error .storageExhausted

section
variable (xnum ynum : SbigNum w)

/-- _ecl_big_mul_2exp. -/
def bigMul2exp (bits : ℕ) : Checked (SbigNum w) :=
  let positiveLimit := toUnsigned (mostPositiveBignum : SbigNum w)
  let negativeLimit := toUnsigned (mostNegativeBignum : SbigNum w)
  if xnum.value = 0 then pure 0
  else if bits ≥ w.bits then storageExhausted
  else if (xnum.value > 0 ∧ toUnsigned xnum > unsignedShiftRight positiveLimit bits) ∨
      (xnum.value < 0 ∧ toUnsigned xnum ≤ unsignedNot w (unsignedShiftRight negativeLimit bits)) then
    storageExhausted
  else pure (ofUnsigned (unsignedShiftLeft w (toUnsigned xnum) bits))

/-- _ecl_big_div_2exp. -/
def bigDiv2exp (bits : ℕ) : Checked (SbigNum w) :=
  if xnum.value = 0 ∨ bits ≥ w.bits then pure (if xnum.value < 0 then complement 0 else 0)
  else if xnum.value < 0 then pure (complement (shiftRight (complement xnum) bits))
  else pure (shiftRight xnum bits)

/-- _ecl_big_div. -/
def bigDiv : Checked (SbigNum w) :=
  if xnum = mostNegativeBignum ∧ ynum.value = -1 then storageExhausted else quotient xnum ynum

def productTooLarge : Checked Bool :=
  either (both (xnum.value > 0 && ynum.value > 0) do
    return greater xnum (← quotient mostPositiveBignum ynum)) <|
  either (both (xnum.value < 0 && ynum.value < 0) do
    return greater (← quotient mostPositiveBignum ynum) xnum) <|
  either (both (xnum.value > 0 && ynum.value < 0) do
    return greater (← quotient mostNegativeBignum xnum) ynum) <|
  both (xnum.value < 0 && ynum.value > 0) do
    return greater (← quotient mostNegativeBignum ynum) xnum

/-- _int_mul_int. -/
def intMulInt : Checked (SbigNum w) := do
  if ← both (xnum.value ≠ 0 && ynum.value ≠ 0) (productTooLarge xnum ynum) then storageExhausted
  else mul xnum ynum

/-- _int_add_int. -/
def intAddInt : Checked (SbigNum w) := do
  if ← either (both (xnum.value > 0 && ynum.value > 0) do
      return greater xnum (← sub mostPositiveBignum ynum))
    (both (xnum.value < 0 && ynum.value < 0) do
      return greater (← sub mostNegativeBignum ynum) xnum) then storageExhausted
  else add xnum ynum

/-- _int_sub_int. -/
def intSubInt : Checked (SbigNum w) := do
  if ← either (both (xnum.value > 0 && ynum.value < 0) do
      return greater xnum (← add mostPositiveBignum ynum))
    (both (xnum.value < 0 && ynum.value > 0) do
      return greater (← add mostNegativeBignum ynum) xnum) then storageExhausted
  else sub xnum ynum

/-- _big_div_qr. -/
def bigDivQr : Checked (SbigNum w × SbigNum w) :=
  if xnum = mostNegativeBignum ∧ ynum.value = -1 then storageExhausted
  else do
    let q ← quotient xnum ynum
    let r ← remainder xnum ynum
    return (q, r)

/-- _ecl_big_truncate. -/
def bigTruncate : Checked (SbigNum w × SbigNum w) := bigDivQr xnum ynum

/-- _ecl_big_ceiling. The arguments are never the registers of the results. -/
def bigCeiling : Checked (SbigNum w × SbigNum w) := do
  let (q, r) ← bigDivQr xnum ynum
  if r.value ≠ 0 ∧ (xnum.value < 0 ↔ ynum.value < 0) then
    let q ← intAddInt q 1
    let r ← intSubInt r ynum
    return (q, r)
  else return (q, r)

/-- _ecl_big_floor. -/
def bigFloor : Checked (SbigNum w × SbigNum w) := do
  let (q, r) ← bigDivQr xnum ynum
  if r.value ≠ 0 ∧ ¬(xnum.value < 0 ↔ ynum.value < 0) then
    let q ← intSubInt q 1
    let r ← intAddInt r ynum
    return (q, r)
  else return (q, r)

end

end Midnums
