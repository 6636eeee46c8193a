import Mathlib.Data.Int.Bitwise
import Mathlib.Data.Int.GCD
import Mathlib.Tactic.Ring

/-! Integers of src/h/object.h with the arithmetic of src/c/bignum.d, num_arith.d, num_log.d
and the integer cases of src/c/numbers. Words have 64 bits, two of them a fixnum's tag. -/
namespace Integers

/-- What is left of a cl_fixnum when it is shifted over the tag and back. -/
abbrev Fixnum := BitVec 62

def mostPositiveFixnum : ℤ := 2 ^ 61 - 1
def mostNegativeFixnum : ℤ := -2 ^ 61

/-- A bignum is the value of its mpz_t. -/
inductive Integer where
  | fixnum (n : Fixnum)
  | bignum (z : ℤ)
  deriving DecidableEq

inductive ArithmeticError where
  | divisionByZero
  | floatingPointInvalidOperation
  | floatingPointOverflow
  deriving DecidableEq

def Integer.value : Integer → ℤ
  | .fixnum n => n.toInt
  | .bignum z => z

def FitsFixnum (z : ℤ) : Prop := mostNegativeFixnum ≤ z ∧ z ≤ mostPositiveFixnum

theorem fits_iff {z : ℤ} : FitsFixnum z ↔ -2 ^ 61 ≤ z ∧ z ≤ 2 ^ 61 - 1 := Iff.rfl

instance (z : ℤ) : Decidable (FitsFixnum z) := inferInstanceAs (Decidable (_ ∧ _))

def Integer.isFixnum : Integer → Bool
  | .fixnum _ => true
  | .bignum _ => false

def Canonical (x : Integer) : Prop := x.isFixnum = true ↔ FitsFixnum x.value

/-- ecl_eql of two integers; bignums are compared by mpz_cmp. -/
def Integer.eql : Integer → Integer → Bool
  | .fixnum n, .fixnum m => n = m
  | .bignum z, .bignum w => z = w
  | _, _ => false

def makeFixnum (i : ℤ) : Integer := .fixnum (BitVec.ofInt 62 i)

def makeInteger (l : ℤ) : Integer :=
  if l > mostPositiveFixnum ∨ l < mostNegativeFixnum then .bignum l else makeFixnum l

/-- The sign of the size field tells the sign of the number; one limb has 64 bits. -/
def bigNormalize (x : ℤ) : Integer :=
  if x = 0 then makeFixnum 0
  else if 0 < x ∧ x < 2 ^ 64 then
    if x ≤ mostPositiveFixnum then makeFixnum x else .bignum x
  else if x < 0 ∧ -2 ^ 64 < x then
    if -x ≤ -mostNegativeFixnum then makeFixnum x else .bignum x
  else .bignum x

def fixTimesFix (x y : ℤ) : Integer := bigNormalize (x * y)

def bigTimesBig (a b : ℤ) : Integer := .bignum (a * b)

def bigTimesFix (b : ℤ) (i : Fixnum) : Integer :=
  if i = 0 then makeFixnum 0
  else if i = 1 then .bignum b
  else .bignum (b * i.toInt)

def bigPlusBig (a b : ℤ) : Integer := bigNormalize (a + b)
def bigPlusFix (a b : ℤ) : Integer := bigPlusBig a b
def bigMinusBig (a b : ℤ) : Integer := bigNormalize (a - b)
def fixMinusBig (a b : ℤ) : Integer := bigNormalize (a - b)
def bigNegate (a : ℤ) : Integer := bigNormalize (-a)
def bigDividedByBig (a b : ℤ) : Integer := bigNormalize (a.tdiv b)
def bigDividedByFix (x y : ℤ) : Integer := bigDividedByBig x y
def fixDividedByBig (x y : ℤ) : Integer := bigDividedByBig x y
def bigGcd (a b : ℤ) : Integer := bigNormalize (Int.gcd a b)

/-- Quotient and remainder of mpz_fdiv_qr and mpz_cdiv_qr. -/
def bigFloor (a b : ℤ) : Integer × Integer := (bigNormalize (a.fdiv b), bigNormalize (a.fmod b))

def bigCeiling (a b : ℤ) : Integer × Integer :=
  let q := -(-a).fdiv b
  (bigNormalize q, bigNormalize (a - q * b))

def plus : Integer → Integer → Integer
  | .fixnum x, .fixnum y => makeInteger (x.toInt + y.toInt)
  | .fixnum x, .bignum y => bigPlusFix y x.toInt
  | .bignum x, .fixnum y => bigPlusFix x y.toInt
  | .bignum x, .bignum y => bigPlusBig x y

def minus : Integer → Integer → Integer
  | .fixnum x, .fixnum y => makeInteger (x.toInt - y.toInt)
  | .fixnum x, .bignum y => fixMinusBig x.toInt y
  | .bignum x, .fixnum y => bigPlusFix x (-y.toInt)
  | .bignum x, .bignum y => bigMinusBig x y

def times : Integer → Integer → Integer
  | .fixnum x, .fixnum y => fixTimesFix x.toInt y.toInt
  | .fixnum x, .bignum y => bigTimesFix y x
  | .bignum x, .fixnum y => bigTimesFix x y
  | .bignum x, .bignum y => bigTimesBig x y

def negate : Integer → Integer
  | .fixnum x => makeInteger (-x.toInt)
  | .bignum x => bigNegate x

def integerDivide : Integer → Integer → Except ArithmeticError Integer
  | .fixnum x, .fixnum y =>
    if y = 0 then .error .divisionByZero else .ok (makeFixnum (x.toInt.tdiv y.toInt))
  | .fixnum x, .bignum y => .ok (fixDividedByBig x.toInt y)
  | .bignum x, .fixnum y =>
    if y = 0 then .error .divisionByZero else .ok (bigDividedByFix x y.toInt)
  | .bignum x, .bignum y => .ok (bigDividedByBig x y)

def gcd (x y : Integer) : Integer := bigGcd x.value y.value

theorem Fixnum.bounds (n : Fixnum) : mostNegativeFixnum ≤ n.toInt ∧ n.toInt ≤ mostPositiveFixnum := by
  have hl := BitVec.le_toInt n
  have hu := BitVec.toInt_lt (x := n)
  simp only [mostNegativeFixnum, mostPositiveFixnum]
  omega

@[simp] theorem value_fixnum (n : Fixnum) : (Integer.fixnum n).value = n.toInt := rfl
@[simp] theorem value_bignum (z : ℤ) : (Integer.bignum z).value = z := rfl

theorem value_makeFixnum {i : ℤ} (h : FitsFixnum i) : (makeFixnum i).value = i := by
  obtain ⟨hl, hu⟩ := h
  simp only [mostNegativeFixnum, mostPositiveFixnum] at hl hu
  apply BitVec.toInt_ofInt_eq_self (by decide) <;> omega

theorem canonical_fixnum (n : Fixnum) : Canonical (.fixnum n) :=
  ⟨fun _ => Fixnum.bounds n, fun _ => rfl⟩

theorem canonical_bignum {z : ℤ} : Canonical (.bignum z) ↔ ¬ FitsFixnum z := by
  simp [Canonical, Integer.isFixnum]

theorem canonical_makeFixnum (i : ℤ) : Canonical (makeFixnum i) := canonical_fixnum _

theorem value_makeInteger (l : ℤ) : (makeInteger l).value = l := by
  unfold makeInteger
  split
  · rfl
  · next h => exact value_makeFixnum ⟨by omega, by omega⟩

theorem canonical_makeInteger (l : ℤ) : Canonical (makeInteger l) := by
  unfold makeInteger
  split
  · next h =>
    rw [canonical_bignum]
    rintro ⟨hl, hu⟩
    omega
  · exact canonical_makeFixnum l

theorem bigNormalize_eq (x : ℤ) :
    bigNormalize x = if FitsFixnum x then makeFixnum x else .bignum x := by
  simp only [bigNormalize, FitsFixnum, mostNegativeFixnum, mostPositiveFixnum]
  grind

theorem value_bigNormalize (x : ℤ) : (bigNormalize x).value = x := by
  rw [bigNormalize_eq]
  split
  · next h => exact value_makeFixnum h
  · rfl

theorem canonical_bigNormalize (x : ℤ) : Canonical (bigNormalize x) := by
  rw [bigNormalize_eq]
  split
  · exact canonical_makeFixnum x
  · next h => exact canonical_bignum.mpr h

theorem value_plus (x y : Integer) : (plus x y).value = x.value + y.value := by
  cases x <;> cases y <;>
    simp only [plus, bigPlusFix, bigPlusBig, value_makeInteger, value_bigNormalize, value_fixnum,
      value_bignum, Int.add_comm]

theorem canonical_plus (x y : Integer) : Canonical (plus x y) := by
  cases x <;> cases y
  · apply canonical_makeInteger
  all_goals apply canonical_bigNormalize

theorem value_minus (x y : Integer) : (minus x y).value = x.value - y.value := by
  cases x <;> cases y <;>
    simp only [minus, bigPlusFix, bigPlusBig, fixMinusBig, bigMinusBig, value_makeInteger,
      value_bigNormalize, value_fixnum, value_bignum, Int.sub_eq_add_neg]

theorem canonical_minus (x y : Integer) : Canonical (minus x y) := by
  cases x <;> cases y
  · apply canonical_makeInteger
  all_goals apply canonical_bigNormalize

theorem value_bigTimesFix (b : ℤ) (i : Fixnum) : (bigTimesFix b i).value = b * i.toInt := by
  unfold bigTimesFix
  split
  · next h => simp [h, makeFixnum]
  · split
    · next h => simp [h]
    · rfl

theorem value_times (x y : Integer) : (times x y).value = x.value * y.value := by
  cases x <;> cases y <;>
    simp only [times, fixTimesFix, bigTimesBig, value_bigTimesFix, value_bigNormalize, value_fixnum,
      value_bignum, Int.mul_comm]

theorem value_negate (x : Integer) : (negate x).value = -x.value := by
  cases x <;> simp only [negate, bigNegate, value_makeInteger, value_bigNormalize, value_fixnum,
    value_bignum]

theorem canonical_negate (x : Integer) : Canonical (negate x) := by
  cases x
  · apply canonical_makeInteger
  · apply canonical_bigNormalize

theorem value_gcd (x y : Integer) : (gcd x y).value = Int.gcd x.value y.value :=
  value_bigNormalize _

theorem canonical_gcd (x y : Integer) : Canonical (gcd x y) := canonical_bigNormalize _

end Integers
