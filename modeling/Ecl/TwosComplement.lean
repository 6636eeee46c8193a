import Ecl.CanonicalIntegers
import Mathlib.Data.Rat.Floor

/-! The operators of src/c/bignum.d work on memory: the output may be the first argument. -/
namespace LogicalOperations

open Integers

/-- The mpz_t that ecl_boole works on: two registers of the thread, and the arguments. -/
inductive Mpz where
  | register0
  | register1
  | first
  | second
  deriving DecidableEq

abbrev BigMemory := Mpz → ℤ

/-- mpz_com, mpz_and and the like read their arguments before they write. -/
def mpzCom (out i : Mpz) (m : BigMemory) : BigMemory := Function.update m out (m i).lnot
def mpzAnd (out i j : Mpz) (m : BigMemory) : BigMemory := Function.update m out ((m i).land (m j))
def mpzIor (out i j : Mpz) (m : BigMemory) : BigMemory := Function.update m out ((m i).lor (m j))
def mpzXor (out i j : Mpz) (m : BigMemory) : BigMemory := Function.update m out ((m i).xor (m j))
def mpzSet (out i : Mpz) (m : BigMemory) : BigMemory := Function.update m out (m i)
def mpzSetSi (out : Mpz) (n : ℤ) (m : BigMemory) : BigMemory := Function.update m out n

/-- The table bignum_operations; andc2 and orc2 start with the operators for orc1 and andc1. -/
def booleOperator : BooleOp → Mpz → Mpz → Mpz → BigMemory → BigMemory
  | .clr, out, _, _, m => mpzSetSi out 0 m
  | .and, out, i, j, m => mpzAnd out i j m
  | .andc2, out, i, j, m => mpzCom out out (mpzIor out out j (mpzCom out i m))
  | .op1, out, i, _, m => if i ≠ out then mpzSet out i m else m
  | .andc1, out, i, j, m => mpzAnd out out j (mpzCom out i m)
  | .op2, out, _, j, m => mpzSet out j m
  | .xor, out, i, j, m => mpzXor out i j m
  | .ior, out, i, j, m => mpzIor out i j m
  | .nor, out, i, j, m => mpzCom out out (mpzIor out i j m)
  | .eqv, out, i, j, m => mpzCom out out (mpzXor out i j m)
  | .c2, out, _, j, m => mpzCom out j m
  | .orc2, out, i, j, m => mpzCom out out (mpzAnd out out j (mpzCom out i m))
  | .c1, out, i, _, m => mpzCom out i m
  | .orc1, out, i, j, m => mpzIor out out j (mpzCom out i m)
  | .nand, out, i, j, m => mpzCom out out (mpzAnd out i j m)
  | .set, out, _, _, m => mpzSetSi out (-1) m

/-- ecl_boole; memory holds what the calls before have left in the registers. -/
def eclBoole (op : BooleOp) (memory : BigMemory) : Integer → Integer → Integer
  | .fixnum x, .fixnum y => makeFixnum (fixnumOperation op x.toInt y.toInt)
  | .fixnum x, .bignum y =>
    let m := mpzSetSi .register0 x.toInt (Function.update memory .second y)
    bigNormalize (booleOperator op .register0 .register0 .second m .register0)
  | .bignum x, .fixnum y =>
    let m := mpzSetSi .register1 y.toInt (Function.update memory .first x)
    bigNormalize (booleOperator op .register0 .first .register1 m .register0)
  | .bignum x, .bignum y =>
    let m := Function.update (Function.update memory .first x) .second y
    bigNormalize (booleOperator op .register0 .first .second m .register0)

theorem booleOperator_out (op : BooleOp) {out j : Mpz} (h : j ≠ out) (i : Mpz) (m : BigMemory) :
    booleOperator op out i j m out = bignumOperation op (m i) (m j) := by
  cases op with
  | op1 =>
    simp only [booleOperator, bignumOperation, mpzSet]
    split
    · exact Function.update_self ..
    · next hout =>
      rw [not_not] at hout
      rw [hout]
  | _ => simp [booleOperator, bignumOperation, mpzAndc1Op, mpzOrc1Op, mpzCom, mpzAnd, mpzIor, mpzXor,
      mpzSet, mpzSetSi, h]

theorem eclBoole_eq (op : BooleOp) (memory : BigMemory) (x y : Integer) :
    eclBoole op memory x y = boole op x y := by
  cases x with
  | fixnum x =>
    cases y with
    | fixnum y => rfl
    | bignum y =>
      simp only [eclBoole, boole]
      rw [booleOperator_out op (by decide)]
      rfl
  | bignum x =>
    cases y with
    | fixnum y | bignum y =>
      simp only [eclBoole, boole]
      rw [booleOperator_out op (by decide)]
      rfl

end LogicalOperations

namespace LogicalOperations

open Integers

/-- cl_logbitp, which signals for a negative position. A bignum has fewer bits than a position
that is itself a bignum. -/
def logbitp : Integer → Integer → Option Bool
  | .fixnum p, x =>
    if p.toInt < 0 then none
    else
      let n := p.toInt.toNat
      match x with
      | .fixnum y => some (if n ≥ 64 then y.toInt < 0 else (y.toInt >>> n) % 2 = 1)
      | .bignum z => some (z.testBit n)
  | .bignum p, x =>
    if p < 0 then none
    else
      match x with
      | .fixnum y => some (y.toInt < 0)
      | .bignum z => some (z < 0)

/-- The loop of ecl_fixnum_bit_length; there are 64 bits in a cl_fixnum. -/
def bitLengthLoop : ℕ → ℕ → ℕ → ℕ
  | 0, _, count => count
  | bits + 1, i, count => if i = 0 then count else bitLengthLoop bits (i / 2) (count + 1)

def fixnumBitLength (i : ℤ) : ℕ := bitLengthLoop 64 (if i < 0 then i.lnot else i).toNat 0

def toInt32 (n : ℕ) : ℤ := (BitVec.ofNat 32 n).toInt

/-- ecl_integer_length counts in an int. -/
def integerLength : Integer → Integer
  | .fixnum i => makeFixnum (fixnumBitLength i.toInt)
  | .bignum z =>
    let z := if z < 0 then (boole .xor (.bignum z) (makeFixnum (-1))).value else z
    makeFixnum (toInt32 z.natAbs.size)

/-- An mpz_t counts its limbs in an int. -/
def Allocated : Integer → Prop
  | .fixnum _ => True
  | .bignum z => z.natAbs.size ≤ 64 * (2 ^ 31 - 1)

structure IsLength (z : ℤ) (l : ℕ) : Prop where
  sign : ∀ b, l ≤ b → z.testBit b = decide (z < 0)
  last : ∀ b, b + 1 = l → z.testBit b ≠ decide (z < 0)

def bitLength (z : ℤ) : ℕ := (magnitude z).size

theorem testBit_magnitude (z : ℤ) (b : ℕ) :
    z.testBit b = ((magnitude z).testBit b ^^ decide (z < 0)) := by
  cases z with
  | ofNat n =>
    have hsign : ¬ Int.ofNat n < 0 := Int.not_lt.mpr (Int.natCast_nonneg n)
    rw [decide_eq_false hsign, Bool.xor_false]
    rfl
  | negSucc n => simp [Int.testBit, magnitude, Int.negSucc_lt_zero]

theorem isLength_bitLength (z : ℤ) : IsLength z (bitLength z) where
  sign := by
    intro b hb
    rw [testBit_magnitude, Nat.testBit_lt_two_pow (Nat.size_le.mp hb), Bool.false_xor]
  last := by
    intro b hb
    have hlow : 2 ^ b ≤ magnitude z := Nat.lt_size.mp (by rw [bitLength] at hb; omega)
    have hhigh : magnitude z < 2 ^ (b + 1) := Nat.size_le.mp (le_of_eq hb.symm)
    rw [testBit_magnitude, Nat.testBit_eq_decide_div_mod_eq]
    have hone : magnitude z / 2 ^ b = 1 :=
      Nat.div_eq_of_lt_le (by omega) (by rw [pow_succ] at hhigh; omega)
    simp [hone]

theorem IsLength.unique {z : ℤ} {l m : ℕ} (hl : IsLength z l) (hm : IsLength z m) : l = m := by
  by_contra hne
  rcases Nat.lt_or_gt_of_ne hne with hlt | hlt
  · exact hm.last (m - 1) (by omega) (hl.sign (m - 1) (by omega))
  · exact hl.last (l - 1) (by omega) (hm.sign (l - 1) (by omega))

theorem size_half {i : ℕ} (h : i ≠ 0) : i.size = (i / 2).size + 1 := by
  apply le_antisymm
  · have hhalf := Nat.lt_size_self (i / 2)
    rw [Nat.size_le, pow_succ]
    omega
  · rw [Nat.add_one_le_iff, Nat.lt_size]
    cases hs : (i / 2).size with
    | zero => omega
    | succ s =>
      have hlow : 2 ^ s ≤ i / 2 := Nat.lt_size.mp (by omega)
      rw [pow_succ]
      omega

theorem bitLengthLoop_eq (bits i count : ℕ) (h : i < 2 ^ bits) :
    bitLengthLoop bits i count = count + i.size := by
  induction bits generalizing i count with
  | zero =>
    have hi : i = 0 := by omega
    rw [hi]
    rfl
  | succ bits ih =>
    rw [bitLengthLoop]
    split
    · next hi =>
      rw [hi]
      rfl
    · next hi =>
      have hhalf : i / 2 < 2 ^ bits := by rw [pow_succ] at h; omega
      rw [ih _ _ hhalf, size_half hi]
      omega

theorem magnitude_eq (z : ℤ) : (if z < 0 then z.lnot else z) = magnitude z := by
  cases z with
  | ofNat n => exact if_neg (Int.not_lt.mpr (Int.natCast_nonneg n))
  | negSucc n => exact if_pos (Int.negSucc_lt_zero n)

theorem fixnumBitLength_eq {i : ℤ} (h : FitsFixnum i) : fixnumBitLength i = bitLength i := by
  have hmagnitude : magnitude i < 2 ^ 64 :=
    lt_of_lt_of_le ((fitsFixnum_iff i).mp h) (Nat.pow_le_pow_right (by decide) (by decide))
  rw [fixnumBitLength, magnitude_eq, Int.toNat_natCast, bitLengthLoop_eq _ _ _ hmagnitude, bitLength]
  omega

theorem value_lognot (x : Integer) : (boole .xor x (makeFixnum (-1))).value = x.value.lnot := by
  rw [value_boole]
  apply eq_of_testBit_eq
  intro b
  have hone : (makeFixnum (-1)).value = -1 := by decide
  rw [Int.testBit_bitwise, hone, testBit_neg_one, Int.testBit_lnot]
  simp [BooleOp.bit]

theorem bignumLength_eq (z : ℤ) :
    (if z < 0 then (boole .xor (.bignum z) (makeFixnum (-1))).value else z).natAbs.size =
      bitLength z := by
  rw [value_lognot, value_bignum, magnitude_eq, Int.natAbs_natCast, bitLength]

theorem testBit_eq_shiftRight (z : ℤ) (n : ℕ) : z.testBit n = decide ((z >>> n) % 2 = 1) := by
  have hnat (m : ℕ) : m.testBit n = decide (m / 2 ^ n % 2 = 1) := Nat.testBit_eq_decide_div_mod_eq
  rw [Int.shiftRight_eq_div_pow]
  cases z with
  | ofNat m =>
    rw [show (Int.ofNat m).testBit n = m.testBit n from rfl, hnat, decide_eq_decide,
      Int.ofNat_eq_natCast]
    norm_cast
  | negSucc m =>
    rw [show (Int.negSucc m).testBit n = !m.testBit n from rfl, hnat,
      Int.negSucc_ediv _ (by positivity), ← decide_not, decide_eq_decide]
    have hdiv : (m : ℤ).ediv (2 ^ n : ℕ) = (m / 2 ^ n : ℕ) := rfl
    rw [hdiv]
    generalize m / 2 ^ n = q
    omega

theorem testBit_of_length_le {z : ℤ} {n : ℕ} (h : bitLength z ≤ n) : z.testBit n = decide (z < 0) :=
  (isLength_bitLength z).sign n h

theorem bitLength_fixnum (y : Fixnum) : bitLength y.toInt ≤ 61 :=
  Nat.size_le.mpr ((fitsFixnum_iff y.toInt).mp y.bounds)

theorem bitLength_le_size (z : ℤ) : bitLength z ≤ z.natAbs.size := by
  apply Nat.size_le_size
  cases z with
  | ofNat n => exact le_refl n
  | negSucc n => exact Nat.le_succ n

theorem logbitp_eq {p x : Integer} (hp : Canonical p) (hpos : 0 ≤ p.value) (hx : Allocated x) :
    logbitp p x = some (x.value.testBit p.value.toNat) := by
  cases p with
  | fixnum p =>
    have hsign : ¬ p.toInt < 0 := Int.not_lt.mpr hpos
    cases x with
    | fixnum y =>
      simp only [logbitp, if_neg hsign, value_fixnum, Option.some.injEq]
      split
      · next hn => rw [testBit_of_length_le (le_trans (bitLength_fixnum y) (by omega))]
      · rw [testBit_eq_shiftRight]
    | bignum z => exact if_neg hsign
  | bignum p =>
    have hsign : ¬ p < 0 := Int.not_lt.mpr hpos
    have hlarge : 2 ^ 61 ≤ p.toNat := by
      have hfits := canonical_bignum.mp hp
      simp only [FitsFixnum, mostNegativeFixnum, mostPositiveFixnum, value_bignum] at hfits hpos
      omega
    cases x with
    | fixnum y =>
      simp only [logbitp, if_neg hsign, value_fixnum, value_bignum]
      rw [testBit_of_length_le (le_trans (bitLength_fixnum y) (by omega))]
    | bignum z =>
      have hsize : z.natAbs.size ≤ 64 * (2 ^ 31 - 1) := hx
      simp only [logbitp, if_neg hsign, value_bignum]
      rw [testBit_of_length_le (le_trans (bitLength_le_size z) (by omega))]

theorem toInt32_eq_iff (n : ℕ) : toInt32 n = n ↔ n < 2 ^ 31 := by
  rw [toInt32, BitVec.toInt_ofNat']
  constructor
  · intro h
    have hlt := Int.bmod_lt (x := n) (m := 2 ^ 32) (by decide)
    omega
  · intro h
    exact Int.bmod_eq_of_le (by omega) (by omega)

theorem value_integerLength (x : Integer) :
    (integerLength x).value = toInt32 (bitLength x.value) := by
  have hfits (n : ℕ) : FitsFixnum (toInt32 n) := by
    have hlow := BitVec.le_toInt (BitVec.ofNat 32 n)
    have hhigh := BitVec.toInt_lt (x := BitVec.ofNat 32 n)
    simp only [FitsFixnum, mostNegativeFixnum, mostPositiveFixnum, toInt32]
    omega
  cases x with
  | fixnum i =>
    have hlength := bitLength_fixnum i
    have hexact := (toInt32_eq_iff (bitLength i.toInt)).mpr (by omega)
    rw [integerLength, fixnumBitLength_eq i.bounds, value_fixnum, ← hexact]
    exact value_makeFixnum (hexact ▸ hfits _)
  | bignum z =>
    rw [integerLength, bignumLength_eq, value_bignum]
    exact value_makeFixnum (hfits _)

theorem shifted_eq_floor (z w : ℤ) : shifted z w = ⌊(z : ℚ) * 2 ^ w⌋ := by
  rw [shifted]
  split
  · next hw =>
    obtain ⟨k, rfl⟩ : ∃ k : ℕ, w = -k := ⟨(-w).toNat, by omega⟩
    rw [neg_neg, Int.toNat_natCast, zpow_neg, zpow_natCast, ← div_eq_mul_inv]
    have hfloor := Rat.floor_intCast_div_natCast z (2 ^ k)
    push_cast at hfloor
    exact hfloor.symm
  · next hw =>
    obtain ⟨k, rfl⟩ : ∃ k : ℕ, w = k := ⟨w.toNat, by omega⟩
    rw [Int.toNat_natCast, zpow_natCast]
    exact_mod_cast (Int.floor_intCast (z * 2 ^ k)).symm

structure AgreesWithExpansion (x : Integer) : Prop where
  boole : ∀ op memory y b, (eclBoole op memory x y).value.testBit b =
    op.bit (x.value.testBit b) (y.value.testBit b)
  ash : ∀ w : Fixnum, (LogicalOperations.ash x w.toInt).value = ⌊(x.value : ℚ) * 2 ^ w.toInt⌋
  logbitp : ∀ p, Canonical p → 0 ≤ p.value →
    LogicalOperations.logbitp p x = some (x.value.testBit p.value.toNat)
  integerLength : ∃ l : ℕ, IsLength x.value l ∧ (LogicalOperations.integerLength x).value = l

theorem testBit_eclBoole (op : BooleOp) (memory : BigMemory) (x y : Integer) (b : ℕ) :
    (eclBoole op memory x y).value.testBit b = op.bit (x.value.testBit b) (y.value.testBit b) := by
  rw [eclBoole_eq, value_boole, Int.testBit_bitwise]

theorem value_ash_eq_floor (x : Integer) (w : Fixnum) :
    (ash x w.toInt).value = ⌊(x.value : ℚ) * 2 ^ w.toInt⌋ := by
  rw [value_ash, shifted_eq_floor]

theorem integerLength_agrees_iff (x : Integer) :
    (∃ l : ℕ, IsLength x.value l ∧ (integerLength x).value = l) ↔ bitLength x.value < 2 ^ 31 := by
  rw [value_integerLength, ← toInt32_eq_iff]
  constructor
  · rintro ⟨l, hl, hvalue⟩
    rwa [hl.unique (isLength_bitLength x.value)] at hvalue
  · exact fun h => ⟨bitLength x.value, isLength_bitLength x.value, h⟩

/-- The logical operations agree with the expansion of every integer, as long as its length can
be counted in an int. -/
theorem agreesWithExpansion_iff {x : Integer} (hx : Allocated x) :
    AgreesWithExpansion x ↔ bitLength x.value < 2 ^ 31 := by
  rw [← integerLength_agrees_iff]
  constructor
  · exact fun h => h.integerLength
  · intro h
    constructor
    case boole => exact fun op memory y b => testBit_eclBoole op memory x y b
    case ash => exact value_ash_eq_floor x
    case logbitp => exact fun p hp hpos => logbitp_eq hp hpos hx
    case integerLength => exact h

theorem bitLength_two_pow (n : ℕ) : bitLength (2 ^ n) = n + 1 := by
  have hcast : (2 ^ n : ℤ) = (2 ^ n : ℕ) := by push_cast; rfl
  rw [hcast]
  exact Nat.size_pow

theorem agreesWithExpansion_large : AgreesWithExpansion (.bignum (2 ^ 64)) := by
  have hsize : (2 ^ 64 : ℤ).natAbs.size ≤ 64 * (2 ^ 31 - 1) := by
    rw [Int.natAbs_pow]
    exact le_trans (le_of_eq Nat.size_pow) (by decide)
  refine (agreesWithExpansion_iff (x := .bignum (2 ^ 64)) hsize).mpr ?_
  rw [value_bignum, bitLength_two_pow]
  decide

/-- A number of 2^31 + 1 bits has a negative length. -/
theorem integerLength_overflows : ∃ n : ℕ, n = 2 ^ 31 ∧ Canonical (.bignum (2 ^ n)) ∧
    Allocated (.bignum (2 ^ n)) ∧ (integerLength (.bignum (2 ^ n))).value = 1 - 2 ^ 31 ∧
    ¬ AgreesWithExpansion (.bignum (2 ^ n)) := by
  refine ⟨2 ^ 31, rfl, ?_⟩
  generalize hn : 2 ^ 31 = n
  have hlength : bitLength (2 ^ n) = n + 1 := bitLength_two_pow n
  refine ⟨?_, ?_, ?_, fun hagrees => ?_⟩
  · rw [canonical_bignum, fitsFixnum_iff, ← Nat.size_le, ← bitLength, hlength]
    omega
  · have hsize : (2 ^ n : ℤ).natAbs.size = n + 1 := by
      rw [Int.natAbs_pow]
      exact Nat.size_pow
    simp only [Allocated, hsize]
    omega
  · rw [value_integerLength, value_bignum, hlength, ← hn]
    decide
  · have hshort := (integerLength_agrees_iff _).mp hagrees.integerLength
    rw [value_bignum, hlength] at hshort
    omega

end LogicalOperations
