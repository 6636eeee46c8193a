import Ecl.Integers
import Mathlib.Tactic.Linarith
import Mathlib.Tactic.Positivity

/-! BOOLE and ASH of src/c/num_log.d with the tables of operations there and in bignum.d. -/
namespace LogicalOperations

open Integers

/-- The ECL_BOOL constants, in the order of both tables. -/
inductive BooleOp where
  | clr | and | andc2 | op1 | andc1 | op2 | xor | ior | nor | eqv | c2 | orc2 | c1 | orc1 | nand | set
  deriving DecidableEq

def BooleOp.bit : BooleOp → Bool → Bool → Bool
  | .clr, _, _ => false
  | .and, a, b => a && b
  | .andc2, a, b => a && !b
  | .op1, a, _ => a
  | .andc1, a, b => !a && b
  | .op2, _, b => b
  | .xor, a, b => a ^^ b
  | .ior, a, b => a || b
  | .nor, a, b => !(a || b)
  | .eqv, a, b => !(a ^^ b)
  | .c2, _, b => !b
  | .orc2, a, b => a || !b
  | .c1, a, _ => !a
  | .orc1, a, b => !a || b
  | .nand, a, b => !(a && b)
  | .set, _, _ => true

def fixnumOperation : BooleOp → ℤ → ℤ → ℤ
  | .clr, _, _ => 0
  | .and, i, j => i.land j
  | .andc2, i, j => i.land j.lnot
  | .op1, i, _ => i
  | .andc1, i, j => i.lnot.land j
  | .op2, _, j => j
  | .xor, i, j => i.xor j
  | .ior, i, j => i.lor j
  | .nor, i, j => (i.lor j).lnot
  | .eqv, i, j => (i.xor j).lnot
  | .c2, _, j => j.lnot
  | .orc2, i, j => i.lor j.lnot
  | .c1, i, _ => i.lnot
  | .orc1, i, j => i.lnot.lor j
  | .nand, i, j => (i.land j).lnot
  | .set, _, _ => -1

def mpzAndc1Op (i j : ℤ) : ℤ := i.lnot.land j
def mpzOrc1Op (i j : ℤ) : ℤ := i.lnot.lor j

/-- The result may replace the first argument, which every operation reads first. -/
def bignumOperation : BooleOp → ℤ → ℤ → ℤ
  | .clr, _, _ => 0
  | .and, i, j => i.land j
  | .andc2, i, j => (mpzOrc1Op i j).lnot
  | .op1, i, _ => i
  | .andc1, i, j => mpzAndc1Op i j
  | .op2, _, j => j
  | .xor, i, j => i.xor j
  | .ior, i, j => i.lor j
  | .nor, i, j => (i.lor j).lnot
  | .eqv, i, j => (i.xor j).lnot
  | .c2, _, j => j.lnot
  | .orc2, i, j => (mpzAndc1Op i j).lnot
  | .c1, i, _ => i.lnot
  | .orc1, i, j => mpzOrc1Op i j
  | .nand, i, j => (i.land j).lnot
  | .set, _, _ => -1

def boole (op : BooleOp) : Integer → Integer → Integer
  | .fixnum x, .fixnum y => makeFixnum (fixnumOperation op x.toInt y.toInt)
  | .fixnum x, .bignum y => bigNormalize (bignumOperation op x.toInt y)
  | .bignum x, .fixnum y => bigNormalize (bignumOperation op x y.toInt)
  | .bignum x, .bignum y => bigNormalize (bignumOperation op x y)

/-- A left shift by w, or a right shift by -w; a cl_fixnum has 64 bits. -/
def ash (x : Integer) (w : ℤ) : Integer :=
  if w = 0 then x
  else if w < 0 then
    let bits := (-w).toNat
    match x with
    | .fixnum y =>
      if bits ≥ 64 then makeFixnum (if y.toInt < 0 then -1 else 0)
      else makeFixnum (y.toInt >>> bits)
    | .bignum x => bigNormalize (x.fdiv (2 ^ bits))
  else bigNormalize (x.value * 2 ^ w.toNat)

theorem eq_of_testBit_eq {a b : ℤ} (h : ∀ k, a.testBit k = b.testBit k) : a = b := by
  have high (m n : ℕ) : ∃ k, m.testBit k = false ∧ n.testBit k = false :=
    ⟨m + n, Nat.testBit_lt_two_pow (lt_of_le_of_lt (Nat.le_add_right m n) Nat.lt_two_pow_self),
      Nat.testBit_lt_two_pow (lt_of_le_of_lt (Nat.le_add_left n m) Nat.lt_two_pow_self)⟩
  cases a with
  | ofNat m =>
    cases b with
    | ofNat n =>
      congr 1
      exact Nat.eq_of_testBit_eq h
    | negSucc n =>
      obtain ⟨k, hm, hn⟩ := high m n
      have hk := h k
      simp [Int.testBit, hm, hn] at hk
  | negSucc m =>
    cases b with
    | ofNat n =>
      obtain ⟨k, hm, hn⟩ := high m n
      have hk := h k
      simp [Int.testBit, hm, hn] at hk
    | negSucc n =>
      congr 1
      apply Nat.eq_of_testBit_eq
      intro k
      simpa [Int.testBit] using h k

theorem testBit_zero (k : ℕ) : (0 : ℤ).testBit k = false := by
  change Nat.testBit 0 k = false
  exact Nat.zero_testBit k

theorem testBit_neg_one (k : ℕ) : (-1 : ℤ).testBit k = true := by
  change (!Nat.testBit 0 k) = true
  simp

theorem fixnumOperation_eq (op : BooleOp) (i j : ℤ) : fixnumOperation op i j = Int.bitwise op.bit i j := by
  apply eq_of_testBit_eq
  intro k
  cases op <;> simp [fixnumOperation, BooleOp.bit, Int.testBit_bitwise, Int.testBit_land,
    Int.testBit_lor, Int.testBit_lxor, Int.testBit_lnot, testBit_zero, testBit_neg_one]

theorem bignumOperation_eq (op : BooleOp) (i j : ℤ) : bignumOperation op i j = Int.bitwise op.bit i j := by
  apply eq_of_testBit_eq
  intro k
  cases op <;> simp [bignumOperation, mpzAndc1Op, mpzOrc1Op, BooleOp.bit, Int.testBit_bitwise,
    Int.testBit_land, Int.testBit_lor, Int.testBit_lxor, Int.testBit_lnot, testBit_zero, testBit_neg_one]

def magnitude : ℤ → ℕ
  | .ofNat n => n
  | .negSucc n => n

theorem fitsFixnum_iff (z : ℤ) : FitsFixnum z ↔ magnitude z < 2 ^ 61 := by
  cases z with
  | ofNat n => simp only [FitsFixnum, mostNegativeFixnum, mostPositiveFixnum, magnitude,
      Int.ofNat_eq_natCast]; omega
  | negSucc n => simp only [FitsFixnum, mostNegativeFixnum, mostPositiveFixnum, magnitude,
      Int.negSucc_eq]; omega

theorem magnitude_natBitwise {f : Bool → Bool → Bool} {m n k : ℕ} (hm : m < 2 ^ k) (hn : n < 2 ^ k) :
    magnitude (Int.natBitwise f m n) < 2 ^ k := by
  unfold Int.natBitwise
  cases f false false
  · exact Nat.bitwise_lt_two_pow hm hn
  · exact Nat.bitwise_lt_two_pow hm hn

theorem fits_bitwise {f : Bool → Bool → Bool} {i j : ℤ} (hi : FitsFixnum i) (hj : FitsFixnum j) :
    FitsFixnum (Int.bitwise f i j) := by
  rw [fitsFixnum_iff] at *
  cases i with
  | ofNat m => cases j with
    | ofNat n => exact magnitude_natBitwise hi hj
    | negSucc n => exact magnitude_natBitwise (f := fun x y => f x !y) (m := m) (n := n) hi hj
  | negSucc m => cases j with
    | ofNat n => exact magnitude_natBitwise (f := fun x y => f (!x) y) (m := m) (n := n) hi hj
    | negSucc n => exact magnitude_natBitwise (f := fun x y => f (!x) !y) (m := m) (n := n) hi hj

theorem value_boole (op : BooleOp) (x y : Integer) :
    (boole op x y).value = Int.bitwise op.bit x.value y.value := by
  cases x with
  | fixnum x =>
    cases y with
    | fixnum y =>
      rw [boole, fixnumOperation_eq]
      exact value_makeFixnum (fits_bitwise x.bounds y.bounds)
    | bignum y => rw [boole, value_bigNormalize, bignumOperation_eq]; rfl
  | bignum x => cases y <;> rw [boole, value_bigNormalize, bignumOperation_eq] <;> rfl

theorem canonical_boole (op : BooleOp) (x y : Integer) : Canonical (boole op x y) := by
  cases x <;> cases y
  · apply canonical_makeFixnum
  all_goals apply canonical_bigNormalize

theorem fits_shiftRight {n : ℤ} (bits : ℕ) (hn : FitsFixnum n) : FitsFixnum (n >>> bits) := by
  obtain ⟨hl, hu⟩ := hn
  rw [FitsFixnum, Int.shiftRight_eq_div_pow]
  have hp : (0 : ℤ) < 2 ^ bits := by positivity
  have h1 : (1 : ℤ) ≤ 2 ^ bits := hp
  simp only [mostNegativeFixnum, mostPositiveFixnum] at *
  push_cast
  constructor
  · rw [Int.le_ediv_iff_mul_le hp]
    nlinarith
  · apply Int.le_of_lt_add_one
    rw [Int.ediv_lt_iff_lt_mul hp]
    nlinarith

theorem shiftRight_of_wide {n : ℤ} {bits : ℕ} (hn : FitsFixnum n) (h : 64 ≤ bits) :
    n >>> bits = if n < 0 then -1 else 0 := by
  have hp : (2 : ℤ) ^ 64 ≤ 2 ^ bits := by exact_mod_cast Nat.pow_le_pow_right (by decide) h
  obtain ⟨hl, hu⟩ := hn
  simp only [mostNegativeFixnum, mostPositiveFixnum] at hl hu
  rw [Int.shiftRight_eq_div_pow]
  push_cast
  split
  · have hpos : (0 : ℤ) < 2 ^ bits := by omega
    have hq := (Int.ediv_emod_unique hpos (a := n) (r := n + 2 ^ bits) (q := -1)).mpr
      ⟨by ring, by omega, by omega⟩
    exact hq.1
  · exact Int.ediv_eq_zero_of_lt (by omega) (by omega)

def shifted (z w : ℤ) : ℤ := if w < 0 then z / 2 ^ (-w).toNat else z * 2 ^ w.toNat

theorem value_ash (x : Integer) (w : ℤ) : (ash x w).value = shifted x.value w := by
  unfold ash shifted
  split
  · next h => simp [h]
  · split
    · cases x with
      | fixnum y =>
        have hfits : FitsFixnum y.toInt := y.bounds
        have hexact : y.toInt >>> (-w).toNat = y.toInt / 2 ^ (-w).toNat := by
          rw [Int.shiftRight_eq_div_pow]
          push_cast
          rfl
        dsimp only
        split
        · next hwide =>
          rw [← shiftRight_of_wide hfits hwide, value_makeFixnum (fits_shiftRight _ hfits)]
          exact hexact
        · rw [value_makeFixnum (fits_shiftRight _ hfits)]
          exact hexact
      | bignum z =>
        rw [value_bigNormalize, Int.fdiv_eq_ediv_of_nonneg _ (by positivity)]
        rfl
    · exact value_bigNormalize _

theorem canonical_ash {x : Integer} (hx : Canonical x) (w : ℤ) : Canonical (ash x w) := by
  unfold ash
  split
  · exact hx
  · split
    · cases x with
      | fixnum y =>
        dsimp only
        split <;> apply canonical_makeFixnum
      | bignum z => apply canonical_bigNormalize
    · apply canonical_bigNormalize

end LogicalOperations
