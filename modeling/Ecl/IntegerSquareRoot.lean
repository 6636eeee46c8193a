import Mathlib.Data.Nat.Size
import Mathlib.Tactic.Linarith

/-! ISQRT of src/lsp/numlib.lsp. After the check of the argument all values are natural numbers. -/
namespace IntegerSquareRoot

/-- The body of the do loop. -/
def newton (i x : ℕ) : ℕ :=
  let y := i / x
  if x ≤ y then x else newton i ((x + y) / 2)
termination_by x
decreasing_by omega

def integerLength (i : ℕ) : ℕ := i.size

def ceilingHalf (n : ℕ) : ℕ := (n + 1) / 2

/-- None is the type error. -/
def isqrt (i : ℤ) : Option ℕ :=
  if i < 0 then none
  else if i = 0 then some 0
  else some (newton i.toNat (1 <<< ceilingHalf (integerLength i.toNat)))

theorem step_upper {i x : ℕ} (hx : 0 < x) : i < ((x + i / x) / 2 + 1) * ((x + i / x) / 2 + 1) := by
  have hquotient : i < x * (i / x + 1) := Nat.lt_mul_div_succ i hx
  have hmean : x + (i / x + 1) ≤ 2 * ((x + i / x) / 2 + 1) := by omega
  generalize i / x = y at hquotient hmean ⊢
  generalize (x + y) / 2 + 1 = m at hmean ⊢
  have hsquare := Nat.mul_le_mul hmean hmean
  zify at hsquare hquotient ⊢
  nlinarith [sq_nonneg ((x : ℤ) - (y + 1))]

theorem newton_spec {i x : ℕ} (hi : 0 < i) (hx : i < (x + 1) * (x + 1)) :
    newton i x * newton i x ≤ i ∧ i < (newton i x + 1) * (newton i x + 1) := by
  induction x using Nat.strongRecOn with
  | ind x ih =>
    have hpos : 0 < x := by
      rcases Nat.eq_zero_or_pos x with rfl | hpos
      · omega
      · exact hpos
    rw [newton]
    split
    · next hle => exact ⟨(Nat.le_div_iff_mul_le hpos).mp hle, hx⟩
    · next hlt => exact ih _ (by omega) (step_upper hpos)

theorem start_upper (i : ℕ) :
    i < (1 <<< ceilingHalf (integerLength i) + 1) * (1 <<< ceilingHalf (integerLength i) + 1) := by
  have hsize : i < 2 ^ integerLength i := Nat.lt_size_self i
  rw [Nat.shiftLeft_eq, Nat.one_mul]
  have hhalf : integerLength i ≤ ceilingHalf (integerLength i) + ceilingHalf (integerLength i) := by
    rw [ceilingHalf]
    omega
  calc i < 2 ^ integerLength i := hsize
    _ ≤ 2 ^ (ceilingHalf (integerLength i) + ceilingHalf (integerLength i)) :=
        Nat.pow_le_pow_right (by decide) hhalf
    _ = 2 ^ ceilingHalf (integerLength i) * 2 ^ ceilingHalf (integerLength i) := Nat.pow_add 2 _ _
    _ ≤ _ := Nat.mul_le_mul (Nat.le_succ _) (Nat.le_succ _)

end IntegerSquareRoot
