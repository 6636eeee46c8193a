import Mathlib.Algebra.BigOperators.Group.List.Basic
import Mathlib.Tactic.Ring

/-! Numbers written with a base of its own for each digit, the first digit the highest. -/
namespace MixedRadix

def evaluate : List ℕ → List ℕ → ℕ → ℕ
  | b :: bases, d :: digits, j => evaluate bases digits (j * b + d)
  | _, _, j => j

def Digits (digits bases : List ℕ) : Prop := List.Forall₂ (· < ·) digits bases

section
variable {bases digits digits' : List ℕ}

theorem evaluate_add (h : Digits digits bases) (j : ℕ) :
    evaluate bases digits j = j * bases.prod + evaluate bases digits 0 := by
  induction h generalizing j with
  | nil => simp [evaluate]
  | @cons d b digits bases hdb h ih =>
    rw [evaluate, evaluate, ih (j * b + d), ih (0 * b + d), List.prod_cons]
    ring

theorem evaluate_lt (h : Digits digits bases) : evaluate bases digits 0 < bases.prod := by
  induction h with
  | nil => simp [evaluate]
  | @cons d b digits bases hdb h ih =>
    rw [evaluate, evaluate_add h, List.prod_cons, zero_mul, zero_add]
    calc d * bases.prod + evaluate bases digits 0 < d * bases.prod + bases.prod := by omega
      _ = (d + 1) * bases.prod := by ring
      _ ≤ b * bases.prod := Nat.mul_le_mul_right _ hdb

theorem evaluate_inj (h : Digits digits bases) (h' : Digits digits' bases)
    (heq : evaluate bases digits 0 = evaluate bases digits' 0) : digits = digits' := by
  induction h generalizing digits' with
  | nil =>
    cases h'
    rfl
  | @cons d b digits bases hdb h ih =>
    cases h' with
    | @cons d' _ digits' _ hdb' h' =>
      rw [evaluate, evaluate, evaluate_add h, evaluate_add h', zero_mul, zero_add, zero_add] at heq
      have hlt := evaluate_lt h
      have hlt' := evaluate_lt h'
      have hd : d = d' := by
        have hq := congrArg (· / bases.prod) heq
        simp only [Nat.mul_add_div (by omega : 0 < bases.prod), mul_comm d, mul_comm d',
          Nat.div_eq_of_lt hlt, Nat.div_eq_of_lt hlt', add_zero] at hq
        exact hq
      subst hd
      rw [ih h' (by omega)]

theorem evaluate_pred (h : 0 < bases.prod) :
    Digits (bases.map (· - 1)) bases ∧ evaluate bases (bases.map (· - 1)) 0 + 1 = bases.prod := by
  induction bases with
  | nil => exact ⟨List.Forall₂.nil, rfl⟩
  | cons b bases ih =>
    rw [List.prod_cons] at h
    have hb : 0 < b := Nat.pos_of_mul_pos_right h
    obtain ⟨hdigits, heval⟩ := ih (Nat.pos_of_mul_pos_left h)
    refine ⟨List.Forall₂.cons (Nat.sub_lt hb Nat.one_pos) hdigits, ?_⟩
    rw [List.map_cons, evaluate, evaluate_add hdigits, zero_mul, zero_add, add_assoc, heval,
      List.prod_cons, ← Nat.succ_mul]
    congr 1
    omega

end

end MixedRadix
