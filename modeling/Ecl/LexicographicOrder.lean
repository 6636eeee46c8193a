import Mathlib.Data.List.Lex
import Mathlib.Order.Lattice

/-! The lexicographic order of lists, as a comparison from the left finds it: the sign of the
comparison and the place of the first difference. -/
namespace LexicographicOrder

variable {α : Type*} [LinearOrder α]

def firstDifference : List α → List α → ℕ
  | a :: u, b :: v => if a = b then firstDifference u v + 1 else 0
  | _, _ => 0

def sign (u v : List α) : ℤ := if u < v then -1 else if v < u then 1 else 0

theorem sign_nil_nil : sign ([] : List α) [] = 0 := by simp [sign]

theorem sign_nil_cons (b : α) (v : List α) : sign [] (b :: v) = -1 := by simp [sign]

theorem sign_cons_nil (a : α) (u : List α) : sign (a :: u) [] = 1 := by simp [sign]

theorem sign_of_lt {a b : α} (h : a < b) (u v : List α) : sign (a :: u) (b :: v) = -1 := by
  rw [sign, if_pos (List.cons_lt_cons_iff.mpr (Or.inl h))]

theorem sign_of_gt {a b : α} (h : b < a) (u v : List α) : sign (a :: u) (b :: v) = 1 := by
  have hlt : b :: v < a :: u := List.cons_lt_cons_iff.mpr (Or.inl h)
  rw [sign, if_neg hlt.asymm, if_pos hlt]

theorem sign_cons (a : α) (u v : List α) : sign (a :: u) (a :: v) = sign u v := by
  simp [sign]

theorem firstDifference_of_ne {a b : α} (h : a ≠ b) (u v : List α) :
    firstDifference (a :: u) (b :: v) = 0 := if_neg h

theorem firstDifference_cons (a : α) (u v : List α) :
    firstDifference (a :: u) (a :: v) = firstDifference u v + 1 := if_pos rfl

theorem firstDifference_nil_right (u : List α) : firstDifference u [] = 0 := by
  cases u <;> rfl

theorem sign_less_iff {u v : List α} : sign u v = -1 ↔ u < v := by
  unfold sign
  split
  · simpa
  · next h => split <;> simp [h]

theorem sign_greater_iff {u v : List α} : sign u v = 1 ↔ v < u := by
  unfold sign
  split
  · next h => simp [h.le]
  · next h =>
    split
    · next h' => simpa
    · next h' => simp [not_lt.mp h']

theorem sign_same_iff {u v : List α} : sign u v = 0 ↔ u = v := by
  unfold sign
  split
  · next h => simp [h.ne]
  · next h =>
    split
    · next h' => simp [h'.ne']
    · next h' => simp [le_antisymm (not_lt.mp h') (not_lt.mp h)]

end LexicographicOrder
