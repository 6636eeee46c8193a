import Mathlib.Data.List.Basic

/-! The part of a list that a ring buffer with a start and a length has in use. -/
namespace RingBuffers

variable {α : Type*}

def advance (capacity i : ℕ) : ℕ := if i + 1 ≥ capacity then 0 else i + 1

def contents (filler : α) (data : List α) (start count : ℕ) : List α :=
  (List.range count).map fun i => data.getD ((start + i) % data.length) filler

theorem advance_eq {capacity i : ℕ} (h : i < capacity) : advance capacity i = (i + 1) % capacity := by
  unfold advance
  split
  · have : i + 1 = capacity := by omega
    rw [this, Nat.mod_self]
  · rw [Nat.mod_eq_of_lt (by omega)]

theorem contents_length (filler : α) (data : List α) (start count : ℕ) :
    (contents filler data start count).length = count := by
  simp [contents]

theorem contents_succ (filler : α) {data : List α} {start : ℕ} (h : start < data.length)
    (count : ℕ) : contents filler data start (count + 1) =
      data.getD start filler :: contents filler data (advance data.length start) count := by
  have hshift (i : ℕ) : ((start + 1) % data.length + i) % data.length =
      (start + (i + 1)) % data.length := by
    rw [Nat.mod_add_mod, Nat.add_assoc, Nat.add_comm 1 i]
  simp only [contents, List.range_succ_eq_map, List.map_cons, List.map_map, Nat.add_zero,
    Nat.mod_eq_of_lt h, advance_eq h]
  congr 1
  exact List.map_congr_left fun i _ => by simp [Function.comp, hshift]

theorem place_ne {capacity i n : ℕ} (start : ℕ) (hi : i < n) (hn : n < capacity) :
    (start + i) % capacity ≠ (start + n) % capacity := by
  intro h
  have hzero := Nat.sub_mod_eq_zero_of_mod_eq h.symm
  rw [Nat.add_sub_add_left, Nat.mod_eq_of_lt (by omega)] at hzero
  omega

theorem contents_push (filler : α) (data : List α) (start : ℕ) {count : ℕ} (h : count < data.length)
    (x : α) : contents filler (data.set ((start + count) % data.length) x) start (count + 1) =
      contents filler data start count ++ [x] := by
  have hlt : (start + count) % data.length < data.length := Nat.mod_lt _ (by omega)
  simp only [contents, List.range_succ, List.map_append, List.map_singleton, List.length_set]
  congr 1
  · apply List.map_congr_left
    intro i hi
    have hne := place_ne start (List.mem_range.mp hi) h
    simp only [List.getD_eq_getElem?_getD, List.getElem?_set_ne (Ne.symm hne)]
  · simp [List.getD_eq_getElem?_getD, hlt]

end RingBuffers
