import Mathlib.Data.List.Basic

/-! Assignments between cells of a memory, made one after the other, against the same assignments
made at once. A value is converted when it is stored. -/
namespace SequentialMoves

variable {A V : Type} [DecidableEq A]

def run (convert : V → Option V) : List (A × A) → (A → V) → Option (A → V)
  | [], m => some m
  | p :: moves, m => (convert (m p.2)).bind fun v => run convert moves (Function.update m p.1 v)

def moves (dest orig : ℕ → A) (l : ℕ) : List (A × A) := (List.range l).map fun i => (dest i, orig i)

variable {convert : V → Option V} {m m' : A → V} {ps qs : List (A × A)} {dest orig : ℕ → A} {l : ℕ}

theorem run_append : run convert (ps ++ qs) m = (run convert ps m).bind (run convert qs) := by
  induction ps generalizing m with
  | nil => rfl
  | cons p ps ih =>
    rw [List.cons_append, run, run]
    cases convert (m p.2) with
    | none => rfl
    | some v => exact ih

omit [DecidableEq A] in
theorem moves_succ : moves dest orig (l + 1) = moves dest orig l ++ [(dest l, orig l)] := by
  rw [moves, List.range_succ, List.map_append]
  rfl

omit [DecidableEq A] in
theorem moves_succ_left :
    moves dest orig (l + 1) = (dest 0, orig 0) :: moves (fun k => dest (k + 1)) (fun k => orig (k + 1)) l := by
  rw [moves, List.range_succ_eq_map, List.map_cons, List.map_map]
  rfl

omit [DecidableEq A] in
theorem moves_congr {dest' orig' : ℕ → A} (h : ∀ k < l, dest k = dest' k ∧ orig k = orig' k) :
    moves dest orig l = moves dest' orig' l := by
  apply List.map_congr_left
  intro k hk
  obtain ⟨hdest, horig⟩ := h k (List.mem_range.mp hk)
  exact Prod.ext hdest horig

theorem run_moves_succ (h : run convert (moves dest orig (l + 1)) m = some m') :
    ∃ m₁ v, run convert (moves dest orig l) m = some m₁ ∧ convert (m₁ (orig l)) = some v ∧
      m' = Function.update m₁ (dest l) v := by
  rw [moves_succ, run_append] at h
  obtain ⟨m₁, hm₁, hstep⟩ := Option.bind_eq_some_iff.mp h
  obtain ⟨v, hv, hlast⟩ := Option.bind_eq_some_iff.mp hstep
  exact ⟨m₁, v, hm₁, hv, (Option.some.inj hlast).symm⟩

theorem run_frame (h : run convert (moves dest orig l) m = some m') {a : A}
    (ha : ∀ i < l, a ≠ dest i) : m' a = m a := by
  induction l generalizing m' with
  | zero =>
    cases h
    rfl
  | succ l ih =>
    obtain ⟨m₁, v, hm₁, -, rfl⟩ := run_moves_succ h
    rw [Function.update_of_ne (ha l (Nat.lt_succ_self l))]
    exact ih hm₁ fun i hi => ha i (Nat.lt_succ_of_lt hi)

/-- A cell gets what its source held at the start unless an earlier move has written there; then it
gets what that move has written. -/
theorem run_value (hinj : ∀ i < l, ∀ j < l, dest i = dest j → i = j)
    (h : run convert (moves dest orig l) m = some m') {i : ℕ} (hi : i < l) :
    ((∀ j < i, orig i ≠ dest j) → convert (m (orig i)) = some (m' (dest i))) ∧
      ∀ j < i, orig i = dest j → convert (m' (dest j)) = some (m' (dest i)) := by
  induction l generalizing m' with
  | zero => exact absurd hi (Nat.not_lt_zero i)
  | succ l ih =>
    obtain ⟨m₁, v, hm₁, hv, rfl⟩ := run_moves_succ h
    have hother (j : ℕ) (hj : j < l) : Function.update m₁ (dest l) v (dest j) = m₁ (dest j) := by
      apply Function.update_of_ne
      intro heq
      have := hinj j (by omega) l (by omega) heq
      omega
    rcases Nat.lt_succ_iff_lt_or_eq.mp hi with hlt | rfl
    · obtain ⟨hfresh, hwritten⟩ := ih
        (fun i hi j hj => hinj i (by omega) j (by omega)) hm₁ hlt
      rw [hother i hlt]
      refine ⟨hfresh, fun j hj heq => ?_⟩
      rw [hother j (by omega)]
      exact hwritten j hj heq
    · rw [Function.update_self]
      constructor
      · intro hfresh
        rwa [run_frame hm₁ hfresh] at hv
      · intro j hj heq
        rwa [hother j hj, ← heq]

/-- The moves come to the same as the assignments at once exactly when each value converts to
itself, and values that are moved twice over come out as what their last source held. -/
theorem run_agrees_iff (hinj : ∀ i < l, ∀ j < l, dest i = dest j → i = j)
    (h : run convert (moves dest orig l) m = some m') :
    (∀ i < l, m' (dest i) = m (orig i)) ↔ ∀ i < l,
      ((∀ j < i, orig i ≠ dest j) → convert (m (orig i)) = some (m (orig i))) ∧
        ∀ j < i, orig i = dest j → convert (m (orig j)) = some (m (orig i)) := by
  constructor
  · intro hall i hi
    obtain ⟨hfresh, hwritten⟩ := run_value hinj h hi
    rw [hall i hi] at hfresh hwritten
    refine ⟨hfresh, fun j hj heq => ?_⟩
    rw [← hall j (by omega)]
    exact hwritten j hj heq
  · intro hall i
    -- what an earlier move has written is known by induction
    induction i using Nat.strongRecOn with
    | ind i ih =>
      intro hi
      obtain ⟨hfresh, hwritten⟩ := run_value hinj h hi
      by_cases hread : ∃ j < i, orig i = dest j
      · obtain ⟨j, hj, heq⟩ := hread
        have hvalue := hwritten j hj heq
        rw [ih j hj (by omega), (hall i hi).2 j hj heq] at hvalue
        exact (Option.some.inj hvalue).symm
      · have hnone : ∀ j < i, orig i ≠ dest j := by
          intro j hj heq
          exact hread ⟨j, hj, heq⟩
        have hvalue := hfresh hnone
        rw [(hall i hi).1 hnone] at hvalue
        exact (Option.some.inj hvalue).symm

end SequentialMoves
