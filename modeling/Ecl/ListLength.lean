import Mathlib.Data.Fintype.Pigeonhole

/-! cl_list_length and si_proper_list_p of src/c/list.d. -/
namespace ListLength

section
variable {α : Type*} {f : α → α} {x : α}

theorem iterate_add_mul {a p n : ℕ} (h : f^[a + p] x = f^[a] x) (hn : a ≤ n) (k : ℕ) :
    f^[n + p * k] x = f^[n] x := by
  induction k with
  | zero => rfl
  | succ k ih =>
    have hlap : n + p * (k + 1) = (n - a + p * k) + (a + p) := by
      rw [Nat.mul_succ]
      omega
    have hback : n - a + p * k + a = n + p * k := by omega
    rw [hlap, Function.iterate_add_apply, h, ← Function.iterate_add_apply, hback, ih]

/-- A pointer that is twice as fast meets the slow one. -/
theorem exists_meet [Finite α] (f : α → α) (x : α) : ∃ j, f^[j] x = f^[2 * j + 1] x := by
  obtain ⟨a, b, hlt, heq⟩ : ∃ a b, a < b ∧ f^[a] x = f^[b] x := by
    obtain ⟨a, b, hne, heq⟩ := Finite.exists_ne_map_eq_of_infinite (fun n => f^[n] x)
    rcases hne.lt_or_gt with h | h
    exacts [⟨a, b, h, heq⟩, ⟨b, a, h, heq.symm⟩]
  obtain ⟨p, rfl⟩ := Nat.exists_eq_add_of_le hlt.le
  -- the first multiple of the period beyond a
  have hle : a + 1 ≤ p * (a + 1) := Nat.le_mul_of_pos_left _ (by omega)
  obtain ⟨m, hm⟩ := Nat.exists_eq_add_of_le' (Nat.le_of_add_left_le hle)
  have hmeet := iterate_add_mul (n := m) heq.symm (by omega) (a + 1)
  rw [hm] at hmeet
  exact ⟨m, by rw [Nat.two_mul]; exact hmeet.symm⟩

end

/-- Conses are the objects with a cdr. -/
structure Heap (V : Type*) where
  nil : V
  cdr : V → Option V

inductive Outcome where
  | length (n : ℕ)
  | circular
  | notList

section
variable {V : Type*} (h : Heap V)

def Heap.step (v : V) : V := (h.cdr v).getD v

/-- The loop of both functions; none is a loop that has not ended. -/
def loop [DecidableEq V] : ℕ → ℕ → V → V → Option Outcome
  | 0, _, _, _ => none
  | fuel + 1, n, fast, slow =>
    if fast = h.nil then some (.length n)
    else match h.cdr fast with
      | none => some .notList
      | some next =>
        if n % 2 = 1 then
          if slow = fast then some .circular else loop fuel (n + 1) next (h.step slow)
        else loop fuel (n + 1) next slow

/-- NIL is none, and the error is that of FEtype_error_list. -/
def Outcome.listLength : Outcome → Except Unit (Option ℕ)
  | .length n => .ok (some n)
  | .circular => .ok none
  | .notList => .error ()

def Outcome.properListP : Outcome → Bool
  | .length _ => true
  | _ => false

def clListLength [DecidableEq V] (fuel : ℕ) (x : V) : Option (Except Unit (Option ℕ)) :=
  (loop h fuel 0 x x).map Outcome.listLength

def siProperListP [DecidableEq V] (fuel : ℕ) (x : V) : Option Bool :=
  (loop h fuel 0 x x).map Outcome.properListP

/-- What the cdrs from x on are: n conses and NIL, conses for ever, or conses and an atom. -/
def Heap.Describes (x : V) : Outcome → Prop
  | .length n => (∀ i < n, (h.cdr (h.step^[i] x)).isSome) ∧ h.step^[n] x = h.nil
  | .circular => ∀ i, (h.cdr (h.step^[i] x)).isSome
  | .notList => ∃ n, (∀ i < n, (h.cdr (h.step^[i] x)).isSome) ∧ h.step^[n] x ≠ h.nil ∧
      h.cdr (h.step^[n] x) = none

variable {h} {x : V}

theorem circular_of_meet {i j : ℕ} (hij : i < j) (hmeet : h.step^[i] x = h.step^[j] x)
    (hpast : ∀ k < j, (h.cdr (h.step^[k] x)).isSome) : h.Describes x .circular := by
  intro n
  rcases lt_or_ge n j with hn | hn
  · exact hpast n hn
  · have hlap : i + (n - i) % (j - i) + (j - i) * ((n - i) / (j - i)) = n := by
      rw [Nat.add_assoc, Nat.mod_add_div]
      omega
    have hmod := Nat.mod_lt (n - i) (Nat.sub_pos_of_lt hij)
    rw [← hlap, iterate_add_mul (by rw [Nat.add_sub_cancel' hij.le, hmeet]) (Nat.le_add_right i _)]
    exact hpast _ (by omega)

theorem loop_spec [DecidableEq V] {j : ℕ} (hmeet : h.step^[j] x = h.step^[2 * j + 1] x)
    {fuel n : ℕ} (hfuel : n + fuel = 2 * j + 2)
    (hpast : ∀ i < n, (h.cdr (h.step^[i] x)).isSome)
    (hapart : ∀ i < n, i % 2 = 1 → h.step^[i / 2] x ≠ h.step^[i] x) :
    ∃ r, loop h fuel n (h.step^[n] x) (h.step^[n / 2] x) = some r ∧ h.Describes x r := by
  induction fuel generalizing n with
  | zero =>
    refine absurd ?_ (hapart (2 * j + 1) (by omega) (by omega))
    rwa [show (2 * j + 1) / 2 = j by omega]
  | succ fuel ih =>
    rw [loop]
    by_cases hnil : h.step^[n] x = h.nil
    · exact ⟨_, if_pos hnil, hpast, hnil⟩
    rw [if_neg hnil]
    cases hcdr : h.cdr (h.step^[n] x) with
    | none => exact ⟨_, rfl, n, hpast, hnil, hcdr⟩
    | some next =>
      have hnext : h.step^[n + 1] x = next := by
        rw [Function.iterate_succ_apply', Heap.step, hcdr, Option.getD_some]
      have hnow : (h.cdr (h.step^[n] x)).isSome := by rw [hcdr, Option.isSome_some]
      have hgo := fun hne => ih (n := n + 1) (by omega)
        (Nat.forall_lt_succ_right.mpr ⟨hpast, hnow⟩) (Nat.forall_lt_succ_right.mpr ⟨hapart, hne⟩)
      rw [hnext] at hgo
      dsimp only
      by_cases hodd : n % 2 = 1
      · rw [if_pos hodd]
        by_cases hslow : h.step^[n / 2] x = h.step^[n] x
        · exact ⟨_, if_pos hslow, circular_of_meet (by omega) hslow hpast⟩
        rw [if_neg hslow, ← Function.iterate_succ_apply' h.step,
          show (n / 2).succ = (n + 1) / 2 by omega]
        exact hgo fun _ => hslow
      · rw [if_neg hodd, show n / 2 = (n + 1) / 2 by omega]
        exact hgo fun h1 => absurd h1 hodd

/-- Both functions end on every object of a finite heap, and tell what its cdrs are. -/
theorem list_length_describes [Finite V] [DecidableEq V] (h : Heap V) (x : V) : ∃ fuel r,
    h.Describes x r ∧ clListLength h fuel x = some r.listLength ∧
      siProperListP h fuel x = some r.properListP := by
  obtain ⟨j, hmeet⟩ := exists_meet h.step x
  obtain ⟨r, hloop, hr⟩ := loop_spec hmeet (Nat.zero_add (2 * j + 2)) (by simp) (by simp)
  refine ⟨2 * j + 2, r, hr, ?_, ?_⟩
  · exact congrArg _ hloop
  · exact congrArg _ hloop

/-- A cons that is its own cdr. -/
def circle : Heap Bool := ⟨false, fun v => if v then some true else none⟩

theorem list_length_describes_circle : ∃ fuel r, circle.Describes true r ∧
    clListLength circle fuel true = some r.listLength :=
  let ⟨fuel, r, hr, hlength, _⟩ := list_length_describes circle true
  ⟨fuel, r, hr, hlength⟩

end

end ListLength
