import Ecl.ArrayBounds
import Ecl.PackedBits

/-! ecl_reverse_subarray of src/c/array.d. -/
namespace VectorReversal

open PackedBits

/-- What the vector holds: elements of one of the types that have a cell of their own, or bits
in octets from an offset on. -/
inductive Storage (α : Type) where
  | elements (self : List α)
  | bits (self : Octets) (offset dim : ℕ)

def Storage.dim {α : Type} : Storage α → ℕ
  | .elements self => self.length
  | .bits _ _ dim => dim

def Storage.offset {α : Type} : Storage α → ℕ
  | .elements _ => 0
  | .bits _ offset _ => offset

structure LispVector (α : Type) where
  storage : Storage α
  fillp : ℕ
  fillp_le : fillp ≤ storage.dim
  dim_le : storage.dim ≤ ArrayBounds.arrayDimensionLimit
  offset_lt : storage.offset < 8

section
variable {α M : Type}

/-- The body of the loops for elements, or none for an access outside of the storage. -/
def swapElements (i j : ℕ) (self : List α) : Option (List α) := do
  let y ← self[i]?
  let z ← self[j]?
  return (self.set i z).set j y

/-- The body of the loop for bits. -/
def swapBits (offset dim i j : ℕ) (self : Octets) : Option Octets :=
  if offset ≤ i ∧ i < offset + dim ∧ offset ≤ j ∧ j < offset + dim then
    let k := self (i / 8) &&& mask i
    let self := if self (j / 8) &&& mask j ≠ 0 then setBit self i else clearBit self i
    some (if k ≠ 0 then setBit self j else clearBit self j)
  else none

def swapLoop (swap : ℕ → ℕ → M → Option M) (i j : ℕ) (self : M) : Option M :=
  if i < j then (swap i j self).bind fun self => swapLoop swap (i + 1) (j - 1) self else some self
termination_by j - i

/-- The indices are words of 64 bits. -/
def index (z : ℤ) : ℕ := (z % 2 ^ 64).toNat

def eclReverseSubarray (x : Storage α) (i0 i1 : ℕ) : Option (Storage α) :=
  if x.dim = 0 then some x
  else
    let i1 := if i1 ≥ x.dim then x.dim else i1
    match x with
    | .elements self => (swapLoop swapElements i0 (index (i1 - 1)) self).map .elements
    | .bits self offset dim =>
      (swapLoop (swapBits offset dim) (index (i0 + offset)) (index (i1 + offset - 1)) self).map
        fun self => .bits self offset dim

/-- cl_nreverse for vectors. -/
def nreverse (v : LispVector α) : Option (Storage α) := eclReverseSubarray v.storage 0 v.fillp

def Storage.Reversed (fillp : ℕ) : Storage α → Storage α → Prop
  | .elements self, .elements self' =>
    self'.length = self.length ∧ (∀ j < fillp, self'[j]? = self[fillp - 1 - j]?) ∧
      ∀ j, fillp ≤ j → self'[j]? = self[j]?
  | .bits self offset dim, .bits self' offset' dim' =>
    offset' = offset ∧ dim' = dim ∧
      (∀ j < fillp, bit self' (offset + j) = bit self (offset + (fillp - 1 - j))) ∧
      ∀ p, p < offset ∨ offset + fillp ≤ p → bit self' p = bit self p
  | _, _ => False

def Swaps {β : Type} (swap : ℕ → ℕ → M → Option M) (get : M → ℕ → β) (Valid : M → Prop)
    (lo hi : ℕ) : Prop :=
  ∀ i j m, Valid m → lo ≤ i → i < j → j < hi → ∃ m', swap i j m = some m' ∧ Valid m' ∧
    ∀ p, get m' p = if p = i then get m j else if p = j then get m i else get m p

theorem swapLoop_reverses {β : Type} {swap : ℕ → ℕ → M → Option M} {get : M → ℕ → β}
    {Valid : M → Prop} {lo hi : ℕ} (hswap : Swaps swap get Valid lo hi) (i j : ℕ) (m : M)
    (hm : Valid m) (hlo : lo ≤ i) (hhi : j < hi) (hij : i ≤ j + 1) :
    ∃ m', swapLoop swap i j m = some m' ∧ Valid m' ∧
      ∀ p, get m' p = if i ≤ p ∧ p ≤ j then get m (i + j - p) else get m p := by
  induction hd : j - i using Nat.strong_induction_on generalizing i j m with
  | h d ih =>
    rw [swapLoop]
    by_cases hlt : i < j
    · obtain ⟨m1, hm1, hvalid1, hget1⟩ := hswap i j m hm hlo hlt hhi
      obtain ⟨m2, hm2, hvalid2, hget2⟩ :=
        ih (j - 1 - (i + 1)) (by omega) (i + 1) (j - 1) m1 hvalid1 (by omega) (by omega) (by omega)
          rfl
      refine ⟨m2, by rw [if_pos hlt, hm1]; exact hm2, hvalid2, fun p => ?_⟩
      rw [hget2 p]
      by_cases hinner : i + 1 ≤ p ∧ p ≤ j - 1
      · rw [if_pos hinner, if_pos (by omega), hget1, if_neg (by omega), if_neg (by omega)]
        congr 1
        omega
      · rw [if_neg hinner, hget1]
        by_cases hi : p = i
        · rw [if_pos hi, if_pos (by omega)]
          congr 1
          omega
        · by_cases hj : p = j
          · rw [if_neg hi, if_pos hj, if_pos (by omega)]
            congr 1
            omega
          · rw [if_neg hi, if_neg hj, if_neg (by omega)]
    · refine ⟨m, if_neg hlt, hm, fun p => ?_⟩
      split
      · next hp =>
        congr 1
        omega
      · rfl

theorem swapElements_swaps (n : ℕ) :
    Swaps swapElements (fun (self : List α) p => self[p]?) (fun self => self.length = n) 0 n := by
  intro i j self hself _ hij hj
  have hi : i < self.length := by omega
  have hj' : j < self.length := by omega
  refine ⟨(self.set i self[j]).set j self[i], ?_, by simpa using hself, fun p => ?_⟩
  · simp [swapElements, List.getElem?_eq_getElem hi, List.getElem?_eq_getElem hj']
  · dsimp only
    rw [List.getElem?_set, List.getElem?_set]
    by_cases hpj : p = j
    · subst hpj
      simp [hj', show ¬p = i by omega, List.getElem?_eq_getElem hi]
    · by_cases hpi : p = i
      · subst hpi
        simp [hi, hij.ne', List.getElem?_eq_getElem hj']
      · simp [hpi, hpj, Ne.symm hpi, Ne.symm hpj]

theorem swapBits_swaps (offset dim : ℕ) :
    Swaps (swapBits offset dim) bit (fun _ => True) offset (offset + dim) := by
  intro i j self _ hlo hij hj
  have hinside : offset ≤ i ∧ i < offset + dim ∧ offset ≤ j ∧ j < offset + dim := by omega
  refine ⟨_, if_pos hinside, trivial, fun p => ?_⟩
  have hwrite : ∀ (m : Octets) (q : ℕ) (c : Prop) [Decidable c] (p : ℕ),
      bit (if c then setBit m q else clearBit m q) p = if p = q then decide c else bit m p := by
    intro m q c _ p
    split
    · next hc => simp [bit_setBit, hc]
    · next hc => simp [bit_clearBit, hc]
  simp only [hwrite, and_mask_ne_zero, Bool.decide_eq_true]
  by_cases hpj : p = j
  · rw [if_pos hpj, if_neg (by omega), if_pos hpj]
  · rw [if_neg hpj, if_neg hpj]

theorem swapLoop_outside {swap : ℕ → ℕ → M → Option M} {i j : ℕ} {m : M} (hij : i < j)
    (hnone : swap i j m = none) : swapLoop swap i j m = none := by
  rw [swapLoop, if_pos hij, hnone]
  rfl

theorem index_eq {n : ℕ} (h : n < 2 ^ 64) : index n = n := by
  rw [index, Int.emod_eq_of_lt (Int.natCast_nonneg n) (by exact_mod_cast h), Int.toNat_natCast]

theorem index_pred {n : ℕ} (hpos : 0 < n) (h : n ≤ 2 ^ 64) : index (n - 1) = n - 1 := by
  have hcast : (n : ℤ) - 1 = (n - 1 : ℕ) := by omega
  rw [hcast, index_eq (by omega)]

theorem eclReverseSubarray_spec {x : Storage α} {fillp : ℕ} (hle : fillp ≤ x.dim)
    (hdim : x.dim ≤ ArrayBounds.arrayDimensionLimit) (hoffset : x.offset < 8)
    (hsafe : 0 < fillp ∨ x.dim = 0 ∨ 0 < x.offset) :
    ∃ x', eclReverseSubarray x 0 fillp = some x' ∧ x.Reversed fillp x' := by
  rw [ArrayBounds.arrayDimensionLimit] at hdim
  unfold eclReverseSubarray
  by_cases hzero : x.dim = 0
  · refine ⟨x, if_pos hzero, ?_⟩
    have hfillp : fillp = 0 := by omega
    subst hfillp
    cases x with
    | elements self => exact ⟨rfl, by simp, by simp⟩
    | bits self offset dim => exact ⟨rfl, rfl, by simp, by simp⟩
  · rw [if_neg hzero]
    have hend : (if fillp ≥ x.dim then x.dim else fillp) = fillp := by
      split <;> omega
    rw [hend]
    cases x with
    | elements self =>
      simp only [Storage.dim, Storage.offset] at hle hdim hsafe hzero
      obtain ⟨self', hloop, hlength, hget⟩ := swapLoop_reverses (swapElements_swaps self.length) 0
        (fillp - 1) self rfl le_rfl (by omega) (Nat.zero_le _)
      refine ⟨.elements self', ?_, hlength, fun j hj => ?_, fun j hj => ?_⟩
      · dsimp only
        rw [index_pred (by omega) (by omega), hloop]
        rfl
      · have hj' := hget j
        rw [if_pos (by omega), Nat.zero_add] at hj'
        exact hj'
      · have hj' := hget j
        rw [if_neg (by omega)] at hj'
        exact hj'
    | bits self offset dim =>
      simp only [Storage.dim, Storage.offset] at hle hdim hsafe hzero hoffset
      obtain ⟨self', hloop, -, hget⟩ := swapLoop_reverses (swapBits_swaps offset dim) offset
        (fillp + offset - 1) self trivial le_rfl (by omega) (by omega)
      have hstart : index ((0 : ℕ) + offset) = offset := by
        rw [Nat.cast_zero, zero_add, index_eq (by omega)]
      have hlast : index (fillp + offset - 1) = fillp + offset - 1 := by
        rw [← Nat.cast_add, index_pred (by omega) (by omega)]
      refine ⟨.bits self' offset dim, ?_, rfl, rfl, fun j hj => ?_, fun p hp => ?_⟩
      · dsimp only
        rw [hstart, hlast, hloop]
        rfl
      · rw [hget, if_pos (by omega)]
        congr 1
        omega
      · rw [hget, if_neg (by omega)]

theorem eclReverseSubarray_outside {x : Storage α} (hzero : x.dim ≠ 0)
    (hdim : x.dim ≤ ArrayBounds.arrayDimensionLimit) (hoffset : x.offset = 0) :
    eclReverseSubarray x 0 0 = none := by
  rw [ArrayBounds.arrayDimensionLimit] at hdim
  have hend : (if 0 ≥ x.dim then x.dim else 0) = 0 := by
    split <;> omega
  have hlast : index ((0 : ℕ) - 1) = 2 ^ 64 - 1 := by decide
  rw [eclReverseSubarray, if_neg hzero, hend]
  cases x with
  | elements self =>
    have hnone : swapElements 0 (2 ^ 64 - 1) self = none := by
      have hout : self[2 ^ 64 - 1]? = none :=
        List.getElem?_eq_none (hdim.trans (by decide))
      rw [swapElements, hout]
      cases self[0]? <;> rfl
    dsimp only
    rw [hlast, swapLoop_outside (by decide) hnone]
    rfl
  | bits self offset dim =>
    obtain rfl : offset = 0 := hoffset
    have hnone : swapBits 0 dim 0 (2 ^ 64 - 1) self = none := by
      apply if_neg
      rintro ⟨-, -, -, hj⟩
      simp only [Storage.dim] at hdim
      omega
    have hlast' : index (((0 : ℕ) : ℤ) + (0 : ℕ) - 1) = 2 ^ 64 - 1 := by decide
    have hstart : index (((0 : ℕ) : ℤ) + (0 : ℕ)) = 0 := by decide
    dsimp only
    rw [hlast', hstart, swapLoop_outside (by decide) hnone]
    rfl

theorem Storage.Reversed.dim_eq {fillp : ℕ} {x x' : Storage α} (h : x.Reversed fillp x') :
    x'.dim = x.dim ∧ x'.offset = x.offset := by
  cases x with
  | elements self =>
    cases x' with
    | elements self' => exact ⟨h.1, rfl⟩
    | bits self' offset' dim' => exact h.elim
  | bits self offset dim =>
    cases x' with
    | elements self' => exact h.elim
    | bits self' offset' dim' => exact ⟨h.2.1, h.1⟩

theorem Storage.Reversed.twice {fillp : ℕ} {x x' x'' : Storage α} (h : x.Reversed fillp x')
    (h' : x'.Reversed fillp x'') : x'' = x := by
  cases x with
  | elements self =>
    cases x' with
    | elements self' =>
      cases x'' with
      | elements self'' =>
        congr 1
        apply List.ext_getElem?
        intro j
        by_cases hj : j < fillp
        · rw [h'.2.1 j hj, h.2.1 _ (by omega)]
          congr 1
          omega
        · rw [h'.2.2 j (by omega), h.2.2 j (by omega)]
      | bits self'' offset'' dim'' => exact h'.elim
    | bits self' offset' dim' => exact h.elim
  | bits self offset dim =>
    cases x' with
    | elements self' => exact h.elim
    | bits self' offset' dim' =>
      cases x'' with
      | elements self'' => exact h'.elim
      | bits self'' offset'' dim'' =>
        obtain ⟨rfl, rfl, hinside, houtside⟩ := h
        obtain ⟨rfl, rfl, hinside', houtside'⟩ := h'
        congr 1
        apply eq_of_bit_eq
        intro p
        by_cases hp : p < offset'' ∨ offset'' + fillp ≤ p
        · rw [houtside' p hp, houtside p hp]
        · obtain ⟨j, rfl⟩ := Nat.exists_eq_add_of_le (by omega : offset'' ≤ p)
          rw [hinside' j (by omega), hinside _ (by omega)]
          congr 1
          omega

/-- nreverse returns with the active elements in the opposite order, and a second one brings them
back. -/
def Reverses (v : LispVector α) : Prop :=
  ∃ x', nreverse v = some x' ∧ v.storage.Reversed v.fillp x' ∧
    eclReverseSubarray x' 0 v.fillp = some v.storage

theorem nreverse_iff (v : LispVector α) :
    Reverses v ↔ 0 < v.fillp ∨ v.storage.dim = 0 ∨ 0 < v.storage.offset := by
  constructor
  · rintro ⟨x', hx', -⟩
    by_contra hsafe
    have hfillp : v.fillp = 0 := by omega
    rw [nreverse, hfillp, eclReverseSubarray_outside (by omega) v.dim_le (by omega)] at hx'
    cases hx'
  · intro hsafe
    obtain ⟨x', hx', hreversed⟩ := eclReverseSubarray_spec v.fillp_le v.dim_le v.offset_lt hsafe
    obtain ⟨hdim, hoffset⟩ := hreversed.dim_eq
    obtain ⟨x'', hx'', hreversed'⟩ := @eclReverseSubarray_spec α x' v.fillp
      (hdim ▸ v.fillp_le) (hdim ▸ v.dim_le) (hoffset ▸ v.offset_lt) (by rwa [hdim, hoffset])
    refine ⟨x', hx', hreversed, ?_⟩
    rw [hx'', hreversed.twice hreversed']

end

def emptied : LispVector ℕ :=
  ⟨.elements [7], 0, by decide, by decide, by decide⟩

theorem emptied_not_reversed : ¬Reverses emptied := by
  rintro ⟨x', hx', -⟩
  cases hx'.symm.trans (eclReverseSubarray_outside (by decide) (by decide) rfl)

end VectorReversal
