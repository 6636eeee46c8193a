import Mathlib.Data.Int.Bitwise
import Mathlib.Tactic.Ring

/-! Bits in octets, the most significant one first. -/
namespace PackedBits

abbrev Octets := ℕ → BitVec 8

def bit (m : Octets) (p : ℕ) : Bool := (m (p / 8)).getLsbD (7 - p % 8)

def mask (p : ℕ) : BitVec 8 := 0x80#8 >>> (p % 8)

def setBit (m : Octets) (p : ℕ) : Octets :=
  Function.update m (p / 8) (m (p / 8) ||| mask p)

def clearBit (m : Octets) (p : ℕ) : Octets :=
  Function.update m (p / 8) (m (p / 8) &&& ~~~mask p)

theorem eq_of_bit_eq {m m' : Octets} (h : ∀ p, bit m p = bit m' p) : m = m' := by
  funext a
  apply BitVec.eq_of_getLsbD_eq
  intro k hk
  have hbit := h (8 * a + (7 - k))
  have hdiv : (8 * a + (7 - k)) / 8 = a := by omega
  have hmod : 7 - (8 * a + (7 - k)) % 8 = k := by omega
  simpa only [bit, hdiv, hmod] using hbit

theorem getLsbD_mask (p : ℕ) {k : ℕ} (hk : k < 8) :
    (mask p).getLsbD k = decide (k = 7 - p % 8) := by
  have hall : ∀ r < 8, ∀ k < 8, (0x80#8 >>> r).getLsbD k = decide (k = 7 - r) := by decide
  exact hall _ (Nat.mod_lt _ (by decide)) _ hk

theorem and_mask_ne_zero (m : Octets) (p : ℕ) : m (p / 8) &&& mask p ≠ 0 ↔ bit m p = true := by
  constructor
  · intro hne
    by_contra hbit
    apply hne
    apply BitVec.eq_of_getLsbD_eq
    intro k hk
    rw [BitVec.getLsbD_and, getLsbD_mask p hk]
    by_cases heq : k = 7 - p % 8
    · subst heq
      simpa [bit] using hbit
    · simp [heq]
  · intro hbit hzero
    have hk := congrArg (fun v => BitVec.getLsbD v (7 - p % 8)) hzero
    simp only [BitVec.getLsbD_and, getLsbD_mask p (by omega : 7 - p % 8 < 8)] at hk
    simp only [bit] at hbit
    simp [hbit] at hk

theorem bit_update {m : Octets} {p : ℕ} {v : BitVec 8} {b : Bool}
    (hv : ∀ k < 8, v.getLsbD k = if k = 7 - p % 8 then b else (m (p / 8)).getLsbD k) (q : ℕ) :
    bit (Function.update m (p / 8) v) q = if q = p then b else bit m q := by
  unfold bit
  by_cases haddress : q / 8 = p / 8
  · rw [haddress, Function.update_self, hv _ (by omega)]
    by_cases heq : q = p
    · simp [heq]
    · rw [if_neg heq, if_neg (by omega)]
  · have hne : q ≠ p := by
      rintro rfl
      exact haddress rfl
    rw [Function.update_of_ne haddress, if_neg hne]

theorem bit_setBit (m : Octets) (p q : ℕ) :
    bit (setBit m p) q = if q = p then true else bit m q := by
  apply bit_update
  intro k hk
  rw [BitVec.getLsbD_or, getLsbD_mask p hk]
  by_cases heq : k = 7 - p % 8 <;> simp [heq]

theorem bit_clearBit (m : Octets) (p q : ℕ) :
    bit (clearBit m p) q = if q = p then false else bit m q := by
  apply bit_update
  intro k hk
  rw [BitVec.getLsbD_and, BitVec.getLsbD_not, getLsbD_mask p hk]
  by_cases heq : k = 7 - p % 8 <;> simp [heq, hk]

theorem testBit_shiftRight (z : ℤ) (n k : ℕ) : (z >>> n).testBit k = z.testBit (n + k) := by
  cases z with
  | ofNat m => exact Nat.testBit_shiftRight m
  | negSucc m =>
    change (!(m >>> n).testBit k) = !m.testBit (n + k)
    rw [Nat.testBit_shiftRight]

theorem testBit_shiftLeft (z : ℤ) (n k : ℕ) :
    (z <<< n).testBit k = (decide (n ≤ k) && z.testBit (k - n)) := by
  cases z with
  | ofNat m => exact Nat.testBit_shiftLeft m
  | negSucc m =>
    have hvalue : Int.negSucc m <<< n = Int.negSucc (2 ^ n * m + (2 ^ n - 1)) := by
      have hpos := Nat.two_pow_pos n
      rw [Int.shiftLeft_eq, Int.negSucc_eq, Int.negSucc_eq]
      push_cast [Nat.cast_sub hpos]
      ring
    rw [hvalue]
    change (!(2 ^ n * m + (2 ^ n - 1)).testBit k) = (decide (n ≤ k) && !m.testBit (k - n))
    rw [Nat.testBit_two_pow_mul_add m (Nat.sub_lt (Nat.two_pow_pos n) Nat.one_pos)]
    by_cases hk : k < n
    · simp [hk]
    · simp [hk, not_lt.mp hk]

theorem getLsbD_ofInt (z : ℤ) {k : ℕ} (hk : k < 8) :
    (BitVec.ofInt 8 z).getLsbD k = z.testBit k := by
  cases z with
  | ofNat m =>
    change (BitVec.ofInt 8 (m : ℤ)).getLsbD k = m.testBit k
    rw [BitVec.ofInt_natCast, BitVec.getLsbD_ofNat, decide_eq_true hk, Bool.true_and]
  | negSucc m =>
    change _ = !m.testBit k
    rw [BitVec.ofInt_negSucc_eq_not_ofNat, BitVec.getLsbD_not, BitVec.getLsbD_ofNat,
      decide_eq_true hk, Bool.true_and, Bool.true_and]

theorem testBit_toNat (v : BitVec 8) (k : ℕ) : (v.toNat : ℤ).testBit k = v.getLsbD k := rfl

def Writes (m m' : Octets) (i j : ℕ) (v : ℕ → Bool) : Prop :=
  ∀ q, bit m' q = if i ≤ q ∧ q < j then v q else bit m q

variable {m m' m'' : Octets} {i j k : ℕ} {v w : ℕ → Bool}

theorem Writes.inside (h : Writes m m' i j v) {q : ℕ} (hi : i ≤ q) (hj : q < j) :
    bit m' q = v q := by
  rw [h q, if_pos ⟨hi, hj⟩]

theorem Writes.outside (h : Writes m m' i j v) {q : ℕ} (hq : q < i ∨ j ≤ q) :
    bit m' q = bit m q := by
  rw [h q, if_neg (by omega)]

theorem Writes.refl (m : Octets) (i : ℕ) (v : ℕ → Bool) : Writes m m i i v := by
  intro q
  rw [if_neg (by omega)]

theorem Writes.trans (h : Writes m m' i j v) (h' : Writes m' m'' j k v) (hij : i ≤ j)
    (hjk : j ≤ k) : Writes m m'' i k v := by
  intro q
  by_cases hq : j ≤ q ∧ q < k
  · rw [h'.inside hq.1 hq.2, if_pos ⟨hij.trans hq.1, hq.2⟩]
  · rw [h'.outside (by omega), h q]
    by_cases hq' : i ≤ q ∧ q < j
    · rw [if_pos hq', if_pos ⟨hq'.1, hq'.2.trans_le hjk⟩]
    · rw [if_neg hq', if_neg (by omega)]

theorem Writes.congr (h : Writes m m' i j v) (hvw : ∀ q, i ≤ q → q < j → v q = w q) :
    Writes m m' i j w := by
  intro q
  rw [h q]
  split
  · rename_i hq
    exact hvw q hq.1 hq.2
  · rfl

theorem Writes.shrink (h : Writes m m' i k v) (hjk : j ≤ k)
    (hlast : ∀ q, j ≤ q → q < k → v q = bit m q) : Writes m m' i j v := by
  intro q
  by_cases hq : i ≤ q ∧ q < j
  · rw [h.inside hq.1 (hq.2.trans_le hjk), if_pos hq]
  · rw [if_neg hq, h q]
    split
    · rename_i hq'
      exact hlast q (by omega) hq'.2
    · rfl

def steps (step : ℕ → Octets → Octets) : ℕ → Octets → Octets
  | 0, m => m
  | n + 1, m => step n (steps step n m)

theorem steps_writes (step : ℕ → Octets → Octets) (size n : ℕ)
    (hstep : ∀ a < n, ∀ m', Writes m m' i (i + size * a) v →
      Writes m' (step a m') (i + size * a) (i + size * (a + 1)) v) :
    Writes m (steps step n m) i (i + size * n) v := by
  induction n with
  | zero => exact Writes.refl m i v
  | succ n ih =>
    have hbefore := ih (fun a ha => hstep a (Nat.lt_succ_of_lt ha))
    apply hbefore.trans (hstep n (Nat.lt_succ_self n) _ hbefore)
    · exact Nat.le_add_right _ _
    · exact Nat.add_le_add_left (Nat.mul_le_mul_left size (Nat.le_succ n)) i

theorem bit_eq (m : Octets) (a : ℕ) {k : ℕ} (hk : k < 8) :
    bit m (8 * a + k) = (m a).getLsbD (7 - k) := by
  have hdiv : (8 * a + k) / 8 = a := by omega
  have hmod : (8 * a + k) % 8 = k := by omega
  rw [bit, hdiv, hmod]

theorem update_writes {a lo hi : ℕ} {z : ℤ} (hhi : hi ≤ 8)
    (hz : ∀ k < 8, z.testBit (7 - k) = if lo ≤ k ∧ k < hi then v (8 * a + k)
      else bit m (8 * a + k)) :
    Writes m (Function.update m a (BitVec.ofInt 8 z)) (8 * a + lo) (8 * a + hi) v := by
  intro q
  by_cases haddress : q / 8 = a
  · have hk : q % 8 < 8 := Nat.mod_lt q (by decide)
    have hq : q = 8 * a + q % 8 := by omega
    generalize q % 8 = k at hk hq
    subst hq
    rw [bit_eq _ _ hk, Function.update_self, getLsbD_ofInt _ (by omega), hz k hk]
    simp only [Nat.add_le_add_iff_left, Nat.add_lt_add_iff_left]
  · rw [if_neg (by omega), bit, Function.update_of_ne haddress, bit]

end PackedBits
