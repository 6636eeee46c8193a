import Mathlib.Tactic.Linarith
import Mathlib.Tactic.Positivity
import Mathlib.Tactic.Ring

/-! Integers written as words of octets, in two's complement and of any length. -/
namespace OctetWords

def octetOf (z : ℤ) : UInt8 := UInt8.ofNat (z % 256).toNat

def octets : ℕ → ℤ → List UInt8
  | 0, _ => []
  | k + 1, z => octetOf z :: octets k (z / 256)

def assemble (top : ℤ) (l : List UInt8) : ℤ := l.foldl (fun z c => z * 256 + c.toNat) top

def topOctet (signed : Bool) (c : UInt8) : ℤ :=
  if signed = true ∧ 128 ≤ c.toNat then c.toNat - 256 else c.toNat

def Contains (signed : Bool) (bits : ℕ) (z : ℤ) : Prop :=
  if signed = true then -2 ^ (bits - 1) ≤ z ∧ z < 2 ^ (bits - 1) else 0 ≤ z ∧ z < 2 ^ bits

instance (signed : Bool) (bits : ℕ) (z : ℤ) : Decidable (Contains signed bits z) :=
  inferInstanceAs (Decidable (if signed = true then _ else _))

theorem octetOf_toNat (z : ℤ) : ((octetOf z).toNat : ℤ) = z % 256 := by
  have hn := Int.emod_nonneg z (show (256 : ℤ) ≠ 0 by decide)
  have hl := Int.emod_lt_of_pos z (show (0 : ℤ) < 256 by decide)
  have : (octetOf z).toNat = (z % 256).toNat := by
    simp only [octetOf, UInt8.toNat_ofNat']
    omega
  omega

theorem octets_length (k : ℕ) (z : ℤ) : (octets k z).length = k := by
  induction k generalizing z with
  | zero => rfl
  | succ k ih => simp only [octets, List.length_cons, ih]

theorem octets_succ (k : ℕ) (z : ℤ) : octets (k + 1) z = octets k z ++ [octetOf (z / 256 ^ k)] := by
  induction k generalizing z with
  | zero => simp [octets]
  | succ k ih =>
    have h : z / 256 / 256 ^ k = z / 256 ^ (k + 1) := by
      rw [pow_succ', Int.ediv_ediv_of_nonneg (by decide)]
    rw [octets, ih, h, octets, List.cons_append]

theorem assemble_octets (top : ℤ) (k : ℕ) (z : ℤ) :
    assemble top (octets k z).reverse = top * 256 ^ k + z % 256 ^ k := by
  induction k generalizing z with
  | zero => simp [assemble, octets, Int.emod_one]
  | succ k ih =>
    have hs : assemble top (octets (k + 1) z).reverse =
        assemble top (octets k (z / 256)).reverse * 256 + (octetOf z).toNat := by
      simp only [assemble, octets, List.reverse_cons, List.foldl_append, List.foldl_cons,
        List.foldl_nil]
    have hm : z % 256 ^ (k + 1) = z / 256 % 256 ^ k * 256 + z % 256 := by
      have h1 := Int.emod_add_mul_ediv z (256 ^ (k + 1))
      have h2 := Int.emod_add_mul_ediv z 256
      have h3 := Int.emod_add_mul_ediv (z / 256) (256 ^ k)
      have h4 : z / 256 / 256 ^ k = z / 256 ^ (k + 1) := by
        rw [pow_succ', Int.ediv_ediv_of_nonneg (by decide)]
      calc z % 256 ^ (k + 1) = z - 256 ^ (k + 1) * (z / 256 ^ (k + 1)) := by linarith
        _ = (z / 256 - 256 ^ k * (z / 256 ^ (k + 1))) * 256 + (z - 256 * (z / 256)) := by ring
        _ = z / 256 % 256 ^ k * 256 + z % 256 := by rw [← h4]; linarith
    rw [hs, ih, octetOf_toNat, hm]
    ring

theorem assemble_word (signed : Bool) (k : ℕ) (z : ℤ) :
    assemble (topOctet signed (octetOf (z / 256 ^ k))) (octets k z).reverse = z ↔
      topOctet signed (octetOf (z / 256 ^ k)) = z / 256 ^ k := by
  have hp : (0 : ℤ) < 256 ^ k := by positivity
  have hz := Int.emod_add_mul_ediv z (256 ^ k)
  rw [assemble_octets]
  constructor
  · intro h
    have : topOctet signed (octetOf (z / 256 ^ k)) * 256 ^ k = z / 256 ^ k * 256 ^ k := by
      linarith
    exact mul_right_cancel₀ (ne_of_gt hp) this
  · intro h
    rw [h]
    linarith

theorem topOctet_eq_iff (signed : Bool) (z : ℤ) :
    topOctet signed (octetOf z) = z ↔ Contains signed 8 z := by
  have h := octetOf_toNat z
  cases signed <;> simp only [topOctet, Contains] <;> norm_num <;> omega

theorem contains_ediv_iff (signed : Bool) (k : ℕ) (z : ℤ) :
    Contains signed 8 (z / 256 ^ k) ↔ Contains signed (8 * (k + 1)) z := by
  have hp : (0 : ℤ) < 256 ^ k := by positivity
  have h256 : (256 : ℤ) ^ k = 2 ^ (8 * k) := by rw [pow_mul]; norm_num
  cases signed with
  | false =>
    have hw : (2 : ℤ) ^ (8 * (k + 1)) = 2 ^ 8 * 256 ^ k := by rw [h256]; ring
    simp only [Contains, Bool.false_eq_true, if_false, Int.le_ediv_iff_mul_le hp, hw,
      Int.ediv_lt_iff_lt_mul hp, zero_mul]
  | true =>
    have hw : (2 : ℤ) ^ (8 * (k + 1) - 1) = 2 ^ 7 * 256 ^ k := by
      rw [h256, show 8 * (k + 1) - 1 = 7 + 8 * k by omega, pow_add]
    simp only [Contains, if_true, Int.le_ediv_iff_mul_le hp, hw, Int.ediv_lt_iff_lt_mul hp,
      show 8 - 1 = 7 from rfl, neg_mul]

theorem word_round_trip_iff (signed : Bool) (k : ℕ) (z : ℤ) :
    assemble (topOctet signed (octetOf (z / 256 ^ k))) (octets k z).reverse = z ↔
      Contains signed (8 * (k + 1)) z := by
  rw [assemble_word, topOctet_eq_iff, contains_ediv_iff]

end OctetWords
