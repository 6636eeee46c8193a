import Ecl.LogicalOperations

/-! Results of integer arithmetic are exact and canonical, except where a product or a
quotient arrives at the end of the fixnum range from outside. -/
namespace CanonicalIntegers

open Integers LogicalOperations

inductive Operation where
  | plus (x y : Integer)
  | minus (x y : Integer)
  | times (x y : Integer)
  | negate (x : Integer)
  | integerDivide (x y : Integer)
  | gcd (x y : Integer)
  | ash (x : Integer) (w : ℤ)
  | boole (op : BooleOp) (x y : Integer)
  deriving DecidableEq

def Operation.operands : Operation → List Integer
  | .plus x y | .minus x y | .times x y | .integerDivide x y | .gcd x y | .boole _ x y => [x, y]
  | .negate x | .ash x _ => [x]

def Operation.run : Operation → Except ArithmeticError Integer
  | .plus x y => .ok (Integers.plus x y)
  | .minus x y => .ok (Integers.minus x y)
  | .times x y => .ok (Integers.times x y)
  | .negate x => .ok (Integers.negate x)
  | .integerDivide x y => Integers.integerDivide x y
  | .gcd x y => .ok (Integers.gcd x y)
  | .ash x w => .ok (LogicalOperations.ash x w)
  | .boole op x y => .ok (LogicalOperations.boole op x y)

def Operation.exact : Operation → ℤ
  | .plus x y => x.value + y.value
  | .minus x y => x.value - y.value
  | .times x y => x.value * y.value
  | .negate x => -x.value
  | .integerDivide x y => x.value.tdiv y.value
  | .gcd x y => Int.gcd x.value y.value
  | .ash x w => shifted x.value w
  | .boole op x y => Int.bitwise op.bit x.value y.value

def Operation.DividesByZero : Operation → Prop
  | .integerDivide _ y => y.value = 0
  | _ => False

def Operation.CrossesRange : Operation → Prop
  | .times x y => x.value = 2 ^ 61 ∧ y.value = -1 ∨ x.value = -1 ∧ y.value = 2 ^ 61
  | .integerDivide x y => x.value = mostNegativeFixnum ∧ y.value = -1
  | _ => False

/-- The result is the exact one, a fixnum if it fits, and EQL to the canonical integers of
its value only. -/
structure Operation.Correct (o : Operation) (z : Integer) : Prop where
  value : z.value = o.exact
  fixnum : z.isFixnum = true ↔ FitsFixnum o.exact
  eql : ∀ y, Canonical y → (z.eql y = true ↔ y.value = o.exact)

theorem fixnum_value_inj {n m : Fixnum} : n.toInt = m.toInt ↔ n = m :=
  BitVec.toInt_inj

theorem eql_iff_value {x y : Integer} (hx : Canonical x) (hy : Canonical y) :
    x.eql y = true ↔ y.value = x.value := by
  cases x with
  | fixnum n =>
    cases y with
    | fixnum m => simp [Integer.eql, fixnum_value_inj, eq_comm]
    | bignum w =>
      have hw := canonical_bignum.mp hy
      have hn : FitsFixnum n.toInt := n.bounds
      simp only [Integer.eql, value_fixnum, value_bignum, Bool.false_eq_true, false_iff]
      intro h
      exact hw (h ▸ hn)
  | bignum z =>
    have hz := canonical_bignum.mp hx
    cases y with
    | fixnum m =>
      have hm : FitsFixnum m.toInt := m.bounds
      simp only [Integer.eql, value_fixnum, value_bignum, Bool.false_eq_true, false_iff]
      intro h
      exact hz (h ▸ hm)
    | bignum w => simp [Integer.eql, eq_comm]

theorem correct_of_canonical {o : Operation} {z : Integer} (hv : z.value = o.exact)
    (hz : Canonical z) : o.Correct z where
  value := hv
  fixnum := by rw [← hv]; exact hz
  eql y hy := by rw [← hv]; exact eql_iff_value hz hy

theorem canonical_bigTimesFix {b : ℤ} {i : Fixnum} (hb : Canonical (.bignum b))
    (h : ¬ (b = 2 ^ 61 ∧ i.toInt = -1)) : Canonical (bigTimesFix b i) := by
  have hb' := canonical_bignum.mp hb
  unfold bigTimesFix
  split
  · exact canonical_makeFixnum 0
  · next h0 =>
    split
    · exact hb
    · next h1 =>
      have h0' : i.toInt ≠ 0 := fun e => h0 (fixnum_value_inj.mp e)
      have h1' : i.toInt ≠ 1 := fun e => h1 (fixnum_value_inj.mp e)
      rw [canonical_bignum]
      simp only [fits_iff] at hb' ⊢
      generalize i.toInt = k at *
      rintro ⟨hl, hu⟩
      rcases Int.lt_or_le b 0 with hneg | hpos
      · have hb2 : b < -2 ^ 61 := by omega
        rcases Int.lt_or_le k 0 with hk | hk
        · nlinarith
        · have : 2 ≤ k := by omega
          nlinarith
      · have hb2 : 2 ^ 61 ≤ b := by omega
        rcases Int.lt_or_le k (-1) with hk | hk
        · nlinarith
        · rcases Int.lt_or_le k 0 with hk' | hk'
          · have hkm : k = -1 := by omega
            subst hkm
            have : b ≠ 2 ^ 61 := fun e => h ⟨e, rfl⟩
            omega
          · have : 2 ≤ k := by omega
            nlinarith

theorem canonical_times {x y : Integer} (hx : Canonical x) (hy : Canonical y)
    (h : ¬ (Operation.times x y).CrossesRange) : Canonical (times x y) := by
  simp only [Operation.CrossesRange, not_or] at h
  cases x with
  | fixnum n =>
    cases y with
    | fixnum m => exact canonical_bigNormalize _
    | bignum w => exact canonical_bigTimesFix hy (fun e => h.2 ⟨e.2, e.1⟩)
  | bignum z =>
    cases y with
    | fixnum m => exact canonical_bigTimesFix hx h.1
    | bignum w =>
      rw [canonical_bignum] at hx hy
      simp only [times, bigTimesBig, canonical_bignum]
      simp only [FitsFixnum, mostNegativeFixnum, mostPositiveFixnum] at *
      rintro ⟨hl, hu⟩
      rcases Int.lt_or_le z 0 with hz | hz <;> rcases Int.lt_or_le w 0 with hw | hw
      · have : z < -2 ^ 61 := by omega
        have : w < -2 ^ 61 := by omega
        nlinarith
      · have : z < -2 ^ 61 := by omega
        have : 2 ^ 61 ≤ w := by omega
        nlinarith
      · have : 2 ^ 61 ≤ z := by omega
        have : w < -2 ^ 61 := by omega
        nlinarith
      · have : 2 ^ 61 ≤ z := by omega
        have : 2 ^ 61 ≤ w := by omega
        nlinarith

theorem fits_tdiv {a b : ℤ} (ha : FitsFixnum a) (h : ¬ (a = mostNegativeFixnum ∧ b = -1)) :
    FitsFixnum (a.tdiv b) := by
  have habs := Int.natAbs_tdiv a b
  change _ = a.natAbs / b.natAbs at habs
  simp only [FitsFixnum, mostNegativeFixnum, mostPositiveFixnum] at *
  by_cases h2 : 2 ≤ b.natAbs
  · have hhalf : a.natAbs / b.natAbs ≤ a.natAbs / 2 := Nat.div_le_div_left h2 (by decide)
    omega
  · rcases (show b = 0 ∨ b = 1 ∨ b = -1 by omega) with rfl | rfl | rfl
    · rw [Int.tdiv_zero]
      omega
    · rw [Int.tdiv_one]
      exact ha
    · rw [Int.tdiv_neg, Int.tdiv_one]
      omega

theorem correct_integerDivide {x y : Integer} (h0 : y.value ≠ 0)
    (h : ¬ (x.value = mostNegativeFixnum ∧ y.value = -1)) :
    ∃ z, integerDivide x y = .ok z ∧ z.value = x.value.tdiv y.value ∧ Canonical z := by
  cases x with
  | fixnum n =>
    cases y with
    | fixnum m =>
      have hm : m ≠ 0 := fun e => h0 (by rw [e]; rfl)
      refine ⟨_, if_neg hm, ?_, canonical_makeFixnum _⟩
      exact value_makeFixnum (fits_tdiv n.bounds h)
    | bignum w => exact ⟨_, rfl, value_bigNormalize _, canonical_bigNormalize _⟩
  | bignum z =>
    cases y with
    | fixnum m =>
      have hm : m ≠ 0 := fun e => h0 (by rw [e]; rfl)
      exact ⟨_, if_neg hm, value_bigNormalize _, canonical_bigNormalize _⟩
    | bignum w => exact ⟨_, rfl, value_bigNormalize _, canonical_bigNormalize _⟩

theorem correct_of_not_crosses {o : Operation} (ho : ∀ x ∈ o.operands, Canonical x)
    (h : ¬ o.CrossesRange) (h0 : ¬ o.DividesByZero) : ∃ z, o.run = .ok z ∧ o.Correct z := by
  cases o with
  | plus x y => exact ⟨_, rfl, correct_of_canonical (value_plus x y) (canonical_plus x y)⟩
  | minus x y => exact ⟨_, rfl, correct_of_canonical (value_minus x y) (canonical_minus x y)⟩
  | times x y =>
    have hc := canonical_times (ho x (by simp [Operation.operands]))
      (ho y (by simp [Operation.operands])) h
    exact ⟨_, rfl, correct_of_canonical (value_times x y) hc⟩
  | negate x => exact ⟨_, rfl, correct_of_canonical (value_negate x) (canonical_negate x)⟩
  | integerDivide x y =>
    obtain ⟨z, hz, hv, hc⟩ := correct_integerDivide h0 h
    exact ⟨z, hz, correct_of_canonical hv hc⟩
  | gcd x y => exact ⟨_, rfl, correct_of_canonical (value_gcd x y) (canonical_gcd x y)⟩
  | ash x w =>
    have hc := canonical_ash (ho x (by simp [Operation.operands])) w
    exact ⟨_, rfl, correct_of_canonical (value_ash x w) hc⟩
  | boole op x y => exact ⟨_, rfl, correct_of_canonical (value_boole op x y) (canonical_boole op x y)⟩

theorem canonical_of_fits {x : Integer} (hx : Canonical x) (h : FitsFixnum x.value) :
    ∃ n, x = .fixnum n := by
  cases x with
  | fixnum n => exact ⟨n, rfl⟩
  | bignum z => exact absurd h (canonical_bignum.mp hx)

theorem canonical_of_not_fits {x : Integer} (hx : Canonical x) (h : ¬ FitsFixnum x.value) :
    x = .bignum x.value := by
  cases x with
  | fixnum n => exact absurd n.bounds h
  | bignum z => rfl

theorem times_crosses {x y : Integer} (hx : Canonical x) (hy : Canonical y)
    (h : (Operation.times x y).CrossesRange) : times x y = .bignum (-2 ^ 61) := by
  have hbig (z : Integer) (hz : Canonical z) (hv : z.value = 2 ^ 61) : z = .bignum (2 ^ 61) := by
    have hn : ¬ FitsFixnum z.value := by rw [hv]; decide
    rw [← hv]
    exact canonical_of_not_fits hz hn
  have hone (z : Integer) (hz : Canonical z) (hv : z.value = -1) : z = makeFixnum (-1) := by
    obtain ⟨n, rfl⟩ := canonical_of_fits hz (by rw [hv]; decide)
    congr 1
    apply fixnum_value_inj.mp
    rw [← value_fixnum, hv]
    decide
  rcases h with ⟨h1, h2⟩ | ⟨h1, h2⟩
  · rw [hbig x hx h1, hone y hy h2]
    decide
  · rw [hone x hx h1, hbig y hy h2]
    decide

theorem integerDivide_crosses {x y : Integer} (hx : Canonical x) (hy : Canonical y)
    (h : (Operation.integerDivide x y).CrossesRange) :
    integerDivide x y = .ok (makeFixnum mostNegativeFixnum) := by
  obtain ⟨h1, h2⟩ := h
  obtain ⟨n, rfl⟩ := canonical_of_fits hx (by rw [h1]; decide)
  obtain ⟨m, rfl⟩ := canonical_of_fits hy (by rw [h2]; decide)
  rw [value_fixnum] at h1 h2
  have hm : m ≠ 0 := by
    rintro rfl
    exact absurd h2 (by decide)
  simp only [integerDivide, if_neg hm, h1, h2]
  decide

/-- Every result is exact and canonical if and only if the operation does not lead from
2^61 to its negative or back with -1. -/
theorem results_canonical (o : Operation) (ho : ∀ x ∈ o.operands, Canonical x) :
    (¬ o.DividesByZero → ∃ z, o.run = .ok z ∧ o.Correct z) ↔ ¬ o.CrossesRange := by
  constructor
  · intro h hcross
    cases o with
    | times x y =>
      obtain ⟨z, hz, hc⟩ := h (fun e => e)
      have hx := ho x (by simp [Operation.operands])
      have hy := ho y (by simp [Operation.operands])
      have hv := hc.fixnum
      rw [← hc.value, ← Except.ok.inj hz, times_crosses hx hy hcross] at hv
      exact absurd hv (by decide)
    | integerDivide x y =>
      have h0 : ¬ (Operation.integerDivide x y).DividesByZero := by
        intro e
        rw [Operation.DividesByZero, hcross.2] at e
        exact absurd e (by decide)
      obtain ⟨z, hz, hc⟩ := h h0
      have hx := ho x (by simp [Operation.operands])
      have hy := ho y (by simp [Operation.operands])
      have hz' : makeFixnum mostNegativeFixnum = z :=
        Except.ok.inj ((integerDivide_crosses hx hy hcross).symm.trans hz)
      have hv := hc.value
      rw [← hz', Operation.exact, hcross.1, hcross.2] at hv
      exact absurd hv (by decide)
    | _ => exact hcross
  · exact correct_of_not_crosses ho

theorem results_canonical_times :
    ¬ (Operation.times (.bignum (2 ^ 61)) (makeFixnum (-2))).CrossesRange ∧
      ((¬ (Operation.times (.bignum (2 ^ 61)) (makeFixnum (-2))).DividesByZero →
        ∃ z, (Operation.times (.bignum (2 ^ 61)) (makeFixnum (-2))).run = .ok z ∧
          (Operation.times (.bignum (2 ^ 61)) (makeFixnum (-2))).Correct z) ↔
        ¬ (Operation.times (.bignum (2 ^ 61)) (makeFixnum (-2))).CrossesRange) := by
  refine ⟨?_, results_canonical _ ?_⟩
  · simp only [Operation.CrossesRange]
    decide
  · simp only [Operation.operands, List.mem_cons, List.not_mem_nil, or_false]
    rintro x (rfl | rfl)
    · exact canonical_bignum.mpr (by decide)
    · exact canonical_makeFixnum _

/-- (* (expt 2 61) -1) is a bignum that no fixnum is EQL to. -/
theorem product_not_canonical :
    Canonical (.bignum (2 ^ 61)) ∧ Canonical (makeFixnum (-1)) ∧
      ∃ z, (Operation.times (.bignum (2 ^ 61)) (makeFixnum (-1))).run = .ok z ∧
        z.value = mostNegativeFixnum ∧ z.isFixnum = false ∧
        z.eql (makeFixnum mostNegativeFixnum) = false ∧
        ¬ (Operation.times (.bignum (2 ^ 61)) (makeFixnum (-1))).Correct z := by
  refine ⟨canonical_bignum.mpr (by decide), canonical_makeFixnum _, .bignum (-2 ^ 61), ?_, ?_, ?_, ?_, ?_⟩
  · decide
  · decide
  · decide
  · decide
  · intro h
    exact absurd h.fixnum (by decide)

end CanonicalIntegers
