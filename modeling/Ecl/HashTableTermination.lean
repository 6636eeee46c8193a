import Ecl.HashTableGrowing
import Ecl.HashTableCorrectness

/-! Which rehash sizes let every sequence of sethash calls come to an end. -/
namespace HashTableSizes

open EclHashTable (TableOps)
open Integers NumberCompare FloatFormats FloatNumbers RatioFloats RationalCompare
open Objects (FloatType)
open Equalp (FloatValue floatValue)

def RehashSize.Enlarges : RehashSize → Prop
  | .fixnum n => 0 < n
  | .double (.finite q) => 1 < q
  | .double _ => False

def sizes (r : RehashSize) (size : ℕ) : ℕ → Except Failure ℕ
  | 0 => .ok size
  | k + 1 => (sizes r size k).bind (newSize r)

def Overflows (r : RehashSize) (s : ℕ) : Prop :=
  ∃ q, r = .double (.finite q) ∧ 2 ^ (1024 : ℤ) ≤ (format .double).roundUnbounded (q * s)

/-- The bytes of the array asked for do not fit a cl_index, and what is left of them fits the
memory. -/
def Wraps (r : RehashSize) (s : ℕ) : Prop :=
  ∃ n : ℤ, newSizeObj r s = .ok n ∧ 2 ^ 60 ≤ n ∧ n ≤ mostPositiveFixnum ∧ n.toNat * 16 % 2 ^ 64 < 2 ^ 56

/-- What cl__make_hash_table lets through. -/
def Accepted : RehashSize → Prop
  | .fixnum n => 0 ≤ n
  | .double (.finite q) => 1 ≤ q ∧ (format .double).OnGrid q
  | .double _ => True

section doubles

theorem onGrid_nat {s : ℕ} (h : s < 2 ^ 53) : (format .double).OnGrid s :=
  ⟨s, 0, by simpa [format] using h, by decide, by simp⟩

theorem toFloat_nat {s : ℕ} (h : s < 2 ^ 52) : toFloat .double s = .finite s := by
  have hself : (format .double).roundUnbounded s = s := roundUnbounded_eq_self (onGrid_nat (by omega))
  apply toFloat_of_lt hself
  have hlt : (s : ℚ) < 2 ^ 52 := by exact_mod_cast h
  rw [abs_of_nonneg (Nat.cast_nonneg s)]
  calc (s : ℚ) < 2 ^ 52 := hlt
    _ = 2 ^ (52 : ℤ) := by norm_num
    _ ≤ 2 ^ (format .double).maxExponent := zpow_le_zpow_right₀ (by norm_num) (by decide)

theorem next_double {q : ℚ} (hq : (format .double).OnGrid q) (h : 1 < q) : 1 + (2 : ℚ) ^ (-52 : ℤ) ≤ q := by
  obtain ⟨m, e, hm, -, rfl⟩ := hq
  have hm53 : (m.natAbs : ℚ) < 2 ^ (53 : ℤ) := by
    rw [show (2 : ℚ) ^ (53 : ℤ) = ((2 ^ 53 : ℕ) : ℚ) by norm_num]
    exact_mod_cast hm
  have habs : (m : ℚ) ≤ m.natAbs := by
    rw [Nat.cast_natAbs]
    exact_mod_cast le_abs_self m
  have he : -52 ≤ e := by
    by_contra hlt
    have hle : (2 : ℚ) ^ e ≤ 2 ^ (-53 : ℤ) := zpow_le_zpow_right₀ (by norm_num) (by omega)
    have hsmall : (m : ℚ) * 2 ^ e ≤ m.natAbs * 2 ^ (-53 : ℤ) := by
      have := two_zpow_pos e
      apply mul_le_mul habs hle this.le
      positivity
    have hone : (m.natAbs : ℚ) * 2 ^ (-53 : ℤ) < 2 ^ (53 : ℤ) * 2 ^ (-53 : ℤ) :=
      mul_lt_mul_of_pos_right hm53 (two_zpow_pos _)
    rw [← zpow_add₀ (by norm_num)] at hone
    norm_num at hone hsmall
    linarith
  -- A multiple of 2^-52 above one.
  rw [zpow_eq_mul he] at h ⊢
  have hp := two_zpow_pos (-52)
  have hunit : (1 : ℚ) = ((2 ^ 52 : ℤ) : ℚ) * 2 ^ (-52 : ℤ) := by norm_num
  rw [← mul_assoc, ← Int.cast_mul] at h ⊢
  rw [hunit] at h ⊢
  have hlt : (2 ^ 52 : ℤ) < m * 2 ^ (e - -52).toNat := by
    exact_mod_cast lt_of_mul_lt_mul_right h hp.le
  have hle : ((2 ^ 52 : ℤ) : ℚ) + 1 ≤ ((m * 2 ^ (e - -52).toNat : ℤ) : ℚ) := by exact_mod_cast hlt
  calc ((2 ^ 52 : ℤ) : ℚ) * 2 ^ (-52 : ℤ) + 2 ^ (-52 : ℤ)
      = (((2 ^ 52 : ℤ) : ℚ) + 1) * 2 ^ (-52 : ℤ) := by ring
    _ ≤ ((m * 2 ^ (e - -52).toNat : ℤ) : ℚ) * 2 ^ (-52 : ℤ) := mul_le_mul_of_nonneg_right hle hp.le

theorem onGrid_next {s : ℕ} (h0 : 0 < s) (h : s < 2 ^ 52) :
    (format .double).OnGrid (s + 2 ^ ((Nat.log 2 s : ℤ) - 52)) := by
  have hlog : Nat.log 2 s < 52 := Nat.log_lt_of_lt_pow (by omega) h
  have hup : s < 2 ^ (Nat.log 2 s + 1) := Nat.lt_pow_succ_log_self (by norm_num) s
  obtain ⟨d, hd⟩ : ∃ d, 52 = Nat.log 2 s + d + 1 := ⟨51 - Nat.log 2 s, by omega⟩
  refine ⟨s * 2 ^ (d + 1) + 1, (Nat.log 2 s : ℤ) - 52, ?_, ?_, ?_⟩
  · have hle : (s + 1) * 2 ^ (d + 1) ≤ 2 ^ (Nat.log 2 s + 1) * 2 ^ (d + 1) := Nat.mul_le_mul_right _ hup
    have hpow : 2 ^ (Nat.log 2 s + 1) * 2 ^ (d + 1) = 2 ^ 53 := by
      rw [← pow_add]
      congr 1
      omega
    have htwo : 2 ≤ 2 ^ (d + 1) := by
      rw [pow_succ]
      have := Nat.one_le_two_pow (n := d)
      omega
    have hnat : s * 2 ^ (d + 1) + 1 < 2 ^ 53 := by
      rw [hpow, add_mul, one_mul] at hle
      omega
    have habs : ((s : ℤ) * 2 ^ (d + 1) + 1).natAbs = s * 2 ^ (d + 1) + 1 := by
      have hcast : (s : ℤ) * 2 ^ (d + 1) + 1 = ((s * 2 ^ (d + 1) + 1 : ℕ) : ℤ) := by push_cast; rfl
      rw [hcast, Int.natAbs_natCast]
    rw [habs]
    exact hnat
  · simp only [format]
    omega
  · have hone : ((2 : ℚ) ^ (d + 1)) * 2 ^ ((Nat.log 2 s : ℤ) - 52) = 1 := by
      rw [← zpow_natCast, ← zpow_add₀ (by norm_num)]
      have hzero : ((d + 1 : ℕ) : ℤ) + ((Nat.log 2 s : ℤ) - 52) = 0 := by omega
      rw [hzero, zpow_zero]
    push_cast
    rw [add_mul, mul_assoc, hone]
    ring

theorem lt_product {q : ℚ} (hq : (format .double).OnGrid q) (h1 : 1 < q) {s : ℕ} (h0 : 0 < s)
    (h : s < 2 ^ 52) : (s : ℚ) < (format .double).roundUnbounded (q * s) := by
  have hpos : (0 : ℚ) < s := by exact_mod_cast h0
  have hlow : (2 : ℚ) ^ (Nat.log 2 s : ℤ) ≤ s := by
    rw [zpow_natCast]
    exact_mod_cast Nat.pow_log_le_self 2 (by omega)
  have hstep : (2 : ℚ) ^ ((Nat.log 2 s : ℤ) - 52) ≤ 2 ^ (-52 : ℤ) * s := by
    rw [sub_eq_add_neg, zpow_add₀ (by norm_num), mul_comm]
    exact mul_le_mul_of_nonneg_left hlow (two_zpow_pos _).le
  have hle : s + (2 : ℚ) ^ ((Nat.log 2 s : ℤ) - 52) ≤ q * s := by
    have hq' := mul_le_mul_of_nonneg_right (next_double hq h1) hpos.le
    rw [add_mul, one_mul] at hq'
    linarith
  have hround := le_roundUnbounded (onGrid_next h0 h) hle
  have := two_zpow_pos ((Nat.log 2 s : ℤ) - 52)
  linarith

theorem toFloat_of_le {t : FloatType} {q : ℚ}
    (h : (2 : ℚ) ^ (format t).maxExponent ≤ (format t).roundUnbounded q) (hq : 0 ≤ q) :
    toFloat t q = .infinity false := by
  have habs : ¬ |(format t).roundUnbounded q| < 2 ^ (format t).maxExponent :=
    not_lt.mpr (h.trans (le_abs_self _))
  rw [toFloat, Format.round, if_neg habs, Option.elim_none, decide_eq_false (not_lt.mpr hq)]

end doubles

section sizes

variable {r : RehashSize} {s s' : ℕ}

theorem eclAlloc_error {n : ℕ} {f : Failure} (h : eclAlloc n = .error f) :
    2 ^ 52 ≤ n ∧ (f = .storageExhausted ∨ f = .overrun ∧ 2 ^ 60 ≤ n ∧ n * 16 % 2 ^ 64 < 2 ^ 56) := by
  simp only [eclAlloc] at h
  split at h
  · cases h
    exact ⟨by omega, Or.inl rfl⟩
  · split at h
    · cases h
      exact ⟨by omega, Or.inr ⟨rfl, by omega, by omega⟩⟩
    · cases h

theorem newSize_obj {obj : ℤ} (h : newSizeObj r s = .ok obj) :
    newSize r s = (eclAlloc (if obj ≤ mostPositiveFixnum then obj.toNat else s * 2)).bind
      fun _ => .ok (if obj ≤ mostPositiveFixnum then obj.toNat else s * 2) := by
  rw [newSize, h]
  rfl

theorem newSize_error {e : ArithmeticError} (h : newSizeObj r s = .error e) :
    newSize r s = .error (.arithmetic e) := by
  rw [newSize, h]
  rfl

theorem newSize_of_obj_size {obj : ℤ} (h : newSizeObj r s = .ok obj) (hok : newSize r s = .ok s') :
    s' = obj.toNat ∨ s' = s * 2 := by
  rw [newSize_obj h] at hok
  cases halloc : eclAlloc (if obj ≤ mostPositiveFixnum then obj.toNat else s * 2) with
  | error f =>
    rw [halloc] at hok
    cases hok
  | ok u =>
    rw [halloc] at hok
    simp only [Except.bind, Except.ok.injEq] at hok
    split at hok <;> simp [hok]

theorem newSize_of_obj_error {obj : ℤ} (h : newSizeObj r s = .ok obj) (hs : s < 2 ^ 52) {f : Failure}
    (herr : newSize r s = .error f) : f = .storageExhausted ∨ f = .overrun ∧ Wraps r s := by
  rw [newSize_obj h] at herr
  cases halloc : eclAlloc (if obj ≤ mostPositiveFixnum then obj.toNat else s * 2) with
  | ok u =>
    rw [halloc] at herr
    cases herr
  | error f' =>
    rw [halloc] at herr
    cases herr
    obtain ⟨-, hstorage | ⟨hover, hlow, hwrap⟩⟩ := eclAlloc_error halloc
    · exact Or.inl hstorage
    · refine Or.inr ⟨hover, ?_⟩
      split at hlow
      · next hfix =>
        rw [if_pos hfix] at hwrap
        exact ⟨obj, h, by omega, hfix, hwrap⟩
      · omega

theorem newSize_of_wraps (h : Wraps r s) : newSize r s = .error .overrun := by
  obtain ⟨n, hobj, hlow, hfix, hwrap⟩ := h
  rw [newSize_obj hobj, if_pos hfix]
  have halloc : eclAlloc n.toNat = .error .overrun := by
    rw [eclAlloc, if_neg (by omega), if_pos (by omega)]
  rw [halloc]
  rfl

theorem newSizeObj_finite (q : ℚ) (hs : s < 2 ^ 52) : newSizeObj (.double (.finite q)) s =
    (trapOverflow (toFloat .double (q * s))).bind ceiling1 := by
  rw [newSizeObj, timesFixnum, toFloat_nat hs]
  rfl

theorem newSizeObj_overflows (h : Overflows r s) (hr : Accepted r) (hs : s < 2 ^ 52) :
    newSizeObj r s = .error .floatingPointOverflow := by
  obtain ⟨q, rfl, hlarge⟩ := h
  have hpos : 0 ≤ q * s := mul_nonneg (zero_le_one.trans hr.1) (Nat.cast_nonneg s)
  rw [newSizeObj_finite q hs, toFloat_of_le hlarge hpos]
  rfl

theorem newSizeObj_of_finite {q : ℚ} (hr : Accepted (.double (.finite q))) (hs : s < 2 ^ 52)
    (h : ¬ Overflows (.double (.finite q)) s) :
    newSizeObj (.double (.finite q)) s = .ok ⌈(format .double).roundUnbounded (q * s)⌉ := by
  have hmax : (format .double).maxExponent = 1024 := rfl
  have hlt : (format .double).roundUnbounded (q * s) < 2 ^ (format .double).maxExponent := by
    rw [hmax]
    by_contra hle
    exact h ⟨q, rfl, not_lt.mp hle⟩
  have hs0 : (s : ℚ) ≤ (format .double).roundUnbounded (q * s) :=
    le_roundUnbounded (onGrid_nat (by omega)) (le_mul_of_one_le_left (Nat.cast_nonneg s) hr.1)
  have habs : |(format .double).roundUnbounded (q * s)| < 2 ^ (format .double).maxExponent := by
    rw [abs_of_nonneg ((Nat.cast_nonneg s).trans hs0)]
    exact hlt
  rw [newSizeObj_finite q hs, toFloat_of_lt rfl habs]
  rfl

theorem newSizeObj_cases (hr : Accepted r) (h0 : 0 < s) (hs : s < 2 ^ 52) :
    (∃ obj : ℤ, newSizeObj r s = .ok obj ∧ ¬ Overflows r s ∧
        (r.Enlarges ∧ (s : ℤ) < obj ∨ ¬ r.Enlarges ∧ obj = s)) ∨
      ∃ e, newSizeObj r s = .error e ∧ (¬ r.Enlarges ∨ Overflows r s) := by
  cases r with
  | fixnum n =>
    refine Or.inl ⟨n + s, rfl, ?_, ?_⟩
    · rintro ⟨q, hq, -⟩
      cases hq
    · simp only [RehashSize.Enlarges]
      simp only [Accepted] at hr
      omega
  | double d =>
    cases d with
    | finite q =>
      by_cases hover : Overflows (.double (.finite q)) s
      · exact Or.inr ⟨_, newSizeObj_overflows hover hr hs, Or.inr hover⟩
      · refine Or.inl ⟨_, newSizeObj_of_finite hr hs hover, hover, ?_⟩
        rcases hr.1.lt_or_eq with h1 | h1
        · refine Or.inl ⟨h1, ?_⟩
          rw [Int.lt_ceil]
          exact_mod_cast lt_product hr.2 h1 h0 hs
        · refine Or.inr ⟨h1.symm.not_gt, ?_⟩
          rw [← h1, one_mul, roundUnbounded_eq_self (onGrid_nat (by omega))]
          exact Int.ceil_natCast s
    | infinity b =>
      refine Or.inr ⟨.floatingPointOverflow, ?_, Or.inl id⟩
      have hne : (s : ℚ) ≠ 0 := by exact_mod_cast h0.ne'
      rw [newSizeObj, timesFixnum, toFloat_nat hs, multiply, if_neg hne]
      rfl
      intro q hq
      cases hq
    | nan =>
      refine Or.inr ⟨.floatingPointInvalidOperation, ?_, Or.inl id⟩
      rfl

theorem newSize_cases (hr : Accepted r) (h0 : 0 < s) (hs : s < 2 ^ 52) :
    (∀ s', newSize r s = .ok s' → r.Enlarges ∧ s < s' ∨ ¬ r.Enlarges ∧ s' = s) ∧
      ∀ f, newSize r s = .error f → r.Enlarges ∧ f = .storageExhausted ∨
        f ≠ .storageExhausted ∧ (¬ r.Enlarges ∨ Overflows r s ∨ Wraps r s) := by
  rcases newSizeObj_cases hr h0 hs with ⟨obj, hobj, -, hcases⟩ | ⟨e, he, hcases⟩
  · rcases hcases with ⟨hen, hlt⟩ | ⟨hen, hself⟩
    · constructor
      · intro s' h
        rcases newSize_of_obj_size hobj h with rfl | rfl
        · exact Or.inl ⟨hen, by omega⟩
        · exact Or.inl ⟨hen, by omega⟩
      · intro f h
        rcases newSize_of_obj_error hobj hs h with rfl | ⟨rfl, hwraps⟩
        · exact Or.inl ⟨hen, rfl⟩
        · exact Or.inr ⟨by decide, Or.inr (Or.inr hwraps)⟩
    · have hsame : newSize r s = .ok s := by
        have hfix : obj ≤ mostPositiveFixnum := by
          rw [mostPositiveFixnum]
          omega
        rw [newSize_obj hobj, if_pos hfix, hself, Int.toNat_natCast, eclAlloc_ok.mpr hs]
        rfl
      constructor
      · intro s' h
        rw [hsame] at h
        cases h
        exact Or.inr ⟨hen, rfl⟩
      · intro f h
        rw [hsame] at h
        cases h
  · have hnew := newSize_error he
    constructor
    · intro s' h
      rw [hnew] at h
      cases h
    · intro f h
      rw [hnew] at h
      cases h
      exact Or.inr ⟨by simp, hcases.imp_right Or.inl⟩

theorem sizes_succ {size : ℕ} {k : ℕ} (h : sizes r size k = .ok s) :
    sizes r size (k + 1) = newSize r s := by
  rw [sizes, h]
  rfl

theorem sizes_ok {size : ℕ} {k : ℕ} (h : sizes r size k = .ok s) :
    ∀ j ≤ k, ∃ x, sizes r size j = .ok x := by
  induction k generalizing s with
  | zero =>
    intro j hj
    obtain rfl : j = 0 := by omega
    exact ⟨s, h⟩
  | succ k ih =>
    intro j hj
    cases hk : sizes r size k with
    | error f =>
      rw [sizes, hk] at h
      cases h
    | ok x =>
      rcases Nat.le_succ_iff.mp hj with hle | rfl
      · exact ih hk j hle
      · exact ⟨s, h⟩

theorem sizes_bounds (hr : Accepted r) {size : ℕ} (hmin : 16 ≤ size) (hmax : size < 2 ^ 52) :
    ∀ k s, sizes r size k = .ok s → 16 ≤ s ∧ s < 2 ^ 52 := by
  intro k
  induction k with
  | zero =>
    intro s h
    cases h
    exact ⟨hmin, hmax⟩
  | succ k ih =>
    intro s' h
    cases hk : sizes r size k with
    | error f =>
      rw [sizes, hk] at h
      cases h
    | ok s =>
      rw [sizes_succ hk] at h
      obtain ⟨hs, hs'⟩ := ih s hk
      have hle := (newSize_cases hr (by omega) hs').1 s' h
      exact ⟨by omega, newSize_lt h⟩

end sizes

section accepted

theorem trapOverflow_double {q : ℚ} {d : FloatValue} (h : trapOverflow (toFloat .double q) = .ok d) :
    d = .finite ((format .double).roundUnbounded q) := by
  rw [toFloat, Format.round] at h
  split at h
  · cases h
    rfl
  · cases h

theorem accepted_checkRehashSize {x : RealNumber} {r : RehashSize} (h : checkRehashSize x = .ok r) :
    Accepted r := by
  unfold checkRehashSize at h
  split at h
  · cases h
  · next hsign =>
    cases x with
    | rational x =>
      cases x with
      | ratio n d => cases h
      | integer n =>
        cases n with
        | bignum z => cases h
        | fixnum n =>
          cases h
          simpa [minusp, Rationals.minusp, Accepted] using hsign
    | float t bits =>
      have hcompare : numberCompare (.float t bits) one = .ok (-fixCompare t 1 (floatValue t bits)) := rfl
      simp only [hcompare, signals, bind, Except.bind] at h
      split at h
      · cases h
      · next hge =>
        cases hv : floatValue t bits with
        | nan | infinity b =>
          rw [hv] at h
          cases h
          trivial
        | finite q =>
          have hgrid := onGrid_floatValue hv
          rw [hv, fixCompare_finite (n := 1) (by decide) hgrid, Int.cast_one] at hge
          have h1 : 1 ≤ q := by
            by_contra hlt
            rw [exactSign_gt (not_le.mp hlt)] at hge
            exact hge (by decide)
          rw [hv, castDouble] at h
          cases ht : trapOverflow (toFloat .double q) with
          | error e =>
            rw [ht] at h
            cases h
          | ok d =>
            rw [ht] at h
            cases h
            rw [trapOverflow_double ht]
            refine ⟨?_, onGrid_roundUnbounded q⟩
            have hone := le_roundUnbounded (onGrid_nat (s := 1) (by decide)) (by simpa using h1)
            simpa using hone

theorem clMakeHashTable_ok {B : Type} {size rehashSize rehashThreshold : RealNumber} {t : HashTable B}
    (h : clMakeHashTable size rehashSize rehashThreshold = .ok t) :
    Accepted t.rehashSize ∧ 16 ≤ t.size ∧ t.size < 2 ^ 52 ∧ t.entries = 0 ∧
      t = emptyExtension t t.size := by
  simp only [clMakeHashTable, bind, Except.bind] at h
  cases hsize : checkSize size with
  | error f => rw [hsize] at h; cases h
  | ok hsize' =>
    cases hr : checkRehashSize rehashSize with
    | error f => rw [hsize, hr] at h; cases h
    | ok r =>
      cases hf : checkThreshold rehashThreshold with
      | error f => rw [hsize, hr, hf] at h; cases h
      | ok factor =>
        cases ha : eclAlloc hsize' with
        | error f => rw [hsize, hr, hf] at h; simp only [ha] at h; cases h
        | ok u =>
          rw [hsize, hr, hf] at h
          simp only [ha] at h
          cases h
          refine ⟨accepted_checkRehashSize hr, ?_, eclAlloc_ok.mp ha, rfl, rfl⟩
          unfold checkSize at hsize
          split at hsize
          · split at hsize
            · cases hsize
            · cases hsize
              simp only
              split <;> omega
          · cases hsize

end accepted

section termination

variable {K V B : Type} {O : TableOps K V B} {pairs : ℕ → K × V}

theorem terminates_of_enlarges {t : HashTable B} (hr : Accepted t.rehashSize) (hmin : 16 ≤ t.size)
    (hmax : t.size < 2 ^ 52) (hempty : t = emptyExtension t t.size) (hen : t.rehashSize.Enlarges)
    (hsizes : ∀ k s, sizes t.rehashSize t.size k = .ok s →
      ¬ Overflows t.rehashSize s ∧ ¬ Wraps t.rehashSize s) : Terminates O t := by
  have hsound : Sound t := hempty ▸ sound_emptyExtension t hmin
  refine terminates_of_enlarging (A := fun s => ∃ k, sizes t.rehashSize t.size k = .ok s) ?_ hsound
    ⟨0, rfl⟩ (by rw [hempty]; rfl)
  rintro s ⟨k, hk⟩
  obtain ⟨hs16, hs52⟩ := sizes_bounds hr hmin hmax k s hk
  obtain ⟨hok, herr⟩ := newSize_cases hr (by omega) hs52
  refine ⟨hs16, hs52, ?_⟩
  cases hn : newSize t.rehashSize s with
  | ok s' =>
    rcases hok s' hn with ⟨-, hlt⟩ | ⟨hno, -⟩
    · exact Or.inr ⟨s', rfl, hlt, k + 1, (sizes_succ hk).trans hn⟩
    · exact absurd hen hno
  | error f =>
    rcases herr f hn with ⟨-, rfl⟩ | ⟨-, hno | hover | hwraps⟩
    · exact Or.inl rfl
    · exact absurd hen hno
    · exact absurd hover (hsizes k s hk).1
    · exact absurd hwraps (hsizes k s hk).2

theorem not_terminates_at (hkeys : DistinctKeys O pairs) {t : HashTable B}
    (hr : Accepted t.rehashSize) (hmin : 16 ≤ t.size) (hmax : t.size < 2 ^ 52)
    (hempty : t = emptyExtension t t.size) {k s : ℕ} (hk : sizes t.rehashSize t.size k = .ok s)
    (hmemory : newSize t.rehashSize s ≠ .error .storageExhausted)
    (hstay : ∀ s', newSize t.rehashSize s = .ok s' → s' = s) : ¬ Terminates O t := by
  have hholding : Holding O pairs ∅ t := hempty ▸ holding_emptyExtension t hmin
  refine not_terminates (A := fun x => ∃ j ≤ k, sizes t.rehashSize t.size j = .ok x) hkeys ?_ hholding
    ⟨0, Nat.zero_le k, rfl⟩
  rintro x ⟨j, hj, hx⟩
  obtain ⟨hx16, hx52⟩ := sizes_bounds hr hmin hmax j x hx
  refine ⟨hx16, hx52, ?_⟩
  rcases Nat.lt_or_eq_of_le hj with hlt | rfl
  · -- The sizes up to s were all allocated.
    obtain ⟨x', hx'⟩ := sizes_ok hk (j + 1) hlt
    have hnew := (sizes_succ hx).symm.trans hx'
    refine ⟨by rw [hnew]; simp, ?_⟩
    intro s' hs'
    exact ⟨j + 1, hlt, (sizes_succ hx).trans hs'⟩
  · rw [hk] at hx
    cases hx
    refine ⟨hmemory, ?_⟩
    intro s' hs'
    rw [hstay s' hs']
    exact ⟨j, le_rfl, hk⟩

/-- Every sequence of calls with different keys comes to an end if and only if the rehash
size is a positive increment, or a factor that is above one as a double, and no size that the
table grows to makes the product overflow or the bytes of the array wrap. -/
theorem sethash_terminates (hkeys : DistinctKeys O pairs)
    {size rehashSize rehashThreshold : RealNumber} {t : HashTable B}
    (h : clMakeHashTable size rehashSize rehashThreshold = .ok t) :
    Terminates O t ↔ t.rehashSize.Enlarges ∧ ∀ k s, sizes t.rehashSize t.size k = .ok s →
      ¬ Overflows t.rehashSize s ∧ ¬ Wraps t.rehashSize s := by
  obtain ⟨hr, hmin, hmax, -, hempty⟩ := clMakeHashTable_ok h
  constructor
  · intro hends
    have hen : t.rehashSize.Enlarges := by
      by_contra hno
      obtain ⟨hok, herr⟩ := newSize_cases hr (by omega) hmax
      refine not_terminates_at hkeys hr hmin hmax hempty (k := 0) rfl ?_ ?_ hends
      · intro hstorage
        rcases herr _ hstorage with ⟨hen, -⟩ | ⟨hne, -⟩
        · exact hno hen
        · exact hne rfl
      · intro s' hs'
        rcases hok s' hs' with ⟨hen, -⟩ | ⟨-, hself⟩
        · exact absurd hen hno
        · exact hself
    refine ⟨hen, ?_⟩
    intro k s hk
    obtain ⟨hs16, hs52⟩ := sizes_bounds hr hmin hmax k s hk
    constructor
    · intro hover
      have hnew := newSize_error (newSizeObj_overflows hover hr hs52)
      refine not_terminates_at hkeys hr hmin hmax hempty hk ?_ ?_ hends
      · rw [hnew]
        simp
      · intro s' hs'
        rw [hnew] at hs'
        cases hs'
    · intro hwraps
      have hnew := newSize_of_wraps hwraps
      refine not_terminates_at hkeys hr hmin hmax hempty hk ?_ ?_ hends
      · rw [hnew]
        simp
      · intro s' hs'
        rw [hnew] at hs'
        cases hs'
  · rintro ⟨hen, hsizes⟩
    exact terminates_of_enlarges hr hmin hmax hempty hen hsizes

/-- An EQ table with the default size and threshold. -/
def makeEqTable (rehashSize : ℤ) : Except Failure (HashTable (Objects.Obj × ℕ)) :=
  clMakeHashTable (.rational (.integer (makeFixnum 1024)))
    (.rational (.integer (makeFixnum rehashSize))) (.float .single 0x3f400000)

theorem makeEqTable_ok (rehashSize : ℤ) (h0 : 0 ≤ rehashSize) (h : FitsFixnum rehashSize) :
    ∃ t, makeEqTable rehashSize = .ok t ∧ t.rehashSize = .fixnum rehashSize ∧ t.size = 1024 := by
  have hsize : checkSize (.rational (.integer (makeFixnum 1024))) = .ok 1024 := by decide
  have hthreshold : checkThreshold (.float .single 0x3f400000) = .ok (.finite (3 / 4)) := by
    decide +kernel
  have hvalue : (BitVec.ofInt 62 rehashSize).toInt = rehashSize := value_makeFixnum h
  have hrehash : checkRehashSize (.rational (.integer (makeFixnum rehashSize))) =
      .ok (.fixnum rehashSize) := by
    have hsign : ¬ minusp (.rational (.integer (makeFixnum rehashSize))) = true := by
      simp only [minusp, Rationals.minusp, makeFixnum, hvalue, decide_eq_true_eq]
      omega
    unfold checkRehashSize
    rw [if_neg hsign]
    simp only [makeFixnum, hvalue]
  have halloc : eclAlloc 1024 = .ok () := by decide
  refine ⟨⟨.fixnum rehashSize, .finite (3 / 4), 1024, 0, limit (.finite (3 / 4)) 1024,
    fun _ => none⟩, ?_, rfl, rfl⟩
  rw [makeEqTable, clMakeHashTable, hsize, hthreshold, hrehash]
  simp only [bind, Except.bind, halloc]
  rfl

def eqOps : TableOps Objects.Obj ℕ (Objects.Obj × ℕ) :=
  EclHashTable.keyedOps Objects.eclEq EclHashTable.fixnumHash

theorem eqOps_fixnums : DistinctKeys eqOps fun i => (.fixnum i, i) where
  test_iff := by simp [eqOps, EclHashTable.keyedOps, Objects.eclEq]
  key_store := by simp [eqOps, EclHashTable.keyedOps]
  value_store := by simp [eqOps, EclHashTable.keyedOps]

theorem sethash_terminates_by_one : ∃ t, makeEqTable 1 = .ok t ∧ Terminates eqOps t := by
  obtain ⟨t, hmake, hr, -⟩ := makeEqTable_ok 1 (by decide) (by decide)
  refine ⟨t, hmake, (sethash_terminates eqOps_fixnums hmake).mpr ⟨by rw [hr]; exact one_pos, ?_⟩⟩
  obtain ⟨haccepted, hmin, hmax, -⟩ := clMakeHashTable_ok hmake
  intro k s hk
  have hs := (sizes_bounds haccepted hmin hmax k s hk).2
  rw [hr]
  constructor
  · rintro ⟨q, hq, -⟩
    cases hq
  · rintro ⟨n, hn, hlarge, -⟩
    cases hn
    omega

/-- With a rehash size of 0 a full table is extended for ever. -/
theorem rehash_size_zero_never_ends : ∃ t, makeEqTable 0 = .ok t ∧ ¬ Terminates eqOps t := by
  obtain ⟨t, hmake, hr, hsize⟩ := makeEqTable_ok 0 (by decide) (by decide)
  obtain ⟨haccepted, hmin, hmax, -, hempty⟩ := clMakeHashTable_ok hmake
  have hstay : newSize t.rehashSize t.size = .ok t.size := by
    rw [hr, hsize]
    decide
  refine ⟨t, hmake, not_terminates_at eqOps_fixnums haccepted hmin hmax hempty (k := 0) rfl ?_ ?_⟩
  · rw [hstay]
    simp
  · intro s' hs'
    rw [hstay] at hs'
    cases hs'
    rfl

end termination

end HashTableSizes
