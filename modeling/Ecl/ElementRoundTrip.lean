import Ecl.ElementStores

/-! What aref reads after si_aset, over every element type of src/c/array.d. -/
namespace ElementStores

open Integers Rationals
open ArrayBounds (ElementType LispArray Index Accessor subscriptsIndex Shaped)
open MixedRadix (Digits)
open Objects (FloatType floatEql_refl)

/-- The object as the element type's own conversion leaves it: only floats are converted. -/
def coerced (conv : Conversions) : ElementType → Object → Except StoreError Object
  | .sf, v => (toFloat conv .single v).map (.float .single)
  | .df, v => (toFloat conv .double v).map (.float .double)
  | .lf, v => (toFloat conv .long v).map (.float .long)
  | .csf, v => (toCfloat conv .single v).map fun c => .cfloat .single c.1 c.2
  | .cdf, v => (toCfloat conv .double v).map fun c => .cfloat .double c.1 c.2
  | .clf, v => (toCfloat conv .long v).map fun c => .cfloat .long c.1 c.2
  | _, v => .ok v

/-- A bit of the octets behind a bit array, the highest bit of an octet first. -/
def storedBit : (t : ElementType) → (ℕ → Cell t) → ℕ → Bool
  | .bit, self, b => (self (b / 8)).getLsbD (7 - b % 8)
  | _, _, _ => false

/-- The conversion of the object raises a floating point exception. -/
def Trapped (conv : Conversions) (t : ElementType) (v : Object) : Prop :=
  ∃ e, coerced conv t v = .error (.arithmetic e)

def Clipped (t : ElementType) (v : Object) : Prop :=
  t = .bc ∧ ∃ code, v = .character code ∧ 255 < code.toNat

def Renormalized (t : ElementType) (v : Object) : Prop :=
  (t = .b64 ∨ t = .i64) ∧
    ∃ z, v = .rational (.integer (.bignum z)) ∧ FitsFixnum z ∧ (t = .b64 → 0 ≤ z)

def Rejected (conv : Conversions) (x : ElementArray) (indx : List Index) (v : Object) : Prop :=
  ∃ t, siAset conv x indx v = (x, .error (.wrongType t))

structure Stored (conv : Conversions) (x : ElementArray) (indx : List Index) (v : Object)
    (cells : ℕ → Cell x.elttype) : Prop where
  stored : siAset conv x indx v = ({ x with cells := cells }, .ok v)
  element : ∃ w u, aref { x with cells := cells } indx = .ok w ∧
    coerced conv x.elttype v = .ok u ∧ w.eql u = true
  others : ∀ k, subscriptsIndex .siAset x.toLispArray indx ≠ .ok k →
    arefUnsafe x.elttype x.offset cells k = arefUnsafe x.elttype x.offset x.cells k
  bits : ∀ b, (∀ k, subscriptsIndex .siAset x.toLispArray indx = .ok k → b ≠ k + x.offset) →
    storedBit x.elttype cells b = storedBit x.elttype x.cells b

def RoundTrip (conv : Conversions) (x : ElementArray) (indx : List Index) (v : Object) : Prop :=
  Rejected conv x indx v ∨ ∃ cells, Stored conv x indx v cells

theorem rationalEql_refl (r : Rational) : rationalEql r r = true := by
  rcases r with ⟨n | z⟩ | ⟨n | z, d | w⟩ <;> simp [rationalEql, Integer.eql]

@[simp] theorem Object.eql_refl (v : Object) : v.eql v = true := by
  cases v <;> simp [Object.eql, rationalEql_refl, floatEql_refl]

theorem makeFixnum_toInt (n : Fixnum) : makeFixnum n.toInt = .fixnum n := by
  rw [makeFixnum, BitVec.ofInt_toInt]

theorem unsigned_read {t : ElementType} {most : ℤ} {w : ℕ} {v : Object} {c : BitVec w}
    (hu : most < 2 ^ w) (h : fixnumBetween t 0 most w v = .ok c) : fixnum c.toNat = v := by
  unfold fixnumBetween at h
  split at h
  · next n =>
    split_ifs at h with hn
    cases h
    have hlt : n.toInt < 2 ^ w := by omega
    rw [BitVec.toNat_ofInt, Int.emod_eq_of_lt hn.1 (by exact_mod_cast hlt),
      Int.toNat_of_nonneg hn.1, fixnum, makeFixnum_toInt]
  · cases h

theorem signed_read {t : ElementType} {least most : ℤ} {w : ℕ} {v : Object} {c : BitVec w}
    (hw : 0 < w) (hl : -2 ^ (w - 1) ≤ least) (hu : most < 2 ^ (w - 1))
    (h : fixnumBetween t least most w v = .ok c) : fixnum c.toInt = v := by
  unfold fixnumBetween at h
  split at h
  · next n =>
    split_ifs at h with hn
    cases h
    rw [BitVec.toInt_ofInt_eq_self hw (by omega) (by omega), fixnum, makeFixnum_toInt]
  · cases h

theorem makeInteger64_ofInt {i : ℤ} (hl : -2 ^ 63 ≤ i) (hu : i < 2 ^ 63) :
    makeInteger64 (BitVec.ofInt 64 i) = .rational (.integer (makeInteger i)) := by
  rw [makeInteger64, BitVec.toInt_ofInt_eq_self (by decide) hl hu]

theorem makeUnsigned_ofInt {i : ℤ} (hl : 0 ≤ i) (hu : i < 2 ^ 64) :
    makeUnsigned (BitVec.ofInt 64 i) = .rational (.integer (makeInteger i)) := by
  have hword : ((BitVec.ofInt 64 i).toNat : ℤ) = i := by
    rw [BitVec.toNat_ofInt, Int.emod_eq_of_lt hl (by exact_mod_cast hu), Int.toNat_of_nonneg hl]
  have hleast : ¬ i < mostNegativeFixnum := by
    simp only [mostNegativeFixnum]
    omega
  simp only [makeUnsigned, makeInteger, hword, hleast, or_false, gt_iff_lt]

theorem makeInteger_fixnum (n : Fixnum) : makeInteger n.toInt = .fixnum n := by
  have hn := n.bounds
  rw [makeInteger, if_neg (by omega), makeFixnum_toInt]

theorem makeInteger_eql_bignum {z : ℤ} :
    (makeInteger z).eql (.bignum z) = true ↔ ¬ FitsFixnum z := by
  unfold makeInteger FitsFixnum
  split_ifs with hz
  · simp only [Integer.eql, decide_true, true_iff]
    omega
  · simp only [makeFixnum, Integer.eql, Bool.false_eq_true, false_iff]
    omega

structure Accounted (conv : Conversions) (t : ElementType) (offset : ℕ) (old : ℕ → Cell t)
    (index : ℕ) (v : Object) : Prop where
  error : ∀ e, asetUnsafe conv t offset old index v = .error e →
    (∃ t', e = .wrongType t') ∨ ∃ a, e = .arithmetic a ∧ coerced conv t v = .error e
  trapped : ∀ e, coerced conv t v = .error e → asetUnsafe conv t offset old index v = .error e
  loses : Clipped t v ∨ Renormalized t v →
    ∃ cells, asetUnsafe conv t offset old index v = .ok cells
  element : ∀ cells, asetUnsafe conv t offset old index v = .ok cells →
    ∃ u, coerced conv t v = .ok u ∧
      ((arefUnsafe t offset cells index).eql u = true ↔ ¬ Clipped t v ∧ ¬ Renormalized t v)
  others : ∀ cells, asetUnsafe conv t offset old index v = .ok cells → ∀ k, k ≠ index →
    arefUnsafe t offset cells k = arefUnsafe t offset old k
  bits : ∀ cells, asetUnsafe conv t offset old index v = .ok cells → ∀ b, b ≠ index + offset →
    storedBit t cells b = storedBit t old b

section
variable {conv : Conversions} {t : ElementType} {offset index : ℕ} {self : ℕ → Cell t} {v : Object}
  (r : Except StoreError (Cell t)) (load : Cell t → Object)
  (haset : asetUnsafe conv t offset self index v = r.map (Function.update self index))
  (haref : ∀ self k, arefUnsafe t offset self k = load (self k))
  (hbits : ∀ self b, storedBit t self b = false)

include haset haref hbits

theorem Accounted.of_cell
    (herror : ∀ e, r = .error e →
      (∃ t', e = .wrongType t') ∨ ∃ a, e = .arithmetic a ∧ coerced conv t v = .error e)
    (htrapped : ∀ e, coerced conv t v = .error e → r = .error e)
    (hloses : Clipped t v ∨ Renormalized t v → ∃ c, r = .ok c)
    (helement : ∀ c, r = .ok c → ∃ u, coerced conv t v = .ok u ∧
      ((load c).eql u = true ↔ ¬ Clipped t v ∧ ¬ Renormalized t v)) :
    Accounted conv t offset self index v := by
  have hok : ∀ cells, asetUnsafe conv t offset self index v = .ok cells →
      ∃ c, r = .ok c ∧ cells = Function.update self index c := by
    intro cells h
    rw [haset] at h
    cases r with
    | error e => cases h
    | ok c =>
      cases h
      exact ⟨c, rfl, rfl⟩
  refine ⟨?_, ?_, ?_, ?_, ?_, ?_⟩
  · intro e h
    rw [haset] at h
    cases r with
    | error e' =>
      cases h
      exact herror e rfl
    | ok c => cases h
  · intro e h
    rw [haset, htrapped e h]
    rfl
  · intro h
    obtain ⟨c, rfl⟩ := hloses h
    exact ⟨_, haset⟩
  · intro cells h
    obtain ⟨c, hc, rfl⟩ := hok cells h
    rw [haref, Function.update_self]
    exact helement c hc
  · intro cells h k hk
    obtain ⟨c, -, rfl⟩ := hok cells h
    rw [haref, haref, Function.update_of_ne hk]
  · intro cells _ b _
    rw [hbits, hbits]

theorem Accounted.of_exact
    (hcoerced : coerced conv t v = .ok v) (hclipped : ¬ Clipped t v)
    (hrenormalized : ¬ Renormalized t v) (herror : ∀ e, r = .error e → ∃ t', e = .wrongType t')
    (hload : ∀ c, r = .ok c → load c = v) : Accounted conv t offset self index v := by
  refine .of_cell r load haset haref hbits (fun e h => .inl (herror e h)) ?_ ?_ ?_
  · intro e h
    rw [hcoerced] at h
    cases h
  · intro h
    exact absurd h (not_or.mpr ⟨hclipped, hrenormalized⟩)
  · intro c h
    refine ⟨v, hcoerced, ?_⟩
    rw [hload c h, Object.eql_refl]
    exact ⟨fun _ => ⟨hclipped, hrenormalized⟩, fun _ => rfl⟩

theorem Accounted.of_float
    (hcoerced : coerced conv t v = r.map load) (hclipped : ¬ Clipped t v)
    (hrenormalized : ¬ Renormalized t v)
    (herror : ∀ e, r = .error e → (∃ t', e = .wrongType t') ∨ ∃ a, e = .arithmetic a) :
    Accounted conv t offset self index v := by
  refine .of_cell r load haset haref hbits ?_ ?_ ?_ ?_
  · intro e h
    obtain ht | ⟨a, ha⟩ := herror e h
    · exact .inl ht
    · refine .inr ⟨a, ha, ?_⟩
      rw [hcoerced, h]
      rfl
  · intro e h
    rw [hcoerced] at h
    cases r with
    | error e' =>
      cases h
      rfl
    | ok c => cases h
  · intro h
    exact absurd h (not_or.mpr ⟨hclipped, hrenormalized⟩)
  · intro c h
    refine ⟨load c, ?_, ?_⟩
    · rw [hcoerced, h]
      rfl
    · rw [Object.eql_refl]
      exact ⟨fun _ => ⟨hclipped, hrenormalized⟩, fun _ => rfl⟩

end

theorem fixnumBetween_error {t : ElementType} {least most : ℤ} {w : ℕ} {v : Object} {e : StoreError}
    (h : fixnumBetween t least most w v = .error e) : ∃ t', e = .wrongType t' := by
  revert h
  unfold fixnumBetween
  split
  · split_ifs
    · exact fun h => nomatch h
    · intro h
      cases h
      exact ⟨t, rfl⟩
  · intro h
    cases h
    exact ⟨t, rfl⟩

theorem charCode_error {v : Object} {e : StoreError} (h : charCode v = .error e) :
    ∃ t', e = .wrongType t' := by
  cases v <;> cases h <;> exact ⟨_, rfl⟩

theorem trapped_error {α : Type} {r : Except ArithmeticError α} {e : StoreError}
    (h : trapped r = .error e) : ∃ a, e = .arithmetic a := by
  cases r with
  | ok c => cases h
  | error a =>
    cases h
    exact ⟨a, rfl⟩

theorem toFloat_error {conv : Conversions} {f : FloatType} {v : Object} {e : StoreError}
    (h : toFloat conv f v = .error e) : (∃ t', e = .wrongType t') ∨ ∃ a, e = .arithmetic a := by
  cases v with
  | rational r => exact .inr (trapped_error h)
  | float t' bits =>
    simp only [toFloat] at h
    split_ifs at h
    exact .inr (trapped_error h)
  | character | complex | cfloat | other =>
    cases h
    exact .inl ⟨_, rfl⟩

theorem both_trapped_error {r i : Except ArithmeticError ℕ} {e : StoreError}
    (h : (do
      let a ← trapped r
      let b ← trapped i
      return (a, b)) = Except.error e) : ∃ a, e = .arithmetic a := by
  cases r with
  | error a =>
    cases h
    exact ⟨a, rfl⟩
  | ok n =>
    cases i with
    | error a =>
      cases h
      exact ⟨a, rfl⟩
    | ok m => cases h

theorem real_trapped_error {r : Except ArithmeticError ℕ} {e : StoreError}
    (h : (trapped r).map (·, 0) = Except.error (α := ℕ × ℕ) e) : ∃ a, e = .arithmetic a := by
  cases r with
  | ok n => cases h
  | error a =>
    cases h
    exact ⟨a, rfl⟩

theorem toCfloat_error {conv : Conversions} {f : FloatType} {v : Object} {e : StoreError}
    (h : toCfloat conv f v = .error e) : (∃ t', e = .wrongType t') ∨ ∃ a, e = .arithmetic a := by
  cases v with
  | rational r => exact .inr (real_trapped_error h)
  | float t' bits =>
    simp only [toCfloat] at h
    split_ifs at h
    exact .inr (real_trapped_error h)
  | complex re im => exact .inr (both_trapped_error h)
  | cfloat t' re im =>
    simp only [toCfloat] at h
    split_ifs at h
    exact .inr (both_trapped_error h)
  | character | other =>
    cases h
    exact .inl ⟨_, rfl⟩

theorem bitMask_getLsbD (p j : ℕ) : (bitMask p).getLsbD j = decide (p % 8 + j = 7) := by
  rw [bitMask, BitVec.getLsbD_ushiftRight, show 0x80#8 = BitVec.twoPow 8 7 from rfl,
    BitVec.getLsbD_twoPow]
  simp [eq_comm]

theorem and_bitMask_ne_zero {o : BitVec 8} {p : ℕ} :
    o &&& bitMask p ≠ 0 ↔ o.getLsbD (7 - p % 8) = true := by
  have hp : p % 8 + (7 - p % 8) = 7 := by omega
  rw [← not_iff_not, not_not]
  constructor
  · intro h hbit
    have hzero : (o &&& bitMask p).getLsbD (7 - p % 8) = false := by
      rw [h]
      exact BitVec.getLsbD_zero
    rw [BitVec.getLsbD_and, bitMask_getLsbD, hbit, decide_eq_true hp] at hzero
    cases hzero
  · intro h
    refine BitVec.eq_of_getLsbD_eq fun j _ => ?_
    rw [BitVec.getLsbD_and, bitMask_getLsbD]
    by_cases hj : p % 8 + j = 7
    · obtain rfl : j = 7 - p % 8 := by omega
      rw [Bool.not_eq_true] at h
      rw [h]
      exact (BitVec.getLsbD_zero).symm
    · rw [decide_eq_false hj, Bool.and_false]
      exact (BitVec.getLsbD_zero).symm

theorem arefUnsafe_bit (offset : ℕ) (self : ℕ → Cell .bit) (k : ℕ) :
    arefUnsafe .bit offset self k =
      if storedBit .bit self (k + offset) then fixnum 1 else fixnum 0 := by
  simp only [arefUnsafe, storedBit, and_bitMask_ne_zero]
  rfl

def storeBit (self : ℕ → BitVec 8) (p : ℕ) (i : Bool) : ℕ → BitVec 8 :=
  Function.update self (p / 8)
    (if i = false then self (p / 8) &&& ~~~bitMask p else self (p / 8) ||| bitMask p)

theorem storedBit_storeBit (self : ℕ → BitVec 8) (p : ℕ) (i : Bool) (b : ℕ) :
    storedBit .bit (storeBit self p i) b = if b = p then i else storedBit .bit self b := by
  simp only [storedBit, storeBit]
  by_cases hoctet : b / 8 = p / 8
  · rw [hoctet, Function.update_self]
    have hsame : p % 8 + (7 - b % 8) = 7 ↔ b = p := by omega
    have hlt : 7 - b % 8 < 8 := by omega
    cases i with
    | false =>
      rw [if_pos rfl, BitVec.getLsbD_and, BitVec.getLsbD_not, bitMask_getLsbD, decide_eq_true hlt,
        Bool.true_and]
      by_cases hb : b = p
      · rw [decide_eq_true (hsame.mpr hb), if_pos hb, Bool.not_true, Bool.and_false]
      · rw [decide_eq_false (mt hsame.mp hb), if_neg hb, Bool.not_false, Bool.and_true]
    | true =>
      rw [if_neg (by decide), BitVec.getLsbD_or, bitMask_getLsbD]
      by_cases hb : b = p
      · rw [decide_eq_true (hsame.mpr hb), if_pos hb, Bool.or_true]
      · rw [decide_eq_false (mt hsame.mp hb), if_neg hb, Bool.or_false]
  · rw [Function.update_of_ne hoctet, if_neg fun h => hoctet (by rw [h])]

theorem toBit_ok {v : Object} {i : Bool} (h : toBit v = .ok i) :
    v = if i then fixnum 1 else fixnum 0 := by
  unfold toBit at h
  split_ifs at h with hv
  cases h
  by_cases hone : v = fixnum 1
  · rw [decide_eq_true hone, if_pos rfl, hone]
  · rw [decide_eq_false hone, if_neg Bool.false_ne_true]
    by_contra hzero
    exact hv ⟨hzero, hone⟩

theorem Accounted.bit (conv : Conversions) (offset : ℕ) (self : ℕ → Cell .bit) (index : ℕ)
    (v : Object) : Accounted conv .bit offset self index v := by
  have haset : asetUnsafe conv .bit offset self index v =
      (toBit v).map (storeBit self (index + offset)) := rfl
  have hlossless : ¬ Clipped .bit v ∧ ¬ Renormalized .bit v :=
    ⟨fun h => absurd h.1 (by decide), fun h => absurd h.1 (by decide)⟩
  have hok : ∀ cells, asetUnsafe conv .bit offset self index v = .ok cells →
      ∃ i, v = (if i then fixnum 1 else fixnum 0) ∧
        cells = storeBit self (index + offset) i := by
    intro cells h
    rw [haset] at h
    cases hi : toBit v with
    | error e =>
      rw [hi] at h
      cases h
    | ok i =>
      rw [hi] at h
      cases h
      exact ⟨i, toBit_ok hi, rfl⟩
  refine ⟨?_, nofun, ?_, ?_, ?_, ?_⟩
  · intro e h
    rw [haset, toBit] at h
    split_ifs at h
    · cases h
      exact .inl ⟨_, rfl⟩
    · cases h
  · intro h
    exact absurd h (not_or.mpr hlossless)
  · intro cells h
    obtain ⟨i, hv, rfl⟩ := hok cells h
    refine ⟨v, rfl, ?_⟩
    rw [arefUnsafe_bit, storedBit_storeBit, if_pos rfl, ← hv, Object.eql_refl]
    exact ⟨fun _ => hlossless, fun _ => rfl⟩
  · intro cells h k hk
    obtain ⟨i, -, rfl⟩ := hok cells h
    rw [arefUnsafe_bit, arefUnsafe_bit, storedBit_storeBit,
      if_neg fun h => hk (Nat.add_right_cancel h)]
  · intro cells h b hb
    obtain ⟨i, -, rfl⟩ := hok cells h
    rw [storedBit_storeBit, if_neg hb]

theorem Accounted.bc (conv : Conversions) (offset : ℕ) (self : ℕ → Cell .bc) (index : ℕ)
    (v : Object) : Accounted conv .bc offset self index v := by
  have hrenormalized : ¬ Renormalized .bc v := fun h => absurd h.1 (by decide)
  refine .of_cell ((charCode v).map (·.setWidth 8)) (fun c => .character (c.setWidth 32))
    ?_ (fun _ _ => rfl) (fun _ _ => rfl) ?_ nofun ?_ ?_
  · cases v <;> rfl
  · intro e h
    cases v with
    | character code => cases h
    | rational | float | complex | cfloat | other => 
      cases h
      exact .inl ⟨_, rfl⟩
  · rintro (⟨-, code, rfl, -⟩ | h)
    · exact ⟨_, rfl⟩
    · exact absurd h hrenormalized
  · intro c h
    cases v with
    | character code =>
      cases h
      refine ⟨_, rfl, ?_⟩
      have hkept : (code.setWidth 8).setWidth 32 = code ↔ code.toNat ≤ 255 := by
        rw [← BitVec.toNat_inj, BitVec.toNat_setWidth, BitVec.toNat_setWidth]
        have := code.isLt
        omega
      simp only [Object.eql, decide_eq_true_eq, hkept, hrenormalized, not_false_eq_true, and_true]
      constructor
      · rintro hle ⟨-, code', hcode, hlt⟩
        cases hcode
        omega
      · intro h
        by_contra hlt
        exact h ⟨rfl, code, rfl, by omega⟩
    | rational | float | complex | cfloat | other => cases h

theorem integer_read {n : Integer} : (makeInteger n.value).eql n = true ↔
    ¬ ∃ z, n = .bignum z ∧ FitsFixnum z := by
  cases n with
  | fixnum n => simp [makeInteger_fixnum, Integer.eql]
  | bignum z => simp [makeInteger_eql_bignum]

theorem fixnnint_spec {v : Object} {c : BitVec 64} (h : fixnnint v = .ok c) :
    ∃ n, v = .rational (.integer n) ∧ 0 ≤ n.value ∧
      makeUnsigned c = .rational (.integer (makeInteger n.value)) := by
  unfold fixnnint at h
  split at h
  · next n =>
    split_ifs at h with hn
    cases h
    have hbounds := n.bounds
    simp only [mostNegativeFixnum, mostPositiveFixnum] at hbounds
    exact ⟨_, rfl, hn, makeUnsigned_ofInt hn (by omega)⟩
  · next z =>
    split_ifs at h with hz
    cases h
    exact ⟨_, rfl, hz.1, makeUnsigned_ofInt hz.1 hz.2⟩
  · cases h

theorem fixint_spec {v : Object} {c : BitVec 64} (h : fixint v = .ok c) :
    ∃ n, v = .rational (.integer n) ∧
      makeInteger64 c = .rational (.integer (makeInteger n.value)) := by
  unfold fixint at h
  split at h
  · next n =>
    cases h
    have hbounds := n.bounds
    simp only [mostNegativeFixnum, mostPositiveFixnum] at hbounds
    exact ⟨_, rfl, makeInteger64_ofInt (by omega) (by omega)⟩
  · next z =>
    split_ifs at h with hz
    cases h
    exact ⟨_, rfl, makeInteger64_ofInt hz.1 hz.2⟩
  · cases h

theorem fixnnint_error {v : Object} {e : StoreError} (h : fixnnint v = .error e) :
    ∃ t', e = .wrongType t' := by
  unfold fixnnint at h
  split at h
  · split_ifs at h
    cases h
    exact ⟨_, rfl⟩
  · split_ifs at h
    cases h
    exact ⟨_, rfl⟩
  · cases h
    exact ⟨_, rfl⟩

theorem fixint_error {v : Object} {e : StoreError} (h : fixint v = .error e) :
    ∃ t', e = .wrongType t' := by
  unfold fixint at h
  split at h
  · cases h
  · split_ifs at h
    cases h
    exact ⟨_, rfl⟩
  · cases h
    exact ⟨_, rfl⟩

theorem word_element {t : ElementType} {n : Integer} (ht : t = .b64 ∨ t = .i64)
    (hn : t = .b64 → 0 ≤ n.value) :
    (Object.rational (.integer (makeInteger n.value))).eql (.rational (.integer n)) = true ↔
      ¬ Clipped t (.rational (.integer n)) ∧ ¬ Renormalized t (.rational (.integer n)) := by
  have hclipped : ¬ Clipped t (.rational (.integer n)) := by
    rintro ⟨-, code, hcode, -⟩
    cases hcode
  have hread : (Object.rational (.integer (makeInteger n.value))).eql (.rational (.integer n)) =
      (makeInteger n.value).eql n := rfl
  rw [hread, integer_read]
  constructor
  · intro h
    refine ⟨hclipped, ?_⟩
    rintro ⟨-, z, hz, hfits, -⟩
    cases hz
    exact h ⟨z, rfl, hfits⟩
  · rintro ⟨-, h⟩ ⟨z, rfl, hfits⟩
    exact h ⟨ht, z, rfl, hfits, hn⟩

theorem Accounted.b64 (conv : Conversions) (offset : ℕ) (self : ℕ → Cell .b64) (index : ℕ)
    (v : Object) : Accounted conv .b64 offset self index v := by
  refine .of_cell (fixnnint v) makeUnsigned rfl (fun _ _ => rfl) (fun _ _ => rfl) ?_ nofun ?_ ?_
  · exact fun e h => .inl (fixnnint_error h)
  · rintro (h | ⟨-, z, rfl, hfits, hz⟩)
    · exact absurd h.1 (by decide)
    · have hlt := hfits.2
      simp only [mostPositiveFixnum] at hlt
      exact ⟨_, if_pos ⟨hz rfl, by omega⟩⟩
  · intro c h
    obtain ⟨n, rfl, hn, hread⟩ := fixnnint_spec h
    refine ⟨_, rfl, ?_⟩
    rw [hread]
    exact word_element (.inl rfl) fun _ => hn

theorem Accounted.i64 (conv : Conversions) (offset : ℕ) (self : ℕ → Cell .i64) (index : ℕ)
    (v : Object) : Accounted conv .i64 offset self index v := by
  refine .of_cell (fixint v) makeInteger64 rfl (fun _ _ => rfl) (fun _ _ => rfl) ?_ ?_ ?_ ?_
  · exact fun e h => .inl (fixint_error h)
  · intro e h
    cases h
  · rintro (h | ⟨-, z, rfl, hfits, -⟩)
    · exact absurd h.1 (by decide)
    · have hbounds := hfits
      simp only [FitsFixnum, mostPositiveFixnum, mostNegativeFixnum] at hbounds
      exact ⟨_, if_pos ⟨by omega, by omega⟩⟩
  · intro c h
    obtain ⟨n, rfl, hread⟩ := fixint_spec h
    refine ⟨_, rfl, ?_⟩
    rw [hread]
    exact word_element (.inr rfl) fun h => absurd h (by decide)

theorem charCode_spec {v : Object} {code : BitVec 32} (h : charCode v = .ok code) :
    Object.character code = v := by
  cases v with
  | character code' =>
    cases h
    rfl
  | rational | float | complex | cfloat | other => cases h

theorem toFix_spec {v : Object} {c : BitVec 64} (h : toFix v = .ok c) : makeInteger64 c = v := by
  unfold toFix at h
  split at h
  · next n =>
    cases h
    have hbounds := n.bounds
    simp only [mostNegativeFixnum, mostPositiveFixnum] at hbounds
    rw [makeInteger64_ofInt (by omega) (by omega), makeInteger_fixnum]
  · cases h

theorem toSize_spec {v : Object} {c : BitVec 64} (h : toSize v = .ok c) : makeUnsigned c = v := by
  unfold toSize at h
  split at h
  · next n =>
    split_ifs at h with hn
    cases h
    have hbounds := n.bounds
    simp only [mostNegativeFixnum, mostPositiveFixnum] at hbounds
    rw [makeUnsigned_ofInt hn (by omega), makeInteger_fixnum]
  · cases h

theorem toFix_error {v : Object} {e : StoreError} (h : toFix v = .error e) :
    ∃ t', e = .wrongType t' := by
  unfold toFix at h
  split at h
  · cases h
  · cases h
    exact ⟨_, rfl⟩

theorem toSize_error {v : Object} {e : StoreError} (h : toSize v = .error e) :
    ∃ t', e = .wrongType t' := by
  unfold toSize at h
  split at h
  · split_ifs at h
    cases h
    exact ⟨_, rfl⟩
  · cases h
    exact ⟨_, rfl⟩

theorem lossless {t : ElementType} (ht : t ∉ [.bc, .b64, .i64]) (v : Object) :
    ¬ Clipped t v ∧ ¬ Renormalized t v := by
  simp only [List.mem_cons, List.not_mem_nil, or_false, not_or] at ht
  exact ⟨fun h => ht.1 h.1, fun h => h.1.elim ht.2.1 ht.2.2⟩

theorem accounted (conv : Conversions) (t : ElementType) (offset : ℕ) (self : ℕ → Cell t)
    (index : ℕ) (v : Object) : Accounted conv t offset self index v := by
  have hfixnum {t : ElementType} {w : ℕ} {least most : ℤ} (e : StoreError)
      (h : fixnumBetween t least most w v = .error e) := fixnumBetween_error h
  cases t with
  | bc => exact .bc conv offset self index v
  | bit => exact .bit conv offset self index v
  | b64 => exact .b64 conv offset self index v
  | i64 => exact .i64 conv offset self index v
  | object =>
    obtain ⟨hc, hr⟩ := lossless (t := .object) (by decide) v
    refine .of_exact (.ok v) id rfl (fun _ _ => rfl) (fun _ _ => rfl) rfl hc hr nofun ?_
    intro c h
    cases h
    rfl
  | ch =>
    obtain ⟨hc, hr⟩ := lossless (t := .ch) (by decide) v
    exact .of_exact (charCode v) .character rfl (fun _ _ => rfl) (fun _ _ => rfl) rfl hc hr
      (fun _ => charCode_error) fun _ => charCode_spec
  | fix =>
    obtain ⟨hc, hr⟩ := lossless (t := .fix) (by decide) v
    exact .of_exact (toFix v) makeInteger64 rfl (fun _ _ => rfl) (fun _ _ => rfl) rfl hc hr
      (fun _ => toFix_error) fun _ => toFix_spec
  | index =>
    obtain ⟨hc, hr⟩ := lossless (t := .index) (by decide) v
    exact .of_exact (toSize v) makeUnsigned rfl (fun _ _ => rfl) (fun _ _ => rfl) rfl hc hr
      (fun _ => toSize_error) fun _ => toSize_spec
  | b8 =>
    obtain ⟨hc, hr⟩ := lossless (t := .b8) (by decide) v
    exact .of_exact (toUint8 v) (fun c => fixnum c.toNat) rfl (fun _ _ => rfl) (fun _ _ => rfl) rfl
      hc hr hfixnum fun _ => unsigned_read (by decide)
  | b16 =>
    obtain ⟨hc, hr⟩ := lossless (t := .b16) (by decide) v
    exact .of_exact (toUint16 v) (fun c => fixnum c.toNat) rfl (fun _ _ => rfl) (fun _ _ => rfl) rfl
      hc hr hfixnum fun _ => unsigned_read (by decide)
  | b32 =>
    obtain ⟨hc, hr⟩ := lossless (t := .b32) (by decide) v
    exact .of_exact (toUint32 v) (fun c => fixnum c.toNat) rfl (fun _ _ => rfl) (fun _ _ => rfl) rfl
      hc hr hfixnum fun _ => unsigned_read (by decide)
  | i8 =>
    obtain ⟨hc, hr⟩ := lossless (t := .i8) (by decide) v
    exact .of_exact (toInt8 v) (fun c => fixnum c.toInt) rfl (fun _ _ => rfl) (fun _ _ => rfl) rfl
      hc hr hfixnum fun _ => signed_read (by decide) (by decide) (by decide)
  | i16 =>
    obtain ⟨hc, hr⟩ := lossless (t := .i16) (by decide) v
    exact .of_exact (toInt16 v) (fun c => fixnum c.toInt) rfl (fun _ _ => rfl) (fun _ _ => rfl) rfl
      hc hr hfixnum fun _ => signed_read (by decide) (by decide) (by decide)
  | i32 =>
    obtain ⟨hc, hr⟩ := lossless (t := .i32) (by decide) v
    exact .of_exact (toInt32 v) (fun c => fixnum c.toInt) rfl (fun _ _ => rfl) (fun _ _ => rfl) rfl
      hc hr hfixnum fun _ => signed_read (by decide) (by decide) (by decide)
  | sf =>
    obtain ⟨hc, hr⟩ := lossless (t := .sf) (by decide) v
    exact .of_float (toFloat conv .single v) (.float .single) rfl (fun _ _ => rfl) (fun _ _ => rfl)
      rfl hc hr fun _ => toFloat_error
  | df =>
    obtain ⟨hc, hr⟩ := lossless (t := .df) (by decide) v
    exact .of_float (toFloat conv .double v) (.float .double) rfl (fun _ _ => rfl) (fun _ _ => rfl)
      rfl hc hr fun _ => toFloat_error
  | lf =>
    obtain ⟨hc, hr⟩ := lossless (t := .lf) (by decide) v
    exact .of_float (toFloat conv .long v) (.float .long) rfl (fun _ _ => rfl) (fun _ _ => rfl)
      rfl hc hr fun _ => toFloat_error
  | csf =>
    obtain ⟨hc, hr⟩ := lossless (t := .csf) (by decide) v
    exact .of_float (toCfloat conv .single v) (fun c => .cfloat .single c.1 c.2) rfl
      (fun _ _ => rfl) (fun _ _ => rfl) rfl hc hr fun _ => toCfloat_error
  | cdf =>
    obtain ⟨hc, hr⟩ := lossless (t := .cdf) (by decide) v
    exact .of_float (toCfloat conv .double v) (fun c => .cfloat .double c.1 c.2) rfl
      (fun _ _ => rfl) (fun _ _ => rfl) rfl hc hr fun _ => toCfloat_error
  | clf =>
    obtain ⟨hc, hr⟩ := lossless (t := .clf) (by decide) v
    exact .of_float (toCfloat conv .long v) (fun c => .cfloat .long c.1 c.2) rfl
      (fun _ _ => rfl) (fun _ _ => rfl) rfl hc hr fun _ => toCfloat_error

section
variable {conv : Conversions} {x : ElementArray} {indx : List Index} {v : Object} {j : ℕ}

theorem subscriptsIndex_accessor {x : LispArray} (hx : Shaped x) (f f' : Accessor)
    (h : subscriptsIndex f x indx = .ok j) : subscriptsIndex f' x indx = .ok j :=
  (ArrayBounds.subscriptsIndex_iff hx).mpr ((ArrayBounds.subscriptsIndex_iff hx).mp h)

theorem siAset_error {e : StoreError} (hj : subscriptsIndex .siAset x.toLispArray indx = .ok j)
    (h : asetUnsafe conv x.elttype x.offset x.cells j v = .error e) :
    siAset conv x indx v = (x, .error e) := by
  simp only [siAset, hj, h]

theorem siAset_ok {cells : ℕ → Cell x.elttype}
    (hj : subscriptsIndex .siAset x.toLispArray indx = .ok j)
    (h : asetUnsafe conv x.elttype x.offset x.cells j v = .ok cells) :
    siAset conv x indx v = ({ x with cells := cells }, .ok v) := by
  simp only [siAset, hj, h]

theorem aref_ok (hx : Shaped x.toLispArray)
    (hj : subscriptsIndex .siAset x.toLispArray indx = .ok j) (cells : ℕ → Cell x.elttype) :
    aref { x with cells := cells } indx = .ok (arefUnsafe x.elttype x.offset cells j) := by
  have hj' : subscriptsIndex .aref x.toLispArray indx = .ok j :=
    subscriptsIndex_accessor hx .siAset .aref hj
  simp only [aref, hj']

theorem Stored.lossless (hx : Shaped x.toLispArray)
    (hj : subscriptsIndex .siAset x.toLispArray indx = .ok j) {cells : ℕ → Cell x.elttype}
    (hcells : asetUnsafe conv x.elttype x.offset x.cells j v = .ok cells)
    (h : Stored conv x indx v cells) : ¬ Clipped x.elttype v ∧ ¬ Renormalized x.elttype v := by
  obtain ⟨w, u, hread, hu, heql⟩ := h.element
  obtain ⟨u', hu', hiff⟩ := (accounted conv x.elttype x.offset x.cells j v).element cells hcells
  rw [aref_ok hx hj] at hread
  cases hread
  rw [hu, Except.ok.injEq] at hu'
  rw [hu'] at heql
  exact hiff.mp heql

theorem roundTrip_iff (hx : Shaped x.toLispArray)
    (hj : subscriptsIndex .siAset x.toLispArray indx = .ok j) :
    RoundTrip conv x indx v ↔ ¬ Clipped x.elttype v ∧ ¬ Renormalized x.elttype v ∧
      ¬ Trapped conv x.elttype v := by
  have hspec := accounted conv x.elttype x.offset x.cells j v
  cases hstore : asetUnsafe conv x.elttype x.offset x.cells j v with
  | error e =>
    have haset := siAset_error hj hstore
    have hloses : ¬ (Clipped x.elttype v ∨ Renormalized x.elttype v) := by
      intro h
      obtain ⟨cells, hcells⟩ := hspec.loses h
      rw [hstore] at hcells
      cases hcells
    obtain ⟨hclipped, hrenormalized⟩ := not_or.mp hloses
    constructor
    · rintro (⟨t, hrejected⟩ | ⟨cells, hstored⟩)
      · refine ⟨hclipped, hrenormalized, ?_⟩
        rintro ⟨a, htrapped⟩
        have ha := hspec.trapped _ htrapped
        rw [hstore, Except.error.injEq] at ha
        rw [haset, ha] at hrejected
        cases hrejected
      · have h := hstored.stored
        rw [haset] at h
        cases (Prod.mk.inj h).2
    · rintro ⟨-, -, htrapped⟩
      obtain ⟨t, rfl⟩ | ⟨a, rfl, hcoerced⟩ := hspec.error e hstore
      · exact .inl ⟨t, haset⟩
      · exact absurd ⟨a, hcoerced⟩ htrapped
  | ok cells =>
    have haset := siAset_ok hj hstore
    obtain ⟨u, hu, heql⟩ := hspec.element cells hstore
    have htrapped : ¬ Trapped conv x.elttype v := by
      rintro ⟨a, ha⟩
      rw [hu] at ha
      cases ha
    constructor
    · rintro (⟨t, hrejected⟩ | ⟨cells', hstored⟩)
      · rw [haset] at hrejected
        cases (Prod.mk.inj hrejected).2
      · have hsame := haset.symm.trans hstored.stored
        simp only [Prod.mk.injEq, ElementArray.mk.injEq, heq_eq_eq, true_and, and_true] at hsame
        obtain ⟨hclipped, hrenormalized⟩ := Stored.lossless hx hj (hsame ▸ hstore) hstored
        exact ⟨hclipped, hrenormalized, htrapped⟩
    · rintro ⟨hclipped, hrenormalized, -⟩
      refine .inr ⟨cells, haset, ?_, ?_, ?_⟩
      · exact ⟨_, u, aref_ok hx hj cells, hu, heql.mpr ⟨hclipped, hrenormalized⟩⟩
      · exact fun k hk => hspec.others cells hstore k fun h => hk (h ▸ hj)
      · exact fun b hb => hspec.bits cells hstore b (hb _ hj)

/-- A store is refused or reads back, except where a base string clips the character, a word turns
a bignum that should be a fixnum into one, or the conversion to a float is trapped. -/
theorem siAset_round_trip_iff (conv : Conversions) (x : ElementArray) (indx : List Index)
    (v : Object) (hx : Shaped x.toLispArray) (hvalid : ∀ i ∈ indx, i.Valid)
    (hdigits : Digits (indx.map Index.nat) x.dims) :
    RoundTrip conv x indx v ↔ ¬ Clipped x.elttype v ∧ ¬ Renormalized x.elttype v ∧
      ¬ Trapped conv x.elttype v :=
  roundTrip_iff hx ((ArrayBounds.subscriptsIndex_iff hx).mpr ⟨hvalid, hdigits, rfl⟩)

def tenBits : ElementArray where
  elttype := .bit
  isVector := true
  dims := [10]
  dim := 10
  adjustable := true
  fillp := none
  self := .displaced 3 16
  offset := 3
  cells := fun _ => 0x55

def untrapped : Conversions where
  rational := fun _ _ => .ok 0
  float := fun _ _ bits => .ok bits

theorem siAset_round_trip_bit : RoundTrip untrapped tenBits [.fixnum 4] (fixnum 1) :=
  (siAset_round_trip_iff untrapped tenBits [.fixnum 4] (fixnum 1)
    ⟨fun _ => ⟨rfl, by decide⟩, rfl⟩ (by simp [Index.Valid])
    (by simp [Digits, Index.nat, tenBits])).mpr
    ⟨fun h => absurd h.1 (by decide), fun h => absurd h.1 (by decide), nofun⟩

def oneBaseChar : ElementArray where
  elttype := .bc
  isVector := true
  dims := [1]
  dim := 1
  adjustable := false
  fillp := none
  self := .self 2
  offset := 0
  cells := fun _ => 0

/-- A small lambda stored in a base string is read as the character of its low octet. -/
theorem base_string_lambda :
    ¬ RoundTrip untrapped oneBaseChar [.fixnum 0] (.character 955) := by
  intro h
  have hx : Shaped oneBaseChar.toLispArray := ⟨fun _ => ⟨rfl, by decide⟩, rfl⟩
  have hj : subscriptsIndex .siAset oneBaseChar.toLispArray [.fixnum 0] = .ok 0 := rfl
  exact ((roundTrip_iff hx hj).mp h).1 ⟨rfl, 955, rfl, by decide⟩

end

end ElementStores
