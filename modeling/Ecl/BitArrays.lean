import Ecl.DisplacedArrays
import Ecl.LogicalOperations
import Ecl.PackedBits

/-! The operations on bit arrays of src/c/num_log.d. -/
namespace BitArrays

open ArrayBounds (ElementType)
open DisplacedArrays (ArrayType)
open LogicalOperations
open PackedBits

structure Place where
  self : ℕ
  offset : ℕ
  offset_lt : offset < 8

structure Operand extends Place where
  type : ArrayType
  elttype : ElementType
  dims : List ℕ
  dim : ℕ
  dim_eq : dim = dims.prod
  vector_iff : type ≠ .array ↔ dims.length = 1
  bitvector_iff : type = .bitvector ↔ elttype = .bit ∧ type ≠ .array

inductive ResultArgument where
  | nil
  | t
  | array (r : Operand)

def octet (m : Octets) (a : ℕ) : ℤ := (m a).toNat

def storeOctet (m : Octets) (a : ℕ) (value : ℤ) : Octets :=
  Function.update m a (BitVec.ofInt 8 value)

def setHigh (place : ℤ) (nbits : ℕ) (value : ℤ) : ℤ :=
  (place.land ((-256 : ℤ) >>> nbits).lnot).lor (value.land ((-256 : ℤ) >>> nbits))

def setLow (place : ℤ) (nbits : ℕ) (value : ℤ) : ℤ :=
  (place.land ((-256 : ℤ) >>> (8 - nbits))).lor (value.land ((-256 : ℤ) >>> (8 - nbits)).lnot)

def extractByte (m : Octets) (pointer index offset : ℕ) : ℤ :=
  (octet m (pointer + index) <<< offset).lor
    ((octet m (pointer + (index + 1))).land 255 >>> (8 - offset))

def storeByte (m : Octets) (pointer index offset : ℕ) (value : ℤ) : Octets :=
  let m := storeOctet m (pointer + index)
    (setLow (octet m (pointer + index)) (8 - offset) (value >>> offset))
  storeOctet m (pointer + (index + 1))
    (setHigh (octet m (pointer + (index + 1))) offset (value <<< (8 - offset)))

def combineAligned (o : BooleOp) (d xp yp rp : ℕ) (m : Octets) : Octets :=
  let m := steps (fun i m => storeOctet m (rp + i)
    (fixnumOperation o (octet m (xp + i)) (octet m (yp + i)))) (d / 8) m
  if d % 8 > 0 then
    storeOctet m (rp + d / 8) (setHigh (octet m (rp + d / 8)) (d % 8)
      (fixnumOperation o (octet m (xp + d / 8)) (octet m (yp + d / 8))))
  else m

def combineShifted (o : BooleOp) (d : ℕ) (x y r : Place) (m : Octets) : Octets :=
  let m := steps (fun i m => storeByte m r.self i r.offset
    (fixnumOperation o (extractByte m x.self i x.offset) (extractByte m y.self i y.offset)))
    (d / 8) m
  if d % 8 = 0 then m
  else
    storeByte m r.self (d / 8) r.offset (setHigh (extractByte m r.self (d / 8) r.offset) (d % 8)
      (fixnumOperation o (extractByte m x.self (d / 8) x.offset)
        (extractByte m y.self (d / 8) y.offset)))

def combine (o : BooleOp) (d : ℕ) (x y r : Place) (m : Octets) : Octets :=
  if x.offset = 0 ∧ y.offset = 0 ∧ r.offset = 0 then combineAligned o d x.self y.self r.self m
  else combineShifted o d x y r m

def copyBack (d self : ℕ) (r : Place) (m : Octets) : Octets :=
  let m := steps (fun i m => storeByte m r.self i r.offset (octet m (self + i))) (d / 8) m
  if d % 8 = 0 then m
  else
    storeByte m r.self (d / 8) r.offset (setHigh (extractByte m r.self (d / 8) r.offset) (d % 8)
      (octet m (self + d / 8)))

def Conforms (x a : Operand) : Prop :=
  (x.type = .bitvector ∧ a.type = .bitvector ∧ a.dim = x.dim) ∨
    (x.type = .array ∧ x.elttype = .bit ∧ a.type = .array ∧ a.elttype = .bit ∧ a.dims = x.dims)

instance (x a : Operand) : Decidable (Conforms x a) := inferInstanceAs (Decidable (_ ∨ _))

def Overlaps (r a : Place) (d : ℕ) : Prop :=
  let i : ℤ := ((r.self : ℤ) - a.self) * 8 + ((r.offset : ℤ) - a.offset)
  (0 < i ∧ i < d) ∨ (i < 0 ∧ -i < d)

instance (r a : Place) (d : ℕ) : Decidable (Overlaps r a d) :=
  inferInstanceAs (Decidable (_ ∨ _))

def allocated (x : Operand) (fresh : ℕ) : Operand :=
  { x with self := fresh, offset := 0, offset_lt := by decide }

def resultArray (x y : Operand) (fresh : ℕ) : ResultArgument → Option (Operand × Option Operand)
  | .nil => some (allocated x fresh, none)
  | .t => supplied x
  | .array r => supplied r
where
  supplied (r : Operand) : Option (Operand × Option Operand) :=
    if Conforms x r then
      if Overlaps r.toPlace x.toPlace x.dim ∨ Overlaps r.toPlace y.toPlace x.dim then
        some (allocated x fresh, some r)
      else some (r, none)
    else none

def siBitArrayOp (o : BooleOp) (x y : Operand) (result : ResultArgument) (fresh : ℕ) (m : Octets) :
    Except String (Operand × Octets) :=
  match if Conforms x y then resultArray x y fresh result else none with
  | none => .error "Illegal arguments for bit-array operation."
  | some (r, replaced) =>
    let m := combine o x.dim x.toPlace y.toPlace r.toPlace m
    match replaced with
    | none => .ok (r, m)
    | some r0 => .ok (r0, copyBack x.dim r.self r0.toPlace m)

variable {o : BooleOp} {m m' : Octets} {d p index n k fresh : ℕ} {x y r : Place} {value : ℤ}

def Place.start (x : Place) : ℕ := 8 * x.self + x.offset

theorem testBit_mask (n k : ℕ) : ((-256 : ℤ) >>> n).testBit k = decide (8 ≤ n + k) := by
  rw [testBit_shiftRight]
  change (!(2 ^ 8 - 1).testBit (n + k)) = _
  rw [Nat.testBit_two_pow_sub_one, ← decide_not]
  exact decide_eq_decide.mpr not_lt

theorem testBit_setHigh (place value : ℤ) (n k : ℕ) :
    (setHigh place n value).testBit k = if 8 ≤ n + k then value.testBit k else place.testBit k := by
  rw [setHigh, Int.testBit_lor, Int.testBit_land, Int.testBit_land, Int.testBit_lnot, testBit_mask]
  split <;> simp [*]

theorem testBit_setLow (place value : ℤ) (hn : n ≤ 8) (k : ℕ) :
    (setLow place n value).testBit k = if n ≤ k then place.testBit k else value.testBit k := by
  rw [setLow, Int.testBit_lor, Int.testBit_land, Int.testBit_land, Int.testBit_lnot, testBit_mask]
  have hiff : 8 ≤ 8 - n + k ↔ n ≤ k := by omega
  simp only [hiff]
  split <;> simp [*]

theorem testBit_octet (m : Octets) (a : ℕ) (hk : k < 8) :
    (octet m a).testBit (7 - k) = bit m (8 * a + k) := by
  rw [bit_eq m a hk]
  rfl

theorem testBit_extractByte (m : Octets) (x : Place) (index : ℕ) (hk : k < 8) :
    (extractByte m x.self index x.offset).testBit (7 - k) = bit m (x.start + 8 * index + k) := by
  have hoffset := x.offset_lt
  have hlow : (255 : ℤ).testBit (8 - x.offset + (7 - k)) = decide (8 - x.offset + (7 - k) < 8) :=
    Nat.testBit_two_pow_sub_one 8 _
  rw [extractByte, Int.testBit_lor, testBit_shiftLeft, testBit_shiftRight, Int.testBit_land, hlow]
  by_cases hfirst : x.offset + k < 8
  · have hbit : 7 - k - x.offset = 7 - (x.offset + k) := by omega
    have hplace : 8 * (x.self + index) + (x.offset + k) = x.start + 8 * index + k := by
      rw [Place.start]
      omega
    rw [decide_eq_true (by omega : x.offset ≤ 7 - k),
      decide_eq_false (by omega : ¬8 - x.offset + (7 - k) < 8), hbit, testBit_octet m _ hfirst,
      hplace]
    simp
  · have hbit : 8 - x.offset + (7 - k) = 7 - (x.offset + k - 8) := by omega
    have hplace : 8 * (x.self + (index + 1)) + (x.offset + k - 8) = x.start + 8 * index + k := by
      rw [Place.start]
      omega
    rw [decide_eq_false (by omega : ¬x.offset ≤ 7 - k), hbit, testBit_octet m _ (by omega), hplace,
      decide_eq_true (by omega)]
    simp

theorem setLow_writes (m : Octets) (r : Place) (index : ℕ) (value : ℤ) :
    Writes m (storeOctet m (r.self + index) (setLow (octet m (r.self + index)) (8 - r.offset)
      (value >>> r.offset))) (r.start + 8 * index) (8 * (r.self + (index + 1)))
      (fun q => value.testBit (7 - (q - (r.start + 8 * index)))) := by
  have hoffset := r.offset_lt
  have hfrom : r.start + 8 * index = 8 * (r.self + index) + r.offset := by
    rw [Place.start]
    omega
  have hto : 8 * (r.self + (index + 1)) = 8 * (r.self + index) + 8 := by omega
  rw [hfrom, hto]
  apply update_writes (le_refl 8)
  intro k hk
  rw [testBit_setLow _ _ (Nat.sub_le 8 _), testBit_octet _ _ hk, testBit_shiftRight]
  by_cases hfirst : r.offset ≤ k
  · rw [if_neg (by omega), if_pos ⟨hfirst, hk⟩]
    congr 1
    omega
  · rw [if_pos (by omega), if_neg (by omega)]

theorem setHigh_writes (m : Octets) (r : Place) (index : ℕ) (value : ℤ) :
    Writes m (storeOctet m (r.self + (index + 1)) (setHigh (octet m (r.self + (index + 1)))
      r.offset (value <<< (8 - r.offset)))) (8 * (r.self + (index + 1)))
      (r.start + 8 * index + 8) (fun q => value.testBit (7 - (q - (r.start + 8 * index)))) := by
  have hoffset := r.offset_lt
  have hfrom : 8 * (r.self + (index + 1)) = 8 * (r.self + (index + 1)) + 0 := rfl
  have hto : r.start + 8 * index + 8 = 8 * (r.self + (index + 1)) + r.offset := by
    rw [Place.start]
    omega
  rw [hfrom, hto]
  apply update_writes hoffset.le
  intro k hk
  rw [testBit_setHigh, testBit_octet _ _ hk, testBit_shiftLeft]
  by_cases hlast : k < r.offset
  · rw [if_pos (by omega), if_pos ⟨Nat.zero_le k, hlast⟩, decide_eq_true (by omega),
      Bool.true_and]
    congr 1
    rw [Place.start]
    omega
  · rw [if_neg (by omega), if_neg (by omega)]

theorem storeByte_writes (m : Octets) (r : Place) (index : ℕ) (value : ℤ) :
    Writes m (storeByte m r.self index r.offset value) (r.start + 8 * index)
      (r.start + 8 * index + 8) (fun q => value.testBit (7 - (q - (r.start + 8 * index)))) := by
  have hoffset := r.offset_lt
  have hstart : r.start = 8 * r.self + r.offset := rfl
  apply (setLow_writes m r index value).trans (setHigh_writes _ r index value)
  · omega
  · omega

theorem storeHigh_writes (m : Octets) (r : Place) (index : ℕ) (hn : n ≤ 8) (value : ℤ) :
    Writes m (storeByte m r.self index r.offset
        (setHigh (extractByte m r.self index r.offset) n value))
      (r.start + 8 * index) (r.start + 8 * index + n)
      (fun q => value.testBit (7 - (q - (r.start + 8 * index)))) := by
  have hstore := (storeByte_writes m r index
    (setHigh (extractByte m r.self index r.offset) n value)).shrink
    (Nat.add_le_add_left hn (r.start + 8 * index)) (fun q hq hlt => by
      obtain ⟨k, rfl⟩ := Nat.exists_eq_add_of_le (le_of_add_le_left hq)
      have hk : k < 8 := by omega
      rw [Nat.add_sub_cancel_left, testBit_setHigh, if_neg (by omega),
        testBit_extractByte m r index hk])
  apply hstore.congr
  intro q hq hlt
  rw [testBit_setHigh, if_pos (by omega)]

def combined (o : BooleOp) (m : Octets) (x y r q : ℕ) : Bool :=
  o.bit (bit m (x + (q - r))) (bit m (y + (q - r)))

def Steady (a r d : ℕ) : Prop := a = r ∨ a + d ≤ r ∨ r + d ≤ a

theorem Steady.bit_eq {a b w : ℕ} {v : ℕ → Bool} (hs : Steady a b d)
    (h : Writes m m' b (b + w) v) (hw : w ≤ k) (hk : k < d) : bit m' (a + k) = bit m (a + k) := by
  apply h.outside
  rcases hs with heq | hbefore | hafter <;> omega

theorem testBit_operation (hx : Steady x.start r.start d) (hy : Steady y.start r.start d)
    (h : Writes m m' r.start (r.start + 8 * index) (combined o m x.start y.start r.start))
    (hk : k < 8) (hd : 8 * index + k < d) :
    (fixnumOperation o (extractByte m' x.self index x.offset)
        (extractByte m' y.self index y.offset)).testBit (7 - k) =
      combined o m x.start y.start r.start (r.start + 8 * index + k) := by
  have hplace : r.start + 8 * index + k - r.start = 8 * index + k := by omega
  rw [fixnumOperation_eq, Int.testBit_bitwise, testBit_extractByte m' x index hk,
    testBit_extractByte m' y index hk, combined, hplace, Nat.add_assoc, Nat.add_assoc,
    hx.bit_eq h (Nat.le_add_right _ _) hd, hy.bit_eq h (Nat.le_add_right _ _) hd]

theorem combineShifted_writes (o : BooleOp) (m : Octets) (hx : Steady x.start r.start d)
    (hy : Steady y.start r.start d) :
    Writes m (combineShifted o d x y r m) r.start (r.start + d)
      (combined o m x.start y.start r.start) := by
  have hvalue {index n q : ℕ} {m' : Octets}
      (h : Writes m m' r.start (r.start + 8 * index) (combined o m x.start y.start r.start))
      (hn : n ≤ 8) (hd : 8 * index + n ≤ d) (hq : r.start + 8 * index ≤ q)
      (hlt : q < r.start + 8 * index + n) :
      (fixnumOperation o (extractByte m' x.self index x.offset)
          (extractByte m' y.self index y.offset)).testBit (7 - (q - (r.start + 8 * index))) =
        combined o m x.start y.start r.start q := by
    obtain ⟨k, rfl⟩ := Nat.exists_eq_add_of_le hq
    rw [Nat.add_sub_cancel_left]
    exact testBit_operation hx hy h (by omega) (by omega)
  have hbytes := steps_writes (fun i m => storeByte m r.self i r.offset
    (fixnumOperation o (extractByte m x.self i x.offset) (extractByte m y.self i y.offset))) 8
    (d / 8) (fun index hindex m' h => by
      apply (storeByte_writes m' r index _).congr
      exact fun q hq hlt => hvalue h (le_refl 8) (by omega) hq hlt)
  have hsplit : r.start + d = r.start + 8 * (d / 8) + d % 8 := by omega
  unfold combineShifted
  dsimp only
  split
  · rename_i hwhole
    rw [hsplit, hwhole]
    exact hbytes
  · rw [hsplit]
    apply hbytes.trans
    · apply (storeHigh_writes _ r _ (Nat.mod_lt d (by decide)).le _).congr
      exact fun q hq hlt => hvalue hbytes (Nat.mod_lt d (by decide)).le (by omega) hq hlt
    · omega
    · omega

def aligned (self : ℕ) : Place := ⟨self, 0, by decide⟩

theorem extractByte_aligned (m : Octets) (pointer index : ℕ) :
    extractByte m pointer index 0 = octet m (pointer + index) := by
  apply eq_of_testBit_eq
  intro k
  have hmask : (255 : ℤ).testBit (8 + k) = false := by
    have h := Nat.testBit_two_pow_sub_one 8 (8 + k)
    rw [decide_eq_false (by omega)] at h
    exact h
  rw [extractByte, Int.testBit_lor, testBit_shiftLeft, testBit_shiftRight, Int.testBit_land, hmask]
  simp

theorem storeByte_aligned (m : Octets) (pointer index : ℕ) (value : ℤ) :
    storeByte m pointer index 0 value = storeOctet m (pointer + index) value := by
  have hlow (place : ℤ) : BitVec.ofInt 8 (setLow place (8 - 0) (value >>> (0 : ℕ))) =
      BitVec.ofInt 8 value := by
    apply BitVec.eq_of_getLsbD_eq
    intro k hk
    rw [getLsbD_ofInt _ hk, getLsbD_ofInt _ hk, testBit_setLow _ _ (le_refl 8),
      if_neg (not_le.mpr hk), testBit_shiftRight, Nat.zero_add]
  have hhigh (v : BitVec 8) (value : ℤ) : BitVec.ofInt 8 (setHigh v.toNat 0 value) = v := by
    apply BitVec.eq_of_getLsbD_eq
    intro k hk
    rw [getLsbD_ofInt _ hk, testBit_setHigh, if_neg (by omega), testBit_toNat]
  unfold storeByte storeOctet
  dsimp only
  rw [hlow]
  unfold octet
  rw [hhigh, Function.update_eq_self]

theorem combineAligned_eq (o : BooleOp) (d xp yp rp : ℕ) (m : Octets) :
    combineAligned o d xp yp rp m =
      combineShifted o d (aligned xp) (aligned yp) (aligned rp) m := by
  simp only [combineAligned, combineShifted, aligned, extractByte_aligned, storeByte_aligned]
  by_cases hwhole : d % 8 = 0
  · rw [if_pos hwhole, if_neg (by omega)]
  · rw [if_neg hwhole, if_pos (by omega)]

theorem copyBack_eq (d self : ℕ) (r : Place) (m : Octets) :
    copyBack d self r m = combineShifted .op1 d (aligned self) (aligned self) r m := by
  simp only [copyBack, combineShifted, aligned, extractByte_aligned, fixnumOperation]

variable {a b : Operand} {result : ResultArgument}

def Apart (a b d : ℕ) : Prop := a + d ≤ b ∨ b + d ≤ a

theorem steady_of_not_overlaps {r a : Place} (h : ¬Overlaps r a d) : Steady a.start r.start d := by
  unfold Overlaps at h
  unfold Steady Place.start
  omega

theorem Operand.dims_of_vector (h : a.type ≠ .array) : a.dims = [a.dim] := by
  obtain ⟨n, hn⟩ := List.length_eq_one_iff.mp (a.vector_iff.mp h)
  rw [a.dim_eq, hn, List.prod_singleton]

theorem conforms_iff (a b : Operand) :
    Conforms a b ↔ a.elttype = .bit ∧ b.elttype = .bit ∧ b.dims = a.dims := by
  constructor
  · rintro (⟨ha, hb, hdim⟩ | ⟨-, ha, -, hb, hdims⟩)
    · obtain ⟨habit, havector⟩ := a.bitvector_iff.mp ha
      obtain ⟨hbbit, hbvector⟩ := b.bitvector_iff.mp hb
      refine ⟨habit, hbbit, ?_⟩
      rw [Operand.dims_of_vector hbvector, Operand.dims_of_vector havector, hdim]
    · exact ⟨ha, hb, hdims⟩
  · rintro ⟨ha, hb, hdims⟩
    have hvector : b.type ≠ .array ↔ a.type ≠ .array := by
      rw [b.vector_iff, a.vector_iff, hdims]
    have htype : b.type = .array ↔ a.type = .array := not_iff_not.mp hvector
    by_cases harray : a.type = .array
    · exact Or.inr ⟨harray, ha, htype.mpr harray, hb, hdims⟩
    · refine Or.inl ⟨a.bitvector_iff.mpr ⟨ha, harray⟩,
        b.bitvector_iff.mpr ⟨hb, fun h => harray (htype.mp h)⟩, ?_⟩
      rw [b.dim_eq, a.dim_eq, hdims]

theorem Conforms.dim_eq (h : Conforms a b) : b.dim = a.dim := by
  rw [b.dim_eq, a.dim_eq, ((conforms_iff a b).mp h).2.2]

/-- The array that the arguments name. -/
def destination (x : Operand) (fresh : ℕ) : ResultArgument → Operand
  | .nil => allocated x fresh
  | .t => x
  | .array r => r

/-- New storage is not that of the arguments. -/
structure Fresh (fresh : ℕ) (x y : Operand) (result : ResultArgument) : Prop where
  first : Apart (8 * fresh) x.start x.dim
  second : Apart (8 * fresh) y.start x.dim
  supplied : ∀ r, result = .array r → Apart (8 * fresh) r.start x.dim

def Operand.Covers (a : Operand) (q : ℕ) : Prop := a.start ≤ q ∧ q < a.start + a.dim

theorem combine_writes (o : BooleOp) (m : Octets) (hx : Steady x.start r.start d)
    (hy : Steady y.start r.start d) :
    Writes m (combine o d x y r m) r.start (r.start + d)
      (combined o m x.start y.start r.start) := by
  unfold combine
  split
  · rename_i hoffsets
    have haligned {p : Place} (hp : p.offset = 0) : aligned p.self = p := by
      cases p
      simp only at hp
      subst hp
      rfl
    rw [combineAligned_eq, haligned hoffsets.1, haligned hoffsets.2.1, haligned hoffsets.2.2]
    exact combineShifted_writes o m hx hy
  · exact combineShifted_writes o m hx hy

theorem Apart.steady {a b : ℕ} (h : Apart a b d) : Steady b a d :=
  Or.inr (Or.symm h)

theorem Apart.steady' {a b : ℕ} (h : Apart a b d) : Steady a b d := Or.inr h

structure Done (o : BooleOp) (x y r : Operand) (fresh : ℕ) (m m' : Octets) : Prop where
  bits : ∀ i < x.dim, bit m' (r.start + i) = o.bit (bit m (x.start + i)) (bit m (y.start + i))
  others : ∀ q, ¬r.Covers q → ¬(allocated x fresh).Covers q → bit m' q = bit m q

theorem done_of_writes {x y r : Operand} (hdim : r.dim = x.dim)
    (h : Writes m m' r.start (r.start + x.dim) (combined o m x.start y.start r.start)) :
    Done o x y r fresh m m' where
  bits i hi := by
    rw [h.inside (Nat.le_add_right _ _) (Nat.add_lt_add_left hi _), combined,
      Nat.add_sub_cancel_left]
  others q hq _ := by
    apply h.outside
    unfold Operand.Covers at hq
    omega

/-- Through an array of its own, when the result would overwrite what is still to be read. -/
theorem done_of_copyBack (o : BooleOp) (m : Octets) {x y r : Operand} (hdim : r.dim = x.dim)
    (hx : Apart (8 * fresh) x.start x.dim) (hy : Apart (8 * fresh) y.start x.dim)
    (hr : Apart (8 * fresh) r.start x.dim) :
    Done o x y r fresh m (copyBack x.dim fresh r.toPlace
      (combine o x.dim x.toPlace y.toPlace (allocated x fresh).toPlace m)) := by
  have hfirst := combine_writes o m (r := (allocated x fresh).toPlace) hx.steady hy.steady
  have hsecond := combineShifted_writes .op1
    (combine o x.dim x.toPlace y.toPlace (allocated x fresh).toPlace m)
    (x := aligned fresh) (y := aligned fresh) (r := r.toPlace) hr.steady' hr.steady'
  rw [← copyBack_eq] at hsecond
  constructor
  · intro i hi
    rw [hsecond.inside (Nat.le_add_right _ _) (Nat.add_lt_add_left hi _), combined,
      Nat.add_sub_cancel_left]
    change bit _ ((allocated x fresh).start + i) = _
    rw [hfirst.inside (Nat.le_add_right _ _) (Nat.add_lt_add_left hi _), combined,
      Nat.add_sub_cancel_left]
  · intro q hq hfresh
    unfold Operand.Covers at hq hfresh
    have hdim' : (allocated x fresh).dim = x.dim := rfl
    rw [hsecond.outside (by omega), hfirst.outside (by omega)]

theorem supplied_done (o : BooleOp) (m : Octets) {x y r : Operand} {result : ResultArgument}
    (hr : Conforms x r) (hfresh : Fresh fresh x y result)
    (happart : Apart (8 * fresh) r.start x.dim) (hxy : Conforms x y)
    (hresult : resultArray x y fresh result = resultArray.supplied x y fresh r) :
    ∃ m', siBitArrayOp o x y result fresh m = .ok (r, m') ∧ Done o x y r fresh m m' := by
  unfold siBitArrayOp
  rw [if_pos hxy, hresult, resultArray.supplied, if_pos hr]
  by_cases hover : Overlaps r.toPlace x.toPlace x.dim ∨ Overlaps r.toPlace y.toPlace x.dim
  · rw [if_pos hover]
    exact ⟨_, rfl, done_of_copyBack o m hr.dim_eq hfresh.first hfresh.second happart⟩
  · rw [if_neg hover]
    obtain ⟨hx, hy⟩ := not_or.mp hover
    exact ⟨_, rfl, done_of_writes hr.dim_eq (combine_writes o m (steady_of_not_overlaps hx)
      (steady_of_not_overlaps hy))⟩

/-- The operation on all bits, as they are before the call, with any result. -/
theorem siBitArrayOp_exact (o : BooleOp) {x y : Operand} {result : ResultArgument} {fresh : ℕ}
    (m : Octets) (hx : x.elttype = .bit) (hy : y.elttype = .bit) (hdims : y.dims = x.dims)
    (hresult : ∀ r, result = .array r → r.elttype = .bit ∧ r.dims = x.dims)
    (hfresh : Fresh fresh x y result) :
    ∃ m', siBitArrayOp o x y result fresh m = .ok (destination x fresh result, m') ∧
      Done o x y (destination x fresh result) fresh m m' := by
  have hxy : Conforms x y := (conforms_iff x y).mpr ⟨hx, hy, hdims⟩
  cases result with
  | nil =>
    unfold siBitArrayOp
    rw [if_pos hxy]
    exact ⟨_, rfl, done_of_writes rfl (combine_writes o m hfresh.first.steady
      hfresh.second.steady)⟩
  | t =>
    have hxx : Conforms x x := (conforms_iff x x).mpr ⟨hx, hx, rfl⟩
    exact supplied_done o m hxx hfresh hfresh.first hxy rfl
  | array r =>
    have hxr : Conforms x r := (conforms_iff x r).mpr ⟨hx, hresult r rfl⟩
    exact supplied_done o m hxr hfresh (hfresh.supplied r rfl) hxy rfl

def bitVector (self offset dim : ℕ) (h : offset < 8) : Operand where
  self := self
  offset := offset
  offset_lt := h
  type := .bitvector
  elttype := .bit
  dims := [dim]
  dim := dim
  dim_eq := (List.prod_singleton).symm
  vector_iff := ⟨fun _ => rfl, fun _ => by decide⟩
  bitvector_iff := ⟨fun _ => ⟨rfl, by decide⟩, fun _ => rfl⟩

theorem siBitArrayOp_exact_moved :
    ∃ m', siBitArrayOp .xor (bitVector 0 3 11 (by decide)) (bitVector 4 0 11 (by decide))
        (.array (bitVector 0 5 11 (by decide))) 16 (fun a => BitVec.ofNat 8 (90 + 7 * a)) =
        .ok (bitVector 0 5 11 (by decide), m') ∧
      Done .xor (bitVector 0 3 11 (by decide)) (bitVector 4 0 11 (by decide))
        (bitVector 0 5 11 (by decide)) 16 (fun a => BitVec.ofNat 8 (90 + 7 * a)) m' :=
  siBitArrayOp_exact .xor _ rfl rfl rfl
    (fun r hr => by
      cases hr
      exact ⟨rfl, rfl⟩)
    { first := Or.inr (by decide)
      second := Or.inr (by decide)
      supplied := fun r hr => by
        cases hr
        exact Or.inr (by decide) }

end BitArrays
