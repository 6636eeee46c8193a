import Ecl.BinaryStreams
import Ecl.TwosComplement
import Mathlib.Tactic.IntervalCases

/-! Which integers come back from a binary stream as they were written. -/
namespace BinaryRoundTrip

open Integers LogicalOperations CanonicalIntegers OctetWords BinaryStreams

structure ByteType extends ElementType where
  octetCount : ℕ
  size_eq : size = 8 * (octetCount + 1)

def ByteType.stream (t : ByteType) (littleEndian : Bool) : Stream :=
  setStreamEltType (normalizeStreamElementType t.toElementType) littleEndian

theorem bit_of_octet {z : ℤ} (hz : 0 ≤ z ∧ z < 256) {b : ℕ} (hb : 8 ≤ b) : z.testBit b = false := by
  obtain ⟨n, rfl⟩ := Int.eq_ofNat_of_zero_le hz.1
  have hn : n < 2 ^ b := lt_of_lt_of_le (by omega) (Nat.pow_le_pow_right (by decide) hb)
  exact Nat.testBit_lt_two_pow hn

theorem testBit_octet_mask (b : ℕ) : (255 : ℤ).testBit b = decide (b < 8) := by
  by_cases hb : b < 8
  · interval_cases b <;> rfl
  · rw [bit_of_octet ⟨by decide, by decide⟩ (by omega)]
    simp [hb]

theorem testBit_div (z : ℤ) (b : ℕ) : z.testBit (b + 8) = (z / 256).testBit b := by
  have h : z / 2 ^ (b + 8) = z / 256 / 2 ^ b := by
    rw [Int.ediv_ediv_of_nonneg (by decide), show (256 : ℤ) = 2 ^ 8 by norm_num, ← pow_add,
      Nat.add_comm]
  simp only [testBit_eq_shiftRight, Int.shiftRight_eq_div_pow]
  norm_cast at h ⊢
  rw [h]

theorem testBit_mod (z : ℤ) {b : ℕ} (hb : b < 8) : (z % 256).testBit b = z.testBit b := by
  simp only [testBit_eq_shiftRight, Int.shiftRight_eq_div_pow]
  interval_cases b <;> norm_num <;> omega

theorem bitwise_mask (z : ℤ) : Int.bitwise BooleOp.and.bit z 255 = z % 256 := by
  apply eq_of_testBit_eq
  intro b
  rw [Int.testBit_bitwise, testBit_octet_mask]
  by_cases hb : b < 8
  · simp [BooleOp.bit, hb, testBit_mod z hb]
  · have hm : (z % 256).testBit b = false := bit_of_octet (by omega) (by omega)
    simp [BooleOp.bit, hb, hm]

theorem bitwise_place {c : ℤ} (hc : 0 ≤ c ∧ c < 256) (z : ℤ) :
    Int.bitwise BooleOp.ior.bit c (z * 256) = z * 256 + c := by
  apply eq_of_testBit_eq
  intro b
  rw [Int.testBit_bitwise]
  by_cases hb : b < 8
  · have h1 : (z * 256).testBit b = false := by
      rw [← testBit_mod _ hb, Int.mul_emod_left]
      exact testBit_zero b
    have h2 : (z * 256 + c).testBit b = c.testBit b := by
      rw [← testBit_mod _ hb, show (z * 256 + c) % 256 = c by omega]
    simp [BooleOp.bit, h1, h2]
  · obtain ⟨d, rfl⟩ : ∃ d, b = d + 8 := ⟨b - 8, by omega⟩
    have h1 : c.testBit (d + 8) = false := bit_of_octet hc (by omega)
    have h2 : (z * 256 + c) / 256 = z := by omega
    simp [BooleOp.bit, h1, testBit_div, h2]

theorem octetOf_mod (z : ℤ) : octetOf (z % 256) = octetOf z := by
  simp only [octetOf, Int.emod_emod]

theorem octetOf_logand (x : Integer) :
    octetOf (boole .and x (makeFixnum 0xFF)).value = octetOf x.value := by
  rw [value_boole, value_makeFixnum (by decide), bitwise_mask, octetOf_mod]

theorem value_ash_octet (x : Integer) : (ash x (-8)).value = x.value / 256 := by
  rw [value_ash, shifted, if_pos (by decide)]
  rfl

theorem encodeLoop_le (k idx : ℕ) (byte : Integer) (buf : List UInt8) (h : idx + k ≤ buf.length) :
    encodeLoop id k idx byte buf =
      buf.take idx ++ octets k byte.value ++ buf.drop (idx + k) := by
  induction k generalizing idx byte buf with
  | zero => simp [encodeLoop, octets]
  | succ k ih =>
    have hlen : idx < buf.length := by omega
    simp only [encodeLoop, id_eq, octetOf_logand]
    rw [ih _ _ _ (by rw [List.length_set]; omega), value_ash_octet, octets,
      List.drop_set_of_lt (by omega), List.take_succ_eq_append_getElem (by simpa using hlen),
      List.take_set_of_le (Nat.le_refl idx)]
    simp [Nat.add_assoc, Nat.add_comm 1 k]

theorem encodeLoop_be (ndx k : ℕ) (byte : Integer) (buf : List UInt8) (hk : k ≤ ndx)
    (h : ndx ≤ buf.length) :
    encodeLoop (fun idx => ndx - idx - 1) k (ndx - k) byte buf =
      (octets k byte.value).reverse ++ buf.drop k := by
  induction k generalizing byte buf with
  | zero => simp [encodeLoop, octets]
  | succ k ih =>
    have hidx : ndx - (k + 1) + 1 = ndx - k := by omega
    have hplace : ndx - (ndx - (k + 1)) - 1 = k := by omega
    simp only [encodeLoop, octetOf_logand, hidx, hplace]
    rw [ih _ _ (by omega) (by rw [List.length_set]; omega), value_ash_octet, octets,
      List.drop_eq_getElem_cons (by rw [List.length_set]; omega), List.getElem_set_self,
      List.drop_set_of_lt (by omega)]
    simp

theorem decodeLoop_eq (signedBytes : Bool) (place : ℕ → ℕ) (buf : List UInt8) (k idx : ℕ)
    (output : Option Integer) :
    decodeLoop signedBytes place buf k idx output =
      ((List.range' idx k).map fun i => buf.getD (place i) 0).foldl (decodeOctet signedBytes)
        output := by
  induction k generalizing idx output with
  | zero => rfl
  | succ k ih => simp only [decodeLoop, ih, List.range'_succ, List.map_cons, List.foldl_cons]

theorem getD_range (buf : List UInt8) {k : ℕ} (h : k ≤ buf.length) :
    (List.range' 0 k).map (fun i => buf.getD i 0) = buf.take k := by
  apply List.ext_getElem
  · simp [h]
  · intro i h1 h2
    have hi : i < buf.length := by simp at h1; omega
    simp [List.getD_eq_getElem?_getD, hi]

theorem getD_range_reverse (buf : List UInt8) {k : ℕ} (h : k ≤ buf.length) :
    (List.range' 0 k).map (fun i => buf.getD (k - i - 1) 0) = (buf.take k).reverse := by
  apply List.ext_getElem
  · simp [h]
  · intro i h1 h2
    have hi : k - i - 1 < buf.length := by simp at h1; omega
    have hk : k - 1 - i = k - i - 1 := by omega
    simp [List.getD_eq_getElem?_getD, hi, h, hk]

theorem foldl_decodeOctet (signedBytes : Bool) (l : List UInt8) (x : Integer) (hx : Canonical x) :
    ∃ y, l.foldl (decodeOctet signedBytes) (some x) = some y ∧ Canonical y ∧
      y.value = assemble x.value l := by
  induction l generalizing x with
  | nil => exact ⟨x, rfl, hx, rfl⟩
  | cons c l ih =>
    have hc : ((c.toNat : ℤ)) < 256 := by exact_mod_cast c.toNat_lt
    have hv : (boole .ior (makeFixnum c.toNat) (ash x 8)).value = x.value * 256 + c.toNat := by
      rw [value_boole, value_makeFixnum (by simp only [fits_iff]; omega), value_ash]
      exact bitwise_place ⟨by omega, hc⟩ _
    obtain ⟨y, hy, hcan, hval⟩ := ih _ (canonical_boole .ior (makeFixnum c.toNat) (ash x 8))
    refine ⟨y, hy, hcan, ?_⟩
    rw [hval, hv]
    rfl

theorem fits_topOctet (signed : Bool) (c : UInt8) : FitsFixnum (topOctet signed c) := by
  have hc := c.toNat_lt
  simp only [FitsFixnum, mostNegativeFixnum, mostPositiveFixnum, topOctet]
  split <;> omega

theorem decoded_word (signedBytes : Bool) (top : UInt8) (l : List UInt8) :
    ∃ y, (top :: l).foldl (decodeOctet signedBytes) none = some y ∧ Canonical y ∧
      y.value = assemble (topOctet signedBytes top) l := by
  obtain ⟨y, hy, hc, hv⟩ :=
    foldl_decodeOctet signedBytes l (makeFixnum (topOctet signedBytes top)) (canonical_makeFixnum _)
  rw [value_makeFixnum (fits_topOctet signedBytes top)] at hv
  exact ⟨y, hy, hc, hv⟩

def word (littleEndian : Bool) (k : ℕ) (z : ℤ) : List UInt8 :=
  if littleEndian = true then octets k z else (octets k z).reverse

theorem word_length (littleEndian : Bool) (k : ℕ) (z : ℤ) : (word littleEndian k z).length = k := by
  unfold word
  split <;> simp [octets_length]

structure StreamOf (t : ByteType) (littleEndian : Bool) (s : Stream) : Prop where
  byteSize : s.byteSize / 8 = t.octetCount + 1
  signedBytes : s.signedBytes = t.signed
  coder : s.coder =
    if t.octetCount = 0 then (if t.signed = true then .s8 else .u8)
    else if littleEndian = true then .le
    else .be
  room : t.octetCount + 1 ≤ s.byteBuffer.length

theorem stream_streamOf (t : ByteType) (littleEndian : Bool) :
    StreamOf t littleEndian (t.stream littleEndian) := by
  have hsize := t.size_eq
  have habs : (normalizeStreamElementType t.toElementType).natAbs = t.size := by
    simp only [normalizeStreamElementType]
    split <;> simp
  have hround : (t.size + 7) / 8 * 8 = t.size := by omega
  have hneg : normalizeStreamElementType t.toElementType < 0 ↔ t.signed = true := by
    simp only [normalizeStreamElementType]
    split
    · simp_all
    · simp_all; omega
  have hs : decide (normalizeStreamElementType t.toElementType < 0) = t.signed := by
    rw [decide_eq_decide.mpr hneg, Bool.decide_coe]
  constructor
  · simp only [ByteType.stream, setStreamEltType, habs, hround]
    omega
  · simp only [ByteType.stream, setStreamEltType, hs]
  · have h8 : t.size = 8 ↔ t.octetCount = 0 := by omega
    simp only [ByteType.stream, setStreamEltType, habs, hround, hs, h8]
  · simp only [ByteType.stream, setStreamEltType, habs, hround, List.length_replicate]
    omega

theorem StreamOf.buffer {t : ByteType} {littleEndian : Bool} {s : Stream} {buf : List UInt8}
    (h : StreamOf t littleEndian s) (hb : t.octetCount + 1 ≤ buf.length) :
    StreamOf t littleEndian { s with byteBuffer := buf } :=
  ⟨h.byteSize, h.signedBytes, h.coder, hb⟩

def ByteType.Refuses (t : ByteType) (byte : Integer) : Prop :=
  t.octetCount = 0 ∧ ¬ t.Contains byte.value

theorem not_contains_bignum {signed : Bool} {z : ℤ} (h : Canonical (.bignum z)) :
    ¬ OctetWords.Contains signed 8 z := by
  intro hz
  apply canonical_bignum.mp h
  simp only [fits_iff]
  cases signed <;> simp only [OctetWords.Contains, Bool.false_eq_true, if_false, if_true] at hz <;>
    omega

theorem toUint8_eq {x : Integer} (hx : Canonical x) :
    toUint8 x = if OctetWords.Contains false 8 x.value then .ok (octetOf x.value)
      else .error ⟨⟨false, 8⟩, x⟩ := by
  cases x with
  | fixnum n =>
    have hc : OctetWords.Contains false 8 n.toInt ↔ 0 ≤ n.toInt ∧ n.toInt ≤ 255 := by
      simp only [OctetWords.Contains, Bool.false_eq_true, if_false]
      omega
    simp only [toUint8, Integer.value, hc]
  | bignum z => exact (if_neg (not_contains_bignum hx)).symm

theorem toInt8_eq {x : Integer} (hx : Canonical x) :
    toInt8 x = if OctetWords.Contains true 8 x.value then .ok (octetOf x.value)
      else .error ⟨⟨true, 8⟩, x⟩ := by
  cases x with
  | fixnum n =>
    have hc : OctetWords.Contains true 8 n.toInt ↔ -128 ≤ n.toInt ∧ n.toInt ≤ 127 := by
      simp only [OctetWords.Contains, if_true]
      omega
    simp only [toInt8, Integer.value, hc]
  | bignum z => exact (if_neg (not_contains_bignum hx)).symm

theorem word_zero (littleEndian : Bool) (z : ℤ) : word littleEndian 1 z = [octetOf z] := by
  cases littleEndian <;> rfl

theorem byteEncoder_refused {t : ByteType} {littleEndian : Bool} {s : Stream} {byte : Integer}
    (h : StreamOf t littleEndian s) (hb : Canonical byte) (hr : t.Refuses byte) :
    s.byteEncoder byte = .error ⟨t.toElementType, byte⟩ := by
  obtain ⟨h0, hn⟩ := hr
  have hsize : t.size = 8 := by rw [t.size_eq, h0]
  have ht : t.toElementType = ⟨t.signed, 8⟩ := by rw [← hsize]
  simp only [ElementType.Contains, hsize] at hn
  have hc := h.coder
  rw [if_pos h0] at hc
  rw [ht]
  cases hs : t.signed with
  | false =>
    simp only [hs, Bool.false_eq_true, if_false] at hc hn
    simp only [Stream.byteEncoder, hc, toUint8_eq hb, if_neg hn, Except.map]
  | true =>
    simp only [hs, if_true] at hc hn
    simp only [Stream.byteEncoder, hc, toInt8_eq hb, if_neg hn, Except.map]

theorem byteEncoder_taken {t : ByteType} {littleEndian : Bool} {s : Stream} {byte : Integer}
    (h : StreamOf t littleEndian s) (hb : Canonical byte) (hr : ¬ t.Refuses byte) :
    ∃ buf, s.byteEncoder byte = .ok buf ∧ t.octetCount + 1 ≤ buf.length ∧
      buf.take (t.octetCount + 1) = word littleEndian (t.octetCount + 1) byte.value := by
  have hroom := h.room
  by_cases h0 : t.octetCount = 0
  · have hsize : t.size = 8 := by rw [t.size_eq, h0]
    have hn : t.Contains byte.value := Classical.not_not.mp fun hn => hr ⟨h0, hn⟩
    simp only [ElementType.Contains, hsize] at hn
    have hc := h.coder
    rw [if_pos h0] at hc
    have hset : (s.byteBuffer.set 0 (octetOf byte.value)).take (t.octetCount + 1) =
        word littleEndian (t.octetCount + 1) byte.value := by
      rw [h0, word_zero]
      cases hbuf : s.byteBuffer with
      | nil => simp [hbuf] at hroom
      | cons c l => rfl
    refine ⟨s.byteBuffer.set 0 (octetOf byte.value), ?_, by rwa [List.length_set], hset⟩
    cases hs : t.signed with
    | false =>
      simp only [hs, Bool.false_eq_true, if_false] at hc hn
      simp only [Stream.byteEncoder, hc, toUint8_eq hb, if_pos hn, Except.map]
    | true =>
      simp only [hs, if_true] at hc hn
      simp only [Stream.byteEncoder, hc, toInt8_eq hb, if_pos hn, Except.map]
  · have hc := h.coder
    rw [if_neg h0] at hc
    cases littleEndian with
    | true =>
      rw [if_pos rfl] at hc
      have he : s.byteEncoder byte =
          .ok (encodeLoop id (t.octetCount + 1) 0 byte s.byteBuffer) := by
        simp only [Stream.byteEncoder, hc, h.byteSize]
      refine ⟨_, he, ?_⟩
      rw [encodeLoop_le _ _ _ _ (by omega)]
      simp [octets_length, word]
    | false =>
      rw [if_neg (by decide)] at hc
      have he : s.byteEncoder byte = .ok (encodeLoop (fun idx => t.octetCount + 1 - idx - 1)
          (t.octetCount + 1) 0 byte s.byteBuffer) := by
        simp only [Stream.byteEncoder, hc, h.byteSize]
      have hl := encodeLoop_be (t.octetCount + 1) (t.octetCount + 1) byte s.byteBuffer
        (Nat.le_refl _) hroom
      rw [Nat.sub_self] at hl
      refine ⟨_, he, ?_⟩
      rw [hl]
      simp [octets_length, word]

def reread (t : ByteType) (z : ℤ) : ℤ :=
  assemble (topOctet t.signed (octetOf (z / 256 ^ t.octetCount))) (octets t.octetCount z).reverse

theorem reread_eq_iff (t : ByteType) (z : ℤ) : reread t z = z ↔ t.Contains z := by
  rw [reread, word_round_trip_iff, ElementType.Contains, t.size_eq]

theorem bigNormalize_eq_iff {x : Integer} (hx : Canonical x) (z : ℤ) :
    bigNormalize z = x ↔ z = x.value := by
  constructor
  · rintro rfl
    rw [value_bigNormalize]
  · rintro rfl
    have he := (eql_iff_value (canonical_bigNormalize x.value) hx).mpr
      (value_bigNormalize _).symm
    revert he
    cases bigNormalize x.value <;> cases x <;> simp [Integer.eql]

theorem byteDecoder_word {t : ByteType} {littleEndian : Bool} {s : Stream} {z : ℤ}
    (h : StreamOf t littleEndian s)
    (hz : s.byteBuffer.take (t.octetCount + 1) = word littleEndian (t.octetCount + 1) z) :
    s.byteDecoder = some (bigNormalize (reread t z)) := by
  have of_value {y : Integer} (hy : Canonical y) (hv : y.value = reread t z) :
      y = bigNormalize (reread t z) := ((bigNormalize_eq_iff hy _).mpr hv.symm).symm
  have hroom := h.room
  have hc := h.coder
  by_cases h0 : t.octetCount = 0
  · rw [if_pos h0] at hc
    rw [h0, word_zero] at hz
    have hhead : s.byteBuffer.getD 0 0 = octetOf z := by
      cases hbuf : s.byteBuffer with
      | nil => simp [hbuf] at hroom
      | cons c l => simpa [hbuf] using hz
    have hv : reread t z = topOctet t.signed (octetOf z) := by
      simp [reread, h0, octets, assemble]
    have hmk : makeFixnum (topOctet t.signed (octetOf z)) = bigNormalize (reread t z) := by
      apply of_value (canonical_makeFixnum _)
      rw [value_makeFixnum (fits_topOctet _ _), hv]
    rw [← hmk]
    cases hs : t.signed with
    | false =>
      simp only [hs, Bool.false_eq_true, if_false] at hc
      simp only [Stream.byteDecoder, hc, hhead]
    | true =>
      simp only [hs, if_true] at hc
      simp only [Stream.byteDecoder, hc, hhead]
  · rw [if_neg h0] at hc
    obtain ⟨y, hy, hcan, hval⟩ := decoded_word t.signed (octetOf (z / 256 ^ t.octetCount))
      (octets t.octetCount z).reverse
    rw [← of_value hcan hval, ← hy]
    cases littleEndian with
    | true =>
      rw [if_pos rfl] at hc
      simp only [Stream.byteDecoder, hc, h.byteSize, h.signedBytes, decodeLoop_eq,
        getD_range_reverse _ hroom, hz, word, if_true, octets_succ, List.reverse_append,
        List.reverse_singleton, List.singleton_append]
    | false =>
      rw [if_neg (by decide)] at hc
      simp only [Stream.byteDecoder, hc, h.byteSize, h.signedBytes, decodeLoop_eq, id_eq,
        getD_range _ hroom, hz, word, Bool.false_eq_true, if_false, octets_succ,
        List.reverse_append, List.reverse_singleton, List.singleton_append]

theorem binaryWriteByte_refused {t : ByteType} {littleEndian : Bool} {s : Stream} {byte : Integer}
    (h : StreamOf t littleEndian s) (hb : Canonical byte) (hr : t.Refuses byte) (f : File) :
    binaryWriteByte fileOps s f byte = .error ⟨t.toElementType, byte⟩ := by
  simp only [binaryWriteByte, byteEncoder_refused h hb hr, Except.map]

theorem binaryWriteByte_taken {t : ByteType} {littleEndian : Bool} {s : Stream} {byte : Integer}
    (h : StreamOf t littleEndian s) (hb : Canonical byte) (hr : ¬ t.Refuses byte)
    (content : List UInt8) :
    ∃ s', StreamOf t littleEndian s' ∧
      let c := content ++ word littleEndian (t.octetCount + 1) byte.value
      binaryWriteByte fileOps s ⟨content, content.length⟩ byte = .ok (s', ⟨c, c.length⟩) := by
  obtain ⟨buf, hbuf, hroom, hword⟩ := byteEncoder_taken h hb hr
  refine ⟨_, h.buffer hroom, ?_⟩
  simp [binaryWriteByte, hbuf, h.byteSize, hword, fileOps, Except.map, word_length]

theorem binaryReadByte_word {t : ByteType} {littleEndian : Bool} {s : Stream}
    (h : StreamOf t littleEndian s) {z : ℤ} {w : List UInt8}
    (hw : w = word littleEndian (t.octetCount + 1) z) (front rest : List UInt8) :
    ∃ s', StreamOf t littleEndian s' ∧
      binaryReadByte fileOps s ⟨front ++ (w ++ rest), front.length⟩ =
        (some (bigNormalize (reread t z)), s', ⟨front ++ (w ++ rest), (front ++ w).length⟩) := by
  have hlen : w.length = t.octetCount + 1 := by rw [hw, word_length]
  have htake : ((front ++ (w ++ rest)).drop front.length).take (t.octetCount + 1) = w := by
    rw [List.drop_left, List.take_left' hlen]
  have hs := h.buffer (show t.octetCount + 1 ≤ (w ++ s.byteBuffer.drop (t.octetCount + 1)).length by
    simp [hlen])
  refine ⟨_, hs, ?_⟩
  have hdec := byteDecoder_word hs (z := z) (by rw [← hw]; exact List.take_left' hlen)
  simp only [binaryReadByte, fileOps, h.byteSize, htake, hlen, hdec, Nat.lt_irrefl, if_false,
    List.length_append]

theorem binaryReadByte_end {t : ByteType} {littleEndian : Bool} {s : Stream}
    (h : StreamOf t littleEndian s) (content : List UInt8) :
    (binaryReadByte fileOps s ⟨content, content.length⟩).1 = none := by
  simp [binaryReadByte, fileOps, h.byteSize]

/-- The elements that were written without an error. -/
def taken (bytes : List Integer) (outcomes : List (Option WrongType)) : List Integer :=
  ((bytes.zip outcomes).filter fun p => p.2.isNone).map Prod.fst

def words (t : ByteType) (littleEndian : Bool) (bytes : List Integer) : List UInt8 :=
  bytes.flatMap fun byte => word littleEndian (t.octetCount + 1) byte.value

theorem words_length (t : ByteType) (littleEndian : Bool) (bytes : List Integer) :
    (words t littleEndian bytes).length = (t.octetCount + 1) * bytes.length := by
  induction bytes with
  | nil => rfl
  | cons byte bytes ih =>
    simp only [words, List.flatMap_cons, List.length_append, word_length] at ih ⊢
    rw [ih, List.length_cons]
    ring

structure Wrote (t : ByteType) (littleEndian : Bool) (content : List UInt8) (bytes : List Integer)
    (r : List (Option WrongType) × Stream × File) : Prop where
  outcomes : List.Forall₂ (fun byte o => (t.Refuses byte ∧ o = some ⟨t.toElementType, byte⟩) ∨
    (¬ t.Refuses byte ∧ o = none)) bytes r.1
  content : r.2.2.content = content ++ words t littleEndian (taken bytes r.1)

theorem writeBytes_wrote {t : ByteType} {littleEndian : Bool} {s : Stream} {bytes : List Integer}
    (h : StreamOf t littleEndian s) (hb : ∀ byte ∈ bytes, Canonical byte) (content : List UInt8) :
    Wrote t littleEndian content bytes (writeBytes fileOps s ⟨content, content.length⟩ bytes) := by
  induction bytes generalizing s content with
  | nil => exact ⟨.nil, by simp [writeBytes, words, taken]⟩
  | cons byte bytes ih =>
    have hbyte := hb byte List.mem_cons_self
    have hrest : ∀ b ∈ bytes, Canonical b := fun b hm => hb b (List.mem_cons_of_mem _ hm)
    by_cases hr : t.Refuses byte
    · obtain ⟨ho, hc⟩ := ih h hrest content
      rw [writeBytes, binaryWriteByte_refused h hbyte hr]
      exact ⟨.cons (Or.inl ⟨hr, rfl⟩) ho, hc⟩
    · obtain ⟨s', hs', hw⟩ := binaryWriteByte_taken h hbyte hr content
      obtain ⟨ho, hc⟩ := ih hs' hrest (content ++ word littleEndian (t.octetCount + 1) byte.value)
      rw [writeBytes, hw]
      refine ⟨.cons (Or.inr ⟨hr, rfl⟩) ho, ?_⟩
      simp only [hc, taken, words, List.zip_cons_cons, List.filter_cons, Option.isNone_none,
        if_true, List.map_cons, List.flatMap_cons, List.append_assoc]

theorem readBytes_words {t : ByteType} {littleEndian : Bool} {s : Stream}
    (h : StreamOf t littleEndian s) (bytes : List Integer) (front : List UInt8) :
    readBytes fileOps s ⟨front ++ words t littleEndian bytes, front.length⟩ (bytes.length + 1) =
      bytes.map (fun byte => some (bigNormalize (reread t byte.value))) ++ [none] := by
  induction bytes generalizing s front with
  | nil =>
    have he : front ++ words t littleEndian [] = front := by simp [words]
    simp only [he, List.length_nil, readBytes, binaryReadByte_end h, List.map_nil, List.nil_append]
  | cons byte bytes ih =>
    have hw : words t littleEndian (byte :: bytes) =
        word littleEndian (t.octetCount + 1) byte.value ++ words t littleEndian bytes := rfl
    obtain ⟨s', hs', hr⟩ := binaryReadByte_word h rfl front (words t littleEndian bytes)
    rw [← hw] at hr
    have hi := ih hs' (front ++ word littleEndian (t.octetCount + 1) byte.value)
    rw [List.append_assoc, ← hw] at hi
    rw [List.length_cons, readBytes, hr]
    simp only [hi, List.map_cons, List.cons_append]

/-- WRITE-BYTE of one integer after the other to a new file. -/
def written (t : ByteType) (littleEndian : Bool) (bytes : List Integer) :
    List (Option WrongType) × Stream × File :=
  writeBytes fileOps (t.stream littleEndian) File.empty bytes

structure RoundTrips (t : ByteType) (littleEndian : Bool) (bytes : List Integer) : Prop where
  refusals : List.Forall₂ (fun byte o => ∀ e, o = some e →
    e = ⟨t.toElementType, byte⟩ ∧ ¬ t.Contains byte.value) bytes (written t littleEndian bytes).1
  size : (written t littleEndian bytes).2.2.content.length =
    t.size / 8 * (taken bytes (written t littleEndian bytes).1).length
  reads : let elements := taken bytes (written t littleEndian bytes).1
    readBytes fileOps (t.stream littleEndian) (written t littleEndian bytes).2.2.start
      (elements.length + 1) = elements.map some ++ [none]

theorem taken_eq {t : ByteType} {bytes : List Integer} {outcomes : List (Option WrongType)}
    (h : List.Forall₂ (fun byte o => (t.Refuses byte ∧ o = some ⟨t.toElementType, byte⟩) ∨
      (¬ t.Refuses byte ∧ o = none)) bytes outcomes) (byte : Integer) :
    byte ∈ taken bytes outcomes ↔ byte ∈ bytes ∧ ¬ t.Refuses byte := by
  induction h with
  | nil => simp [taken]
  | @cons b o bytes outcomes hb _ ih =>
    obtain ⟨hr, rfl⟩ | ⟨hr, rfl⟩ := hb
    · have hs : taken (b :: bytes) (some ⟨t.toElementType, b⟩ :: outcomes) = taken bytes outcomes :=
        rfl
      rw [hs, ih, List.mem_cons]
      constructor
      · exact fun hm => ⟨Or.inr hm.1, hm.2⟩
      · rintro ⟨rfl | hm, hn⟩
        · exact absurd hr hn
        · exact ⟨hm, hn⟩
    · have hs : taken (b :: bytes) (none :: outcomes) = b :: taken bytes outcomes := rfl
      rw [hs, List.mem_cons, ih, List.mem_cons]
      constructor
      · rintro (rfl | hm)
        · exact ⟨Or.inl rfl, hr⟩
        · exact ⟨Or.inr hm.1, hm.2⟩
      · rintro ⟨rfl | hm, hn⟩
        · exact Or.inl rfl
        · exact Or.inr ⟨hm, hn⟩

theorem refuses_or {t : ByteType} (byte : Integer) :
    (¬ t.Refuses byte → t.Contains byte.value) ↔ t.size = 8 ∨ t.Contains byte.value := by
  have h8 : t.size = 8 ↔ t.octetCount = 0 := by have := t.size_eq; omega
  simp only [ByteType.Refuses, h8]
  tauto

/-- Wide encoders check nothing: an integer comes back from them when it is of the type. -/
theorem binary_elements_round_trip_iff (t : ByteType) (littleEndian : Bool) (bytes : List Integer)
    (hb : ∀ byte ∈ bytes, Canonical byte) :
    RoundTrips t littleEndian bytes ↔ ∀ byte ∈ bytes, t.size = 8 ∨ t.Contains byte.value := by
  have hs := stream_streamOf t littleEndian
  obtain ⟨ho, hc⟩ : Wrote t littleEndian [] bytes (written t littleEndian bytes) :=
    writeBytes_wrote hs hb []
  rw [List.nil_append] at hc
  have hread : readBytes fileOps (t.stream littleEndian) (written t littleEndian bytes).2.2.start
      ((taken bytes (written t littleEndian bytes).1).length + 1) =
      (taken bytes (written t littleEndian bytes).1).map
        (fun byte => some (bigNormalize (reread t byte.value))) ++ [none] := by
    have := readBytes_words hs (taken bytes (written t littleEndian bytes).1) []
    rwa [List.nil_append, ← hc] at this
  have hsame (byte : Integer) (hm : byte ∈ taken bytes (written t littleEndian bytes).1) :
      some (bigNormalize (reread t byte.value)) = some byte ↔ t.Contains byte.value := by
    rw [Option.some_inj, bigNormalize_eq_iff (hb byte ((taken_eq ho byte).mp hm).1), reread_eq_iff]
  constructor
  · intro h byte hm
    refine (refuses_or byte).mp fun hr => ?_
    have hk := (taken_eq ho byte).mpr ⟨hm, hr⟩
    have hmap := List.append_cancel_right (hread.symm.trans h.reads)
    exact (hsame byte hk).mp (List.map_inj_left.mp hmap byte hk)
  · intro h
    constructor
    · refine ho.imp fun byte o hbo e he => ?_
      obtain ⟨hr, rfl⟩ | ⟨-, rfl⟩ := hbo
      · exact ⟨(Option.some_inj.mp he).symm, hr.2⟩
      · exact absurd he (by simp)
    · rw [hc, words_length, t.size_eq, Nat.mul_div_cancel_left _ (by decide)]
    · refine hread.trans (congrArg (· ++ [none]) (List.map_congr_left fun byte hk => ?_))
      obtain ⟨hm, hr⟩ := (taken_eq ho byte).mp hk
      exact (hsame byte hk).mpr ((refuses_or byte).mpr (h byte hm) hr)

def bytesOfTwo : ByteType := ⟨⟨false, 16⟩, 1, rfl⟩

theorem binary_elements_round_trip_two_octets : RoundTrips bytesOfTwo true [makeFixnum 65535] :=
  (binary_elements_round_trip_iff bytesOfTwo true [makeFixnum 65535]
    (by intro byte hm; rw [List.mem_singleton.mp hm]; exact canonical_makeFixnum _)).mpr
    (by intro byte hm; rw [List.mem_singleton.mp hm]; exact Or.inr (by decide))

/-- 65536 is no (unsigned-byte 16); it is written as two zero octets. -/
theorem wide_element_truncated : ¬ RoundTrips bytesOfTwo false [makeFixnum 65536] := by
  intro h
  have hr := h.reads
  revert hr
  decide

end BinaryRoundTrip
