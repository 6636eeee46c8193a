import Ecl.ArrayBounds
import Ecl.CharacterStreams

/-! Sequence output streams of src/c/streams/strm_sequence.d for vectors of octets, with an
external format, and of 16-bit or 32-bit words. -/
namespace SequenceOutput

open ArrayBounds (arrayDimensionLimit)
open CharacterStreams (LineEnding)
open ExternalFormats

/-- The words up to the dimension. -/
structure OutputVector where
  self : List ℕ
  fillp : ℕ
  fillp_le : fillp ≤ self.length
  adjustable : Bool

/-- write_char in the dispatch table. -/
inductive Writer where
  | eformat
  | ucs2
  | ucs4
  deriving DecidableEq

structure SequenceStream extends OutputVector where
  position : ℕ
  position_le : position ≤ self.length
  writer : Writer
  format : ExternalFormat
  lineEnding : LineEnding

inductive OutputError where
  | simple (message : String)
  | dimension (n : ℕ)
  | encoding (c : ℕ)
  deriving DecidableEq

def OutputVector.dim (v : OutputVector) : ℕ := v.self.length

def OutputVector.active (v : OutputVector) : List ℕ := v.self.take v.fillp

def makeSequenceOutputStream (v : OutputVector) (writer : Writer) (format : ExternalFormat)
    (lineEnding : LineEnding) : SequenceStream :=
  { v with position := v.fillp, position_le := v.fillp_le, writer, format, lineEnding }

def SequenceStream.lengthened (s : SequenceStream) (n : ℕ) : SequenceStream :=
  { s with
    self := s.self ++ List.replicate n 0
    fillp_le := by
      rw [List.length_append]
      exact Nat.le_add_right_of_le s.fillp_le
    position_le := by
      rw [List.length_append]
      exact Nat.le_add_right_of_le s.position_le }

/-- si_adjust_vector, for a dimension that is not below the one that the vector has. The second
test is the one in si_make_vector. -/
def adjustVector (s : SequenceStream) (newDim : ℕ) : Except OutputError SequenceStream :=
  if s.adjustable = false then .error (.simple "The vector is not adjustable.")
  else if 4 * newDim + 3 > arrayDimensionLimit then .error (.dimension newDim)
  else .ok (s.lengthened (newDim - s.dim))

def seqOutEnlargeVector (s : SequenceStream) : Except OutputError SequenceStream :=
  adjustVector s (2 * s.dim)

def SequenceStream.stored (s : SequenceStream) (units : List ℕ)
    (h : s.position + units.length ≤ s.dim) : SequenceStream :=
  { s with
    self := s.self.take s.position ++ units ++ s.self.drop (s.position + units.length)
    position := s.position + units.length
    fillp := max s.fillp (s.position + units.length)
    fillp_le := by
      have hfillp := s.fillp_le
      rw [OutputVector.dim] at h
      simp only [List.length_append, List.length_take, List.length_drop]
      omega
    position_le := by
      rw [OutputVector.dim] at h
      simp only [List.length_append, List.length_take, List.length_drop]
      omega }

/-- What the writers share: the vector is enlarged again and again until the words have room. -/
def writeUnits (units : List ℕ) : ℕ → SequenceStream → Option (Except OutputError SequenceStream)
  | 0, _ => none
  | fuel + 1, s =>
    if h : s.position + units.length ≤ s.dim then some (.ok (s.stored units h))
    else
      match seqOutEnlargeVector s with
      | .error e => some (.error e)
      | .ok s' => writeUnits units fuel s'

def seqOutWriteByte8 (fuel : ℕ) (s : SequenceStream) (buffer : List UInt8) :
    Option (Except OutputError SequenceStream) :=
  writeUnits (buffer.map UInt8.toNat) fuel s

def ucs2Units (c : ℕ) : List ℕ :=
  if c ≥ 0x10000 then
    [((c - 0x10000) >>> 10 ||| 0xD800) % 2 ^ 16, ((c - 0x10000) &&& 0x3FF ||| 0xDC00) % 2 ^ 16]
  else [c % 2 ^ 16]

def seqOutUcs2WriteChar (fuel : ℕ) (s : SequenceStream) (c : ℕ) :
    Option (Except OutputError SequenceStream) :=
  writeUnits (ucs2Units c) fuel s

def seqOutUcs4WriteChar (fuel : ℕ) (s : SequenceStream) (c : ℕ) :
    Option (Except OutputError SequenceStream) :=
  writeUnits [c % 2 ^ 32] fuel s

def eclEformatWriteChar (fuel : ℕ) (s : SequenceStream) (c : ℕ) :
    Option (Except OutputError SequenceStream) :=
  match encoder s.format c with
  | none => some (.error (.encoding c))
  | some (buffer, format) => seqOutWriteByte8 fuel { s with format } buffer

/-- An error ends what is being done, and so does a loop that does not end. -/
def andThen (r : Option (Except OutputError SequenceStream))
    (next : SequenceStream → Option (Except OutputError SequenceStream)) :
    Option (Except OutputError SequenceStream) :=
  match r with
  | some (.ok s) => next s
  | r => r

def eformatWriteChar (fuel : ℕ) (s : SequenceStream) (c : ℕ) :
    Option (Except OutputError SequenceStream) :=
  if c = 10 then
    match s.lineEnding with
    | .lf => eclEformatWriteChar fuel s c
    | .cr => eclEformatWriteChar fuel s 13
    | .crlf => andThen (eclEformatWriteChar fuel s 13) (eclEformatWriteChar fuel · 10)
  else eclEformatWriteChar fuel s c

def writeChar (fuel : ℕ) (s : SequenceStream) (c : ℕ) :
    Option (Except OutputError SequenceStream) :=
  match s.writer with
  | .eformat => eformatWriteChar fuel s c
  | .ucs2 => seqOutUcs2WriteChar fuel s c
  | .ucs4 => seqOutUcs4WriteChar fuel s c

def writeString (fuel : ℕ) : SequenceStream → List ℕ → Option (Except OutputError SequenceStream)
  | s, [] => some (.ok s)
  | s, c :: string => andThen (writeChar fuel s c) (writeString fuel · string)

/-- One word for a character, or two of which each has ten bits of it. -/
def utf16 (c : ℕ) : List ℕ :=
  if c < 0x10000 then [c]
  else [0xD800 + (c - 0x10000) / 0x400, 0xDC00 + (c - 0x10000) % 0x400]

/-- The words of a character and the format after it; not every format has all characters. -/
def encodeChar (writer : Writer) (lineEnding : LineEnding) (format : ExternalFormat) (c : ℕ) :
    Option (List ℕ × ExternalFormat) :=
  if c < 1114112 then
    match writer with
    | .eformat =>
      (CharacterStreams.writeChar lineEnding format c).map fun e => (e.1.map UInt8.toNat, e.2)
    | .ucs2 => some (utf16 c, format)
    | .ucs4 => some ([c], format)
  else none

def encodeString (writer : Writer) (lineEnding : LineEnding) :
    ExternalFormat → List ℕ → Option (List ℕ × ExternalFormat)
  | format, [] => some ([], format)
  | format, c :: string => (encodeChar writer lineEnding format c).bind fun e =>
    (encodeString writer lineEnding e.2 string).map fun e' => (e.1 ++ e'.1, e'.2)

theorem ucs2Units_eq {c : ℕ} (h : c < 1114112) : ucs2Units c = utf16 c := by
  unfold ucs2Units utf16
  by_cases hc : c < 0x10000
  · rw [if_neg (by omega), if_pos hc, Nat.mod_eq_of_lt (by omega : c < 2 ^ 16)]
  · rw [if_pos (by omega), if_neg hc]
    have hhigh : (c - 0x10000) >>> 10 = (c - 0x10000) / 0x400 := Nat.shiftRight_eq_div_pow _ 10
    have hlow : (c - 0x10000) &&& 0x3FF = (c - 0x10000) % 0x400 :=
      Nat.and_two_pow_sub_one_eq_mod _ 10
    have hd : (c - 0x10000) / 0x400 < 2 ^ 10 := by omega
    have hm : (c - 0x10000) % 0x400 < 2 ^ 10 := Nat.mod_lt _ (by decide)
    have hor (b : ℕ) (hb : b < 2 ^ 10) (a : ℕ) : b ||| 2 ^ 10 * a = 2 ^ 10 * a + b := by
      rw [Nat.or_comm, Nat.two_pow_add_eq_or_of_lt hb]
    have hfirst := hor _ hd 54
    have hsecond := hor _ hm 55
    norm_num only at hfirst hsecond
    rw [hhigh, hlow, hfirst, hsecond, Nat.mod_eq_of_lt (by omega), Nat.mod_eq_of_lt (by omega)]

def Room (s : SequenceStream) (n : ℕ) : Prop :=
  ∃ k, s.position + n ≤ 2 ^ k * s.dim ∧
    (k = 0 ∨ (s.adjustable = true ∧ 4 * (2 ^ k * s.dim) + 3 ≤ arrayDimensionLimit))

structure Stored (s : SequenceStream) (units : List ℕ) (s' : SequenceStream) : Prop where
  position : s'.position = s.position + units.length
  fillp : s.position = s.fillp → s'.position = s'.fillp
  active : s.position = s.fillp → s'.active = s.active ++ units
  adjustable : s'.adjustable = s.adjustable
  writer : s'.writer = s.writer
  lineEnding : s'.lineEnding = s.lineEnding
  dim : ∃ k, s'.dim = 2 ^ k * s.dim ∧
    (k = 0 ∨ (s.adjustable = true ∧ 4 * s'.dim + 3 ≤ arrayDimensionLimit))

variable {s s' s'' : SequenceStream} {units units' : List ℕ} {format format' : ExternalFormat}
  {n m fuel : ℕ}

theorem Room.le (h : Room s n) (hm : m ≤ n) : Room s m := by
  obtain ⟨k, hroom, hlimit⟩ := h
  exact ⟨k, by omega, hlimit⟩

theorem Stored.refl (s : SequenceStream) : Stored s [] s where
  position := rfl
  fillp h := h
  active _ := (List.append_nil _).symm
  adjustable := rfl
  writer := rfl
  lineEnding := rfl
  dim := ⟨0, (Nat.one_mul _).symm, Or.inl rfl⟩

theorem Stored.trans (h : Stored s units s') (h' : Stored s' units' s'') :
    Stored s (units ++ units') s'' where
  position := by rw [h'.position, h.position, List.length_append, Nat.add_assoc]
  fillp hp := h'.fillp (h.fillp hp)
  active hp := by rw [h'.active (h.fillp hp), h.active hp, List.append_assoc]
  adjustable := h'.adjustable.trans h.adjustable
  writer := h'.writer.trans h.writer
  lineEnding := h'.lineEnding.trans h.lineEnding
  dim := by
    obtain ⟨k, hdim, hk⟩ := h.dim
    obtain ⟨j, hdim', hj⟩ := h'.dim
    refine ⟨j + k, by rw [hdim', hdim, pow_add, Nat.mul_assoc], ?_⟩
    rcases hj with rfl | hj
    · rcases hk with rfl | hk
      · exact Or.inl rfl
      · rw [pow_zero, Nat.one_mul] at hdim'
        exact Or.inr ⟨hk.1, hdim'.symm ▸ hk.2⟩
    · exact Or.inr ⟨h.adjustable ▸ hj.1, hj.2⟩

theorem Stored.room_iff (h : Stored s units s') (m : ℕ) :
    Room s' m ↔ Room s (units.length + m) := by
  obtain ⟨j, hdim, hj⟩ := h.dim
  constructor
  · rintro ⟨k, hroom, hk⟩
    have hpow : 2 ^ (k + j) * s.dim = 2 ^ k * s'.dim := by rw [hdim, pow_add, Nat.mul_assoc]
    refine ⟨k + j, ?_, ?_⟩
    · rw [hpow, ← Nat.add_assoc, ← h.position]
      exact hroom
    · rw [hpow]
      rcases hk with rfl | hk
      · rcases hj with rfl | hj
        · exact Or.inl rfl
        · rw [pow_zero, Nat.one_mul]
          exact Or.inr hj
      · exact Or.inr ⟨h.adjustable ▸ hk.1, hk.2⟩
  · rintro ⟨k, hroom, hk⟩
    rw [← Nat.add_assoc, ← h.position] at hroom
    by_cases hle : k ≤ j
    · refine ⟨0, ?_, Or.inl rfl⟩
      rw [pow_zero, Nat.one_mul, hdim]
      exact hroom.trans (Nat.mul_le_mul_right _ (Nat.pow_le_pow_right (by decide) hle))
    · have hpow : 2 ^ (k - j) * s'.dim = 2 ^ k * s.dim := by
        rw [hdim, ← Nat.mul_assoc, ← pow_add, Nat.sub_add_cancel (not_le.mp hle).le]
      refine ⟨k - j, by rw [hpow]; exact hroom, ?_⟩
      rw [hpow, h.adjustable]
      exact Or.inr (hk.resolve_left (by omega))

theorem stored_stored (h : s.position + units.length ≤ s.dim) :
    Stored s units (s.stored units h) where
  position := rfl
  fillp hp := by
    change s.position + units.length = max s.fillp (s.position + units.length)
    rw [← hp]
    exact (max_eq_right (Nat.le_add_right _ _)).symm
  active hp := by
    have hmax : max s.fillp (s.position + units.length) = s.position + units.length := by
      rw [← hp]
      exact max_eq_right (Nat.le_add_right _ _)
    change List.take (max s.fillp (s.position + units.length)) _ = s.self.take s.fillp ++ units
    rw [hmax, ← hp]
    apply List.take_left'
    rw [List.length_append, List.length_take_of_le s.position_le]
  adjustable := rfl
  writer := rfl
  lineEnding := rfl
  dim := by
    refine ⟨0, ?_, Or.inl rfl⟩
    change (s.self.take s.position ++ units ++ s.self.drop (s.position + units.length)).length =
      1 * s.self.length
    have hdim : s.position + units.length ≤ s.self.length := h
    simp only [List.length_append, List.length_take, List.length_drop]
    omega

theorem dim_lengthened (s : SequenceStream) (n : ℕ) : (s.lengthened n).dim = s.dim + n := by
  change (s.self ++ List.replicate n 0).length = s.self.length + n
  rw [List.length_append, List.length_replicate]

theorem enlarge_stored (h : seqOutEnlargeVector s = .ok s') :
    Stored s [] s' ∧ s'.dim = 2 * s.dim ∧ s'.format = s.format := by
  unfold seqOutEnlargeVector adjustVector at h
  split_ifs at h with hadjustable hlimit
  cases h
  have hdim : (s.lengthened (2 * s.dim - s.dim)).dim = 2 * s.dim := by
    rw [dim_lengthened]
    omega
  refine ⟨?_, hdim, rfl⟩
  constructor
  · rfl
  · exact id
  · intro _
    change List.take s.fillp (s.self ++ _) = s.self.take s.fillp ++ []
    rw [List.take_append_of_le_length s.fillp_le, List.append_nil]
  · rfl
  · rfl
  · rfl
  · refine ⟨1, by rw [hdim, pow_one], Or.inr ⟨Bool.eq_true_of_not_eq_false hadjustable, ?_⟩⟩
    rw [hdim]
    exact not_lt.mp hlimit

theorem enlarge_ok (hadjustable : s.adjustable = true)
    (hlimit : 4 * (2 * s.dim) + 3 ≤ arrayDimensionLimit) :
    ∃ s', seqOutEnlargeVector s = .ok s' := by
  refine ⟨s.lengthened (2 * s.dim - s.dim), ?_⟩
  unfold seqOutEnlargeVector adjustVector
  rw [if_neg (by simp [hadjustable]), if_neg (not_lt.mpr hlimit)]

structure Performs (s : SequenceStream)
    (run : ℕ → Option (Except OutputError SequenceStream)) (units : List ℕ)
    (format : ExternalFormat) : Prop where
  stored : ∀ {fuel s'}, run fuel = some (.ok s') → Stored s units s' ∧ s'.format = format
  room : ∀ {fuel s'}, run fuel = some (.ok s') → Room s units.length
  ends : Room s units.length → ∃ fuel s', ∀ more, run (fuel + more) = some (.ok s')

theorem writeUnits_ends (units : List ℕ) (h : Room s units.length) :
    ∃ fuel s', ∀ more, writeUnits units (fuel + more) s = some (.ok s') := by
  obtain ⟨k, hroom, hk⟩ := h
  induction k generalizing s with
  | zero =>
    rw [pow_zero, Nat.one_mul] at hroom
    refine ⟨1, s.stored units hroom, fun more => ?_⟩
    rw [Nat.add_comm, writeUnits, dif_pos hroom]
  | succ k ih =>
    by_cases hnow : s.position + units.length ≤ s.dim
    · refine ⟨1, s.stored units hnow, fun more => ?_⟩
      rw [Nat.add_comm, writeUnits, dif_pos hnow]
    · obtain ⟨hadjustable, hlimit⟩ := hk.resolve_left (Nat.succ_ne_zero k)
      have hpow : 2 ^ (k + 1) * s.dim = 2 ^ k * (2 * s.dim) := by
        rw [pow_succ, Nat.mul_assoc]
      rw [hpow] at hroom hlimit
      have hone : 2 * s.dim ≤ 2 ^ k * (2 * s.dim) := Nat.le_mul_of_pos_left _ (Nat.two_pow_pos k)
      obtain ⟨s', hs⟩ := enlarge_ok hadjustable (by omega)
      obtain ⟨hstored, hdim, -⟩ := enlarge_stored hs
      have hposition : s'.position = s.position := hstored.position
      obtain ⟨fuel, s'', hrun⟩ := ih (s := s') (by rw [hposition, hdim]; exact hroom)
        (Or.inr ⟨hstored.adjustable.trans hadjustable, by rw [hdim]; exact hlimit⟩)
      refine ⟨fuel + 1, s'', fun more => ?_⟩
      rw [Nat.add_right_comm, writeUnits, dif_neg hnow, hs]
      exact hrun more

theorem writeUnits_stored (units : List ℕ) (h : writeUnits units fuel s = some (.ok s')) :
    Stored s units s' ∧ s'.format = s.format ∧ Room s units.length := by
  induction fuel generalizing s with
  | zero => cases h
  | succ fuel ih =>
    rw [writeUnits] at h
    split_ifs at h with hroom
    · cases h
      exact ⟨stored_stored hroom, rfl, 0, by rw [pow_zero, Nat.one_mul]; exact hroom, Or.inl rfl⟩
    · cases hs : seqOutEnlargeVector s with
      | error e =>
        rw [hs] at h
        cases h
      | ok t =>
        rw [hs] at h
        obtain ⟨hdoubled, -, hformat⟩ := enlarge_stored hs
        obtain ⟨hrest, hformat', hroom'⟩ := ih h
        refine ⟨hdoubled.trans hrest, hformat'.trans hformat, ?_⟩
        have hiff := hdoubled.room_iff units.length
        rw [List.length_nil, Nat.zero_add] at hiff
        exact hiff.mp hroom'

theorem writeUnits_performs (s : SequenceStream) (units : List ℕ) :
    Performs s (fun fuel => writeUnits units fuel s) units s.format where
  stored h := ⟨(writeUnits_stored units h).1, (writeUnits_stored units h).2.1⟩
  room h := (writeUnits_stored units h).2.2
  ends h := writeUnits_ends units h

theorem performs_nil (s : SequenceStream) :
    Performs s (fun _ => some (.ok s)) [] s.format where
  stored h := by
    cases h
    exact ⟨Stored.refl s, rfl⟩
  room _ := ⟨0, by rw [pow_zero, Nat.one_mul]; exact s.position_le, Or.inl rfl⟩
  ends _ := ⟨0, s, fun _ => rfl⟩

theorem Performs.andThen {run : ℕ → Option (Except OutputError SequenceStream)}
    {next : ℕ → SequenceStream → Option (Except OutputError SequenceStream)}
    (h : Performs s run units format)
    (hnext : ∀ s', s'.writer = s.writer → s'.lineEnding = s.lineEnding → s'.format = format →
      Performs s' (next · s') units' format') :
    Performs s (fun fuel => andThen (run fuel) (next fuel)) (units ++ units') format' := by
  have hparts {fuel : ℕ} {s'' : SequenceStream}
      (hrun : SequenceOutput.andThen (run fuel) (next fuel) = some (.ok s'')) :
      ∃ s', run fuel = some (.ok s') ∧ next fuel s' = some (.ok s'') := by
    cases hfirst : run fuel with
    | none =>
      rw [hfirst] at hrun
      cases hrun
    | some r =>
      rw [hfirst] at hrun
      cases r with
      | error e => cases hrun
      | ok s' => exact ⟨s', rfl, hrun⟩
  have hafter {fuel : ℕ} {s' : SequenceStream} (hrun : run fuel = some (.ok s')) :
      Performs s' (next · s') units' format' := by
    obtain ⟨hstored, hformat⟩ := h.stored hrun
    exact hnext s' hstored.writer hstored.lineEnding hformat
  constructor
  · intro fuel s'' hrun
    obtain ⟨s', hfirst, hsecond⟩ := hparts hrun
    obtain ⟨hstored, hformat⟩ := (hafter hfirst).stored hsecond
    exact ⟨(h.stored hfirst).1.trans hstored, hformat⟩
  · intro fuel s'' hrun
    obtain ⟨s', hfirst, hsecond⟩ := hparts hrun
    rw [List.length_append]
    exact ((h.stored hfirst).1.room_iff _).mp ((hafter hfirst).room hsecond)
  · intro hroom
    rw [List.length_append] at hroom
    obtain ⟨fuel, s', hfirst⟩ := h.ends (hroom.le (Nat.le_add_right _ _))
    have hs' := hfirst 0
    obtain ⟨fuel', s'', hsecond⟩ := (hafter hs').ends (((h.stored hs').1.room_iff _).mpr hroom)
    refine ⟨fuel + fuel', s'', fun more => ?_⟩
    rw [Nat.add_assoc, hfirst, Nat.add_left_comm]
    exact hsecond (fuel + more)

theorem eclEformatWriteChar_performs {c : ℕ} {buffer : List UInt8}
    (h : encoder s.format c = some (buffer, format)) :
    Performs s (eclEformatWriteChar · s c) (buffer.map UInt8.toNat) format := by
  have hwrite := writeUnits_performs { s with format } (buffer.map UInt8.toNat)
  have heq (fuel : ℕ) : eclEformatWriteChar fuel s c =
      writeUnits (buffer.map UInt8.toNat) fuel { s with format } := by
    rw [eclEformatWriteChar, h]
    rfl
  have hstored {s' : SequenceStream} (hs : Stored { s with format } (buffer.map UInt8.toNat) s') :
      Stored s (buffer.map UInt8.toNat) s' :=
    ⟨hs.position, hs.fillp, hs.active, hs.adjustable, hs.writer, hs.lineEnding, hs.dim⟩
  simp only [heq]
  exact ⟨fun hrun => ⟨hstored (hwrite.stored hrun).1, (hwrite.stored hrun).2⟩,
    hwrite.room, hwrite.ends⟩

theorem eformatWriteChar_performs {c : ℕ} {buffer : List UInt8}
    (h : CharacterStreams.writeChar s.lineEnding s.format c = some (buffer, format)) :
    Performs s (eformatWriteChar · s c) (buffer.map UInt8.toNat) format := by
  unfold eformatWriteChar
  by_cases hnewline : c = 10
  · subst hnewline
    simp only [if_true]
    unfold CharacterStreams.writeChar at h
    rw [if_pos (by rfl)] at h
    cases hending : s.lineEnding with
    | lf | cr =>
      rw [hending] at h
      exact eclEformatWriteChar_performs h
    | crlf =>
      rw [hending] at h
      obtain ⟨e, hreturn, hrest⟩ := Option.bind_eq_some_iff.mp h
      obtain ⟨e', hlinefeed, heq⟩ := Option.map_eq_some_iff.mp hrest
      cases heq
      rw [List.map_append]
      apply (eclEformatWriteChar_performs hreturn).andThen
      intro s' _ _ hformat
      rw [← hformat] at hlinefeed
      exact eclEformatWriteChar_performs hlinefeed
  · have hne : ¬(c : ℤ) = charNewline := fun heq => hnewline (Int.ofNat.inj heq)
    unfold CharacterStreams.writeChar at h
    rw [if_neg hne] at h
    simp only [if_neg hnewline]
    exact eclEformatWriteChar_performs h

theorem writeChar_performs {c : ℕ}
    (h : encodeChar s.writer s.lineEnding s.format c = some (units, format)) :
    Performs s (writeChar · s c) units format := by
  unfold encodeChar at h
  split_ifs at h with hc
  unfold writeChar
  cases hwriter : s.writer with
  | eformat =>
    rw [hwriter] at h
    obtain ⟨e, he, heq⟩ := Option.map_eq_some_iff.mp h
    cases heq
    exact eformatWriteChar_performs he
  | ucs2 =>
    rw [hwriter] at h
    cases h
    rw [← ucs2Units_eq hc]
    exact writeUnits_performs s _
  | ucs4 =>
    rw [hwriter] at h
    cases h
    have hword : c % 2 ^ 32 = c := Nat.mod_eq_of_lt (hc.trans (by decide))
    simp only [seqOutUcs4WriteChar, hword]
    exact writeUnits_performs s _

theorem writeString_performs (string : List ℕ)
    (h : encodeString s.writer s.lineEnding s.format string = some (units, format)) :
    Performs s (writeString · s string) units format := by
  induction string generalizing s units with
  | nil =>
    cases h
    exact performs_nil s
  | cons c string ih =>
    obtain ⟨e, hchar, hrest⟩ := Option.bind_eq_some_iff.mp h
    obtain ⟨e', hstring, heq⟩ := Option.map_eq_some_iff.mp hrest
    cases heq
    apply (writeChar_performs hchar).andThen
    intro s' hwriter hending hformat
    apply ih
    rw [hwriter, hending, hformat]
    exact hstring

/-- Every write ends and the vector has the encodings behind what it had before, if and only if
the vector can be doubled until they have room. -/
theorem writeString_iff (v : OutputVector) (writer : Writer) (format : ExternalFormat)
    (lineEnding : LineEnding) {string units : List ℕ} {format' : ExternalFormat}
    (h : encodeString writer lineEnding format string = some (units, format')) :
    (∃ fuel s', writeString fuel (makeSequenceOutputStream v writer format lineEnding) string =
        some (.ok s') ∧ s'.active = v.active ++ units) ↔
      ∃ k, v.fillp + units.length ≤ 2 ^ k * v.dim ∧
        (k = 0 ∨ (v.adjustable = true ∧ 4 * (2 ^ k * v.dim) + 3 ≤ arrayDimensionLimit)) := by
  have hperforms := writeString_performs (s := makeSequenceOutputStream v writer format lineEnding)
    string h
  constructor
  · rintro ⟨fuel, s', hrun, -⟩
    exact hperforms.room hrun
  · intro hroom
    obtain ⟨fuel, s', hrun⟩ := hperforms.ends hroom
    exact ⟨fuel, s', hrun 0, (hperforms.stored (hrun 0)).1.active rfl⟩

theorem writeString_iff_surrogates :
    ∃ fuel s', writeString fuel (makeSequenceOutputStream ⟨[7, 8], 1, by decide, true⟩ .ucs2 .ucs2
        .lf) [65, 66560] = some (.ok s') ∧ s'.active = [7] ++ [65, 55297, 56320] :=
  (writeString_iff ⟨[7, 8], 1, by decide, true⟩ .ucs2 .ucs2 .lf rfl).mpr
    ⟨1, by decide, Or.inr ⟨rfl, by decide⟩⟩

theorem writeUnits_endless (hdim : s.dim = 0) (hadjustable : s.adjustable = true)
    (hunits : units ≠ []) (fuel : ℕ) : writeUnits units fuel s = none := by
  induction fuel generalizing s with
  | zero => rfl
  | succ fuel ih =>
    have hlength := List.length_pos_of_ne_nil hunits
    obtain ⟨s', hs⟩ := enlarge_ok hadjustable (by rw [hdim]; decide)
    obtain ⟨hstored, hdouble, -⟩ := enlarge_stored hs
    rw [writeUnits, dif_neg (by omega), hs]
    exact ih (by rw [hdouble, hdim]) (hstored.adjustable.trans hadjustable)

/-- A character for a vector of octets without elements: the loop does not end. -/
theorem empty_vector_endless :
    encodeString .eformat .lf .latin1 [65] = some ([65], .latin1) ∧
    ∀ fuel, writeString fuel (makeSequenceOutputStream ⟨[], 0, by decide, true⟩ .eformat .latin1
      .lf) [65] = none := by
  refine ⟨rfl, fun fuel => ?_⟩
  have hnone : writeUnits [65] fuel (makeSequenceOutputStream ⟨[], 0, by decide, true⟩ .eformat
      .latin1 .lf) = none := writeUnits_endless rfl rfl (by decide) fuel
  exact congrArg (fun r => andThen r (writeString fuel · [])) hnone

end SequenceOutput
