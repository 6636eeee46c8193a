import Ecl.BinaryStreams
import Ecl.CharacterStreams
import Ecl.Runs

/-! File streams of src/c/streams/strm_os.d over a system that transfers fewer octets than a
call of read or write offers. -/
namespace SplitTransfers

open ExternalFormats IncrementalDecoding CharacterStreams CharacterVectors

/-- How many octets a call transfers: its number, and how many it is called for. -/
abbrev System := ℕ → ℕ → ℕ

def granted (system : System) (call n : ℕ) : ℕ := min n (max 1 (system call n))

theorem granted_le (system : System) (call n : ℕ) : granted system call n ≤ n :=
  Nat.min_le_left _ _

theorem granted_pos (system : System) (call : ℕ) {n : ℕ} (hn : 0 < n) :
    0 < granted system call n := by
  rw [granted]
  omega

/-- The calls made so far, and whether one of them transferred less than it could have. -/
structure Calls where
  made : ℕ
  cut : Bool
  deriving DecidableEq

def Calls.next (k : Calls) (short : Bool) : Calls := ⟨k.made + 1, k.cut || short⟩

def Calls.start (k : Calls) : Calls := { k with cut := false }

section
open BinaryStreams

/-- io_file_read_byte8 without unread octets, and output_file_write_byte8. -/
def splitOps (system : System) : ByteOps (File × Calls) where
  readByte8 m n :=
    let read := fileOps.readByte8 m.1 (granted system m.2.made n)
    (read.1, read.2, m.2.next (read.1.length < (fileOps.readByte8 m.1 n).1.length))
  writeByte8 m c :=
    let wrote := fileOps.writeByte8 m.1 (c.take (granted system m.2.made c.length))
    (wrote.1, wrote.2, m.2.next (wrote.1 < c.length))

/-- memory is for a vector of n octets or machine words, of the size of the elements. -/
inductive BinaryRead where
  | byte
  | memory (size n : ℕ)
  deriving DecidableEq

/-- No element is the end of the file. Of memory, the octets of count elements are valid. -/
inductive BinaryReply where
  | element (x : Option Integers.Integer)
  | memory (n count : ℕ) (octets : List UInt8)

def BinaryReply.atEnd : BinaryReply → Bool
  | .element x => x.isNone
  | .memory n count _ => count < n

variable {σ : Type} (ops : ByteOps σ)

/-- The first two branches of io_file_read_vector. -/
def readMemory (size n : ℕ) (medium : σ) : BinaryReply × σ :=
  if n = 0 then (.memory 0 0 [], medium)
  else
    let read := ops.readByte8 medium (n * size)
    let count := read.1.length / size
    (.memory n count (read.1.take (count * size)), read.2)

def binaryRead (op : BinaryRead) (s : BinaryStreams.Stream × σ) :
    BinaryReply × BinaryStreams.Stream × σ :=
  match op with
  | .byte =>
    let read := binaryReadByte ops s.1 s.2
    (.element read.1, read.2)
  | .memory size n =>
    let read := readMemory ops size n s.2
    (read.1, s.1, read.2)

end

def splitBinaryRead (system : System) (op : BinaryRead)
    (s : BinaryStreams.Stream × BinaryStreams.File × Calls) :
    BinaryReply × BinaryStreams.Stream × BinaryStreams.File × Calls :=
  binaryRead (splitOps system) op (s.1, s.2.1, s.2.2.start)

section
variable (system : System) (handler : Handler)

/-- io_file_read_byte8: consume_byte_stack makes a call only where the stack ends. -/
def readByte8 (k : Calls) (s : Stream) (n : ℕ) : (List UInt8 × Stream) × Calls :=
  if n ≤ s.byteStack.length then (s.readByte8 n, k)
  else
    let stacked := s.byteStack.length
    let read := s.readByte8 (stacked + granted system k.made (n - stacked))
    (read, k.next (read.1.length < (s.readByte8 n).1.length))

def splitReadCharLoop : ℕ → Calls → Stream → List UInt8 → ReadResult × Calls
  | 0, k, s, _ => (.eof s, k)
  | n + 1, k, s, pending =>
    let size := s.kind.unit s.format
    let read := readByte8 system k s size
    let octets := read.1.1
    let s' := read.1.2
    if octets.length < size then (.eof s', read.2)
    else match decoder handler s.format (pending ++ octets) with
      | .more format rest => splitReadCharLoop n read.2 { s' with format := format } rest
      | .item c format rest =>
        if c = eof then splitReadCharLoop n read.2 { s' with format := format } rest
        else (.char c { s' with format := format }, read.2)
      | .stop octets => (.unwind octets, read.2)

def splitEformatReadChar (k : Calls) (s : Stream) : ReadResult × Calls :=
  splitReadCharLoop system handler (encodingBufferMaxSize / s.kind.unit s.format) k
    { s with lastChar := eof } []

def splitReadChar (k : Calls) (s : Stream) : ReadResult × Calls :=
  let read := splitEformatReadChar system handler k s
  match s.lineEnding, read.1 with
  | .cr, .char c s' => (.char (if c = charReturn then charNewline else c) s', read.2)
  | .crlf, .char c s' =>
    if c = charReturn then
      let next := splitEformatReadChar system handler read.2 s'
      (lookAhead next.1, next.2)
    else (.char c s', read.2)
  | _, _ => read

variable (seekable : Bool)

def splitFetchChar (minNeeded : ℕ) : ℕ → Calls → FileReader → Fetched × Calls
  | 0, k, _ => (.eof, k)
  | n + 1, k, r =>
    let more (r : FileReader) : Fetched × Calls :=
      let read := readByte8 system k r.stream (neededBytes seekable minNeeded)
      if read.1.1 = [] then (.eof, read.2)
      else splitFetchChar minNeeded n read.2 (r.refill read.1.1 read.1.2)
    match decoder handler r.stream.format r.pending with
    | .more format rest => more (r.decoded format rest)
    | .item c format rest =>
      if c = eof then more (r.decoded format rest)
      else (.char c r.pos (r.decoded format rest), k)
    | .stop octets => (.unwind octets, k)

/-- The end of io_file_decode_char_from_buffer for a return in CRLF mode. -/
def pairReturn : Fetched → Decoding
  | .char c previous r =>
    if c = charLinefeed then .char charNewline r
    else .char charReturn { r with pos := previous }
  | .eof => .eof
  | .unwind octets => .unwind octets

def splitDecodeChar (minNeeded : ℕ) (k : Calls) (r : FileReader) : Decoding × Calls :=
  let fetched := splitFetchChar system handler seekable minNeeded
    (r.stream.remaining.length + 1) k r
  match fetched.1 with
  | .char c _ r' =>
    if c = charReturn then
      match r'.stream.lineEnding with
      | .lf => (.char c r', fetched.2)
      | .cr => (.char charNewline r', fetched.2)
      | .crlf =>
        let next := splitFetchChar system handler seekable minNeeded
          (r'.stream.remaining.length + 1) fetched.2 r'
        (pairReturn next.1, next.2)
    else (.char c r', fetched.2)
  | .eof => (.eof, fetched.2)
  | .unwind octets => (.unwind octets, fetched.2)

def splitVectorLoop : ℕ → Calls → FileReader → Stored × Calls
  | 0, k, r => (⟨[], none, some r⟩, k)
  | n + 1, k, r =>
    let decoded := splitDecodeChar system handler seekable
      ((n + 1) * byteSize r.stream.format) k r
    match decoded.1 with
    | .char c r' =>
      let stored := splitVectorLoop n decoded.2 r'
      ({ stored.1 with items := c :: stored.1.items }, stored.2)
    | .eof => (⟨[], none, none⟩, decoded.2)
    | .unwind octets => (⟨[], some octets, none⟩, decoded.2)

end

inductive CharacterRead where
  | char
  | vector (n : ℕ)
  deriving DecidableEq

/-- ended tells that the end of the file was reached; unwound are the octets of a decoding error
that ended the reading. -/
structure CharacterReply where
  items : List ℤ
  ended : Bool
  unwound : Option (List UInt8)
  deriving DecidableEq

def CharacterReply.stops (r : CharacterReply) : Bool := r.ended || r.unwound.isSome

def charReply : ReadResult → Stream → CharacterReply × Stream
  | .char c s, _ => (⟨[c], false, none⟩, s)
  | .eof s, _ => (⟨[], true, none⟩, s)
  | .unwind octets, s => (⟨[], false, some octets⟩, s)

def vectorReply (seekable : Bool) (stored : Stored) (s : Stream) : CharacterReply × Stream :=
  (⟨stored.items, stored.reader.isNone && stored.ending.isNone, stored.ending⟩,
    stored.reader.elim s (destroyReader seekable))

def characterRead (handler : Handler) (seekable : Bool) (op : CharacterRead) (s : Stream) :
    CharacterReply × Stream :=
  match op with
  | .char => charReply (readChar handler s) s
  | .vector n =>
    if n = 0 then (⟨[], false, none⟩, s)
    else vectorReply seekable (readVectorLoop handler seekable n ⟨s, [], 0⟩) s

def splitCharacterRead (system : System) (handler : Handler) (seekable : Bool)
    (op : CharacterRead) (s : Stream × Calls) : CharacterReply × Stream × Calls :=
  match op with
  | .char =>
    let read := splitReadChar system handler s.2.start s.1
    let reply := charReply read.1 s.1
    (reply.1, reply.2, read.2)
  | .vector n =>
    if n = 0 then (⟨[], false, none⟩, s.1, s.2.start)
    else
      let read := splitVectorLoop system handler seekable n s.2.start ⟨s.1, [], 0⟩
      let reply := vectorReply seekable read.1 s.1
      (reply.1, reply.2, read.2)

/-- memory is a vector of octets or machine words, and string a vector of characters. -/
inductive Write where
  | byte (x : Integers.Integer)
  | memory (octets : List UInt8)
  | char (c : ℤ)
  | string (cs : List ℤ)

structure Output where
  binary : BinaryStreams.Stream
  format : ExternalFormat
  lineEnding : LineEnding

/-- The calls of write_byte8 that write-char makes. -/
def writeCharCalls (lineEnding : LineEnding) (format : ExternalFormat) (c : ℤ) :
    Option (List (List UInt8) × ExternalFormat) :=
  if c = charNewline ∧ lineEnding = .crlf then
    (encoder format charReturn).bind fun e =>
      (encoder e.2 charLinefeed).map fun e' => ([e.1, e'.1], e'.2)
  else (writeChar lineEnding format c).map fun e => ([e.1], e.2)

/-- The loop of io_file_write_vector: the buffer is written when it is full, and at the end. An
encoding error leaves it as it is. -/
def writeVectorCalls (lineEnding : LineEnding) :
    ExternalFormat → List UInt8 → List ℤ → List (List UInt8) × ExternalFormat
  | format, buffer, [] => ([buffer], format)
  | format, buffer, c :: cs =>
    match writeChar lineEnding format c with
    | none => ([], format)
    | some e =>
      let buffer := buffer ++ e.1
      if vectorEncodingBufferSize ≤ buffer.length then
        let calls := writeVectorCalls lineEnding e.2 [] cs
        (buffer :: calls.1, calls.2)
      else writeVectorCalls lineEnding e.2 buffer cs

/-- The calls of write_byte8 of an operation; one that signals an error makes no more of them. -/
def writeCalls (s : Output) : Write → List (List UInt8) × Output
  | .byte x =>
    match s.binary.byteEncoder x with
    | .ok buf =>
      ([buf.take (s.binary.byteSize / 8)], { s with binary := { s.binary with byteBuffer := buf } })
    | .error _ => ([], s)
  | .memory octets => (if octets = [] then [] else [octets], s)
  | .char c =>
    (writeCharCalls s.lineEnding s.format c).elim ([], s)
      fun calls => (calls.1, { s with format := calls.2 })
  | .string cs =>
    if cs = [] then ([], s)
    else
      let calls := writeVectorCalls s.lineEnding s.format [] cs
      (calls.1, { s with format := calls.2 })

def allCalls : Output → List Write → List (List UInt8)
  | _, [] => []
  | s, w :: ws => (writeCalls s w).1 ++ allCalls (writeCalls s w).2 ws

/-- No caller looks at the answer of write_byte8. -/
def performCalls {σ : Type} (ops : BinaryStreams.ByteOps σ) (medium : σ)
    (calls : List (List UInt8)) : σ :=
  calls.foldl (fun medium c => (ops.writeByte8 medium c).2) medium

end SplitTransfers

namespace SplitWriting

open BinaryStreams SplitTransfers CharacterStreams CharacterVectors ExternalFormats

def written (f : File) (octets : List UInt8) : File := (fileOps.writeByte8 f octets).2

theorem written_position (f : File) (octets : List UInt8) :
    (written f octets).position = f.position + octets.length := rfl

theorem written_nil {f : File} (hf : f.position ≤ f.content.length) : written f [] = f := by
  obtain ⟨content, position⟩ := f
  simp only [written, fileOps, List.append_nil, List.length_nil, Nat.add_zero,
    List.take_append_drop]

theorem written_length {f : File} (hf : f.position ≤ f.content.length) (octets : List UInt8) :
    (written f octets).position ≤ (written f octets).content.length := by
  simp only [written, fileOps, List.length_append, List.length_take, List.length_drop]
  omega

theorem written_written {f : File} (hf : f.position ≤ f.content.length) (a b : List UInt8) :
    written (written f a) b = written f (a ++ b) := by
  have htake : (f.content.take f.position).length = f.position := by
    rw [List.length_take]
    omega
  simp only [written, fileOps, File.mk.injEq]
  refine ⟨?_, by rw [List.length_append, Nat.add_assoc]⟩
  rw [List.append_assoc (f.content.take f.position), List.take_append, List.drop_append,
    List.take_of_length_le (by omega), htake, Nat.add_sub_cancel_left, List.take_append,
    List.take_of_length_le (Nat.le_refl _), Nat.sub_self, List.take_zero, List.append_nil,
    List.drop_of_length_le (l := f.content.take f.position) (by omega), List.nil_append,
    List.drop_append, List.drop_of_length_le (l := a) (by omega), List.nil_append, List.drop_drop,
    List.length_append]
  simp only [List.append_assoc]
  congr 4
  omega

variable {system : System}

theorem splitOps_write (m : File × Calls) (c : List UInt8) :
    ((splitOps system).writeByte8 m c).2 =
      (written m.1 (c.take (granted system m.2.made c.length)),
        m.2.next (granted system m.2.made c.length < c.length)) := by
  have hle := granted_le system m.2.made c.length
  have hlen : (c.take (granted system m.2.made c.length)).length =
      granted system m.2.made c.length := by
    rw [List.length_take]
    omega
  simp only [splitOps, written, fileOps, hlen]

theorem performCalls_cons {σ : Type} (ops : ByteOps σ) (m : σ) (c : List UInt8)
    (calls : List (List UInt8)) :
    performCalls ops m (c :: calls) = performCalls ops (ops.writeByte8 m c).2 calls := rfl

theorem cut_stays (calls : List (List UInt8)) : ∀ m : File × Calls, m.2.cut = true →
    (performCalls (splitOps system) m calls).2.cut = true := by
  induction calls with
  | nil => exact fun m h => h
  | cons c calls ih =>
    intro m h
    rw [performCalls_cons, splitOps_write]
    exact ih _ (by simp [Calls.next, h])

theorem performCalls_position (calls : List (List UInt8)) : ∀ m : File × Calls,
    (performCalls (splitOps system) m calls).1.position ≤ m.1.position + calls.flatten.length ∧
    ((performCalls (splitOps system) m calls).1.position = m.1.position + calls.flatten.length →
      m.2.cut = false → (performCalls (splitOps system) m calls).2.cut = false) := by
  induction calls with
  | nil => exact fun m => ⟨Nat.le_refl _, fun _ h => h⟩
  | cons c calls ih =>
    intro m
    have hle := granted_le system m.2.made c.length
    rw [performCalls_cons, splitOps_write]
    obtain ⟨hpos, hcut⟩ := ih (written m.1 (c.take (granted system m.2.made c.length)),
      m.2.next (granted system m.2.made c.length < c.length))
    simp only [written_position, List.length_take] at hpos hcut
    rw [List.flatten_cons, List.length_append]
    refine ⟨by omega, fun hend hm => hcut (by omega) ?_⟩
    have hwhole : ¬ granted system m.2.made c.length < c.length := by omega
    simp [Calls.next, hm, hwhole]

theorem performCalls_whole (calls : List (List UInt8)) : ∀ m : File × Calls,
    m.1.position ≤ m.1.content.length →
    (performCalls (splitOps system) m calls).2.cut = false →
    (performCalls (splitOps system) m calls).1 = written m.1 calls.flatten := by
  induction calls with
  | nil => exact fun m hm _ => (written_nil hm).symm
  | cons c calls ih =>
    intro m hm hcut
    rw [performCalls_cons, splitOps_write] at hcut ⊢
    have hwhole : ¬ granted system m.2.made c.length < c.length := by
      intro hlt
      have := @cut_stays system calls
        (written m.1 (c.take (granted system m.2.made c.length)),
          m.2.next (granted system m.2.made c.length < c.length)) (by simp [Calls.next, hlt])
      rw [hcut] at this
      cases this
    have htake : c.take (granted system m.2.made c.length) = c :=
      List.take_of_length_le (by omega)
    rw [htake] at hcut ⊢
    rw [ih _ (written_length hm c) hcut, written_written hm, List.flatten_cons]

theorem performCalls_iff {m : File × Calls} (hm : m.1.position ≤ m.1.content.length)
    (hcut : m.2.cut = false) (calls : List (List UInt8)) :
    (performCalls (splitOps system) m calls).1 = written m.1 calls.flatten ↔
      (performCalls (splitOps system) m calls).2.cut = false := by
  refine ⟨fun h => (performCalls_position calls m).2 ?_ hcut, performCalls_whole calls m hm⟩
  rw [h, written_position]

theorem writeCharCalls_flatten {lineEnding : LineEnding} {format format' : ExternalFormat} {c : ℤ}
    {octets : List UInt8} (h : writeChar lineEnding format c = some (octets, format')) :
    ∃ calls, writeCharCalls lineEnding format c = some (calls, format') ∧
      calls.flatten = octets := by
  by_cases hc : c = charNewline ∧ lineEnding = .crlf
  · obtain ⟨rfl, rfl⟩ := hc
    rw [writeChar, if_pos rfl] at h
    obtain ⟨e, he, h⟩ := Option.bind_eq_some_iff.1 h
    obtain ⟨e', he', h⟩ := Option.map_eq_some_iff.1 h
    refine ⟨[e.1, e'.1], ?_, ?_⟩
    · rw [writeCharCalls, if_pos ⟨rfl, rfl⟩, he, Option.bind_some, he']
      rw [Option.map_some, (Prod.mk.inj h).2]
    · rw [← (Prod.mk.inj h).1]
      simp
  · refine ⟨[octets], ?_, by simp⟩
    rw [writeCharCalls, if_neg hc, h]
    rfl

theorem writeVectorCalls_flatten {lineEnding : LineEnding} (cs : List ℤ) :
    ∀ {format : ExternalFormat} {octets : List UInt8} (buffer : List UInt8),
      writeString lineEnding format cs = some octets →
      (writeVectorCalls lineEnding format buffer cs).1.flatten = buffer ++ octets := by
  induction cs with
  | nil =>
    intro format octets buffer h
    cases h
    simp [writeVectorCalls]
  | cons c cs ih =>
    intro format octets buffer h
    rw [writeString] at h
    obtain ⟨e, he, h⟩ := Option.bind_eq_some_iff.1 h
    obtain ⟨rest, hrest, rfl⟩ := Option.map_eq_some_iff.1 h
    simp only [writeVectorCalls, he]
    split_ifs
    · rw [List.flatten_cons, ih [] hrest]
      simp
    · rw [ih _ hrest, List.append_assoc]

end SplitWriting
