import Ecl.ExternalFormats

/-! Character streams over octets: file streams of src/c/streams/strm_os.d and sequence streams
of src/c/streams/strm_sequence.d, with read-char and write-char of
src/c/streams/strm_eformat.d. -/
namespace CharacterStreams

open ExternalFormats IncrementalDecoding

/-- ECL_STREAM_LF, ECL_STREAM_CR and both. -/
inductive LineEnding where
  | lf | cr | crlf
  deriving DecidableEq

/-- position counts the octets of the file or of the vector up to its limit; byteStack holds
octets that were unread from a file, and lastChar is EOF or the character that was. Only an
unread that goes too far makes a position negative. -/
structure Stream where
  kind : StreamKind
  content : List UInt8
  position : ℤ
  byteStack : List UInt8
  format : ExternalFormat
  lineEnding : LineEnding
  lastChar : ℤ
  deriving DecidableEq

def openInput (kind : StreamKind) (format : ExternalFormat) (lineEnding : LineEnding)
    (content : List UInt8) : Stream :=
  { kind, content, position := 0, byteStack := [], format, lineEnding, lastChar := eof }

namespace Stream

/-- consume_byte_stack goes on with the file where the stack ends. -/
def readByte8 (s : Stream) (n : ℕ) : List UInt8 × Stream :=
  let stacked := s.byteStack.take n
  let read := (s.content.drop s.position.toNat).take (n - stacked.length)
  (stacked ++ read,
    { s with byteStack := s.byteStack.drop n, position := s.position + read.length })

def remaining (s : Stream) : List UInt8 := s.byteStack ++ s.content.drop s.position.toNat

def here (s : Stream) : ℤ := s.position - s.byteStack.length

def skip (s : Stream) (n : ℕ) : Stream := (s.readByte8 n).2

end Stream

/-- unwind carries the octets that decoding-error was called with. -/
inductive ReadResult where
  | char (c : ℤ) (s : Stream)
  | eof (s : Stream)
  | unwind (octets : List UInt8)
  deriving DecidableEq

section
variable (handler : Handler)

/-- n more units fit into the buffer of the stream, and pending is what is in it. A decoder that
returns EOF may have consumed octets. -/
def readCharLoop : ℕ → Stream → List UInt8 → ReadResult
  | 0, s, _ => .eof s
  | n + 1, s, pending =>
    let size := s.kind.unit s.format
    let octets := (s.readByte8 size).1
    let s' := (s.readByte8 size).2
    if octets.length < size then .eof s'
    else match decoder handler s.format (pending ++ octets) with
      | .more format rest => readCharLoop n { s' with format := format } rest
      | .item c format rest =>
        if c = eof then readCharLoop n { s' with format := format } rest
        else .char c { s' with format := format }
      | .stop octets => .unwind octets

def eformatReadChar (s : Stream) : ReadResult :=
  readCharLoop handler (encodingBufferMaxSize / s.kind.unit s.format) { s with lastChar := eof } []

def eformatReadCharCr (s : Stream) : ReadResult :=
  match eformatReadChar handler s with
  | .char c s' => .char (if c = charReturn then charNewline else c) s'
  | out => out

/-- The end of eformat_read_char_crlf for a return, given what the second read finds. Another
character than a linefeed goes to lastChar, which the read has just emptied. -/
def lookAhead : ReadResult → ReadResult
  | .char c s =>
    if c = charLinefeed then .char charNewline s else .char charReturn { s with lastChar := c }
  | .eof s => .char charReturn { s with lastChar := eof }
  | .unwind octets => .unwind octets

def eformatReadCharCrlf (s : Stream) : ReadResult :=
  match eformatReadChar handler s with
  | .char c s' => if c = charReturn then lookAhead (eformatReadChar handler s') else .char c s'
  | out => out

def readChar (s : Stream) : ReadResult :=
  match s.lineEnding with
  | .lf => eformatReadChar handler s
  | .cr => eformatReadCharCr handler s
  | .crlf => eformatReadCharCrlf handler s

def readChars : ℕ → Stream → Text ℤ (List UInt8)
  | 0, _ => ⟨[], none⟩
  | n + 1, s => match readChar handler s with
    | .char c s' => (readChars n s').cons c
    | .eof _ => ⟨[], none⟩
    | .unwind octets => ⟨[], some octets⟩

def readAll (s : Stream) : Text ℤ (List UInt8) := readChars handler (s.remaining.length + 1) s

end

def writeChar (lineEnding : LineEnding) (format : ExternalFormat) (c : ℤ) :
    Option (List UInt8 × ExternalFormat) :=
  if c = charNewline then
    match lineEnding with
    | .lf => encoder format c
    | .cr => encoder format charReturn
    | .crlf => (encoder format charReturn).bind fun e =>
      (encoder e.2 charLinefeed).map fun e' => (e.1 ++ e'.1, e'.2)
  else encoder format c

/-- None as soon as a character has no encoding. -/
def writeString (lineEnding : LineEnding) : ExternalFormat → List ℤ → Option (List UInt8)
  | _, [] => some []
  | format, c :: string => (writeChar lineEnding format c).bind fun e =>
    (writeString lineEnding e.2 string).map (e.1 ++ ·)

namespace Stream

theorem skip_position_nonneg {s : Stream} (h : 0 ≤ s.position) (n : ℕ) :
    0 ≤ (s.skip n).position :=
  Int.add_nonneg h (Int.natCast_nonneg _)

theorem readByte8_fst (s : Stream) (n : ℕ) : (s.readByte8 n).1 = s.remaining.take n := by
  rw [readByte8, remaining, List.take_append, List.length_take]
  by_cases h : n ≤ s.byteStack.length
  · rw [Nat.min_eq_left h, Nat.sub_self, Nat.sub_eq_zero_of_le h]
  · rw [Nat.min_eq_right (by omega)]

theorem remaining_skip {s : Stream} (h : 0 ≤ s.position) (n : ℕ) :
    (s.skip n).remaining = s.remaining.drop n := by
  have htoNat : ∀ m : ℕ, (s.position + m).toNat = s.position.toNat + m := by
    intro m
    omega
  rw [skip, readByte8, remaining, remaining]
  simp only [htoNat, List.length_take, List.drop_append, ← List.drop_drop]
  congr 1
  by_cases hn : n ≤ s.byteStack.length
  · rw [Nat.min_eq_left hn, Nat.sub_self, Nat.zero_min, Nat.sub_eq_zero_of_le hn]
  · rw [Nat.min_eq_right (a := n) (by omega)]
    by_cases hlen : n - s.byteStack.length ≤ (s.content.drop s.position.toNat).length
    · rw [Nat.min_eq_left hlen]
    · rw [Nat.min_eq_right (by omega), List.drop_of_length_le (Nat.le_refl _),
        List.drop_of_length_le (by omega)]

theorem here_skip {s : Stream} {n : ℕ} (hn : n ≤ s.remaining.length) :
    (s.skip n).here = s.here + n := by
  have hlen : s.remaining.length =
      s.byteStack.length + (s.content.length - s.position.toNat) := by
    rw [remaining, List.length_append, List.length_drop]
  simp only [here, skip, readByte8, List.length_take, List.length_drop]
  omega

end Stream
end CharacterStreams

namespace CharacterVectors

open ExternalFormats IncrementalDecoding CharacterStreams

/-- VECTOR_ENCODING_BUFFER_SIZE. -/
def vectorEncodingBufferSize : ℕ := 2048

/-- The local buffer of io_file_read_vector up to buffer_end, and where buffer_pos is in it. -/
structure FileReader where
  stream : Stream
  buffer : List UInt8
  pos : ℕ

namespace FileReader

def pending (r : FileReader) : List UInt8 := r.buffer.drop r.pos

def decoded (r : FileReader) (format : ExternalFormat) (rest : List UInt8) : FileReader :=
  { r with stream := { r.stream with format := format }, pos := r.buffer.length - rest.length }

def refill (r : FileReader) (octets : List UInt8) (stream : Stream) : FileReader :=
  { stream, buffer := r.pending ++ octets, pos := 0 }

end FileReader

/-- previous is the position of the buffer before the decoder found the character. -/
inductive Fetched where
  | char (c : ℤ) (previous : ℕ) (r : FileReader)
  | eof
  | unwind (octets : List UInt8)

inductive Decoding where
  | char (c : ℤ) (r : FileReader)
  | eof
  | unwind (octets : List UInt8)

section
variable (handler : Handler) (seekable : Bool)

def neededBytes (minNeeded : ℕ) : ℕ :=
  if !seekable ∧ minNeeded < vectorEncodingBufferSize then minNeeded
  else vectorEncodingBufferSize

/-- The decoder is called again until it finds a character or the file ends; every round reads
an octet at least. -/
def fetchChar (minNeeded : ℕ) : ℕ → FileReader → Fetched
  | 0, _ => .eof
  | n + 1, r =>
    let more (r : FileReader) : Fetched :=
      let read := r.stream.readByte8 (neededBytes seekable minNeeded)
      if read.1 = [] then .eof else fetchChar minNeeded n (r.refill read.1 read.2)
    match decoder handler r.stream.format r.pending with
    | .more format rest => more (r.decoded format rest)
    | .item c format rest =>
      if c = eof then more (r.decoded format rest)
      else .char c r.pos (r.decoded format rest)
    | .stop octets => .unwind octets

/-- io_file_decode_char_from_buffer. A return sets crlf and fetches again, and another character
than a linefeed is put back into the buffer. -/
def decodeCharFromBuffer (minNeeded : ℕ) (r : FileReader) : Decoding :=
  match fetchChar handler seekable minNeeded (r.stream.remaining.length + 1) r with
  | .char c _ r' =>
    if c = charReturn then
      match r'.stream.lineEnding with
      | .lf => .char c r'
      | .cr => .char charNewline r'
      | .crlf =>
        match fetchChar handler seekable minNeeded (r'.stream.remaining.length + 1) r' with
        | .char c' previous r'' =>
          if c' = charLinefeed then .char charNewline r''
          else .char charReturn { r'' with pos := previous }
        | .eof => .eof
        | .unwind octets => .unwind octets
    else .char c r'
  | .eof => .eof
  | .unwind octets => .unwind octets

structure Stored where
  items : List ℤ
  ending : Option (List UInt8)
  reader : Option FileReader

def readVectorLoop : ℕ → FileReader → Stored
  | 0, r => ⟨[], none, some r⟩
  | n + 1, r =>
    match decodeCharFromBuffer handler seekable ((n + 1) * byteSize r.stream.format) r with
    | .char c r' =>
      let stored := readVectorLoop n r'
      { stored with items := c :: stored.items }
    | .eof => ⟨[], none, none⟩
    | .unwind octets => ⟨[], some octets, none⟩

end

/-- ecl_file_position of a file, in units of the format. -/
def filePosition (s : Stream) : ℤ := s.here / byteSize s.format

def setFilePosition (s : Stream) (position : ℤ) : Stream :=
  { s with position := position * byteSize s.format, byteStack := [] }

/-- ECL_FILE_READ_BUFFER_DESTROY. -/
def destroyReader (seekable : Bool) (r : FileReader) : Stream :=
  if seekable then
    setFilePosition r.stream (filePosition r.stream -
      ((r.buffer.length - r.pos) / byteSize r.stream.format : ℕ))
  else r.stream

/-- The vector gets n characters, or fewer at the end of the file; what the stream is like after
that is left out. -/
def readVector (handler : Handler) (seekable : Bool) (n : ℕ) (s : Stream) :
    Text ℤ (List UInt8) × Option Stream :=
  if n = 0 then (⟨[], none⟩, some s)
  else
    let stored := readVectorLoop handler seekable n ⟨s, [], 0⟩
    (⟨stored.items, stored.ending⟩, stored.reader.map (destroyReader seekable))

def readChunks (handler : Handler) (seekable : Bool) : List ℕ → Stream → Text ℤ (List UInt8)
  | [], _ => ⟨[], none⟩
  | n :: sizes, s =>
    let read := readVector handler seekable n s
    read.2.elim read.1 fun s' =>
      let rest := readChunks handler seekable sizes s'
      ⟨read.1.items ++ rest.items, rest.ending⟩

end CharacterVectors
