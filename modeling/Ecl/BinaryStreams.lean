import Ecl.ExternalFormats
import Ecl.LogicalOperations
import Ecl.OctetWords

/-! Elements of binary streams: src/c/streams/strm_binary.d, and the coders that
ecl_set_stream_elt_type of src/c/streams/strm_eformat.d gives a stream without an
external format. -/
namespace BinaryStreams

open Integers LogicalOperations OctetWords
open ExternalFormats (encodingBufferMaxSize)

structure ElementType where
  signed : Bool
  size : ℕ
  deriving DecidableEq

def ElementType.Contains (t : ElementType) (z : ℤ) : Prop := OctetWords.Contains t.signed t.size z

instance (t : ElementType) (z : ℤ) : Decidable (t.Contains z) :=
  inferInstanceAs (Decidable (OctetWords.Contains _ _ _))

/-- FEwrong_type_argument. -/
structure WrongType where
  expected : ElementType
  datum : Integer
  deriving DecidableEq

/-- ops->read_byte8 and ops->write_byte8; the latter tells how many octets it took. -/
structure ByteOps (σ : Type*) where
  readByte8 : σ → ℕ → List UInt8 × σ
  writeByte8 : σ → List UInt8 → ℕ × σ

inductive ByteCoder where
  | u8 | s8 | be | le
  deriving DecidableEq

structure Stream where
  byteSize : ℕ
  /-- ECL_STREAM_SIGNED_BYTES -/
  signedBytes : Bool
  coder : ByteCoder
  byteBuffer : List UInt8
  deriving DecidableEq

def normalizeStreamElementType (t : ElementType) : ℤ := if t.signed = true then -t.size else t.size

def setStreamEltType (byteSize : ℤ) (littleEndian : Bool) : Stream :=
  let signedBytes : Bool := byteSize < 0
  let byteSize := (byteSize.natAbs + 7) / 8 * 8
  { byteSize, signedBytes
    coder :=
      if byteSize = 8 then (if signedBytes = true then .s8 else .u8)
      else if littleEndian = true then .le
      else .be
    byteBuffer := List.replicate (max (byteSize / 8) encodingBufferMaxSize) 0 }

def toUint8 (x : Integer) : Except WrongType UInt8 :=
  match x with
  | .fixnum n =>
    if 0 ≤ n.toInt ∧ n.toInt ≤ 255 then .ok (octetOf n.toInt) else .error ⟨⟨false, 8⟩, x⟩
  | .bignum _ => .error ⟨⟨false, 8⟩, x⟩

def toInt8 (x : Integer) : Except WrongType UInt8 :=
  match x with
  | .fixnum n =>
    if -128 ≤ n.toInt ∧ n.toInt ≤ 127 then .ok (octetOf n.toInt) else .error ⟨⟨true, 8⟩, x⟩
  | .bignum _ => .error ⟨⟨true, 8⟩, x⟩

/-- The loop of both wide encoders, which differ in the place of the next octet. -/
def encodeLoop (place : ℕ → ℕ) : ℕ → ℕ → Integer → List UInt8 → List UInt8
  | 0, _, _, buf => buf
  | k + 1, idx, byte, buf =>
    let b := boole .and byte (makeFixnum 0xFF)
    encodeLoop place k (idx + 1) (ash byte (-8)) (buf.set (place idx) (octetOf b.value))

def Stream.byteEncoder (s : Stream) (byte : Integer) : Except WrongType (List UInt8) :=
  let ndx := s.byteSize / 8
  match s.coder with
  | .u8 => (toUint8 byte).map fun c => s.byteBuffer.set 0 c
  | .s8 => (toInt8 byte).map fun c => s.byteBuffer.set 0 c
  | .be => .ok (encodeLoop (fun idx => ndx - idx - 1) ndx 0 byte s.byteBuffer)
  | .le => .ok (encodeLoop id ndx 0 byte s.byteBuffer)

/-- One turn of the loops of both wide decoders; output is OBJNULL at first. -/
def decodeOctet (signedBytes : Bool) (output : Option Integer) (c : UInt8) : Option Integer :=
  match output with
  | some output => some (boole .ior (makeFixnum c.toNat) (ash output 8))
  | none => some (makeFixnum (topOctet signedBytes c))

def decodeLoop (signedBytes : Bool) (place : ℕ → ℕ) (buf : List UInt8) :
    ℕ → ℕ → Option Integer → Option Integer
  | 0, _, output => output
  | k + 1, idx, output =>
    decodeLoop signedBytes place buf k (idx + 1)
      (decodeOctet signedBytes output (buf.getD (place idx) 0))

def Stream.byteDecoder (s : Stream) : Option Integer :=
  let ndx := s.byteSize / 8
  match s.coder with
  | .u8 => some (makeFixnum (topOctet false (s.byteBuffer.getD 0 0)))
  | .s8 => some (makeFixnum (topOctet true (s.byteBuffer.getD 0 0)))
  | .be => decodeLoop s.signedBytes id s.byteBuffer ndx 0 none
  | .le => decodeLoop s.signedBytes (fun idx => ndx - idx - 1) s.byteBuffer ndx 0 none

variable {σ : Type*} (ops : ByteOps σ)

/-- No element is the end of the file, OBJNULL of the source. -/
def binaryReadByte (s : Stream) (medium : σ) : Option Integer × Stream × σ :=
  let nbytes := s.byteSize / 8
  let r := ops.readByte8 medium nbytes
  let s := { s with byteBuffer := r.1 ++ s.byteBuffer.drop r.1.length }
  if r.1.length < nbytes then (none, s, r.2) else (s.byteDecoder, s, r.2)

/-- The answer of write_byte8 is not looked at. -/
def binaryWriteByte (s : Stream) (medium : σ) (byte : Integer) : Except WrongType (Stream × σ) :=
  let nbytes := s.byteSize / 8
  (s.byteEncoder byte).map fun buf =>
    ({ s with byteBuffer := buf }, (ops.writeByte8 medium (buf.take nbytes)).2)

/-- One call after the other, with their errors. After an error the stream and the medium are as
they were. -/
def writeBytes (s : Stream) (medium : σ) : List Integer → List (Option WrongType) × Stream × σ
  | [] => ([], s, medium)
  | byte :: bytes =>
    match binaryWriteByte ops s medium byte with
    | .error e =>
      let r := writeBytes s medium bytes
      (some e :: r.1, r.2)
    | .ok w =>
      let r := writeBytes w.1 w.2 bytes
      (none :: r.1, r.2)

def readBytes (s : Stream) (medium : σ) : ℕ → List (Option Integer)
  | 0 => []
  | k + 1 =>
    let r := binaryReadByte ops s medium
    r.1 :: readBytes r.2.1 r.2.2 k

structure File where
  content : List UInt8
  position : ℕ
  deriving DecidableEq

def File.empty : File := ⟨[], 0⟩

def File.start (f : File) : File := { f with position := 0 }

def fileOps : ByteOps File where
  readByte8 f n :=
    let c := (f.content.drop f.position).take n
    (c, { f with position := f.position + c.length })
  writeByte8 f c :=
    (c.length,
      { content := f.content.take f.position ++ c ++ f.content.drop (f.position + c.length)
        position := f.position + c.length })

end BinaryStreams
