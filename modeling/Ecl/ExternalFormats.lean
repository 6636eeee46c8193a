import Mathlib.Algebra.Ring.Int.Defs
import Mathlib.Algebra.Ring.Nat
import Ecl.IncrementalDecoding

/-! The decoders and encoders of src/c/streams/strm_eformat.d. The decoding-error handler of
src/lsp/unicode.lsp is a parameter: what the program does with the condition. -/
namespace ExternalFormats

open IncrementalDecoding

/-- An ecl_character is a signed 32 bit integer. -/
def eof : ℤ := -1

def charCodeLimit : ℤ := 1114112

def charReturn : ℤ := 13

def charLinefeed : ℤ := 10

def charNewline : ℤ := charLinefeed

/-- ENCODING_BUFFER_MAX_SIZE. -/
def encodingBufferMaxSize : ℕ := 8

/-- The decoder and the encoder of a stream, which are always set together. ISO-8859-1 is
latin1, and so is pass-through. -/
inductive ExternalFormat where
  | latin1 | usAscii | utf8 | ucs2 | ucs2be | ucs2le | ucs4 | ucs4be | ucs4le
  deriving DecidableEq

/-- byte_size / 8. -/
def byteSize : ExternalFormat → ℕ
  | .latin1 | .usAscii | .utf8 => 1
  | .ucs2 | .ucs2be | .ucs2le => 2
  | .ucs4 | .ucs4be | .ucs4le => 4

inductive StreamKind where
  | file | sequence
  deriving DecidableEq

/-- What a stream reads at a time: make_sequence_input_stream overrides the byte size of the
format for a vector of octets. -/
def StreamKind.unit : StreamKind → ExternalFormat → ℕ
  | .file => byteSize
  | .sequence => fun _ => 1

inductive Scan where
  | eof
  | char (c : ℤ) (rest : List UInt8)
  | error (octets rest : List UInt8)
  deriving DecidableEq

def passthroughDecoder : List UInt8 → Scan
  | [] => .eof
  | b :: rest => .char b.toNat rest

def asciiDecoder : List UInt8 → Scan
  | [] => .eof
  | b :: rest => if 127 < b then .error [b] rest else .char b.toNat rest

/-- The conversion of an unsigned 32 bit word. -/
def int32 (n : ℕ) : ℤ := if n < 2 ^ 31 then n else n - 2 ^ 32

inductive ByteOrder where
  | be | le
  deriving DecidableEq

def ByteOrder.arrange : ByteOrder → List UInt8 → List UInt8
  | .be, octets => octets
  | .le, octets => octets.reverse

def word (octets : List UInt8) : ℕ := octets.foldl (fun w b => (w <<< 8) + b.toNat) 0

def ucs4Word (order : ByteOrder) : List UInt8 → Scan
  | b0 :: b1 :: b2 :: b3 :: rest => .char (int32 (word (order.arrange [b0, b1, b2, b3]))) rest
  | _ => .eof

def ucs4beDecoder : List UInt8 → Scan := ucs4Word .be

def ucs4leDecoder : List UInt8 → Scan := ucs4Word .le

def ucs2Word (order : ByteOrder) : List UInt8 → Scan
  | b0 :: b1 :: rest =>
    let c := word (order.arrange [b0, b1])
    if (c >>> 8) &&& 0xFC = 0xD8 then
      match rest with
      | b2 :: b3 :: rest' =>
        let aux := word (order.arrange [b2, b3])
        if (aux >>> 8) &&& 0xFC ≠ 0xDC then .error [b0, b1, b2, b3] rest'
        else .char (((c &&& 0x3FF) <<< 10) + (aux &&& 0x3FF) + 0x10000 : ℕ) rest'
      | _ => .eof
    else .char c rest
  | _ => .eof

def ucs2beDecoder : List UInt8 → Scan := ucs2Word .be

def ucs2leDecoder : List UInt8 → Scan := ucs2Word .le

/-- The continuation octets of a sequence; none where decoding_error is called. -/
def utf8Continue : ℕ → List UInt8 → Option ℕ
  | cum, [] => some cum
  | cum, c :: octets =>
    if c &&& 0xC0 ≠ 0x80 then none
    else
      let cum' := (cum <<< 6) ||| (c &&& 0x3F).toNat
      if cum' = 0 then none else utf8Continue cum' octets

/-- The end of utf_8_decoder: aux is the first octet and cum what it holds. -/
def utf8Sequence (aux : UInt8) (cum nbytes : ℕ) (rest : List UInt8) : Scan :=
  if rest.length < nbytes then .eof
  else
    let octets := rest.take nbytes
    let rest' := rest.drop nbytes
    match utf8Continue cum octets with
    | none => .error (aux :: octets) rest'
    | some c =>
      if 0xD800 ≤ c ∧ c ≤ 0xDFFF then .error (aux :: octets) rest'
      else if 0xFFFE ≤ c ∧ c ≤ 0xFFFF then .error (aux :: octets) rest'
      else .char c rest'

def utf8Decoder : List UInt8 → Scan
  | [] => .eof
  | aux :: rest =>
    if aux &&& 0x80 = 0 then .char aux.toNat rest
    else if aux &&& 0x40 = 0 then .error [aux] rest
    else if aux &&& 0x20 = 0 then utf8Sequence aux (aux &&& 0x1F).toNat 1 rest
    else if aux &&& 0x10 = 0 then utf8Sequence aux (aux &&& 0x0F).toNat 2 rest
    else if aux &&& 0x08 = 0 then utf8Sequence aux (aux &&& 0x07).toNat 3 rest
    else .error [aux] rest

def scan : ExternalFormat → List UInt8 → Scan
  | .latin1 => passthroughDecoder
  | .usAscii => asciiDecoder
  | .utf8 => utf8Decoder
  | .ucs2 | .ucs2be => ucs2beDecoder
  | .ucs2le => ucs2leDecoder
  | .ucs4 | .ucs4be => ucs4beDecoder
  | .ucs4le => ucs4leDecoder

/-- What comes of a decoding error: a non-local exit, NIL, or a character. -/
inductive Restart where
  | unwind
  | ignore
  | supply (c : ℤ)
  deriving DecidableEq

abbrev Handler := List UInt8 → Restart

/-- stop carries the octets of the error that was not resumed. -/
abbrev Decoded := Outcome ExternalFormat UInt8 ℤ (List UInt8)

section
variable (handler : Handler) (decode : ExternalFormat → List UInt8 → Decoded)

/-- The octets are consed in front of each other. decode is the decoder of the stream, which
goes on with the next character. -/
def decodingError (format : ExternalFormat) (octets rest : List UInt8) : Decoded :=
  match handler octets.reverse with
  | .unwind => .stop octets.reverse
  | .ignore => decode format rest
  | .supply c => .item c format rest

def settle (format : ExternalFormat) (buffer : List UInt8) : Scan → Decoded
  | .eof => .more format buffer
  | .char c rest => .item c format rest
  | .error octets rest => decodingError handler decode format octets rest

/-- ucs_2_decoder and ucs_4_decoder: the first character chooses the order of the octets. -/
def markDecoder (format be le : ExternalFormat) (swapped : ℤ) (buffer : List UInt8) : Decoded :=
  match settle handler decode format buffer (scan format buffer) with
  | .item c format' rest =>
    if c = eof then .item c format' rest
    else if c = 0xFEFF then settle handler decode be rest (scan be rest)
    else if c = swapped then settle handler decode le rest (scan le rest)
    else .item c be rest
  | out => out

/-- The swapped mark of ucs_4_decoder is an unsigned constant, which no ecl_character is. -/
def decoderBody : ExternalFormat → List UInt8 → Decoded
  | .ucs2, buffer => markDecoder handler decode .ucs2 .ucs2be .ucs2le 0xFFFE buffer
  | .ucs4, buffer => markDecoder handler decode .ucs4 .ucs4be .ucs4le 0xFFFE0000 buffer
  | format, buffer => settle handler decode format buffer (scan format buffer)

end

/-- Every ignored error takes an octet of the buffer with it. -/
def decoderLoop (handler : Handler) : ℕ → ExternalFormat → List UInt8 → Decoded
  | 0, format, buffer => .more format buffer
  | n + 1, format, buffer => decoderBody handler (decoderLoop handler n) format buffer

def decoder (handler : Handler) (format : ExternalFormat) (buffer : List UInt8) : Decoded :=
  decoderLoop handler (buffer.length + 1) format buffer

def octet (c : ℤ) : UInt8 := UInt8.ofInt c

def passthroughEncoder (c : ℤ) : Option (List UInt8) :=
  if c > 0xFF then none else some [octet c]

def asciiEncoder (c : ℤ) : Option (List UInt8) :=
  if c > 127 then none else some [octet c]

def ucs4Bytes (order : ByteOrder) (c : ℤ) : List UInt8 :=
  order.arrange [octet (c >>> (24 : ℕ)), octet (c >>> (16 : ℕ)), octet (c >>> (8 : ℕ)), octet c]

def ucs4beEncoder : ℤ → List UInt8 := ucs4Bytes .be

def ucs4leEncoder : ℤ → List UInt8 := ucs4Bytes .le

def ucs2Unit (order : ByteOrder) (c : ℤ) : List UInt8 :=
  order.arrange [octet (c >>> (8 : ℕ)), octet c]

def ucs2Bytes (order : ByteOrder) (c : ℤ) : List UInt8 :=
  if c ≥ 0x10000 then
    let d := (c - 0x10000).toNat
    ucs2Unit order ((d >>> 10) ||| 0xD800 : ℕ) ++ ucs2Unit order ((d &&& 0x3FF) ||| 0xDC00 : ℕ)
  else ucs2Unit order c

def ucs2beEncoder : ℤ → List UInt8 := ucs2Bytes .be

def ucs2leEncoder : ℤ → List UInt8 := ucs2Bytes .le

def utf8Encoder (c : ℤ) : List UInt8 :=
  if c ≤ 0x7F then [octet c]
  else if c ≤ 0x7FF then [octet (c >>> (6 : ℕ)) ||| 0xC0, (octet c &&& 0x3F) ||| 0x80]
  else if c ≤ 0xFFFF then
    [octet (c >>> (12 : ℕ)) ||| 0xE0, (octet (c >>> (6 : ℕ)) &&& 0x3F) ||| 0x80,
      (octet c &&& 0x3F) ||| 0x80]
  else if c ≤ 0x1FFFFF then
    [octet (c >>> (18 : ℕ)) ||| 0xF0, (octet (c >>> (12 : ℕ)) &&& 0x3F) ||| 0x80,
      (octet (c >>> (6 : ℕ)) &&& 0x3F) ||| 0x80, (octet c &&& 0x3F) ||| 0x80]
  else []

/-- The formats with a mark write it before their first character, and are big endian then. -/
def encoder : ExternalFormat → ℤ → Option (List UInt8 × ExternalFormat)
  | .latin1, c => (passthroughEncoder c).map (·, .latin1)
  | .usAscii, c => (asciiEncoder c).map (·, .usAscii)
  | .utf8, c => some (utf8Encoder c, .utf8)
  | .ucs2, c => some (0xFE :: 0xFF :: ucs2beEncoder c, .ucs2be)
  | .ucs2be, c => some (ucs2beEncoder c, .ucs2be)
  | .ucs2le, c => some (ucs2leEncoder c, .ucs2le)
  | .ucs4, c => some (0 :: 0 :: 0xFE :: 0xFF :: ucs4beEncoder c, .ucs4be)
  | .ucs4be, c => some (ucs4beEncoder c, .ucs4be)
  | .ucs4le, c => some (ucs4leEncoder c, .ucs4le)

end ExternalFormats
