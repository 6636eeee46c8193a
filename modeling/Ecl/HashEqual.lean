import Ecl.ObjectEquality
import Ecl.Traversals

/-! The mixing functions of src/c/newhash.h in their 64 bit version, and the calls by which
the hashes of src/c/hash.d use them. -/
namespace NewHash

/-- A call of a mixing function on the accumulator: on bytes, on a word, on the codes of a
string (hash_base_string and hash_full_string are one function of the codes). -/
inductive Call where
  | hashString (bytes : List ℕ)
  | hashWord (w : ℕ)
  | hashChars (codes : List ℕ)
  deriving DecidableEq

abbrev Word := BitVec 64

def goldenRatio : Word := 0x9e3779b97f4a7c13#64

def mixRound (l m r : ℕ) (s : Word × Word × Word) : Word × Word × Word :=
  let (a, b, c) := s
  let a := (a - b - c) ^^^ (c >>> l)
  let b := (b - c - a) ^^^ (a <<< m)
  let c := (c - a - b) ^^^ (b >>> r)
  (a, b, c)

def mix (s : Word × Word × Word) : Word × Word × Word :=
  mixRound 12 18 22 (mixRound 35 49 11 (mixRound 38 23 5 (mixRound 43 9 8 s)))

/-- Shifts of the bytes of a word; the last one is 52 in the source. -/
def wordShifts : List ℕ := [0, 8, 16, 24, 32, 40, 48, 52]

def shiftedSum (bytes shifts : List ℕ) : Word :=
  (bytes.zip shifts).foldl (fun acc p => acc + (BitVec.ofNat 64 p.1 <<< p.2)) 0

def extractWord (k : List ℕ) : Word := shiftedSum (k.take 8) wordShifts

def hashStringLoop (length : ℕ) : ℕ → List ℕ → Word × Word × Word → Word
  | fuel + 1, k, (a, b, c) =>
    if 24 ≤ k.length then
      hashStringLoop length fuel (k.drop 24)
        (mix (a + extractWord k, b + extractWord (k.drop 8), c + extractWord (k.drop 16)))
    else
      let c := c + BitVec.ofNat 64 length
      let c := c + shiftedSum (k.drop 16) (wordShifts.drop 1)
      let b := b + shiftedSum ((k.drop 8).take 8) wordShifts
      let a := a + shiftedSum (k.take 8) wordShifts
      (mix (a, b, c)).2.2
  | 0, _, (_, _, c) => c

def hashString (initval : Word) (k : List ℕ) : Word :=
  hashStringLoop k.length (k.length + 1) k (goldenRatio, goldenRatio, initval)

def hashWord (c : Word) (w : ℕ) : Word :=
  (mix (BitVec.ofNat 64 w + goldenRatio, goldenRatio, c)).2.2

def hashCharsLoop (len : ℕ) : List ℕ → Word × Word × Word → Word
  | x :: y :: z :: s, (a, b, h) =>
    hashCharsLoop len s
      (mix (a + BitVec.ofNat 64 x, b + BitVec.ofNat 64 y, h + BitVec.ofNat 64 z))
  | [x, y], (a, b, h) =>
    (mix (a + BitVec.ofNat 64 x, b + BitVec.ofNat 64 y, h + BitVec.ofNat 64 len)).2.2
  | [x], (a, b, h) => (mix (a, b + BitVec.ofNat 64 x, h + BitVec.ofNat 64 len)).2.2
  | [], (a, b, h) => (mix (a, b, h + BitVec.ofNat 64 len)).2.2

def hashChars (h : Word) (s : List ℕ) : Word :=
  hashCharsLoop s.length s (goldenRatio, goldenRatio, h)

def newhash (h : Word) : Call → Word
  | .hashString bytes => hashString h bytes
  | .hashWord w => hashWord h w
  | .hashChars codes => hashChars h codes

end NewHash

namespace HashEqual

open NewHash Objects

/-- What the hashes take from the C library: frexpl of a long float, as the bits of a double
and an exponent, and the real part of 0.0 + I * x. -/
structure CLibrary where
  frexpl : ℕ → ℕ × ℤ
  zeroTimes : FloatType → ℕ → ℕ
  frexpl_zero : ∀ bits, FloatType.isZero .long bits = true →
    FloatType.isZero .double (frexpl bits).1 = true ∧ (frexpl bits).2 = 0

def leBytes (n bits : ℕ) : List ℕ := (List.range n).map (fun i => bits / 256 ^ i % 256)

def intBytes (n : ℤ) : List ℕ := leBytes 4 (n % 2 ^ 32).toNat

def normalizeZero (t : FloatType) (bits : ℕ) : ℕ := if t.isZero bits then 0 else bits

def longSign (bits : ℕ) : ℤ :=
  if FloatType.signbit .long bits = 1 && !FloatType.isnan .long bits
    && !FloatType.isZero .long bits then -1 else 1

/-- The bytes _hash_equal feeds to hash_string for a float. -/
def floatBytes (L : CLibrary) (t : FloatType) (bits : ℕ) : List ℕ :=
  match t with
  | .single => leBytes 4 (normalizeZero .single bits)
  | .double => leBytes 8 (normalizeZero .double bits)
  | .long =>
    let (mantissa, exponent) := L.frexpl bits
    leBytes 8 (normalizeZero .double mantissa) ++ intBytes exponent ++ intBytes (longSign bits)

def cfloatBytes (L : CLibrary) (t : FloatType) (re im : ℕ) : List ℕ :=
  match t with
  | .single | .double =>
    let size := if t = .single then 4 else 8
    let re := if t.isZero re then L.zeroTimes t im else re
    leBytes size re ++ leBytes size (normalizeZero t im)
  | .long =>
    let (mantissa1, exponent1) := L.frexpl re
    let (mantissa2, exponent2) := L.frexpl im
    leBytes 8 (normalizeZero .double mantissa1) ++ leBytes 8 (normalizeZero .double mantissa2)
      ++ intBytes exponent1 ++ intBytes exponent2
      ++ intBytes (longSign re) ++ intBytes (longSign im)

def bignumSize (n : ℕ) : ℕ := if n = 0 then 0 else n.log2 / 64 + 1

/-- The word of an object: tag in the low two bits of an immediate. -/
def word : Obj → ℕ
  | .nil => 1
  | .fixnum n => ((4 * n + 3) % 2 ^ 64).toNat
  | .character code => 4 * code + 2
  | .pointer word => word

/-- The calls _hash_eql makes on the parts of a rational. -/
def integerCalls : Integer → List Call
  | .fixnum n => [.hashWord (word (.fixnum n) / 4)]
  | .bignum n _ => [.hashString (leBytes (8 * bignumSize n.natAbs) n.natAbs)]

def rationalCalls : Rational → List Call
  | .integer n => integerCalls n
  | .ratio num den => integerCalls num ++ integerCalls den

def numberCalls (L : CLibrary) : Number → List Call
  | .rational r => rationalCalls r
  | .float t bits => [.hashString (floatBytes L t bits)]
  | .complex re im => rationalCalls re ++ rationalCalls im
  | .cfloat t re im => [.hashString (cfloatBytes L t re im)]

/-- The characters hash_base_string reads from the name of a symbol: of an extended string
it reads the first bytes only. -/
def nameView (name : LispString) : List ℕ :=
  if name.base then name.codes
  else (name.codes.flatMap (leBytes 4)).take name.codes.length

def nilName : LispString := { base := true, codes := [78, 73, 76] }

/-- The cases of _hash_equal that traverse no further, ending in those of _hash_eql. -/
def leafCalls (L : CLibrary) (heap : Heap) : Obj → List Call
  | .nil => [.hashChars nilName.codes]
  | .character code => [.hashWord code]
  | .fixnum n => [.hashWord (word (.fixnum n) / 4)]
  | .pointer w => match heap w with
    | .symbol name => [.hashChars (nameView name)]
    | .string s => [.hashChars s.codes]
    | .bitvector v => [.hashString (v.bytes.take (v.fillp / 8))]
    | .random state => [.hashString (state.take (4 * 624))]
    | .number n => numberCalls L n
    | .ssePack bytes => [.hashString bytes]
    | _ => [.hashWord (w / 4)]

/-- The recursive calls of _hash_equal. A list at depth 1 is cut off; the components of a
pathname get depth 0, from where --depth never meets 0 again. -/
def equalChildren (heap : Heap) (depth : ℤ) (x : Obj) : Option (ℤ × List Obj) :=
  match heap.deref x with
  | some (.list a d) => some (depth - 1, if depth - 1 = 0 then [] else [a, d])
  | some (.pathname p) => some (0, [p.directory, p.name, p.type, p.host, p.device, p.version])
  | _ => none

/-- _hash_equal, over any mixing function; the budget bounds the depth of the recursion. -/
def hashEqual {H : Type} (mix : H → Call → H) (L : CLibrary) (heap : Heap) :
    ℕ → ℤ → H → Obj → Option H :=
  Traversals.hash (equalChildren heap) (fun _ => leafCalls L heap) mix

end HashEqual
