import Ecl.ArrayBounds
import Ecl.ObjectEquality
import Ecl.Rationals

/-! The elements of arrays: ecl_aref_unsafe and ecl_aset_unsafe of src/c/array.d with the
conversions of src/c/number.d, bignum.d and character.d between objects and machine words. -/
namespace ElementStores

open Integers Rationals
open ArrayBounds (ElementType LispArray ArrayError Index subscriptsIndex)
open Objects (FloatType floatEql)

/-- Objects as the elements of arrays see them; other is compared by EQ. -/
inductive Object where
  | character (code : BitVec 32)
  | rational (r : Rational)
  | float (t : FloatType) (bits : ℕ)
  | complex (re im : Rational)
  | cfloat (t : FloatType) (re im : ℕ)
  | other (word : ℕ)
  deriving DecidableEq

def fixnum (i : ℤ) : Object := .rational (.integer (makeFixnum i))

def rationalEql : Rational → Rational → Bool
  | .integer n, .integer m => n.eql m
  | .ratio n d, .ratio n' d' => n.eql n' && d.eql d'
  | _, _ => false

/-- ecl_eql. -/
def Object.eql : Object → Object → Bool
  | .character c, .character d => c = d
  | .rational r, .rational r' => rationalEql r r'
  | .float t a, .float t' b => t = t' && floatEql t a b
  | .complex a b, .complex a' b' => rationalEql a a' && rationalEql b b'
  | .cfloat t a b, .cfloat t' a' b' => t = t' && floatEql t a a' && floatEql t b b'
  | .other w, .other w' => w = w'
  | _, _ => false

abbrev Cell : ElementType → Type
  | .object => Object
  | .bc | .bit | .b8 | .i8 => BitVec 8
  | .b16 | .i16 => BitVec 16
  | .ch | .b32 | .i32 => BitVec 32
  | .fix | .index | .b64 | .i64 => BitVec 64
  | .sf | .df | .lf => ℕ
  | .csf | .cdf | .clf => ℕ × ℕ

structure ElementArray extends LispArray where
  offset : ℕ
  cells : ℕ → Cell elttype

inductive StoreError where
  | subscripts (e : ArrayError)
  | wrongType (expected : ElementType)
  | arithmetic (e : ArithmeticError)
  deriving DecidableEq

/-- The bits of a float, or the exception that is trapped. rational is ratio_to_float with its
siblings and C's conversion of a fixnum, float is C's conversion between floats. -/
structure Conversions where
  rational : FloatType → Rational → Except ArithmeticError ℕ
  float : FloatType → FloatType → ℕ → Except ArithmeticError ℕ

section
variable (conv : Conversions)

/-- ecl_char_code. -/
def charCode : Object → Except StoreError (BitVec 32)
  | .character code => .ok code
  | _ => .error (.wrongType .ch)

def fixnumBetween (t : ElementType) (least most : ℤ) (w : ℕ) : Object → Except StoreError (BitVec w)
  | .rational (.integer (.fixnum n)) =>
    if least ≤ n.toInt ∧ n.toInt ≤ most then .ok (BitVec.ofInt w n.toInt) else .error (.wrongType t)
  | _ => .error (.wrongType t)

def toUint8 : Object → Except StoreError (BitVec 8) := fixnumBetween .b8 0 255 8
def toInt8 : Object → Except StoreError (BitVec 8) := fixnumBetween .i8 (-128) 127 8
def toUint16 : Object → Except StoreError (BitVec 16) := fixnumBetween .b16 0 0xFFFF 16
def toInt16 : Object → Except StoreError (BitVec 16) := fixnumBetween .i16 (-0x8000) 0x7FFF 16
def toUint32 : Object → Except StoreError (BitVec 32) := fixnumBetween .b32 0 0xFFFFFFFF 32
def toInt32 : Object → Except StoreError (BitVec 32) :=
  fixnumBetween .i32 (-0x80000000) 0x7FFFFFFF 32

def toFix : Object → Except StoreError (BitVec 64)
  | .rational (.integer (.fixnum n)) => .ok (BitVec.ofInt 64 n.toInt)
  | _ => .error (.wrongType .fix)

def toSize : Object → Except StoreError (BitVec 64)
  | .rational (.integer (.fixnum n)) =>
    if n.toInt ≥ 0 then .ok (BitVec.ofInt 64 n.toInt) else .error (.wrongType .index)
  | _ => .error (.wrongType .index)

/-- ecl_to_uint64_t. -/
def fixnnint : Object → Except StoreError (BitVec 64)
  | .rational (.integer (.fixnum n)) =>
    if n.toInt ≥ 0 then .ok (BitVec.ofInt 64 n.toInt) else .error (.wrongType .b64)
  | .rational (.integer (.bignum z)) =>
    if 0 ≤ z ∧ z < 2 ^ 64 then .ok (BitVec.ofInt 64 z) else .error (.wrongType .b64)
  | _ => .error (.wrongType .b64)

/-- ecl_to_int64_t. -/
def fixint : Object → Except StoreError (BitVec 64)
  | .rational (.integer (.fixnum n)) => .ok (BitVec.ofInt 64 n.toInt)
  | .rational (.integer (.bignum z)) =>
    if -2 ^ 63 ≤ z ∧ z < 2 ^ 63 then .ok (BitVec.ofInt 64 z) else .error (.wrongType .i64)
  | _ => .error (.wrongType .i64)

def toBit (v : Object) : Except StoreError Bool :=
  if v ≠ fixnum 0 ∧ v ≠ fixnum 1 then .error (.wrongType .bit) else .ok (v = fixnum 1)

def floatElement : FloatType → ElementType
  | .single => .sf
  | .double => .df
  | .long => .lf

def cfloatElement : FloatType → ElementType
  | .single => .csf
  | .double => .cdf
  | .long => .clf

def trapped {α : Type} : Except ArithmeticError α → Except StoreError α
  | .ok a => .ok a
  | .error e => .error (.arithmetic e)

/-- ecl_to_float, ecl_to_double and ecl_to_long_double. -/
def toFloat (t : FloatType) : Object → Except StoreError ℕ
  | .rational r => trapped (conv.rational t r)
  | .float t' bits => if t' = t then .ok bits else trapped (conv.float t t' bits)
  | _ => .error (.wrongType (floatElement t))

/-- ecl_to_csfloat, ecl_to_cdfloat and ecl_to_clfloat; a real has a positive zero beside it. -/
def toCfloat (t : FloatType) : Object → Except StoreError (ℕ × ℕ)
  | .rational r => (trapped (conv.rational t r)).map (·, 0)
  | .float t' bits =>
    if t' = t then .ok (bits, 0) else (trapped (conv.float t t' bits)).map (·, 0)
  | .complex re im => do
    let a ← trapped (conv.rational t re)
    let b ← trapped (conv.rational t im)
    return (a, b)
  | .cfloat t' re im =>
    if t' = t then .ok (re, im)
    else do
      let a ← trapped (conv.float t t' re)
      let b ← trapped (conv.float t t' im)
      return (a, b)
  | _ => .error (.wrongType (cfloatElement t))

end

def makeUnsigned (w : BitVec 64) : Object :=
  .rational (.integer (if mostPositiveFixnum < w.toNat then .bignum w.toNat else makeFixnum w.toNat))

def makeInteger64 (w : BitVec 64) : Object := .rational (.integer (makeInteger w.toInt))

/-- 0200>>index%CHAR_BIT. -/
def bitMask (index : ℕ) : BitVec 8 := 0x80#8 >>> (index % 8)

def arefUnsafe : (t : ElementType) → ℕ → (ℕ → Cell t) → ℕ → Object
  | .object, _, self, index => self index
  | .bc, _, self, index => .character ((self index).setWidth 32)
  | .ch, _, self, index => .character (self index)
  | .bit, offset, self, index =>
    let index := index + offset
    if self (index / 8) &&& bitMask index ≠ 0 then fixnum 1 else fixnum 0
  | .fix, _, self, index => makeInteger64 (self index)
  | .index, _, self, index => makeUnsigned (self index)
  | .sf, _, self, index => .float .single (self index)
  | .df, _, self, index => .float .double (self index)
  | .lf, _, self, index => .float .long (self index)
  | .csf, _, self, index => .cfloat .single (self index).1 (self index).2
  | .cdf, _, self, index => .cfloat .double (self index).1 (self index).2
  | .clf, _, self, index => .cfloat .long (self index).1 (self index).2
  | .b8, _, self, index => fixnum (self index).toNat
  | .i8, _, self, index => fixnum (self index).toInt
  | .b16, _, self, index => fixnum (self index).toNat
  | .i16, _, self, index => fixnum (self index).toInt
  | .b32, _, self, index => fixnum (self index).toNat
  | .i32, _, self, index => fixnum (self index).toInt
  | .b64, _, self, index => makeUnsigned (self index)
  | .i64, _, self, index => makeInteger64 (self index)

/-- The cells after an element was stored. A base character is what is left of the code. -/
def asetUnsafe (conv : Conversions) : (t : ElementType) → ℕ → (ℕ → Cell t) → ℕ → Object →
    Except StoreError (ℕ → Cell t)
  | .object, _, self, index, value => .ok (Function.update self index value)
  | .bc, _, self, index, value =>
    (charCode value).map fun c => Function.update self index (c.setWidth 8)
  | .ch, _, self, index, value => (charCode value).map (Function.update self index)
  | .bit, offset, self, index, value =>
    (toBit value).map fun i =>
      let index := index + offset
      Function.update self (index / 8)
        (if i = false then self (index / 8) &&& ~~~bitMask index
          else self (index / 8) ||| bitMask index)
  | .fix, _, self, index, value => (toFix value).map (Function.update self index)
  | .index, _, self, index, value => (toSize value).map (Function.update self index)
  | .sf, _, self, index, value => (toFloat conv .single value).map (Function.update self index)
  | .df, _, self, index, value => (toFloat conv .double value).map (Function.update self index)
  | .lf, _, self, index, value => (toFloat conv .long value).map (Function.update self index)
  | .csf, _, self, index, value => (toCfloat conv .single value).map (Function.update self index)
  | .cdf, _, self, index, value => (toCfloat conv .double value).map (Function.update self index)
  | .clf, _, self, index, value => (toCfloat conv .long value).map (Function.update self index)
  | .b8, _, self, index, value => (toUint8 value).map (Function.update self index)
  | .i8, _, self, index, value => (toInt8 value).map (Function.update self index)
  | .b16, _, self, index, value => (toUint16 value).map (Function.update self index)
  | .i16, _, self, index, value => (toInt16 value).map (Function.update self index)
  | .b32, _, self, index, value => (toUint32 value).map (Function.update self index)
  | .i32, _, self, index, value => (toInt32 value).map (Function.update self index)
  | .b64, _, self, index, value => (fixnnint value).map (Function.update self index)
  | .i64, _, self, index, value => (fixint value).map (Function.update self index)

def aref (x : ElementArray) (indx : List Index) : Except StoreError Object :=
  match subscriptsIndex .aref x.toLispArray indx with
  | .error e => .error (.subscripts e)
  | .ok j => .ok (arefUnsafe x.elttype x.offset x.cells j)

/-- si_aset with the array after it. -/
def siAset (conv : Conversions) (x : ElementArray) (indx : List Index) (value : Object) :
    ElementArray × Except StoreError Object :=
  match subscriptsIndex .siAset x.toLispArray indx with
  | .error e => (x, .error (.subscripts e))
  | .ok j => match asetUnsafe conv x.elttype x.offset x.cells j value with
    | .error e => (x, .error e)
    | .ok cells => ({ x with cells := cells }, .ok value)

end ElementStores
