import Ecl.ObjectEquality
import Mathlib.Data.Rat.Floor

/-! EQUALP of src/c/predicate.d with the numeric comparison of number_equalp.d. -/
namespace Equalp

open Objects

inductive FloatValue where
  | nan
  | infinity (negative : Bool)
  | finite (q : ℚ)
  deriving DecidableEq

def bias : FloatType → ℤ
  | .single => 127
  | .double => 1023
  | .long => 16383

def significand (t : FloatType) (bits : ℕ) : ℕ :=
  match t with
  | .long => bits % 2 ^ 64
  | _ => t.fraction bits + if t.expField bits = 0 then 0 else 2 ^ t.fracBits

def floatValue (t : FloatType) (bits : ℕ) : FloatValue :=
  if t.expField bits = 2 ^ t.expBits - 1 then
    if t.fraction bits = 0 then .infinity (t.signbit bits = 1) else .nan
  else
    let m : ℤ := if t.signbit bits = 1 then -(significand t bits) else significand t bits
    let e : ℤ := max (t.expField bits) 1 - bias t - t.fracBits
    .finite (if 0 ≤ e then mkRat (m * 2 ^ e.toNat) 1 else mkRat m (2 ^ (-e).toNat))

def FloatValue.eq : FloatValue → FloatValue → Bool
  | .finite p, .finite q => p = q
  | .infinity s, .infinity s' => s = s'
  | _, _ => false

/-- C's == on two floats: within one format on the bits, across formats on the values, as
the wider format holds those of the narrower. -/
def cCompare (t : FloatType) (a : ℕ) (t' : FloatType) (b : ℕ) : Bool :=
  if t = t' then t.eq a b else (floatValue t a).eq (floatValue t' b)

/-- What EQUALP takes from elsewhere: the fixnum a NaN is cast to, ecl_to_float,
ecl_char_upcase, lookup in another hash table, and the memory behind the bignum that
ecl_aref_unsafe allocates for an element. -/
structure Platform where
  nanFixnum : ℤ
  toFloat : Rational → ℕ
  charUpcase : ℕ → ℕ
  gethash : Obj → Obj → Option Obj
  freshMemory : Obj → ℕ → List ℕ

def mkInteger (n : ℤ) (after : List ℕ) : Integer :=
  if -2 ^ 61 ≤ n ∧ n < 2 ^ 61 then .fixnum n else .bignum n after

def clRational (q : ℚ) : Rational :=
  if q.den = 1 then .integer (mkInteger q.num []) else .ratio (mkInteger q.num []) (mkInteger q.den [])

/-- A rational against a float. double_fix_compare compares in both directions, so on
numbers it compares values; long_double_fix_compare misses the second check, so that a NaN
equals every fixnum. -/
def rationalFloatEqualp (P : Platform) (r : Rational) (t : FloatType) (bits : ℕ) : Bool :=
  match r with
  | .integer (.fixnum n) => match floatValue t bits with
    | .finite q => q = n
    | .infinity _ => false
    | .nan => if t = .long then true else n = P.nanFixnum
  | r => match floatValue t bits with
    | .finite q => r.eql (clRational q)
    | _ => false

def zerop : Rational → Bool
  | .integer (.fixnum n) => n = 0
  | _ => false

/-- ecl_number_equalp; among rationals it makes the comparisons of ecl_eql. -/
def numberEqualp (P : Platform) : Number → Number → Bool
  | .rational a, .rational b => a.eql b
  | .rational a, .float t b => rationalFloatEqualp P a t b
  | .float t a, .rational b => rationalFloatEqualp P b t a
  | .float t a, .float t' b => cCompare t a t' b
  | .complex re im, .rational b => zerop im && re.eql b
  | .complex re im, .float t b => zerop im && rationalFloatEqualp P re t b
  | .cfloat t re im, .rational b => t.isZero im && rationalFloatEqualp P b t re
  | .cfloat t re im, .float t' b => t.isZero im && cCompare t re t' b
  | .rational a, .complex re im => zerop im && re.eql a
  | .float t a, .complex re im => zerop im && rationalFloatEqualp P re t a
  | .rational a, .cfloat t re im => t.isZero im && rationalFloatEqualp P a t re
  | .float t' a, .cfloat t re im => t.isZero im && cCompare t re t' a
  | .complex re im, .complex re' im' => re.eql re' && im.eql im'
  | .complex re im, .cfloat t re' im' =>
    cCompare .single (P.toFloat re) t re' && cCompare .single (P.toFloat im) t im'
  | .cfloat t re im, .complex re' im' =>
    cCompare t re .single (P.toFloat re') && cCompare t im .single (P.toFloat im')
  | .cfloat t re im, .cfloat t' re' im' => cCompare t re t' re' && cCompare t im t' im'

/-- An object, or a number just allocated for an element, which is EQ to nothing. -/
inductive Item where
  | obj (x : Obj)
  | number (n : Number)
  deriving DecidableEq

def Item.eq : Item → Item → Bool
  | .obj x, .obj y => x = y
  | _, _ => false

def integerItem (n : ℤ) (after : List ℕ) : Item :=
  match mkInteger n after with
  | .fixnum n => .obj (.fixnum n)
  | big => .number (.rational (.integer big))

def elementItems (P : Platform) (x : Obj) : Elements → List Item
  | .object xs => xs.map .obj
  | .integer _ xs => xs.zipIdx.map (fun p => integerItem p.1 (P.freshMemory x p.2))
  | .float t xs => xs.map (fun b => .number (.float t b))
  | .cfloat t xs => xs.map (fun p => .number (.cfloat t p.1 p.2))
  | .character xs => xs.map (fun c => .obj (.character c))
  | .bit xs => xs.map (fun b => .obj (.fixnum (if b then 1 else 0)))

/-- What ecl_t_of tells ecl_equalp and _hash_equalp to do with an object. -/
inductive View where
  | number (n : Number)
  | character (code : ℕ)
  | list (car cdr : Obj)
  | vector (x : Obj) (elements : Elements)
  | array (x : Obj) (dims : List ℕ) (elements : Elements)
  | pathname (x : Obj)
  | eclInstance (ofClass : Obj) (structurep : Bool) (slots : List Obj)
  | hashtable (x : Obj) (test : HashTest) (entries : List (Obj × Obj))
  | random (state : List ℕ)
  | ssePack (bytes : List ℕ)
  | other (x : Obj)
  deriving DecidableEq

def view (heap : Heap) : Item → View
  | .number n => .number n
  | .obj (.fixnum n) => .number (.rational (.integer (.fixnum n)))
  | .obj (.character c) => .character c
  | .obj .nil => .other .nil
  | .obj (.pointer w) => match heap w with
    | .number n => .number n
    | .list a d => .list a d
    | .string s => .vector (.pointer w) (.character s.codes)
    | .bitvector v => .vector (.pointer w) (.bit ((List.range v.fillp).map v.bit))
    | .vector e => .vector (.pointer w) e
    | .array dims e => .array (.pointer w) dims e
    | .pathname _ => .pathname (.pointer w)
    | .eclInstance c s slots => .eclInstance c s slots
    | .hashtable test entries => .hashtable (.pointer w) test entries
    | .random state => .random state
    | .ssePack bytes => .ssePack bytes
    | .symbol _ | .foreign _ | .other => .other (.pointer w)

def elementCount : Elements → ℕ
  | .object xs => xs.length
  | .integer _ xs => xs.length
  | .float _ xs => xs.length
  | .cfloat _ xs => xs.length
  | .character xs => xs.length
  | .bit xs => xs.length

/-- The ARRAY part of ecl_equalp, on arrays of as many elements: memcmp on integers of one
type, C's == among floats, elements as objects otherwise. -/
def arrayEqualp (P : Platform) (equalp : Item → Item → Option Bool) (x : Obj) (e : Elements)
    (y : Obj) (e' : Elements) : Option Bool :=
  let objects := allEqual equalp ((elementItems P x e).zip (elementItems P y e'))
  match e, e' with
  | .integer t xs, .integer t' ys => if t = t' then some (xs = ys) else objects
  | .float t xs, .float t' ys => some ((xs.zip ys).all fun p => cCompare t p.1 t' p.2)
  | .float t xs, .cfloat t' ys =>
    some ((xs.zip ys).all fun p => cCompare t p.1 t' p.2.1 && t'.isZero p.2.2)
  | .cfloat t xs, .float t' ys =>
    some ((xs.zip ys).all fun p => cCompare t p.1.1 t' p.2 && t.isZero p.1.2)
  | .cfloat t xs, .cfloat t' ys =>
    some ((xs.zip ys).all fun p => cCompare t p.1.1 t' p.2.1 && cCompare t p.1.2 t' p.2.2)
  | _, _ => objects

/-- The loop over the entries of a hash table, looking the keys up in the table y. -/
def tableEqualp (P : Platform) (equalp : Item → Item → Option Bool) (y : Obj) :
    List (Obj × Obj) → Option Bool
  | [] => some true
  | (key, val) :: rest => match P.gethash y key with
    | none => some false
    | some val' => do if ← equalp (.obj val) (.obj val') then tableEqualp P equalp y rest else some false

def eclEqualp (P : Platform) (heap : Heap) : ℕ → Item → Item → Option Bool
  | 0, _, _ => none
  | fuel + 1, a, b =>
    if a.eq b then some true
    else match view heap a, view heap b with
      | .number m, .number n => some (numberEqualp P m n)
      | .vector x e, .vector y e' =>
        if elementCount e ≠ elementCount e' then some false
        else arrayEqualp P (eclEqualp P heap fuel) x e y e'
      | .array x ds e, .array y ds' e' =>
        if ds.length ≠ ds'.length then some false
        else if 1 < ds.length ∧ ds ≠ ds' then some false
        else if elementCount e ≠ elementCount e' then some false
        else arrayEqualp P (eclEqualp P heap fuel) x e y e'
      | .character c, .character c' => some (P.charUpcase c = P.charUpcase c')
      | .list a d, .list a' d' =>
        allEqual (eclEqualp P heap fuel) [(.obj a, .obj a'), (.obj d, .obj d')]
      | .eclInstance c s xs, .eclInstance c' _ ys =>
        if c ≠ c' || !s then some false
        else allEqual (eclEqualp P heap fuel) ((xs.map .obj).zip (ys.map .obj))
      | .pathname x, .pathname y => eclEqual heap fuel x y
      | .hashtable _ test entries, .hashtable y test' entries' =>
        if entries.length ≠ entries'.length || test ≠ test' then some false
        else tableEqualp P (eclEqualp P heap fuel) y entries
      | .random s, .random s' => some (s = s')
      | .ssePack s, .ssePack s' => some (s = s')
      | _, _ => some false

end Equalp
