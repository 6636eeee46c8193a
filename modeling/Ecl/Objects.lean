import Mathlib.Algebra.Ring.Nat
import Mathlib.Algebra.Ring.Int.Defs

/-! Lisp objects of src/h/object.h as the predicates of src/c/predicate.d see them. An object
is an immediate or a pointer into a heap of cells, so that EQ is equality of words and
cycles and sharing are allowed. Floats are kept as their bits. -/
namespace Objects

inductive FloatType where
  | single | double | long
  deriving DecidableEq

/-- Bits of the fraction; the x87 long float has an explicit integer bit above it. -/
def FloatType.fracBits : FloatType → ℕ
  | .single => 23
  | .double => 52
  | .long => 63

def FloatType.expShift : FloatType → ℕ
  | .single => 23
  | .double => 52
  | .long => 64

def FloatType.expBits : FloatType → ℕ
  | .single => 8
  | .double => 11
  | .long => 15

def FloatType.expField (t : FloatType) (bits : ℕ) : ℕ := bits / 2 ^ t.expShift % 2 ^ t.expBits

def FloatType.fraction (t : FloatType) (bits : ℕ) : ℕ := bits % 2 ^ t.fracBits

def FloatType.signbit (t : FloatType) (bits : ℕ) : ℕ := bits / 2 ^ (t.expShift + t.expBits)

def FloatType.magnitude (t : FloatType) (bits : ℕ) : ℕ := bits % 2 ^ (t.expShift + t.expBits)

def FloatType.isnan (t : FloatType) (bits : ℕ) : Bool :=
  t.expField bits = 2 ^ t.expBits - 1 && t.fraction bits ≠ 0

def FloatType.isZero (t : FloatType) (bits : ℕ) : Bool := t.magnitude bits = 0

/-- C's == on two floats of one format. -/
def FloatType.eq (t : FloatType) (a b : ℕ) : Bool :=
  !t.isnan a && !t.isnan b && (a = b || t.isZero a && t.isZero b)

/-- The FLOAT_EQL macro, with signed zeros and IEEE exceptions configured. -/
def floatEql (t : FloatType) (a b : ℕ) : Bool :=
  if t.eq a b then t.signbit a = t.signbit b
  else if t.isnan a || t.isnan b then t.isnan a && t.isnan b
  else false

/-- An integer component. A bignum is its value and the memory behind its limbs. -/
inductive Integer where
  | fixnum (n : ℤ)
  | bignum (n : ℤ) (after : List ℕ)
  deriving DecidableEq

inductive Rational where
  | integer (n : Integer)
  | ratio (num den : Integer)
  deriving DecidableEq

inductive Number where
  | rational (r : Rational)
  | float (t : FloatType) (bits : ℕ)
  | complex (re im : Rational)
  | cfloat (t : FloatType) (re im : ℕ)
  deriving DecidableEq

def Integer.eql : Integer → Integer → Bool
  | .fixnum n, .fixnum m => n = m
  | .bignum n _, .bignum m _ => n = m
  | _, _ => false

def Rational.eql : Rational → Rational → Bool
  | .integer n, .integer m => n.eql m
  | .ratio n d, .ratio n' d' => n.eql n' && d.eql d'
  | _, _ => false

def Number.eql : Number → Number → Bool
  | .rational a, .rational b => a.eql b
  | .float t a, .float t' b => t = t' && floatEql t a b
  | .complex r i, .complex r' i' => r.eql r' && i.eql i'
  | .cfloat t r i, .cfloat t' r' i' => t = t' && floatEql t r r' && floatEql t i i'
  | _, _ => false

inductive Obj where
  | nil
  | fixnum (n : ℤ)
  | character (code : ℕ)
  | pointer (word : ℕ)
  deriving DecidableEq

/-- A t_base_string or a t_string, up to its fill pointer. -/
structure LispString where
  base : Bool
  codes : List ℕ
  deriving DecidableEq

/-- A t_bitvector: bytes is the storage from vector.self.bc on; a displaced one starts
offset bits into it. -/
structure BitVector where
  fillp : ℕ
  offset : ℕ
  bytes : List ℕ
  deriving DecidableEq

def BitVector.bit (v : BitVector) (i : ℕ) : Bool :=
  (v.bytes.getD ((i + v.offset) / 8) 0).testBit (7 - (i + v.offset) % 8)

structure Pathname where
  host : Obj
  device : Obj
  directory : Obj
  name : Obj
  type : Obj
  version : Obj
  deriving DecidableEq

inductive IntegerType where
  | b8 | i8 | b16 | i16 | b32 | i32 | b64 | i64 | fix | index
  deriving DecidableEq

/-- The contents of an array by element type, up to the fill pointer of a vector. -/
inductive Elements where
  | object (xs : List Obj)
  | integer (t : IntegerType) (xs : List ℤ)
  | float (t : FloatType) (xs : List ℕ)
  | cfloat (t : FloatType) (xs : List (ℕ × ℕ))
  | character (xs : List ℕ)
  | bit (xs : List Bool)
  deriving DecidableEq

inductive HashTest where
  | eq | eql | equal | equalp | pack | generic
  deriving DecidableEq

inductive Cell where
  | list (car cdr : Obj)
  | symbol (name : LispString)
  | number (n : Number)
  | string (s : LispString)
  | bitvector (v : BitVector)
  | vector (elements : Elements)
  | array (dims : List ℕ) (elements : Elements)
  | pathname (p : Pathname)
  | random (state : List ℕ)
  | eclInstance (ofClass : Obj) (structurep : Bool) (slots : List Obj)
  | hashtable (test : HashTest) (entries : List (Obj × Obj))
  | foreign (data : ℕ)
  | ssePack (bytes : List ℕ)
  | other
  deriving DecidableEq

abbrev Heap := ℕ → Cell

def Heap.deref (heap : Heap) : Obj → Option Cell
  | .pointer word => some (heap word)
  | _ => none

def eclEq (x y : Obj) : Bool := x = y

def eclEql (heap : Heap) (x y : Obj) : Bool :=
  x = y || match heap.deref x, heap.deref y with
    | some (.number a), some (.number b) => a.eql b
    | some (.ssePack a), some (.ssePack b) => a = b
    | _, _ => false

def bitvectorEqual (v w : BitVector) : Bool :=
  v.fillp = w.fillp && (List.range v.fillp).all (fun i => v.bit i = w.bit i)

/-- C's && over comparisons that may run on. -/
def allEqual {α : Type} (equal : α → α → Option Bool) : List (α × α) → Option Bool
  | [] => some true
  | (x, y) :: rest => do
    if ← equal x y then allEqual equal rest else some false

/-- The components in the order ecl_equal compares them. -/
def Pathname.pairs (p q : Pathname) : List (Obj × Obj) :=
  [(p.host, q.host), (p.device, q.device), (p.directory, q.directory), (p.name, q.name),
    (p.type, q.type), (p.version, q.version)]

/-- ecl_equal. The budget bounds the depth of the traversal; none means it ran out. -/
def eclEqual (heap : Heap) : ℕ → Obj → Obj → Option Bool
  | 0, _, _ => none
  | fuel + 1, x, y =>
    if x = y then some true
    else match heap.deref x, heap.deref y with
      | some (.list a d), some (.list a' d') => allEqual (eclEqual heap fuel) [(a, a'), (d, d')]
      | some (.number a), some (.number b) => some (a.eql b)
      | some (.string s), some (.string s') => some (s.codes = s'.codes)
      | some (.bitvector v), some (.bitvector w) => some (bitvectorEqual v w)
      | some (.pathname p), some (.pathname q) => allEqual (eclEqual heap fuel) (p.pairs q)
      | some (.foreign a), some (.foreign b) => some (a = b)
      | _, _ => some false

end Objects
