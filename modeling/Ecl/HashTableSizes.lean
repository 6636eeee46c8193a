import Ecl.HashTable
import Ecl.RatioFloats

/-! make-hash-table, and storing in a non-weak hash table, with the arithmetic of src/c/hash.d
on the arguments as they are given. An extension can fail: the product of a float overflows,
memory runs out, or the bytes of the array do not fit a cl_index. -/
namespace HashTableSizes

open EclHashTable (TableOps)
open ProbeChains Integers Rationals NumberCompare FloatNumbers RatioFloats
open Equalp (FloatValue floatValue)

/-- The last one is not signalled: the loops write past the end of an array that is too short. -/
inductive Failure where
  | wrongType
  | arithmetic (e : ArithmeticError)
  | storageExhausted
  | overrun
  deriving DecidableEq

inductive RehashSize where
  | fixnum (n : ℤ)
  | double (d : FloatValue)
  deriving DecidableEq

structure HashTable (B : Type) where
  rehashSize : RehashSize
  factor : FloatValue
  size : ℕ
  entries : ℕ
  limit : ℕ
  data : ℕ → Option B

section arithmetic

def minusp : RealNumber → Bool
  | .rational (.integer n) => Rationals.minusp n
  | .rational (.ratio n _) => Rationals.minusp n
  | .float t bits => less (floatValue t bits) (.finite 0)

def isNan : RealNumber → Bool
  | .float t bits => floatValue t bits = .nan
  | _ => false

def ldexp (d : ℚ) (exponent : ℤ) : Except ArithmeticError FloatValue :=
  trapOverflow (toFloat .double (d * 2 ^ exponent))

def ratioToDouble (num den : Integer) : Except ArithmeticError FloatValue := do
  let (mantissa, exponent) ← mantissaAndExponentFromRatio num den 53
  ldexp mantissa.value exponent

/-- A float cast to a double. -/
def castDouble : FloatValue → Except ArithmeticError FloatValue
  | .finite q => trapOverflow (toFloat .double q)
  | d => .ok d

def eclToDouble : RealNumber → Except ArithmeticError FloatValue
  | .rational (.integer (.fixnum n)) => .ok (toFloat .double n.toInt)
  | .rational (.integer (.bignum z)) => ratioToDouble (.bignum z) (makeFixnum 1)
  | .rational (.ratio n d) => ratioToDouble n d
  | .float t bits => castDouble (floatValue t bits)

def multiply : FloatValue → FloatValue → FloatValue
  | .finite p, .finite q => toFloat .double (p * q)
  | .nan, _ => .nan
  | _, .nan => .nan
  | .infinity s, .infinity s' => .infinity (s != s')
  | .infinity s, .finite q => if q = 0 then .nan else .infinity (s != decide (q < 0))
  | .finite q, .infinity s => if q = 0 then .nan else .infinity (s != decide (q < 0))

/-- ecl_times of a double and a fixnum; overflow is trapped. -/
def timesFixnum : FloatValue → ℕ → Except ArithmeticError FloatValue
  | .finite r, n => trapOverflow (multiply (.finite r) (toFloat .double n))
  | d, n => .ok (multiply d (toFloat .double n))

def ceiling1 : FloatValue → Except ArithmeticError ℤ
  | .finite q => .ok ⌈q⌉
  | .infinity _ => .error .floatingPointOverflow
  | .nan => .error .floatingPointInvalidOperation

/-- A double cast to cl_index; C does not define the result for the others. -/
def castIndex : FloatValue → ℕ
  | .finite q => ⌊q⌋.toNat
  | _ => 0

def clMax (max num : RealNumber) : Except ArithmeticError RealNumber := do
  let c ← numberCompare max num
  return if (!isNan max && !isNan num && c < 0) || isNan max then num else max

end arithmetic

section sizes

/-- min_threshold, the single float 0.1. -/
def minThreshold : RealNumber := .float .single 0x3dcccccd

def one : RealNumber := .rational (.integer (makeFixnum 1))

def signals {α : Type} : Except ArithmeticError α → Except Failure α
  | .ok a => .ok a
  | .error e => .error (.arithmetic e)

def checkSize : RealNumber → Except Failure ℕ
  | .rational (.integer (.fixnum n)) =>
    if n.toInt < 0 ∨ mostPositiveFixnum ≤ n.toInt then .error .wrongType
    else .ok (if n.toInt < 16 then 16 else n.toInt.toNat)
  | _ => .error .wrongType

def checkRehashSize (rehashSize : RealNumber) : Except Failure RehashSize :=
  if minusp rehashSize then .error .wrongType
  else match rehashSize with
    | .float t bits => do
      let c ← signals (numberCompare (.float t bits) one)
      if c < 0 then .error .wrongType
      else
        let d ← signals (castDouble (floatValue t bits))
        return .double d
    | .rational (.integer (.fixnum n)) => .ok (.fixnum n.toInt)
    | _ => .error .wrongType

def checkThreshold (rehashThreshold : RealNumber) : Except Failure FloatValue :=
  if minusp rehashThreshold then .error .wrongType
  else do
    let c ← signals (numberCompare rehashThreshold one)
    if c > 0 then .error .wrongType
    else
      let threshold ← signals (clMax minThreshold rehashThreshold)
      signals (eclToDouble threshold)

def eclAlloc (n : ℕ) : Except Failure Unit :=
  let bytes := n * 16 % 2 ^ 64
  if 2 ^ 56 ≤ bytes then .error .storageExhausted
  else if bytes < n * 16 then .error .overrun
  else .ok ()

def limit (factor : FloatValue) (size : ℕ) : ℕ :=
  let limit := castIndex (multiply (toFloat .double size) factor)
  if size ≤ limit then size - 1 else limit

def newSizeObj : RehashSize → ℕ → Except ArithmeticError ℤ
  | .fixnum n, oldSize => .ok (n + oldSize)
  | .double d, oldSize => do
    let product ← timesFixnum d oldSize
    ceiling1 product

/-- The size and the array of ecl_extend_hashtable. -/
def newSize (rehashSize : RehashSize) (oldSize : ℕ) : Except Failure ℕ := do
  let obj ← signals (newSizeObj rehashSize oldSize)
  let size := if obj ≤ mostPositiveFixnum then obj.toNat else oldSize * 2
  eclAlloc size
  return size

def clMakeHashTable {B : Type} (size rehashSize rehashThreshold : RealNumber) :
    Except Failure (HashTable B) := do
  let hsize ← checkSize size
  let rehashSize ← checkRehashSize rehashSize
  let factor ← checkThreshold rehashThreshold
  eclAlloc hsize
  return { rehashSize := rehashSize, factor := factor, size := hsize, entries := 0,
           limit := limit factor hsize, data := fun _ => none }

end sizes

section storing

inductive Outcome (α : Type) where
  | returns (a : α)
  | fails (f : Failure)
  | runsOut

def Outcome.bind {α β : Type} : Outcome α → (α → Outcome β) → Outcome β
  | .returns a, f => f a
  | .fails e, _ => .fails e
  | .runsOut, _ => .runsOut

def Outcome.lift {α : Type} : Except Failure α → Outcome α
  | .ok a => .returns a
  | .error f => .fails f

variable {K V B : Type} (O : TableOps K V B)

def loopTest (key : K) (t : HashTable B) (i : ℕ) : Bool :=
  match t.data i with
  | none => true
  | some e => O.test key e

def hashTableLoop (key : K) (t : HashTable B) : Option ℕ :=
  probe t.size (loopTest O key t) t.size (O.hash key % t.size)

def emptyExtension (t : HashTable B) (size : ℕ) : HashTable B :=
  { t with size := size, entries := 0, limit := limit t.factor size, data := fun _ => none }

/-- The loop of ecl_extend_hashtable up to bucket i of the old table. -/
def rebuild (set : K → V → HashTable B → Outcome (HashTable B)) (t new : HashTable B) :
    ℕ → Outcome (HashTable B)
  | 0 => .returns new
  | i + 1 => (rebuild set t new i).bind fun new => match t.data i with
    | none => .returns new
    | some e => set (O.key e) (O.value e) new

def eclExtendHashtable (set : K → V → HashTable B → Outcome (HashTable B)) (t : HashTable B) :
    Outcome (HashTable B) :=
  (Outcome.lift (newSize t.rehashSize t.size)).bind fun size =>
    rebuild O set t (emptyExtension t size) t.size

/-- HASH_TABLE_SET at the bucket where the loop ended. -/
def setAt (key : K) (val : V) (t : HashTable B) (again : Outcome (HashTable B)) (i : ℕ) :
    Outcome (HashTable B) :=
  match t.data i with
  | none =>
    if t.limit ≤ t.entries + 1 then again
    else .returns { t with
      entries := t.entries + 1
      data := Function.update t.data i (some (O.store key val)) }
  | some e => .returns { t with data := Function.update t.data i (some (O.update e val)) }

/-- HASH_TABLE_SET. The budget bounds the depth of extensions, nested ones and retries. -/
def sethash : ℕ → K → V → HashTable B → Outcome (HashTable B)
  | 0, _, _, _ => .runsOut
  | fuel + 1, key, val, t =>
    (hashTableLoop O key t).elim .runsOut
      (setAt O key val t ((eclExtendHashtable O (sethash fuel) t).bind (sethash fuel key val)))

def sethashes (fuel : ℕ) (t : HashTable B) (pairs : ℕ → K × V) : ℕ → Outcome (HashTable B)
  | 0 => .returns t
  | n + 1 => (sethashes fuel t pairs n).bind (sethash O fuel (pairs n).1 (pairs n).2)

end storing

end HashTableSizes
