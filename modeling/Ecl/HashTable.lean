import Ecl.ProbeChains
import Mathlib.Data.Rat.Floor
import Mathlib.Algebra.Order.Floor.Div

/-! Non-weak hash tables of src/c/hash.d: open addressing, linear probing, deletion by
backward shift, growth by ecl_extend_hashtable. Buckets are none where the key is OBJNULL.
The loops carry a step budget; none means that the budget ran out. -/
namespace EclHashTable

open ProbeChains

def mostPositiveFixnum : ℤ := 2 ^ 61 - 1

/-- The rehash size of make-hash-table: an increment or a growth factor. -/
inductive RehashSize where
  | fixnum (n : ℕ)
  | float (r : ℚ)
  deriving DecidableEq

/-- The growth parameters cl__make_hash_table accepts. A double product is the exact one
rounded (to 53 bits; sizes stay far below the largest double); factor is the threshold
after cl_max with min_threshold. -/
structure Sizing where
  rehashSize : RehashSize
  factor : ℚ
  round : ℚ → ℚ
  rehash_ok : ∀ r, rehashSize = .float r → 1 ≤ r
  round_monotone : ∀ a b, a ≤ b → round a ≤ round b
  round_exact : ∀ m k : ℕ, m ≤ 2 ^ 53 → round (m * 2 ^ k) = m * 2 ^ k
  factor_min : 1 / 10 ≤ factor

/-- The size computed by ecl_extend_hashtable, with lisp arithmetic. -/
def Sizing.newSize (z : Sizing) (oldSize : ℕ) : ℕ :=
  let newSizeObj : ℤ := match z.rehashSize with
    | .fixnum n => n + oldSize
    | .float r => ⌈z.round (r * z.round oldSize)⌉
  if newSizeObj ≤ mostPositiveFixnum then newSizeObj.toNat else oldSize * 2

def Sizing.limit (z : Sizing) (size : ℕ) : ℕ :=
  let limit := ⌊z.round (z.round size * z.factor)⌋.toNat
  if size ≤ limit then size - 1 else limit

structure HashTable (B : Type) where
  sizing : Sizing
  size : ℕ
  entries : ℕ
  limit : ℕ
  data : ℕ → Option B

/-- The parameters of HASH_TABLE_LOOP, HASH_TABLE_SET and HASH_TABLE_REMOVE: keys K as
looked up, values V, contents B of a used bucket. -/
structure TableOps (K V B : Type) where
  hash : K → ℕ
  test : K → B → Bool
  store : K → V → B
  update : B → V → B
  rehash : B → ℕ
  key : B → K
  value : B → V

/-- The EQ, EQL and EQUAL tables keep the key they were given. -/
def keyedOps {K V : Type} (test : K → K → Bool) (hash : K → ℕ) : TableOps K V (K × V) where
  hash := hash
  test key e := test key e.1
  store key val := (key, val)
  update e val := (e.1, val)
  rehash e := hash e.1
  key e := e.1
  value e := e.2

/-- Package tables keep 28 bits of the hash; the name is read off the symbol stored. -/
def packOps {K V : Type} (stringEq : K → K → Bool) (hash : K → ℕ) (symbolName : V → K) :
    TableOps K V (ℕ × V) where
  hash := hash
  test key e := decide (hash key % 2 ^ 28 = e.1) && stringEq key (symbolName e.2)
  store key val := (hash key % 2 ^ 28, val)
  update e val := (e.1, val)
  rehash e := hash (symbolName e.2)
  key e := symbolName e.2
  value e := e.2

variable {K V B : Type} (O : TableOps K V B)

def clMakeHashTable (z : Sizing) (size : ℕ) : HashTable B :=
  let hsize := if size < 16 then 16 else size
  { sizing := z, size := hsize, entries := 0, limit := z.limit hsize, data := fun _ => none }

/-- The exit test of HASH_TABLE_LOOP. -/
def loopTest (key : K) (t : HashTable B) (i : ℕ) : Bool :=
  match t.data i with
  | none => true
  | some e => O.test key e

/-- HASH_TABLE_LOOP: the first bucket from the home of the key that is free or matches. -/
def hashTableLoop (key : K) (t : HashTable B) : Option ℕ :=
  probe t.size (loopTest O key t) t.size (O.hash key % t.size)

def gethash (key : K) (t : HashTable B) (dflt : V) : Option V := do
  let i ← hashTableLoop O key t
  match t.data i with
  | none => some dflt
  | some e => some (O.value e)

/-- The allocation part of ecl_extend_hashtable. -/
def emptyExtension (t : HashTable B) : HashTable B :=
  let newSize := t.sizing.newSize t.size
  { t with size := newSize, entries := 0, limit := t.sizing.limit newSize, data := fun _ => none }

/-- ecl_extend_hashtable, storing with set every used bucket of the old table. -/
def eclExtendHashtable (set : K → V → HashTable B → Option (HashTable B))
    (t : HashTable B) : Option (HashTable B) :=
  (List.range t.size).foldlM (fun new i => match t.data i with
    | none => some new
    | some e => set (O.key e) (O.value e) new) (emptyExtension t)

/-- HASH_TABLE_SET. The budget bounds the depth of extensions, nested ones and retries. -/
def sethash : ℕ → K → V → HashTable B → Option (HashTable B)
  | 0, _, _, _ => none
  | fuel + 1, key, val, t => do
    let i ← hashTableLoop O key t
    match t.data i with
    | none =>
      if t.limit ≤ t.entries + 1 then do
        let new ← eclExtendHashtable O (sethash fuel) t
        sethash fuel key val new
      else
        some { t with
          entries := t.entries + 1
          data := Function.update t.data i (some (O.store key val)) }
    | some e => some { t with data := Function.update t.data i (some (O.update e val)) }

/-- The inner loop of HASH_TABLE_REMOVE: e is the hole, j the bucket looked at, k the
distance between them. -/
def fillHole (hsize : ℕ) : ℕ → (ℕ → Option B) → ℕ → ℕ → ℕ → Option (ℕ → Option B)
  | 0, _, _, _, _ => none
  | fuel + 1, data, e, j, k =>
    if hsize < k then some data
    else match data j with
      | none => some (Function.update data e none)
      | some f =>
        let m := O.rehash f % hsize
        -- distance of f from the optimal position
        let d := if m ≤ j then j - m else j + hsize - m
        if k ≤ d then fillHole hsize fuel (Function.update data e (some f)) j ((j + 1) % hsize) 1
        else fillHole hsize fuel data e ((j + 1) % hsize) (k + 1)

/-- HASH_TABLE_REMOVE. -/
def remhash (key : K) (t : HashTable B) : Option (Bool × HashTable B) := do
  let i ← hashTableLoop O key t
  match t.data i with
  | none => some (false, t)
  | some _ => do
    let data ← fillHole O t.size t.size t.data i ((i + 1) % t.size) 1
    some (true, { t with data := data, entries := t.entries - 1 })

def doClrhash (t : HashTable B) : HashTable B :=
  { t with entries := 0, data := fun i => if i < t.size then none else t.data i }

def clClrhash (t : HashTable B) : HashTable B :=
  if t.entries ≠ 0 then doClrhash t else t

inductive Op (K V : Type) where
  | set (key : K) (val : V)
  | rem (key : K)
  | clr
  deriving DecidableEq

def step (fuel : ℕ) (t : HashTable B) : Op K V → Option (HashTable B)
  | .set key val => sethash O fuel key val t
  | .rem key => (remhash O key t).map Prod.snd
  | .clr => some (clClrhash t)

def run (fuel : ℕ) (t : HashTable B) (ops : List (Op K V)) : Option (HashTable B) :=
  ops.foldlM (step O fuel) t

end EclHashTable
