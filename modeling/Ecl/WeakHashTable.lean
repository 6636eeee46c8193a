import Ecl.HashTable

/-! Weak hash tables of src/c/hash.d. The collector may run at every copy_entry; it clears
the weak pointers to the objects that it finds dead. A cl_index has 64 bits. -/
namespace WeakHashTable

open ProbeChains
open EclHashTable (Sizing)

inductive Weakness where
  | key | value | keyAndValue | keyOrValue
  deriving DecidableEq

/-- An entry names the key and the value that it was made for, alive or not. -/
inductive Bucket (K V : Type) where
  | free
  | tombstone
  | entry (key : K) (value : V)
  deriving DecidableEq

structure Collected (K V : Type) where
  key : K → Bool
  value : V → Bool

def Collected.union {K V : Type} (c d : Collected K V) : Collected K V :=
  ⟨fun k => c.key k || d.key k, fun v => c.value v || d.value v⟩

/-- _ecl_hash_key and _ecl_hash_test. A test of a key against OBJNULL fails, or reads the
memory at zero. -/
structure HashTest (K : Type) where
  hashKey : K → ℕ
  test : K → K → Bool
  nullFaults : K → Bool

/-- A table, the memory that its buckets may take, and the collections still to come. -/
structure Table (K V : Type) where
  sizing : Sizing
  weak : Weakness
  memory : ℕ
  size : ℕ
  entries : ℕ
  limit : ℕ
  data : ℕ → Bucket K V
  collected : Collected K V
  pending : List (Collected K V)

/-- How a call ends: with a result, in a memory fault, without memory, or never. -/
inductive Outcome (α T : Type) where
  | returns (a : α) (t : T)
  | faults (t : T)
  | exhausted
  | endless

def Outcome.bind {α β T : Type} : Outcome α T → (α → T → Outcome β T) → Outcome β T
  | .returns a t, f => f a t
  | .faults t, _ => .faults t
  | .exhausted, _ => .exhausted
  | .endless, _ => .endless

variable {K V : Type} (O : HashTest K)

def collect (t : Table K V) : Table K V :=
  match t.pending with
  | [] => t
  | g :: gs => { t with collected := t.collected.union g, pending := gs }

def lost (w : Weakness) (c : Collected K V) (k : K) (v : V) : Bool :=
  match w with
  | .key => c.key k
  | .value => c.value v
  | .keyAndValue => c.key k || c.value v
  | .keyOrValue => c.key k && c.value v

def copyBucket (w : Weakness) (c : Collected K V) : Bucket K V → Bucket K V
  | .entry k v => if lost w c k v then .tombstone else .entry k v
  | b => b

/-- copy_entry, which leaves a tombstone for a lost entry. -/
def copyEntry (t : Table K V) (i : ℕ) : Table K V :=
  let t := collect t
  { t with data := Function.update t.data i (copyBucket t.weak t.collected (t.data i)) }

/-- The key and the value of the copy; only a :key-or-value entry outlives one of them. -/
def entryKey (w : Weakness) (c : Collected K V) (k : K) : Option K :=
  if w = .keyOrValue ∧ c.key k = true then none else some k

def entryValue (w : Weakness) (c : Collected K V) (v : V) : Option V :=
  if w = .keyOrValue ∧ c.value v = true then none else some v

/-- The probe loop, from bucket i on, with the last tombstone that it has met. -/
def probe (nullFaults : K → Bool) (key : K) (hsize : ℕ) :
    ℕ → ℕ → Option ℕ → Table K V → Outcome (ℕ × Option ℕ) (Table K V)
  | 0, _, _, _ => .endless
  | fuel + 1, i, f, t =>
    let t := copyEntry t i
    match t.data i with
    | .free => .returns (i, f) t
    | .tombstone => probe nullFaults key hsize fuel ((i + 1) % hsize) (some i) t
    | .entry k _ =>
      match entryKey t.weak t.collected k with
      | none =>
        if nullFaults key then .faults t
        else probe nullFaults key hsize fuel ((i + 1) % hsize) f t
      | some k =>
        if O.test key k then .returns (i, f) t
        else probe nullFaults key hsize fuel ((i + 1) % hsize) f t

def probeFuel (hsize : ℕ) (t : Table K V) : ℕ := t.pending.length + hsize

def gethashWeak (key : K) (t : Table K V) (dflt : Option V) : Outcome (Option V) (Table K V) :=
  (probe O O.nullFaults key t.size (probeFuel t.size t) (O.hashKey key % t.size) none t).bind
    fun p t => match t.data p.1 with
      | .entry _ v => .returns (entryValue t.weak t.collected v) t
      | _ => .returns dflt t

def store (t : Table K V) (f : ℕ) (key : K) (value : V) : Table K V :=
  { t with data := Function.update t.data f (.entry key value) }

/-- The loop of ecl_extend_hashtable over the old buckets, of which n are left from i on. -/
def rebuild (set : K → V → Table K V → Outcome Unit (Table K V)) (old : ℕ → Bucket K V) :
    ℕ → ℕ → Table K V → Outcome Unit (Table K V)
  | 0, _, new => .returns () new
  | n + 1, i, new =>
    let new := collect new
    match copyBucket new.weak new.collected (old i) with
    | .entry k v =>
      match entryKey new.weak new.collected k with
      | none => rebuild set old n (i + 1) new
      | some k => (set k v new).bind fun _ new => rebuild set old n (i + 1) new
    | _ => rebuild set old n (i + 1) new

def emptyExtension (t : Table K V) : Table K V :=
  let newSize := t.sizing.newSize t.size
  { t with
    size := newSize
    entries := 0
    limit := t.sizing.limit newSize
    data := fun _ => .free }

/-- ecl_extend_hashtable; a bucket takes 16 bytes. -/
def eclExtendHashtable (set : K → V → Table K V → Outcome Unit (Table K V)) (t : Table K V) :
    Outcome Unit (Table K V) :=
  if t.memory < 16 * t.sizing.newSize t.size then .exhausted
  else rebuild set t.data t.size 0 (emptyExtension t)

/-- _ecl_sethash_weak from the label AGAIN on. The size is the one before any extension; the
depth bounds the extensions, nested ones and retries. -/
def sethashAgain : ℕ → ℕ → K → V → Table K V → Outcome Unit (Table K V)
  | 0, _, _, _, _ => .endless
  | depth + 1, hsize, key, value, t =>
    (probe O O.nullFaults key hsize (probeFuel hsize t) (O.hashKey key % hsize) none t).bind
      fun p t => match t.data p.1, p.2 with
        | .free, none =>
          let i := (t.entries + 1) % 2 ^ 64
          if i ≥ t.limit then
            (eclExtendHashtable (fun k v new => sethashAgain depth new.size k v new) t).bind
              fun _ t => sethashAgain depth hsize key value t
          else .returns () (store { t with entries := i } p.1 key value)
        | .free, some f => .returns () (store t f key value)
        | _, _ => .returns () (store t p.1 key value)

/-- Sizes are bounded by the memory, so that an insertion that still goes on at this depth
does not make the table larger. -/
def sethashWeak (key : K) (value : V) (t : Table K V) : Outcome Unit (Table K V) :=
  sethashAgain O (t.memory + t.pending.length + 1) t.size key value t

/-- The copy of the entry at j, unless its key is OBJNULL. -/
def copiedEntry (t : Table K V) (j : ℕ) : Option (K × V) :=
  match t.data j with
  | .entry k v => (entryKey t.weak t.collected k).map fun k => (k, v)
  | _ => none

/-- The inner loop of _ecl_remhash_weak: p is the hole, j the bucket looked at, k the
distance between them. -/
def shift (hsize : ℕ) : ℕ → ℕ → ℕ → ℕ → Table K V → Outcome Unit (Table K V)
  | 0, _, _, _, _ => .endless
  | fuel + 1, p, j, k, t =>
    if hsize < k then .returns () t
    else
      let t := copyEntry t j
      match copiedEntry t j with
      | none => .returns () { t with data := Function.update t.data p .free }
      | some (fk, fv) =>
        let m := O.hashKey fk % hsize
        let d := if m ≤ j then j - m else j + hsize - m
        if k ≤ d then shift hsize fuel j ((j + 1) % hsize) 1 (store t p fk fv)
        else shift hsize fuel p ((j + 1) % hsize) (k + 1) t

/-- Each move brings an entry closer to its home, so that the shift ends in so many steps. -/
def shiftFuel (hsize : ℕ) : ℕ := (hsize + 1) ^ 3

def remhashWeak (key : K) (t : Table K V) : Outcome Bool (Table K V) :=
  (probe O (fun _ => false) key t.size (probeFuel t.size t) (O.hashKey key % t.size) none t).bind
    fun p t => match t.data p.1 with
      | .entry _ _ =>
        (shift O t.size (shiftFuel t.size) p.1 ((p.1 + 1) % t.size) 1 t).bind fun _ t =>
          .returns true { t with entries := (t.entries + (2 ^ 64 - 1)) % 2 ^ 64 }
      | _ => .returns false t

/-- The loop of ecl_hash_table_count over the n buckets left from i on. -/
def countLoop : ℕ → ℕ → ℕ → Table K V → ℕ × Table K V
  | 0, _, j, t => (j, t)
  | n + 1, i, j, t =>
    let t := copyEntry t i
    match copiedEntry t i with
    | none => countLoop n (i + 1) j t
    | some _ => if j + 1 = t.size then (j + 1, t) else countLoop n (i + 1) (j + 1) t

def eclHashTableCount (t : Table K V) : Outcome ℕ (Table K V) :=
  if t.size ≠ 0 then
    let p := countLoop t.size 0 0 t
    .returns p.1 { p.2 with entries := p.1 }
  else .returns 0 t

def doClrhash (t : Table K V) : Table K V :=
  { t with entries := 0, data := fun i => if i < t.size then .free else t.data i }

def clClrhash (t : Table K V) : Table K V := if t.entries ≠ 0 then doClrhash t else t

inductive Op (K V : Type) where
  | gethash (key : K)
  | sethash (key : K) (value : V)
  | remhash (key : K)
  | hashTableCount
  | clrhash
  deriving DecidableEq

def step (t : Table K V) : Op K V → Outcome Unit (Table K V)
  | .gethash k => (gethashWeak O k t none).bind fun _ t => .returns () t
  | .sethash k v => sethashWeak O k v t
  | .remhash k => (remhashWeak O k t).bind fun _ t => .returns () t
  | .hashTableCount => (eclHashTableCount t).bind fun _ t => .returns () t
  | .clrhash => .returns () (clClrhash t)

/-- make-hash-table with a weakness, in a heap where nothing has been collected. -/
def makeHashTable (sizing : Sizing) (weak : Weakness) (memory size : ℕ) : Table K V :=
  let hsize := if size < 16 then 16 else size
  { sizing := sizing
    weak := weak
    memory := memory
    size := hsize
    entries := 0
    limit := sizing.limit hsize
    data := fun _ => .free
    collected := ⟨fun _ => false, fun _ => false⟩
    pending := [] }

def Outcome.Leaves {α T : Type} (o : Outcome α T) (t : T) : Prop :=
  (∃ a, o = .returns a t) ∨ o = .faults t

def Step (t : Table K V) (op : Op K V) (gcs : List (Collected K V)) (t' : Table K V) : Prop :=
  (step O { t with pending := gcs } op).Leaves t'

/-- Calls one after another, each meeting a condition on the table before it, with the
collections to come. -/
inductive Runs (meets : Table K V → Op K V → Prop) (t : Table K V) : Table K V → Prop where
  | start : Runs meets t t
  | step {t' t'' : Table K V} {op : Op K V} {gcs : List (Collected K V)} :
      Runs meets t t' → meets { t' with pending := gcs } op → Step O t' op gcs t'' →
      Runs meets t t''

/-- The tables that such calls lead to from a new one, for which there was memory. -/
def Reachable (meets : Table K V → Op K V → Prop) (t : Table K V) : Prop :=
  ∃ sizing weak memory size, 16 * max 16 size ≤ memory ∧ memory < 2 ^ 64 ∧
    Runs O meets (makeHashTable sizing weak memory size) t

end WeakHashTable
