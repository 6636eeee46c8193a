import Mathlib.Data.Int.Notation
import Mathlib.Data.List.Basic

/-! The cache of src/c/clos/cache.d with threads. A key is a vector of objects; the hash value of
keys is a parameter. -/
namespace MethodCache

variable {K V : Type}

/-- OBJNULL stands in records that have never been used, NIL in those that have expired. -/
inductive Value (V : Type) where
  | objnull
  | nil
  | object (v : V)
  deriving DecidableEq

/-- No key is OBJNULL. -/
structure Record (K V : Type) where
  key : Option (List K)
  value : Value V
  gen : ℕ
  deriving DecidableEq

/-- The table has size records of three words each. -/
structure Cache (K V : Type) where
  table : ℕ → Record K V
  size : ℕ
  generation : ℕ
  clearList : List K

def Cache.set (c : Cache K V) (i : ℕ) (e : Record K V) : Cache K V :=
  { c with table := Function.update c.table i e }

@[simp] theorem Cache.set_size (c : Cache K V) (i : ℕ) (e : Record K V) :
    (c.set i e).size = c.size := rfl
@[simp] theorem Cache.set_generation (c : Cache K V) (i : ℕ) (e : Record K V) :
    (c.set i e).generation = c.generation := rfl
/-- ecl_make_cache with empty_cache. -/
def makeCache (size : ℕ) : Cache K V := ⟨fun _ => ⟨none, .objnull, 0⟩, size, 0, []⟩

/-- ecl_cache_remove_one. -/
def Cache.removeOne (c : Cache K V) (firstKey : K) : Cache K V :=
  { c with clearList := firstKey :: c.clearList }

def clearRecord [DecidableEq K] (list : List K) (e : Record K V) : Record K V :=
  match e.key with
  | some (k :: _) => if k ∈ list then { e with key := none, gen := 0 } else e
  | _ => e

/-- clear_list_from_cache takes the list away from the cache. -/
def Cache.clearListFromCache [DecidableEq K] (c : Cache K V) : Cache K V :=
  { c with table := fun i => clearRecord c.clearList (c.table i), clearList := [] }

/-- ecl_search_cache first applies the invalidations that have come. -/
def Cache.applyClearList [DecidableEq K] (c : Cache K V) : Cache K V :=
  if c.clearList = [] then c else c.clearListFromCache

/-- What the search of ecl_search_cache ends with. -/
inductive Probe where
  | found (i : ℕ)
  | notFound (oldest : Option ℕ)
  deriving DecidableEq

def Cache.next (c : Cache K V) (i : ℕ) : ℕ := if c.size ≤ i + 1 then 0 else i + 1

/-- The loop of ecl_search_cache, over k records from record i. -/
def Cache.probe [DecidableEq K] (c : Cache K V) (keys : List K) :
    ℕ → ℕ → ℤ → Option ℕ → Probe
  | 0, _, _, oldest => .notFound oldest
  | k + 1, i, minGen, oldest =>
    let e := c.table i
    let noMatch :=
      if e.gen < minGen then c.probe keys k (c.next i) e.gen (some i)
      else c.probe keys k (c.next i) minGen oldest
    match e.key with
    | none =>
      match e.value with
      | .objnull => .notFound (some i)
      | _ => c.probe keys k (c.next i) (-1) (some i)
    | some key =>
      if keys.length = key.length then
        if keys = key then .found i else noMatch
      else if 0 ≤ minGen then noMatch
      else c.probe keys k (c.next i) minGen oldest

def shiftRecord (gen : ℕ) (e : Record K V) : Record K V :=
  if e.gen ≤ gen then ⟨none, .nil, 0⟩ else { e with gen := e.gen - gen }

def Cache.shift (c : Cache K V) : Cache K V :=
  let gen := c.generation / 2
  { c with table := fun i => shiftRecord gen (c.table i), generation := c.generation - gen }

/-- The record becomes as old as the cache, and all become younger if they are too old. -/
def Cache.refresh (c : Cache K V) (i : ℕ) : Cache K V :=
  let c := c.set i { c.table i with gen := c.generation }
  if c.generation ≥ 3 * c.size / 2 then c.shift else c

section
variable [DecidableEq K] (hash : List K → ℕ)

def Cache.start (c : Cache K V) (keys : List K) : ℕ := hash keys % (3 * c.size) / 3

/-- ecl_search_cache: the record and the new cache, or none for the internal error. -/
def Cache.search (c : Cache K V) (keys : List K) : Option (ℕ × Cache K V) :=
  let c := c.applyClearList
  match c.probe keys 20 (c.start hash keys) c.generation none with
  | .found i => some (i, c.refresh i)
  | .notFound none => none
  | .notFound (some i) =>
    let c := c.set i { c.table i with key := none }
    some (i, { c with generation := c.generation + 1 }.refresh i)

def Cache.store (c : Cache K V) (i : ℕ) (keys : List K) (v : V) : Cache K V :=
  c.set i { c.table i with key := some keys, value := .object v }

end

def Cache.window (c : Cache K V) : ℕ → ℕ → List ℕ
  | 0, _ => []
  | k + 1, i => i :: c.window k (c.next i)

section
variable [DecidableEq K] {c : Cache K V} {keys : List K}

theorem probe_found {k i j : ℕ} {minGen : ℤ} {oldest : Option ℕ}
    (h : c.probe keys k i minGen oldest = .found j) : (c.table j).key = some keys := by
  induction k generalizing i minGen oldest with
  | zero => cases h
  | succ k ih =>
    simp only [Cache.probe] at h
    split at h
    · split at h
      · cases h
      · exact ih h
    · next key hkey =>
      split at h
      · split at h
        · next hkeys =>
          cases h
          rw [hkey, hkeys]
        · split at h <;> exact ih h
      · split at h
        · split at h <;> exact ih h
        · exact ih h

theorem probe_some {k i : ℕ} {minGen : ℤ} {oldest : Option ℕ} (h : oldest ≠ none) :
    c.probe keys k i minGen oldest ≠ .notFound none := by
  induction k generalizing i minGen oldest with
  | zero =>
    intro hnone
    rw [Cache.probe, Probe.notFound.injEq] at hnone
    exact h hnone
  | succ k ih =>
    simp only [Cache.probe]
    split
    · split
      · exact nofun
      · exact ih (Option.some_ne_none i)
    · split
      · split
        · exact nofun
        · split
          · exact ih (Option.some_ne_none i)
          · exact ih h
      · split
        · split
          · exact ih (Option.some_ne_none i)
          · exact ih h
        · exact ih h

theorem probe_none_iff {k i gen : ℕ} : c.probe keys k i gen none = .notFound none ↔
    ∀ j ∈ c.window k i, ∃ key, (c.table j).key = some key ∧ key ≠ keys ∧ gen ≤ (c.table j).gen := by
  induction k generalizing i with
  | zero => simp [Cache.probe, Cache.window]
  | succ k ih =>
    rw [Cache.window, List.forall_mem_cons, ← ih]
    simp only [Cache.probe]
    split
    · next hkey =>
      constructor
      · intro h
        split at h
        · cases h
        · exact absurd h (probe_some (Option.some_ne_none i))
      · rintro ⟨⟨key, hsome, -⟩, -⟩
        rw [hkey] at hsome
        cases hsome
    · next key hkey =>
      have hold : (if ((c.table i).gen : ℤ) < gen then
            c.probe keys k (c.next i) (c.table i).gen (some i)
          else c.probe keys k (c.next i) gen none) = .notFound none ↔
          gen ≤ (c.table i).gen ∧ c.probe keys k (c.next i) gen none = .notFound none := by
        split
        · next hlt =>
          constructor
          · exact fun h => absurd h (probe_some (Option.some_ne_none i))
          · exact fun h => absurd h.1 (by omega)
        · next hge => exact ⟨fun h => ⟨by omega, h⟩, fun h => h.2⟩
      have hother : (∃ key', (c.table i).key = some key' ∧ key' ≠ keys ∧ gen ≤ (c.table i).gen) ↔
          key ≠ keys ∧ gen ≤ (c.table i).gen := by
        rw [hkey]
        exact ⟨fun ⟨_, hsome, h⟩ => Option.some.inj hsome ▸ h, fun h => ⟨key, rfl, h⟩⟩
      rw [hother]
      split
      · split
        · next hkeys =>
          constructor
          · exact nofun
          · exact fun h => absurd hkeys.symm h.1.1
        · next hkeys =>
          rw [hold]
          exact ⟨fun h => ⟨⟨fun e => hkeys e.symm, h.1⟩, h.2⟩, fun h => ⟨h.1.2, h.2⟩⟩
      · next hlength =>
        rw [if_pos (Int.natCast_nonneg gen), hold]
        have hne : key ≠ keys := fun e => hlength (congrArg List.length e.symm)
        exact ⟨fun h => ⟨⟨hne, h.1⟩, h.2⟩, fun h => ⟨h.1.2, h.2⟩⟩

theorem search_cases {hash : List K → ℕ} {i : ℕ} {c' : Cache K V}
    (h : c.search hash keys = some (i, c')) :
    ((c.applyClearList.table i).key = some keys ∧ c' = c.applyClearList.refresh i) ∨
      c' = { c.applyClearList.set i { c.applyClearList.table i with key := none } with
        generation := c.applyClearList.generation + 1 }.refresh i := by
  rw [Cache.search] at h
  cases hprobe : c.applyClearList.probe keys 20 (c.applyClearList.start hash keys)
      c.applyClearList.generation none with
  | found j =>
    simp only [hprobe, Option.some.injEq, Prod.mk.injEq] at h
    obtain ⟨rfl, rfl⟩ := h
    exact Or.inl ⟨probe_found hprobe, rfl⟩
  | notFound oldest =>
    cases oldest with
    | none => simp only [hprobe, reduceCtorEq] at h
    | some j =>
      simp only [hprobe, Option.some.injEq, Prod.mk.injEq] at h
      obtain ⟨rfl, rfl⟩ := h
      exact Or.inr rfl

end

end MethodCache
