import Ecl.HashTableGrowth
import Ecl.ObjectEquality

/-! Runs of hash table operations against finite maps, for the tests EQ, EQL and EQUAL and
for the tables of packages. -/
namespace EclHashTable

open ProbeChains Objects

variable {K V B : Type} {O : TableOps K V B} {same : K → K → Prop} {admits : K → V → Prop}
  {wf : B → Prop}

def applyOp (same : K → K → Prop) [DecidableRel same] (m : K → Option V) :
    Op K V → K → Option V
  | .set k v => fun k' => if same k k' then some v else m k'
  | .rem k => fun k' => if same k k' then none else m k'
  | .clr => fun _ => none

def finiteMap (same : K → K → Prop) [DecidableRel same] (ops : List (Op K V)) : K → Option V :=
  ops.foldl (applyOp same) (fun _ => none)

structure Refines (O : TableOps K V B) (same : K → K → Prop) (t : HashTable B)
    (m : K → Option V) : Prop where
  lookup : ∀ k dflt, gethash O k t dflt = some ((m k).getD dflt)
  unique : Distinct t.size (fun x y => same (O.key x) (O.key y)) t.data
  count : t.entries = occupied t.size t.data
  free : ∃ i < t.size, t.data i = none
  chained : Chained t.size (home O t.size) t.data
  reachable : ∀ q < t.size, ∀ b, t.data q = some b → hashTableLoop O (O.key b) t = some q

def Represents (O : TableOps K V B) (same : K → K → Prop) (t : HashTable B)
    (m : K → Option V) : Prop :=
  ∀ k v, Holds O same t k v ↔ m k = some v

theorem refines_of_represents (hO : Lawful O same admits wf) {t : HashTable B}
    (ht : Invariant O same wf t) {m : K → Option V} (hm : Represents O same t m) :
    Refines O same t m where
  lookup := by
    intro k dflt
    rcases gethash_finds hO ht k dflt with ⟨v, hv, hget⟩ | ⟨habsent, hget⟩
    · rw [hget, (hm k v).mp hv, Option.getD_some]
    · have hnone : m k = none := by
        cases hk : m k with
        | none => rfl
        | some v => exact absurd ((hm k v).mpr hk) (habsent v)
      rw [hget, hnone, Option.getD_none]
  unique := ht.distinct
  count := ht.count
  free := ht.free
  chained := ht.chained
  reachable := by
    intro q hq b hb
    obtain ⟨i, hi, hloop, _, ⟨e, he, hsame⟩ | ⟨_, habsent⟩⟩ := loop_finds hO ht (O.key b)
    · rw [hloop, ht.distinct i hi q hq e b he hb (hO.equivalence.symm hsame)]
    · exact absurd (hO.equivalence.refl _) (habsent b ⟨q, hq, hb⟩)

theorem step_preserves [DecidableRel same] (hO : Lawful O same admits wf) {fuel : ℕ}
    {t t' : HashTable B} {m : K → Option V} {op : Op K V} (ht : Invariant O same wf t)
    (hm : Represents O same t m) (hpairs : ∀ k v, op = .set k v → admits k v)
    (hstep : step O fuel t op = some t') :
    Invariant O same wf t' ∧ Represents O same t' (applyOp same m op) := by
  cases op with
  | set k v =>
    obtain ⟨hinv, hstored, _⟩ := sethash_stores hO fuel k v t t' ht (hpairs k v rfl) hstep
    refine ⟨hinv, fun k' v' => ?_⟩
    rw [hstored k' v', hm k' v', applyOp]
    by_cases hk : same k k' <;> simp [hk, eq_comm]
  | rem k =>
    obtain ⟨found, t'', hrem, _, hinv, hremoved, _⟩ := remhash_removes hO ht k
    simp only [step, hrem, Option.map_some, Option.some.injEq] at hstep
    subst t'
    refine ⟨hinv, fun k' v' => ?_⟩
    rw [hremoved k' v', hm k' v', applyOp]
    by_cases hk : same k k' <;> simp [hk]
  | clr =>
    simp only [step, Option.some.injEq] at hstep
    subst t'
    obtain ⟨hinv, hempty, _⟩ := clrhash_clears ht
    refine ⟨hinv, fun k' v' => ?_⟩
    simp [hempty, applyOp]

theorem run_preserves [DecidableRel same] (hO : Lawful O same admits wf) {fuel : ℕ} :
    ∀ {ops : List (Op K V)} {t t' : HashTable B} {m : K → Option V}, Invariant O same wf t →
      Represents O same t m → (∀ k v, .set k v ∈ ops → admits k v) →
      run O fuel t ops = some t' →
      Invariant O same wf t' ∧ Represents O same t' (ops.foldl (applyOp same) m) := by
  intro ops
  induction ops with
  | nil =>
    intro t t' m ht hm _ hrun
    simp only [run, List.foldlM_nil, Option.pure_def, Option.some.injEq] at hrun
    subst t'
    exact ⟨ht, hm⟩
  | cons op ops ih =>
    intro t t' m ht hm hpairs hrun
    simp only [run, List.foldlM_cons, Option.bind_eq_bind, Option.bind_eq_some_iff] at hrun
    obtain ⟨t'', hstep, hrest⟩ := hrun
    obtain ⟨hinv, hrep⟩ := step_preserves hO ht hm
      (fun k v h => hpairs k v (by simp [h])) hstep
    exact ih hinv hrep (fun k v h => hpairs k v (by simp [h])) hrest

theorem make_invariant (z : Sizing) (size : ℕ) :
    Invariant O same wf (clMakeHashTable z size) := by
  unfold clMakeHashTable
  exact empty_invariant z (by split <;> omega)

theorem make_size (z : Sizing) (size : ℕ) :
    16 ≤ (clMakeHashTable z size : HashTable B).size := by
  unfold clMakeHashTable
  dsimp only
  split <;> omega

/-- With a growing rehash size one budget serves every operation of a run. -/
theorem run_returns (hO : Lawful O same admits wf) {z : Sizing} (hz : z.Grows) {S N : ℕ}
    (hS : ∀ s ≥ S, N + 1 < z.limit s) :
    ∀ {ops : List (Op K V)} {t : HashTable B}, Invariant O same wf t → t.sizing = z →
      16 ≤ t.size → t.entries + ops.length ≤ N → (∀ k v, .set k v ∈ ops → admits k v) →
      ∃ t', run O (S + 1) t ops = some t' := by
  intro ops
  induction ops with
  | nil => intro t _ _ _ _ _; exact ⟨t, rfl⟩
  | cons op ops ih =>
    intro t ht hsizing hmin hN hpairs
    rw [List.length_cons] at hN
    have hnext : ∃ t', step O (S + 1) t op = some t' ∧ Invariant O same wf t' ∧
        t'.sizing = z ∧ 16 ≤ t'.size ∧ t'.entries ≤ t.entries + 1 := by
      cases op with
      | set k v =>
        have hkv := hpairs k v (by simp)
        obtain ⟨t', hset, hsize, hentries⟩ := sethash_returns hO hz hS S k v t ht hkv hsizing
          (by omega) hmin (by omega)
        obtain ⟨hinv, _, hsz⟩ := sethash_stores hO _ k v t t' ht hkv hset
        exact ⟨t', hset, hinv, hsz.trans hsizing, by omega, hentries⟩
      | rem k =>
        obtain ⟨found, t', hrem, _, hinv, _, hsz, hsize, hentries⟩ := remhash_removes hO ht k
        exact ⟨t', by simp [step, hrem], hinv, hsz.trans hsizing, by omega, by omega⟩
      | clr =>
        obtain ⟨hinv, _, hsz, hsize, hentries⟩ := clrhash_clears ht
        exact ⟨clClrhash t, rfl, hinv, hsz.trans hsizing, by omega, by omega⟩
    obtain ⟨t', hstep, hinv, hsz, hmin', hentries⟩ := hnext
    obtain ⟨t'', hrest⟩ := ih hinv hsz hmin' (by omega) (fun k v h => hpairs k v (by simp [h]))
    refine ⟨t'', ?_⟩
    simp only [run, List.foldlM_cons, Option.bind_eq_bind, hstep, Option.bind_some]
    exact hrest

/-- Whatever its parameters, a table that returns from a run of operations refines the
finite map of the run; with a growing rehash size every run returns. -/
def RefinesFiniteMap (O : TableOps K V B) (same : K → K → Prop) [DecidableRel same]
    (admits : K → V → Prop) : Prop :=
  ∀ (z : Sizing) (size : ℕ) (ops : List (Op K V)), (∀ k v, .set k v ∈ ops → admits k v) →
    (∀ fuel t, run O fuel (clMakeHashTable z size) ops = some t →
      Refines O same t (finiteMap same ops)) ∧
    (z.Grows → ∃ fuel t, run O fuel (clMakeHashTable z size) ops = some t)

theorem lawful_refines [DecidableRel same] (hO : Lawful O same admits wf) :
    RefinesFiniteMap O same admits := by
  intro z size ops hpairs
  refine ⟨fun fuel t hrun => ?_, fun hz => ?_⟩
  · have hempty : Represents O same (clMakeHashTable z size) (fun _ => none) := by
      intro k v
      refine iff_of_false ?_ (by simp)
      rintro ⟨e, ⟨p, _, hp⟩, _⟩
      simp [clMakeHashTable] at hp
    obtain ⟨hinv, hrep⟩ := run_preserves hO (make_invariant z size) hempty hpairs hrun
    exact refines_of_represents hO hinv hrep
  · obtain ⟨S, hS⟩ := z.limit_unbounded (ops.length + 1)
    obtain ⟨t, ht⟩ := run_returns hO hz (S := S) (N := ops.length) hS (make_invariant z size) rfl
      (make_size z size) (by simp [clMakeHashTable]) hpairs
    exact ⟨S + 1, t, ht⟩

theorem keyed_lawful {test : K → K → Bool} {hash : K → ℕ}
    (htest : Equivalence (fun x y => test x y = true))
    (hhash : ∀ x y, test x y = true → hash x = hash y) :
    Lawful (keyedOps (V := V) test hash) (fun x y => test x y = true) (fun _ _ => True)
      (fun _ => True) where
  equivalence := htest
  hash_same := hhash
  test_iff := fun _ _ _ => Iff.rfl
  rehash_key := fun _ _ => rfl
  admits_stored := fun _ _ => trivial
  store_wf := fun _ _ _ => trivial
  store_key := fun k _ _ => htest.refl k
  store_value := fun _ _ => rfl
  update_wf := fun _ _ _ _ _ _ => trivial
  update_key := fun _ _ _ _ h _ => h
  update_value := fun _ _ => rfl

/-- Package tables store a symbol under its own name. -/
theorem pack_lawful {stringEq : K → K → Bool} {hash : K → ℕ} {symbolName : V → K}
    (hstring : Equivalence (fun x y => stringEq x y = true))
    (hhash : ∀ x y, stringEq x y = true → hash x = hash y) :
    Lawful (packOps stringEq hash symbolName) (fun x y => stringEq x y = true)
      (fun key val => stringEq key (symbolName val) = true)
      (fun e => e.1 = hash (symbolName e.2) % 2 ^ 28) where
  equivalence := hstring
  hash_same := hhash
  test_iff := by
    intro k e he
    simp only [packOps, Bool.and_eq_true, decide_eq_true_eq, and_iff_right_iff_imp]
    intro h
    rw [he, hhash _ _ h]
  rehash_key := fun _ _ => rfl
  admits_stored := fun e _ => hstring.refl _
  store_wf := fun k v h => by simp only [packOps, hhash _ _ h]
  store_key := fun _ _ h => h
  store_value := fun _ _ => rfl
  update_wf := by
    intro k v e he hk hkv
    simp only [packOps] at hk ⊢
    rw [he, ← hhash _ _ hk, hhash _ _ hkv]
  update_key := fun _ _ _ _ _ h => h
  update_value := fun _ _ => rfl

/-- The keys on which ecl_equal returns within the budget. -/
abbrev FiniteKey (heap : Heap) (fuel : ℕ) := {x : Obj // ends heap fuel x = true}

def equalTest (heap : Heap) (fuel : ℕ) (x y : FiniteKey heap fuel) : Bool :=
  (eclEqual heap fuel x y).getD false

theorem equalTest_iff {heap : Heap} {fuel : ℕ} {x y : FiniteKey heap fuel} :
    equalTest heap fuel x y = true ↔ eclEqual heap fuel x y = some true := by
  obtain ⟨b, hb⟩ := eclEqual_returns y.1 x.2
  simp [equalTest, hb]

theorem equalTest_equivalence (heap : Heap) (fuel : ℕ) :
    Equivalence (fun x y => equalTest heap fuel x y = true) := by
  cases fuel with
  | zero =>
    have hempty : ∀ x : FiniteKey heap 0, False := fun x => by simpa [ends] using x.2
    exact ⟨fun x => (hempty x).elim, fun {x _} => (hempty x).elim,
      fun {x _ _} => (hempty x).elim⟩
  | succ fuel =>
    simp only [equalTest_iff]
    have heq := eclEqual_equivalence heap fuel
    exact ⟨fun x => heq.refl x.1, heq.symm, heq.trans⟩

def eclStringEq (s s' : LispString) : Bool := s.codes = s'.codes

theorem eclStringEq_equivalence : Equivalence (fun s s' => eclStringEq s s' = true) where
  refl s := by simp [eclStringEq]
  symm {s s'} h := by simp_all [eclStringEq]
  trans {s s' s''} h h' := by simp_all [eclStringEq]

/-- Non-weak EQ, EQL, EQUAL and package tables refine finite maps, for every hash function
constant on the keys that the table's test identifies. -/
theorem hash_tables_refine_finite_maps (V : Type) :
    (∀ hash : Obj → ℕ, RefinesFiniteMap (keyedOps (V := V) eclEq hash)
      (fun x y => eclEq x y = true) (fun _ _ => True)) ∧
    (∀ (heap : Heap) (hash : Obj → ℕ), (∀ x y, eclEql heap x y = true → hash x = hash y) →
      RefinesFiniteMap (keyedOps (V := V) (eclEql heap) hash)
        (fun x y => eclEql heap x y = true) (fun _ _ => True)) ∧
    (∀ (heap : Heap) (fuel : ℕ) (hash : FiniteKey heap fuel → ℕ),
      (∀ x y, equalTest heap fuel x y = true → hash x = hash y) →
      RefinesFiniteMap (keyedOps (V := V) (equalTest heap fuel) hash)
        (fun x y => equalTest heap fuel x y = true) (fun _ _ => True)) ∧
    (∀ (symbolName : V → LispString) (hash : LispString → ℕ),
      (∀ x y, eclStringEq x y = true → hash x = hash y) →
      RefinesFiniteMap (packOps eclStringEq hash symbolName)
        (fun x y => eclStringEq x y = true)
        (fun key val => eclStringEq key (symbolName val) = true)) := by
  refine ⟨fun hash => ?_, fun heap hash h => ?_, fun heap fuel hash h => ?_,
    fun symbolName hash h => ?_⟩
  · refine lawful_refines (keyed_lawful eclEq_equivalence fun x y h => ?_)
    simp only [eclEq, decide_eq_true_eq] at h
    rw [h]
  · exact lawful_refines (keyed_lawful (eclEql_equivalence heap) h)
  · exact lawful_refines (keyed_lawful (equalTest_equivalence heap fuel) h)
  · exact lawful_refines (pack_lawful eclStringEq_equivalence h)

/-- The parameters of make-hash-table by default; sizes this small are exact doubles. -/
def defaultSizing : Sizing where
  rehashSize := .float (3 / 2)
  factor := 3 / 4
  round := id
  rehash_ok := by rintro r h; cases h; norm_num
  round_monotone := fun _ _ h => h
  round_exact := fun _ _ _ => rfl
  factor_min := by norm_num

def fixnumHash : Obj → ℕ
  | .fixnum n => n.natAbs
  | _ => 0

theorem fixnumHash_eql (heap : Heap) (x y : Obj) (h : eclEql heap x y = true) :
    fixnumHash x = fixnumHash y := by
  rcases eclEql_cases.mp h with rfl | ⟨_, _, hx, hy, _⟩ | ⟨_, hx, hy⟩
  · rfl
  · cases x <;> cases y <;> simp [Heap.deref] at hx hy
    rfl
  · cases x <;> cases y <;> simp [Heap.deref] at hx hy
    rfl

theorem hash_tables_refine_finite_maps_colliding :
    ∃ fuel t, run (keyedOps (V := ℕ) (eclEql fun _ => .other) fixnumHash) fuel
        (clMakeHashTable defaultSizing 0)
        [.set (.fixnum 3) 1, .set (.fixnum 19) 2, .rem (.fixnum 3)] = some t ∧
      gethash (keyedOps (eclEql fun _ => .other) fixnumHash) (.fixnum 19) t 0 = some 2 := by
  have hrefines := (hash_tables_refine_finite_maps ℕ).2.1 (fun _ => .other) fixnumHash
    (fixnumHash_eql _) defaultSizing 0
    [.set (.fixnum 3) 1, .set (.fixnum 19) 2, .rem (.fixnum 3)] (fun _ _ _ => trivial)
  obtain ⟨fuel, t, hrun⟩ := hrefines.2 (Sizing.grows_of_float rfl (by norm_num))
  refine ⟨fuel, t, hrun, ?_⟩
  rw [(hrefines.1 fuel t hrun).lookup]
  rfl

end EclHashTable
