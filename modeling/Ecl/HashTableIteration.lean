import Ecl.HashTableLocation
import Ecl.HashTableCorrectness
import Ecl.Equalp

/-! cl_maphash and the iterator of with-hash-table-iterator, while the caller overwrites or
removes the entry it was just given. Buckets are visited from right to left, starting at a
free one, and a removal moves entries only to the right of the current bucket. -/
namespace EclHashTable

open ProbeChains

/-- What the caller does with the entry it is given. -/
inductive Action (V : Type) where
  | keep
  | overwrite (val : V)
  | remove
  deriving DecidableEq

variable {K V σ : Type} (test : K → K → Bool) (hash : K → ℕ) (callback : σ → K → V → Action V × σ)

def act (key : K) (t : HashTable (K × V)) : Action V → Option (HashTable (K × V))
  | .keep => some t
  | .overwrite val => sethash (keyedOps test hash) 1 key val t
  | .remove => (remhash (keyedOps test hash) key t).map Prod.snd

structure Progress (K V σ : Type) where
  table : HashTable (K × V)
  state : σ
  visited : List (K × V)

def funcall (p : Progress K V σ) (e : K × V) : Option (Progress K V σ) := do
  let t ← act test hash e.1 p.table (callback p.state e.1 e.2).1
  return ⟨t, (callback p.state e.1 e.2).2, p.visited ++ [e]⟩

def prev (hsize j : ℕ) : ℕ := if j = 0 then hsize - 1 else j - 1

def startBucket (data : ℕ → Option (K × V)) : ℕ → Option ℕ
  | 0 => if (data 0).isNone then some 0 else none
  | i + 1 => if (data (i + 1)).isNone then some (i + 1) else startBucket data i

def maphashLoop (hsize i : ℕ) : ℕ → ℕ → Progress K V σ → Option (Progress K V σ)
  | 0, _, _ => none
  | steps + 1, j, p => do
    let p ← (p.table.data (prev hsize j)).elim (some p) (funcall test hash callback p)
    if prev hsize j = i then some p else maphashLoop hsize i steps (prev hsize j) p

def clMaphash (t : HashTable (K × V)) (s : σ) : Option (Progress K V σ) :=
  if t.entries = 0 then some ⟨t, s, []⟩
  else do
    let i ← startBucket t.data (t.size - 1)
    maphashLoop test hash callback t.size i t.size i ⟨t, s, []⟩

structure Iterator where
  index : Option ℕ
  endpoint : ℕ
  deriving DecidableEq

def siHashTableIterator (t : HashTable (K × V)) : Option Iterator :=
  (startBucket t.data (t.size - 1)).map fun i => ⟨some i, i⟩

def iterateLoop (t : HashTable (K × V)) (i : ℕ) : ℕ → ℕ → Option (Option (ℕ × (K × V)))
  | 0, _ => none
  | steps + 1, j => (t.data (prev t.size j)).elim
      (if prev t.size j = i then some none else iterateLoop t i steps (prev t.size j))
      fun e => some (some (prev t.size j, e))

def siHashTableIterate (t : HashTable (K × V)) (it : Iterator) :
    Option (Option (K × V) × Iterator) :=
  it.index.elim (some (none, it)) fun j =>
    (iterateLoop t it.endpoint t.size j).map fun found =>
      found.elim (none, { it with index := none }) fun e => (some e.2, { it with index := some e.1 })

/-- A caller that asks the iterator for entries until there are no more. -/
def iterateAll : ℕ → Iterator → Progress K V σ → Option (Progress K V σ)
  | 0, _, _ => none
  | calls + 1, it, p => do
    let (entry, it) ← siHashTableIterate p.table it
    entry.elim (some p) fun e => do
      let p ← funcall test hash callback p e
      iterateAll calls it p

def withHashTableIterator (t : HashTable (K × V)) (s : σ) : Option (Progress K V σ) := do
  let it ← siHashTableIterator t
  iterateAll test hash callback (t.size + 1) it ⟨t, s, []⟩

def contents (t : HashTable (K × V)) : List (K × V) := (List.range t.size).filterMap t.data

section order

variable {n : ℕ}

theorem prev_lt {j : ℕ} (h : j < n) : prev n j < n := by
  unfold prev
  split <;> omega

def before (n : ℕ) : ℕ → ℕ → List ℕ
  | 0, _ => []
  | steps + 1, j => prev n j :: before n steps (prev n j)

theorem before_length (steps j : ℕ) : (before n steps j).length = steps := by
  induction steps generalizing j with
  | zero => rfl
  | succ steps ih => rw [before, List.length_cons, ih]

theorem mem_before {p : ℕ} (hp : p < n) : ∀ steps j, j < n →
    (if p < j then j - p else j + n - p) ≤ steps → p ∈ before n steps j := by
  intro steps
  induction steps with
  | zero =>
    intro j hj hle
    split at hle <;> omega
  | succ steps ih =>
    intro j hj hle
    rw [before, List.mem_cons]
    by_cases hpj : p = prev n j
    · exact Or.inl hpj
    · refine Or.inr (ih _ (prev_lt hj) ?_)
      unfold prev at hpj ⊢
      split_ifs at * <;> omega

theorem before_perm {i : ℕ} (hi : i < n) : (before n n i).Perm (List.range n) := by
  have hsub : List.Subperm (List.range n) (before n n i) := by
    apply List.nodup_range.subperm
    intro p hp
    have hp' := List.mem_range.mp hp
    apply mem_before hp' n i hi
    split <;> omega
  exact (hsub.perm_of_length_le (by rw [before_length, List.length_range])).symm

theorem startBucket_finds {data : ℕ → Option (K × V)} {z : ℕ} (hz : data z = none) :
    ∀ m, z ≤ m → ∃ i ≤ m, startBucket data m = some i ∧ data i = none := by
  intro m
  induction m with
  | zero =>
    intro hle
    obtain rfl : z = 0 := by omega
    exact ⟨0, le_rfl, by rw [startBucket, hz]; rfl, hz⟩
  | succ m ih =>
    intro hle
    cases hd : data (m + 1) with
    | none => exact ⟨m + 1, le_rfl, by rw [startBucket, hd]; rfl, hd⟩
    | some e =>
      have hne : z ≠ m + 1 := by
        rintro rfl
        rw [hd] at hz
        cases hz
      obtain ⟨i, hi, hrun, hfree⟩ := ih (by omega)
      refine ⟨i, by omega, ?_, hfree⟩
      rw [startBucket, hd]
      exact hrun

end order

variable {test hash callback}

structure Traversing (test : K → K → Bool) (hash : K → ℕ) (t0 : HashTable (K × V)) (i j : ℕ)
    (t : HashTable (K × V)) : Prop where
  located : Located test hash t
  size : t.size = t0.size
  endpoint : i < t0.size
  current : j < t0.size
  free : t.data i = none
  coming : ∀ p < t0.size, dist t0.size j i < dist t0.size p i → t.data p = t0.data p

section traversal

variable {t0 t : HashTable (K × V)} {i j : ℕ}

theorem traversing_start (h : Located test hash t0) (hi : i < t0.size) (hfree : t0.data i = none) :
    Traversing test hash t0 i i t0 where
  located := h
  size := rfl
  endpoint := hi
  current := hi
  free := hfree
  coming := fun _ _ _ => rfl

theorem dist_prev (hi : i < t0.size) (hj : j < t0.size) (h : prev t0.size j ≠ i) :
    dist t0.size (prev t0.size j) i = dist t0.size j i + 1 := by
  unfold prev ProbeChains.dist at *
  split_ifs at * <;> omega

theorem dist_of_prev (hj : j < t0.size) (h : prev t0.size j = i) :
    dist t0.size j i + 1 = t0.size := by
  subst h
  unfold prev ProbeChains.dist
  split_ifs <;> omega

theorem Traversing.same (h : Traversing test hash t0 i j t) (hne : prev t0.size j ≠ i) :
    t.data (prev t0.size j) = t0.data (prev t0.size j) := by
  have hstep := dist_prev h.endpoint h.current hne
  exact h.coming _ (prev_lt h.current) (by omega)

theorem Traversing.pass (h : Traversing test hash t0 i j t) (hne : prev t0.size j ≠ i) :
    Traversing test hash t0 i (prev t0.size j) t where
  located := h.located
  size := h.size
  endpoint := h.endpoint
  current := prev_lt h.current
  free := h.free
  coming := by
    intro p hp hlt
    have hstep := dist_prev h.endpoint h.current hne
    exact h.coming p hp (by omega)

theorem Traversing.act (h : Traversing test hash t0 i j t) (hrefl : ∀ k, test k k = true)
    (hne : j ≠ i) {e : K × V} (he : t.data j = some e) (a : Action V) :
    ∃ t', act test hash e.1 t a = some t' ∧ Traversing test hash t0 i j t' := by
  have hj : j < t.size := h.size ▸ h.current
  have hi : i < t.size := h.size ▸ h.endpoint
  cases a with
  | keep => exact ⟨t, rfl, h⟩
  | overwrite v =>
    refine ⟨_, h.located.sethash_own hrefl hj he v 0, ?_⟩
    exact
      { located := h.located.overwrite he v
        size := h.size
        endpoint := h.endpoint
        current := h.current
        free := by
          dsimp only
          rw [Function.update_of_ne (Ne.symm hne)]
          exact h.free
        coming := by
          intro p hp hlt
          have hpj : p ≠ j := by
            rintro rfl
            omega
          dsimp only
          rw [Function.update_of_ne hpj]
          exact h.coming p hp hlt }
  | remove =>
    obtain ⟨t', hrem, hlocated, hsize, hframe⟩ := h.located.remhash_own hrefl hj he
    refine ⟨t', ?_, ?_⟩
    · rw [EclHashTable.act, hrem]
      rfl
    · exact
        { located := hlocated
          size := hsize.trans h.size
          endpoint := h.endpoint
          current := h.current
          free := (hframe i hi h.free i hi le_rfl).trans h.free
          coming := by
            intro p hp hlt
            rw [← h.coming p hp hlt]
            apply hframe i hi h.free p (h.size ▸ hp)
            -- Seen from bucket j, what is still to come lies behind the free bucket i.
            rw [h.size]
            by_contra hbefore
            have hadd := dist_add h.current hp h.endpoint (by omega)
            omega }

theorem Traversing.funcall (callback : σ → K → V → Action V × σ)
    (h : Traversing test hash t0 i j t) (hrefl : ∀ k, test k k = true)
    (hne : j ≠ i) {e : K × V} (he : t.data j = some e) (s : σ) (vs : List (K × V)) :
    ∃ t' s', funcall test hash callback ⟨t, s, vs⟩ e = some ⟨t', s', vs ++ [e]⟩ ∧
      Traversing test hash t0 i j t' := by
  obtain ⟨t', hact, ht'⟩ := h.act hrefl hne he (callback s e.1 e.2).1
  refine ⟨t', (callback s e.1 e.2).2, ?_, ht'⟩
  simp only [EclHashTable.funcall, hact, Option.bind_eq_bind, Option.bind_some]
  rfl

theorem maphashLoop_visits (callback : σ → K → V → Action V × σ) (hrefl : ∀ k, test k k = true)
    (hi0 : t0.data i = none) :
    ∀ steps j (t : HashTable (K × V)) (s : σ) (vs : List (K × V)), Traversing test hash t0 i j t →
      steps + dist t0.size j i = t0.size →
      ∃ p, maphashLoop test hash callback t0.size i steps j ⟨t, s, vs⟩ = some p ∧
        p.visited = vs ++ (before t0.size steps j).filterMap t0.data := by
  intro steps
  induction steps with
  | zero =>
    intro j t s vs h hsteps
    have := dist_lt h.current h.endpoint
    omega
  | succ steps ih =>
    intro j t s vs h hsteps
    by_cases hend : prev t0.size j = i
    · -- The turn is complete, so that this was the last step.
      have hlast : steps = 0 := by
        have hdist := dist_of_prev h.current hend
        omega
      refine ⟨⟨t, s, vs⟩, ?_, ?_⟩
      · simp only [maphashLoop, hend, h.free, Option.elim_none, Option.bind_eq_bind,
          Option.bind_some, if_true]
      · subst hlast
        rw [before, before, hend, List.filterMap_cons_none hi0, List.filterMap_nil, List.append_nil]
    · have hstep := dist_prev h.endpoint h.current hend
      rw [before]
      cases hd : t0.data (prev t0.size j) with
      | none =>
        obtain ⟨p, hrun, hvisited⟩ := ih _ t s vs (h.pass hend) (by omega)
        refine ⟨p, ?_, ?_⟩
        · simp only [maphashLoop, h.same hend, hd, Option.elim_none, Option.bind_eq_bind,
            Option.bind_some, if_neg hend]
          exact hrun
        · rw [List.filterMap_cons_none hd]
          exact hvisited
      | some e =>
        obtain ⟨t', s', hcall, ht'⟩ := (h.pass hend).funcall callback hrefl hend
          ((h.same hend).trans hd) s vs
        obtain ⟨p, hrun, hvisited⟩ := ih _ t' s' (vs ++ [e]) ht' (by omega)
        refine ⟨p, ?_, ?_⟩
        · simp only [maphashLoop, h.same hend, hd, Option.elim_some, hcall, Option.bind_eq_bind,
            Option.bind_some, if_neg hend]
          exact hrun
        · rw [List.filterMap_cons_some hd, hvisited, List.append_assoc]
          rfl

theorem clMaphash_visits (h : Located test hash t0) (hrefl : ∀ k, test k k = true) (s : σ) :
    ∃ p, clMaphash test hash callback t0 s = some p ∧ p.visited.Perm (contents t0) := by
  by_cases hempty : t0.entries = 0
  · refine ⟨⟨t0, s, []⟩, by rw [clMaphash, if_pos hempty], ?_⟩
    have hnone : contents t0 = [] := by
      rw [contents, List.filterMap_eq_nil_iff]
      intro p hp
      by_contra hused
      have hmem : p ∈ (Finset.range t0.size).filter (fun i => (t0.data i).isSome) := by
        rw [Finset.mem_filter]
        exact ⟨by simpa using hp, Option.isSome_iff_ne_none.mpr hused⟩
      have hpos := Finset.card_pos.mpr ⟨p, hmem⟩
      have hcount := h.count
      rw [hempty, occupied] at hcount
      omega
    rw [hnone]
  · obtain ⟨z, hz, hfree⟩ := h.free
    obtain ⟨i, hi, hstart, hi0⟩ := startBucket_finds hfree (t0.size - 1) (by omega)
    have hin : i < t0.size := by omega
    obtain ⟨p, hrun, hvisited⟩ := maphashLoop_visits callback hrefl hi0 t0.size i t0 s []
      (traversing_start h hin hi0) (by rw [dist_self, Nat.add_zero])
    refine ⟨p, ?_, ?_⟩
    · simp only [clMaphash, if_neg hempty, hstart, Option.bind_eq_bind, Option.bind_some]
      exact hrun
    · rw [hvisited, List.nil_append]
      exact (before_perm hin).filterMap _

/-- The iterator finds the next entry still to come, or reaches the endpoint. -/
theorem iterateLoop_finds (hi0 : t0.data i = none) :
    ∀ steps j, Traversing test hash t0 i j t → steps + dist t0.size j i = t0.size →
      ∀ budget, steps ≤ budget →
      (iterateLoop t i budget j = some none ∧ (before t0.size steps j).filterMap t0.data = []) ∨
        ∃ j' steps' e, iterateLoop t i budget j = some (some (j', e)) ∧ t.data j' = some e ∧ j' ≠ i ∧
          Traversing test hash t0 i j' t ∧ steps' + dist t0.size j' i = t0.size ∧
          (before t0.size steps j).filterMap t0.data =
            e :: (before t0.size steps' j').filterMap t0.data := by
  intro steps
  induction steps with
  | zero =>
    intro j h hsteps
    have := dist_lt h.current h.endpoint
    omega
  | succ steps ih =>
    intro j h hsteps budget hle
    obtain ⟨budget, rfl⟩ : ∃ b, budget = b + 1 := ⟨budget - 1, by omega⟩
    by_cases hend : prev t0.size j = i
    · have hlast : steps = 0 := by
        have hj := h.current
        have hi := h.endpoint
        unfold prev ProbeChains.dist at *
        split_ifs at * <;> omega
      refine Or.inl ⟨?_, ?_⟩
      · rw [iterateLoop, h.size, hend, h.free, Option.elim_none, if_pos rfl]
      · subst hlast
        rw [before, before, hend, List.filterMap_cons_none hi0, List.filterMap_nil]
    · have hstep := dist_prev h.endpoint h.current hend
      rw [before, iterateLoop, h.size, h.same hend]
      cases hd : t0.data (prev t0.size j) with
      | none =>
        rw [Option.elim_none, if_neg hend, List.filterMap_cons_none hd]
        exact ih _ (h.pass hend) (by omega) budget (by omega)
      | some e =>
        rw [Option.elim_some, List.filterMap_cons_some hd]
        exact Or.inr ⟨_, steps, e, rfl, (h.same hend).trans hd, hend, h.pass hend, by omega, rfl⟩

theorem iterateAll_visits (callback : σ → K → V → Action V × σ) (hrefl : ∀ k, test k k = true)
    (hi0 : t0.data i = none) :
    ∀ calls steps j (t : HashTable (K × V)) (s : σ) (vs : List (K × V)),
      Traversing test hash t0 i j t → steps + dist t0.size j i = t0.size →
      ((before t0.size steps j).filterMap t0.data).length < calls →
      ∃ p, iterateAll test hash callback calls ⟨some j, i⟩ ⟨t, s, vs⟩ = some p ∧
        p.visited = vs ++ (before t0.size steps j).filterMap t0.data := by
  intro calls
  induction calls with
  | zero =>
    intro steps j t s vs _ _ hlt
    omega
  | succ calls ih =>
    intro steps j t s vs h hsteps hlt
    rcases iterateLoop_finds hi0 steps j h hsteps t.size (by rw [h.size]; omega) with
      ⟨hrun, hnone⟩ | ⟨j', steps', e, hrun, he, hne, h', hsteps', hlist⟩
    · refine ⟨⟨t, s, vs⟩, ?_, ?_⟩
      · simp only [iterateAll, siHashTableIterate, Option.elim_some, hrun, Option.map_some,
          Option.elim_none, Option.bind_eq_bind, Option.bind_some]
      · rw [hnone, List.append_nil]
    · obtain ⟨t', s', hcall, ht'⟩ := h'.funcall callback hrefl hne he s vs
      rw [hlist, List.length_cons] at hlt
      obtain ⟨p, hrest, hvisited⟩ := ih steps' j' t' s' (vs ++ [e]) ht' hsteps' (by omega)
      refine ⟨p, ?_, ?_⟩
      · simp only [iterateAll, siHashTableIterate, Option.elim_some, hrun, Option.map_some,
          Option.bind_eq_bind, Option.bind_some, hcall]
        exact hrest
      · rw [hlist, hvisited, List.append_assoc]
        rfl

theorem withHashTableIterator_visits (h : Located test hash t0) (hrefl : ∀ k, test k k = true)
    (s : σ) : ∃ p, withHashTableIterator test hash callback t0 s = some p ∧
      p.visited.Perm (contents t0) := by
  obtain ⟨z, hz, hfree⟩ := h.free
  obtain ⟨i, hi, hstart, hi0⟩ := startBucket_finds hfree (t0.size - 1) (by omega)
  have hin : i < t0.size := by omega
  have hlength : ((before t0.size t0.size i).filterMap t0.data).length < t0.size + 1 := by
    have hle := List.length_filterMap_le t0.data (before t0.size t0.size i)
    rw [before_length] at hle
    omega
  obtain ⟨p, hrun, hvisited⟩ := iterateAll_visits callback hrefl hi0 (t0.size + 1)
    t0.size i t0 s [] (traversing_start h hin hi0) (by rw [dist_self, Nat.add_zero]) hlength
  refine ⟨p, ?_, ?_⟩
  · simp only [withHashTableIterator, siHashTableIterator, hstart, Option.map_some,
      Option.bind_eq_bind, Option.bind_some]
    exact hrun
  · rw [hvisited, List.nil_append]
    exact (before_perm hin).filterMap _

end traversal

/-- From every table that a run of operations reaches, maphash and the iterator give the
caller each entry of that table once, whatever it does with the current one. -/
def IteratesExactly (V : Type) (test : K → K → Bool) (hash : K → ℕ) : Prop :=
  ∀ (z : Sizing) (size fuel : ℕ) (ops : List (Op K V)) (t : HashTable (K × V)),
    run (keyedOps test hash) fuel (clMakeHashTable z size) ops = some t →
    ∀ (σ : Type) (callback : σ → K → V → Action V × σ) (s : σ),
      (∃ p, clMaphash test hash callback t s = some p ∧ p.visited.Perm (contents t)) ∧
      ∃ p, withHashTableIterator test hash callback t s = some p ∧ p.visited.Perm (contents t)

theorem iterates_of_reflexive (V : Type) (test : K → K → Bool) (hash : K → ℕ)
    (hrefl : ∀ k, test k k = true) : IteratesExactly V test hash := by
  intro z size fuel ops t hrun σ callback s
  have hmake : Located (V := V) test hash (clMakeHashTable z size) := by
    apply located_empty z
    split <;> omega
  have h := run_located hmake hrun
  exact ⟨clMaphash_visits h hrefl s, withHashTableIterator_visits h hrefl s⟩

/-- EQUALP within a budget of nested calls. -/
def equalpTest (P : Equalp.Platform) (heap : Objects.Heap) (fuel : ℕ) (x y : Objects.Obj) : Bool :=
  (Equalp.eclEqualp P heap (fuel + 1) (.obj x) (.obj y)).getD false

theorem equalpTest_refl (P : Equalp.Platform) (heap : Objects.Heap) (fuel : ℕ) (x : Objects.Obj) :
    equalpTest P heap fuel x x = true := by
  simp [equalpTest, Equalp.eclEqualp, Equalp.Item.eq]

/-- Tables for EQ, EQL, EQUAL and EQUALP, and for every test of a user that holds of a key and
itself, with any hash function. -/
theorem iteration_visits_each_entry_once (V : Type) :
    (∀ hash, IteratesExactly V Objects.eclEq hash) ∧
    (∀ heap hash, IteratesExactly V (Objects.eclEql heap) hash) ∧
    (∀ heap fuel hash, IteratesExactly V (equalTest heap fuel) hash) ∧
    (∀ P heap fuel hash, IteratesExactly V (equalpTest P heap fuel) hash) ∧
    ∀ (K : Type) (test : K → K → Bool) (hash : K → ℕ), (∀ k, test k k = true) →
      IteratesExactly V test hash := by
  refine ⟨fun hash => ?_, fun heap hash => ?_, fun heap fuel hash => ?_, fun P heap fuel hash => ?_,
    fun K test hash hrefl => iterates_of_reflexive V test hash hrefl⟩
  · exact iterates_of_reflexive V _ hash Objects.eclEq_equivalence.refl
  · exact iterates_of_reflexive V _ hash (Objects.eclEql_equivalence heap).refl
  · exact iterates_of_reflexive V _ hash (equalTest_equivalence heap fuel).refl
  · exact iterates_of_reflexive V _ hash (equalpTest_refl P heap fuel)

/-- Three keys with one home at the end of the table: the entries wrap around, and all three
are visited although each is removed. -/
theorem iteration_visits_wrapping_entries :
    ∃ fuel t p, run (keyedOps (fun x y : ℕ => decide (x = y)) id) fuel
        (clMakeHashTable defaultSizing 0) [.set 15 'a', .set 31 'b', .set 47 'c'] = some t ∧
      clMaphash (fun x y : ℕ => decide (x = y)) id (fun (_ : Unit) _ _ => (.remove, ())) t () = some p ∧
      p.visited.Perm (contents t) := by
  have hexact := (iteration_visits_each_entry_once Char).2.2.2.2 ℕ (fun x y => decide (x = y)) id
    (by simp)
  have hequiv : Equivalence fun x y : ℕ => decide (x = y) = true :=
    ⟨by simp, by simp [eq_comm], by simp⟩
  have hhash : ∀ x y : ℕ, decide (x = y) = true → id x = id y := fun x y => of_decide_eq_true
  have hreturns := keyed_lawful (V := Char) hequiv hhash
  obtain ⟨fuel, t, hrun⟩ := (lawful_refines hreturns defaultSizing 0
    [.set 15 'a', .set 31 'b', .set 47 'c'] (fun _ _ _ => trivial)).2
    (Sizing.grows_of_float rfl (by norm_num))
  obtain ⟨p, hp, hperm⟩ := (hexact defaultSizing 0 fuel _ t hrun Unit
    (fun _ _ _ => (.remove, ())) ()).1
  exact ⟨fuel, t, p, hrun, hp, hperm⟩

end EclHashTable
