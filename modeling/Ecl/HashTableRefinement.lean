import Ecl.HashTable

/-! The open-addressing tables refine finite maps from key classes to values. Every
operation is described by what it does to the pairs a table holds; the maps follow. -/
namespace EclHashTable

open ProbeChains

variable {K V B : Type} {O : TableOps K V B} {same : K → K → Prop} {admits : K → V → Prop}
  {wf : B → Prop}

/-- What the operations rely on: same is the table's test on keys, admits restricts the
pairs callers store, wf holds of every bucket ever written. -/
structure Lawful (O : TableOps K V B) (same : K → K → Prop) (admits : K → V → Prop)
    (wf : B → Prop) : Prop where
  equivalence : Equivalence same
  hash_same : ∀ k k', same k k' → O.hash k = O.hash k'
  test_iff : ∀ k e, wf e → (O.test k e = true ↔ same k (O.key e))
  rehash_key : ∀ e, wf e → O.rehash e = O.hash (O.key e)
  admits_stored : ∀ e, wf e → admits (O.key e) (O.value e)
  store_wf : ∀ k v, admits k v → wf (O.store k v)
  store_key : ∀ k v, admits k v → same k (O.key (O.store k v))
  store_value : ∀ k v, O.value (O.store k v) = v
  update_wf : ∀ k v e, wf e → same k (O.key e) → admits k v → wf (O.update e v)
  update_key : ∀ k v e, wf e → same k (O.key e) → admits k v → same k (O.key (O.update e v))
  update_value : ∀ e v, O.value (O.update e v) = v

def home (O : TableOps K V B) (size : ℕ) (e : B) : ℕ := O.rehash e % size

def Holds (O : TableOps K V B) (same : K → K → Prop) (t : HashTable B) (k : K) (v : V) : Prop :=
  ∃ e, Stores t.size t.data e ∧ same k (O.key e) ∧ O.value e = v

structure Invariant (O : TableOps K V B) (same : K → K → Prop) (wf : B → Prop)
    (t : HashTable B) : Prop where
  size_pos : 0 < t.size
  limit_eq : t.limit = t.sizing.limit t.size
  entries_lt : t.entries < t.size
  count : t.entries = occupied t.size t.data
  contents : ∀ i < t.size, ∀ e, t.data i = some e → wf e
  distinct : Distinct t.size (fun x y => same (O.key x) (O.key y)) t.data
  chained : Chained t.size (home O t.size) t.data

theorem Invariant.free {t : HashTable B} (h : Invariant O same wf t) :
    ∃ z < t.size, t.data z = none := by
  apply exists_free
  rw [← h.count]
  exact h.entries_lt

theorem Sizing.round_nat (z : Sizing) {n : ℕ} (h : n ≤ 2 ^ 53) : z.round n = n := by
  simpa using z.round_exact n 0 h

theorem Sizing.round_one (z : Sizing) : z.round 1 = 1 := by
  simpa using z.round_nat (n := 1) (by norm_num)

theorem Sizing.limit_lt (z : Sizing) {size : ℕ} (h : 0 < size) : z.limit size < size := by
  unfold Sizing.limit
  dsimp only
  split <;> omega

theorem Invariant.limit_lt {t : HashTable B} (h : Invariant O same wf t) : t.limit < t.size := by
  rw [h.limit_eq]
  exact t.sizing.limit_lt h.size_pos

theorem Sizing.newSize_pos (z : Sizing) {oldSize : ℕ} (h : 0 < oldSize) :
    0 < z.newSize oldSize := by
  unfold Sizing.newSize
  cases hz : z.rehashSize with
  | fixnum n => dsimp only; split <;> omega
  | float r =>
    have hr := z.rehash_ok r hz
    have hone : (1 : ℚ) ≤ z.round oldSize := by
      have h1 := z.round_monotone 1 oldSize (by exact_mod_cast h)
      rwa [z.round_one] at h1
    have hprod : (1 : ℚ) ≤ z.round (r * z.round oldSize) := by
      have h1 := z.round_monotone 1 (r * z.round oldSize) (by nlinarith)
      rwa [z.round_one] at h1
    have hceil : (1 : ℤ) ≤ ⌈z.round (r * z.round oldSize)⌉ := by
      have := Int.ceil_mono hprod
      simpa using this
    dsimp only
    split <;> omega

theorem empty_invariant (z : Sizing) {size : ℕ} (h : 0 < size) :
    Invariant O same wf
      { sizing := z, size := size, entries := 0, limit := z.limit size, data := fun _ => none } where
  size_pos := h
  limit_eq := rfl
  entries_lt := h
  count := (occupied_none size).symm
  contents := by simp
  distinct := by intro p _ q _ x y hx; simp at hx
  chained := by intro q _ b hb; simp at hb

theorem loop_finds (hO : Lawful O same admits wf) {t : HashTable B}
    (ht : Invariant O same wf t) (k : K) :
    ∃ i < t.size, hashTableLoop O k t = some i ∧
      (∀ p < t.size, dist t.size (O.hash k % t.size) p < dist t.size (O.hash k % t.size) i →
        t.data p ≠ none) ∧
      ((∃ e, t.data i = some e ∧ same k (O.key e)) ∨
        t.data i = none ∧ ∀ e, Stores t.size t.data e → ¬ same k (O.key e)) := by
  obtain ⟨z, hz, hfree⟩ := ht.free
  have hhome : O.hash k % t.size < t.size := Nat.mod_lt _ ht.size_pos
  have hend : loopTest O k t z = true := by simp [loopTest, hfree]
  obtain ⟨i, hi, hloop, hstop, hfirst⟩ :=
    probe_finds hz hend t.size (O.hash k % t.size) hhome (dist_lt hhome hz)
  have hused : ∀ p < t.size,
      dist t.size (O.hash k % t.size) p < dist t.size (O.hash k % t.size) i →
        t.data p ≠ none := by
    intro p hp hlt hnone
    have := hfirst p hp hlt
    simp [loopTest, hnone] at this
  refine ⟨i, hi, hloop, hused, ?_⟩
  cases hd : t.data i with
  | some e =>
    simp only [loopTest, hd] at hstop
    exact Or.inl ⟨e, rfl, (hO.test_iff k e (ht.contents i hi e hd)).mp hstop⟩
  | none =>
    refine Or.inr ⟨rfl, ?_⟩
    rintro e ⟨p, hp, he⟩ hsame
    have hwf := ht.contents p hp e he
    have hhash : home O t.size e = O.hash k % t.size := by
      rw [home, hO.rehash_key e hwf, hO.hash_same k _ hsame]
    -- the bucket of the key is met before the free one that stopped the loop
    have hle : dist t.size (O.hash k % t.size) p < dist t.size (O.hash k % t.size) i := by
      by_contra hn
      have hpath := ht.chained p hp e he i hi
      rw [hhash] at hpath
      exact hpath (by omega) hd
    have hmiss := hfirst p hp hle
    simp only [loopTest, he, Bool.eq_false_iff, ne_eq] at hmiss
    exact hmiss ((hO.test_iff k e hwf).mpr hsame)

theorem gethash_finds (hO : Lawful O same admits wf) {t : HashTable B}
    (ht : Invariant O same wf t) (k : K) (dflt : V) :
    (∃ v, Holds O same t k v ∧ gethash O k t dflt = some v) ∨
      (∀ v, ¬ Holds O same t k v) ∧ gethash O k t dflt = some dflt := by
  obtain ⟨i, hi, hloop, _, he | ⟨hnone, habsent⟩⟩ := loop_finds hO ht k
  · obtain ⟨e, he, hsame⟩ := he
    exact Or.inl ⟨O.value e, ⟨e, ⟨i, hi, he⟩, hsame, rfl⟩, by simp [gethash, hloop, he]⟩
  · refine Or.inr ⟨?_, by simp [gethash, hloop, hnone]⟩
    rintro v ⟨e, hs, hsame, _⟩
    exact habsent e hs hsame

def Stored (O : TableOps K V B) (same : K → K → Prop) (k : K) (v : V)
    (t t' : HashTable B) : Prop :=
  ∀ k' v', Holds O same t' k' v' ↔
    (same k k' ∧ v' = v) ∨ (¬ same k k' ∧ Holds O same t k' v')

theorem stored_of_update (hO : Lawful O same admits wf) {t : HashTable B} {i : ℕ} (hi : i < t.size) {k : K} {v : V} {e' : B}
    (hkey : same k (O.key e')) (hval : O.value e' = v)
    (hother : ∀ p < t.size, p ≠ i → ∀ e, t.data p = some e → ¬ same k (O.key e))
    (hhere : ∀ e, t.data i = some e → same k (O.key e)) {t' : HashTable B}
    (hsize : t'.size = t.size) (hdata : t'.data = Function.update t.data i (some e')) :
    Stored O same k v t t' := by
  have heq := hO.equivalence
  intro k' v'
  constructor
  · rintro ⟨e, ⟨p, hp, he⟩, hs, hv⟩
    rw [hsize] at hp
    rw [hdata] at he
    by_cases hpi : p = i
    · subst p
      simp only [Function.update_self, Option.some.injEq] at he
      subst e
      exact Or.inl ⟨heq.trans hkey (heq.symm hs), hv.symm.trans hval⟩
    · rw [Function.update_of_ne hpi] at he
      refine Or.inr ⟨fun hk => hother p hp hpi e he (heq.trans hk hs), e, ⟨p, hp, he⟩, hs, hv⟩
  · rintro (⟨hk, rfl⟩ | ⟨hk, e, ⟨p, hp, he⟩, hs, hv⟩)
    · exact ⟨e', ⟨i, hsize ▸ hi, by simp [hdata]⟩, heq.trans (heq.symm hk) hkey, hval⟩
    · have hpi : p ≠ i := by
        rintro rfl
        exact hk (heq.trans (hhere e he) (heq.symm hs))
      exact ⟨e, ⟨p, hsize ▸ hp, by rw [hdata, Function.update_of_ne hpi, he]⟩, hs, hv⟩

theorem insert_invariant (hO : Lawful O same admits wf) {t : HashTable B}
    (ht : Invariant O same wf t) {i : ℕ} (hi : i < t.size) {k : K} {v : V} (hkv : admits k v)
    (hpath : ∀ p < t.size, dist t.size (O.hash k % t.size) p <
      dist t.size (O.hash k % t.size) i → t.data p ≠ none)
    (hfree : t.data i = none) (habsent : ∀ e, Stores t.size t.data e → ¬ same k (O.key e))
    (hlimit : t.entries + 1 < t.limit) :
    Invariant O same wf { t with
      entries := t.entries + 1
      data := Function.update t.data i (some (O.store k v)) } where
  size_pos := ht.size_pos
  limit_eq := ht.limit_eq
  entries_lt := by have := ht.limit_lt; dsimp only; omega
  count := by
    dsimp only
    rw [occupied_fill _ hi hfree, ht.count]
  contents := by
    intro p hp e he
    by_cases hpi : p = i
    · subst p
      simp only [Function.update_self, Option.some.injEq] at he
      exact he ▸ hO.store_wf k v hkv
    · exact ht.contents p hp e (by simpa [Function.update_of_ne hpi] using he)
  distinct := by
    have heq := hO.equivalence
    intro p hp q hq x y hx hy hxy
    by_cases hpi : p = i <;> by_cases hqi : q = i
    · rw [hpi, hqi]
    · subst p
      simp only [Function.update_self, Option.some.injEq] at hx
      subst x
      simp only [Function.update_of_ne hqi] at hy
      exact absurd (heq.trans (hO.store_key k v hkv) hxy) (habsent y ⟨q, hq, hy⟩)
    · subst q
      simp only [Function.update_self, Option.some.injEq] at hy
      subst y
      simp only [Function.update_of_ne hpi] at hx
      exact absurd (heq.trans (hO.store_key k v hkv) (heq.symm hxy)) (habsent x ⟨p, hp, hx⟩)
    · simp only [Function.update_of_ne hpi] at hx
      simp only [Function.update_of_ne hqi] at hy
      exact ht.distinct p hp q hq x y hx hy hxy
  chained := by
    have hhome : home O t.size (O.store k v) = O.hash k % t.size := by
      rw [home, hO.rehash_key _ (hO.store_wf k v hkv), ← hO.hash_same k _ (hO.store_key k v hkv)]
    apply chained_fill ht.chained
    · rw [hhome]; exact hpath
    · rw [hhome]; exact Nat.mod_lt _ ht.size_pos
    · exact hi

theorem overwrite_invariant (hO : Lawful O same admits wf) {t : HashTable B}
    (ht : Invariant O same wf t) {i : ℕ} (hi : i < t.size) {k : K} {v : V} (hkv : admits k v)
    {e : B} (he : t.data i = some e) (hk : same k (O.key e)) :
    Invariant O same wf { t with data := Function.update t.data i (some (O.update e v)) } where
  size_pos := ht.size_pos
  limit_eq := ht.limit_eq
  entries_lt := ht.entries_lt
  count := by
    dsimp only
    rw [occupied_overwrite _ (by simp [he]), ht.count]
  contents := by
    intro p hp x hx
    by_cases hpi : p = i
    · subst p
      simp only [Function.update_self, Option.some.injEq] at hx
      exact hx ▸ hO.update_wf k v e (ht.contents _ hp e he) hk hkv
    · exact ht.contents p hp x (by simpa [Function.update_of_ne hpi] using hx)
  distinct := by
    have heq := hO.equivalence
    have hke := hO.update_key k v e (ht.contents i hi e he) hk hkv
    have hold : same (O.key (O.update e v)) (O.key e) := heq.trans (heq.symm hke) hk
    intro p hp q hq x y hx hy hxy
    by_cases hpi : p = i <;> by_cases hqi : q = i
    · rw [hpi, hqi]
    · subst p
      simp only [Function.update_self, Option.some.injEq] at hx
      subst x
      simp only [Function.update_of_ne hqi] at hy
      exact ht.distinct _ hp q hq e y he hy (heq.trans (heq.symm hold) hxy)
    · subst q
      simp only [Function.update_self, Option.some.injEq] at hy
      subst y
      simp only [Function.update_of_ne hpi] at hx
      exact ht.distinct p hp _ hq x e hx he (heq.trans hxy hold)
    · simp only [Function.update_of_ne hpi] at hx
      simp only [Function.update_of_ne hqi] at hy
      exact ht.distinct p hp q hq x y hx hy hxy
  chained := by
    have hwf := ht.contents i hi e he
    apply chained_overwrite ht.chained he
    rw [home, home, hO.rehash_key _ (hO.update_wf k v e hwf hk hkv), hO.rehash_key e hwf,
      ← hO.hash_same k _ (hO.update_key k v e hwf hk hkv), ← hO.hash_same k _ hk]

end EclHashTable

namespace EclHashTable

open ProbeChains

variable {K V B : Type} {O : TableOps K V B} {same : K → K → Prop} {admits : K → V → Prop}
  {wf : B → Prop}

theorem fillHole_free {n fuel : ℕ} {c : ℕ → Option B} {e j k : ℕ} (hk : ¬ n < k)
    (hj : c j = none) : fillHole O n (fuel + 1) c e j k = some (Function.update c e none) := by
  simp only [fillHole, if_neg hk, hj]

theorem fillHole_used {n fuel : ℕ} {c : ℕ → Option B} {e j k : ℕ} {b : B} (hk : ¬ n < k)
    (hj : c j = some b) : fillHole O n (fuel + 1) c e j k =
      if k ≤ dist n (home O n b) j then
        fillHole O n fuel (Function.update c e (some b)) j (next n j) 1
      else fillHole O n fuel c e (next n j) (k + 1) := by
  simp only [fillHole, if_neg hk, hj]
  rfl

/-- The loop keeps k equal to the distance from the hole e to the bucket j looked at, and
meets the free bucket z before it is back at the hole. -/
theorem fillHole_closes {n z : ℕ} (hz : z < n) :
    ∀ fuel c e j, Hole n (home O n) c e j → c z = none → dist n j z < dist n j e →
      dist n j z < fuel →
      ∃ c', fillHole O n fuel c e j (dist n e j) = some c' ∧
        Chained n (home O n) c' ∧
        (∀ x, Stores n c' x ↔ ∃ p < n, p ≠ e ∧ c p = some x) ∧
        (∀ R : B → B → Prop, DistinctOff n R c e → Distinct n R c') ∧
        occupied n c' + 1 = occupied n c := by
  have hhome : ∀ b, home O n b < n := fun b => Nat.mod_lt _ (by omega)
  intro fuel
  induction fuel with
  | zero => intro c e j _ _ _ h; omega
  | succ fuel ih =>
    intro c e j hole hfree hbefore hfuel
    have hk : ¬ n < dist n e j := by have := dist_lt hole.hole_lt hole.scan_lt; omega
    cases hj : c j with
    | none =>
      exact ⟨Function.update c e none, fillHole_free hk hj, hole_close hole hj hhome,
        fun x => stores_close x, fun R hR => distinct_close hR,
        occupied_clear hole.hole_lt hole.stale⟩
    | some b =>
      have hjz : j ≠ z := by rintro rfl; simp [hj] at hfree
      have hstep := dist_next_left hole.scan_lt hz hjz
      rw [fillHole_used hk hj]
      by_cases hd : dist n e j ≤ dist n (home O n b) j
      · -- b goes to the hole, and the scan restarts behind its old bucket
        have hn := ne_next hole.scan_lt hz hjz
        have hone : dist n j (next n j) = 1 := by
          rw [dist_next_right hole.scan_lt hole.scan_lt (Ne.symm hn), dist_self]
        have hze : z ≠ e := by rintro rfl; exact hole.stale hfree
        obtain ⟨c', hrun, hchain, hstores, hdist, hocc⟩ :=
          ih (Function.update c e (some b)) j (next n j) (hole_move hole hj (hhome b) hd hn)
            (by rwa [Function.update_of_ne hze]) (dist_next_before hole.scan_lt hz hjz) (by omega)
        rw [if_pos hd]
        refine ⟨c', hone ▸ hrun, hchain, ?_, ?_, ?_⟩
        · intro x
          rw [hstores x]
          exact stores_move hj hole.scan_lt hole.hole_lt hole.apart x
        · intro R hR
          exact hdist R (distinct_move hR hj hole.scan_lt hole.apart)
        · rw [hocc, occupied_overwrite b hole.stale]
      · have hback := dist_next_left hole.scan_lt hole.hole_lt (Ne.symm hole.apart)
        have hn : next n j ≠ e := by
          intro h
          rw [h, dist_self] at hback
          omega
        have hright := dist_next_right hole.hole_lt hole.scan_lt hn
        rw [if_neg hd, ← hright]
        exact ih c e (next n j) (hole_skip hole hj (by omega) hn) hfree (by omega) (by omega)

def Removed (O : TableOps K V B) (same : K → K → Prop) (k : K) (t t' : HashTable B) : Prop :=
  ∀ k' v', Holds O same t' k' v' ↔ ¬ same k k' ∧ Holds O same t k' v'

/-- HASH_TABLE_REMOVE always returns, says whether the key was there, and removes it only. -/
theorem remhash_removes (hO : Lawful O same admits wf) {t : HashTable B}
    (ht : Invariant O same wf t) (k : K) :
    ∃ found t', remhash O k t = some (found, t') ∧
      (found = true ↔ ∃ v, Holds O same t k v) ∧
      Invariant O same wf t' ∧ Removed O same k t t' ∧ t'.sizing = t.sizing ∧
      t'.size = t.size ∧ t'.entries ≤ t.entries := by
  have heq := hO.equivalence
  obtain ⟨i, hi, hloop, _, ⟨e, he, hsame⟩ | ⟨hnone, habsent⟩⟩ := loop_finds hO ht k
  · obtain ⟨z, hz, hfree⟩ := ht.free
    have hiz : i ≠ z := by rintro rfl; simp [he] at hfree
    have hin := ne_next hi hz hiz
    have hone : dist t.size i (next t.size i) = 1 := by
      rw [dist_next_right hi hi (Ne.symm hin), dist_self]
    obtain ⟨c', hrun, hchain, hstores, hdist, hocc⟩ :=
      fillHole_closes hz t.size t.data i (next t.size i)
        (hole_open ht.chained hi (by simp [he]) hin) hfree (dist_next_before hi hz hiz)
        (dist_lt (next_lt hi) hz)
    rw [hone] at hrun
    have hsub : ∀ x, Stores t.size c' x → Stores t.size t.data x := by
      intro x hx
      obtain ⟨p, hp, _, hpx⟩ := (hstores x).mp hx
      exact ⟨p, hp, hpx⟩
    refine ⟨true, { t with data := c', entries := t.entries - 1 }, ?_, ?_, ?_, ?_, rfl, rfl,
      Nat.sub_le _ _⟩
    · simp only [remhash, hloop, Option.bind_eq_bind, Option.bind_some, he]
      rw [show (i + 1) % t.size = next t.size i from rfl, hrun]
      rfl
    · exact iff_of_true rfl ⟨O.value e, e, ⟨i, hi, he⟩, hsame, rfl⟩
    · have hcount := ht.count
      have hentries := ht.entries_lt
      exact
        { size_pos := ht.size_pos
          limit_eq := ht.limit_eq
          entries_lt := by dsimp only; omega
          count := by dsimp only; omega
          contents := by
            intro p hp x hx
            obtain ⟨q, hq, hqx⟩ := hsub x ⟨p, hp, hx⟩
            exact ht.contents q hq x hqx
          distinct := hdist _ (fun p hp q hq _ _ => ht.distinct p hp q hq)
          chained := hchain }
    · intro k' v'
      constructor
      · rintro ⟨x, hx, hk', hv⟩
        refine ⟨fun hk => ?_, x, hsub x hx, hk', hv⟩
        obtain ⟨p, hp, hpi, hpx⟩ := (hstores x).mp hx
        exact hpi (ht.distinct p hp i hi x e hpx he
          (heq.trans (heq.symm (heq.trans hk hk')) hsame))
      · rintro ⟨hk, x, ⟨p, hp, hpx⟩, hk', hv⟩
        refine ⟨x, (hstores x).mpr ⟨p, hp, ?_, hpx⟩, hk', hv⟩
        rintro rfl
        rw [he] at hpx
        cases hpx
        exact hk (heq.trans hsame (heq.symm hk'))
  · refine ⟨false, t, by simp [remhash, hloop, hnone], ?_, ht, ?_, rfl, rfl, le_rfl⟩
    · refine iff_of_false (by simp) ?_
      rintro ⟨v, x, hx, hk, _⟩
      exact habsent x hx hk
    · intro k' v'
      refine ⟨fun h => ⟨fun hk => ?_, h⟩, And.right⟩
      obtain ⟨x, hx, hk', _⟩ := h
      exact habsent x hx (heq.trans hk hk')

theorem clrhash_clears {t : HashTable B} (ht : Invariant O same wf t) :
    Invariant O same wf (clClrhash t) ∧ (∀ k v, ¬ Holds O same (clClrhash t) k v) ∧
      (clClrhash t).sizing = t.sizing ∧ (clClrhash t).size = t.size ∧
      (clClrhash t).entries ≤ t.entries := by
  have hcount := ht.count
  by_cases h0 : t.entries = 0
  · have hclr : clClrhash t = t := by simp [clClrhash, h0]
    rw [hclr]
    refine ⟨ht, ?_, rfl, rfl, le_rfl⟩
    rintro k v ⟨x, ⟨p, hp, hx⟩, _, _⟩
    have hempty : p ∈ (Finset.range t.size).filter (fun i => (t.data i).isSome) := by
      simp [hp, hx]
    have := Finset.card_pos.mpr ⟨p, hempty⟩
    rw [h0] at hcount
    exact absurd hcount (by simp only [occupied]; omega)
  · have hclr : clClrhash t = doClrhash t := by simp [clClrhash, h0]
    have hnone : ∀ i < t.size, (doClrhash t).data i = none := by
      intro i hi
      simp [doClrhash, hi]
    rw [hclr]
    refine ⟨?_, ?_, rfl, rfl, Nat.zero_le _⟩
    · exact
        { size_pos := ht.size_pos
          limit_eq := ht.limit_eq
          entries_lt := ht.size_pos
          count := by
            rw [occupied_congr (d := fun _ => none) (fun i hi => by rw [hnone i hi])]
            exact (occupied_none _).symm
          contents := by intro i hi e he; rw [hnone i hi] at he; cases he
          distinct := by intro p hp _ _ x _ hx; rw [hnone p hp] at hx; cases hx
          chained := by intro q hq b hb; rw [hnone q hq] at hb; cases hb }
    · rintro k v ⟨x, ⟨p, hp, hx⟩, _, _⟩
      rw [hnone p hp] at hx
      cases hx

end EclHashTable
