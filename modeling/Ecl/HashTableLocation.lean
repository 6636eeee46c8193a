import Ecl.HashTableGrowth

/-! Non-weak tables with any test and any hash function, that of EQUALP or a user's included:
if the test holds of a key and itself, each stored key is found in its own bucket. -/
namespace EclHashTable

open ProbeChains

variable {K V B : Type} {O : TableOps K V B} {test : K → K → Bool} {hash : K → ℕ}

section removal

variable {n z : ℕ} {R : B → B → Prop}

theorem fillHole_unblocked (hz : z < n) :
    ∀ fuel c e j, Hole n (home O n) c e j → UnblockedOff n (home O n) R c e → c z = none →
      dist n j z < dist n j e → ∀ c', fillHole O n fuel c e j (dist n e j) = some c' →
        Unblocked n (home O n) R c' := by
  have hhome : ∀ b, home O n b < n := fun b => Nat.mod_lt _ (by omega)
  intro fuel
  induction fuel with
  | zero =>
    intro c e j _ _ _ _ c' h
    cases h
  | succ fuel ih =>
    intro c e j hole hu hfree hbefore c' hrun
    have hk : ¬ n < dist n e j := by
      have := dist_lt hole.hole_lt hole.scan_lt
      omega
    cases hj : c j with
    | none =>
      rw [fillHole_free hk hj] at hrun
      cases hrun
      exact unblocked_close hu
    | some b =>
      have hjz : j ≠ z := by
        rintro rfl
        simp [hj] at hfree
      have hstep := dist_next_left hole.scan_lt hz hjz
      rw [fillHole_used hk hj] at hrun
      by_cases hd : dist n e j ≤ dist n (home O n b) j
      · have hn := ne_next hole.scan_lt hz hjz
        have hone : dist n j (next n j) = 1 := by
          rw [dist_next_right hole.scan_lt hole.scan_lt (Ne.symm hn), dist_self]
        have hze : z ≠ e := by
          rintro rfl
          exact hole.stale hfree
        rw [if_pos hd, ← hone] at hrun
        exact ih _ j (next n j) (hole_move hole hj (hhome b) hd hn) (unblocked_move hole hu hj hhome hd)
          (by rwa [Function.update_of_ne hze]) (dist_next_before hole.scan_lt hz hjz) c' hrun
      · have hback := dist_next_left hole.scan_lt hole.hole_lt (Ne.symm hole.apart)
        have hn : next n j ≠ e := by
          intro h
          rw [h, dist_self] at hback
          omega
        rw [if_neg hd, ← dist_next_right hole.hole_lt hole.scan_lt hn] at hrun
        exact ih c e (next n j) (hole_skip hole hj (by omega) hn) hu hfree (by omega) c' hrun

theorem fillHole_frame {q : ℕ} (hq : q < n) (hz : z < n) :
    ∀ fuel c e j k, e < n → j < n → c z = none → dist n q e < dist n q z →
      dist n q j ≤ dist n q z → ∀ c', fillHole O n fuel c e j k = some c' →
        ∀ p < n, dist n q z ≤ dist n q p → c' p = c p := by
  intro fuel
  induction fuel with
  | zero =>
    intro c e j k _ _ _ _ _ c' h
    cases h
  | succ fuel ih =>
    intro c e j k he hj hfree hez hjz c' hrun p hp hpz
    have hpe : p ≠ e := by
      rintro rfl
      omega
    by_cases hk : n < k
    · rw [fillHole, if_pos hk] at hrun
      cases hrun
      rfl
    · cases hd : c j with
      | none =>
        rw [fillHole_free hk hd] at hrun
        cases hrun
        exact Function.update_of_ne hpe _ _
      | some b =>
        have hne : j ≠ z := by
          rintro rfl
          rw [hd] at hfree
          cases hfree
        have hlt : dist n q j < dist n q z := by
          have hdist : dist n q j ≠ dist n q z := fun h => hne (dist_injective hj hz hq h)
          omega
        have hnext : next n j ≠ q := by
          intro h
          have hlast := dist_next_left hj hz hne
          have hadd := dist_add hq hj hz hjz
          rw [h] at hlast
          omega
        have hstep := dist_next_right hq hj hnext
        rw [fillHole_used hk hd] at hrun
        split at hrun
        · have hze : z ≠ e := by
            rintro rfl
            omega
          rw [ih _ j (next n j) 1 hj (next_lt hj) (by rwa [Function.update_of_ne hze]) hlt (by omega)
            c' hrun p hp hpz, Function.update_of_ne hpe]
        · exact ih c e (next n j) (k + 1) he (next_lt hj) hfree hez (by omega) c' hrun p hp hpz

end removal

variable {V : Type}

def Finds (test : K → K → Bool) (e f : K × V) : Prop := test e.1 f.1 = true

def homeOf (hash : K → ℕ) (size : ℕ) (e : K × V) : ℕ := hash e.1 % size

structure Located (test : K → K → Bool) (hash : K → ℕ) (t : HashTable (K × V)) : Prop where
  size_pos : 0 < t.size
  limit_eq : t.limit = t.sizing.limit t.size
  entries_lt : t.entries < t.size
  count : t.entries = occupied t.size t.data
  chained : Chained t.size (homeOf hash t.size) t.data
  unblocked : Unblocked t.size (homeOf hash t.size) (Finds test) t.data

theorem Located.free {t : HashTable (K × V)} (h : Located test hash t) :
    ∃ z < t.size, t.data z = none := by
  apply exists_free
  rw [← h.count]
  exact h.entries_lt

theorem located_empty (z : Sizing) {size : ℕ} (h : 0 < size) : Located (V := V) test hash
    { sizing := z, size := size, entries := 0, limit := z.limit size, data := fun _ => none } where
  size_pos := h
  limit_eq := rfl
  entries_lt := h
  count := (occupied_none size).symm
  chained := by
    intro q _ b hb
    simp at hb
  unblocked := by
    intro q _ b hb
    simp at hb

theorem Located.loop {t : HashTable (K × V)} (h : Located test hash t) (k : K) :
    ∃ i < t.size, hashTableLoop (keyedOps (V := V) test hash) k t = some i ∧
      (∀ p < t.size, dist t.size (hash k % t.size) p < dist t.size (hash k % t.size) i →
        ∃ e, t.data p = some e ∧ test k e.1 = false) ∧
      (t.data i = none ∨ ∃ e, t.data i = some e ∧ test k e.1 = true) := by
  obtain ⟨z, hz, hfree⟩ := h.free
  have hhome : hash k % t.size < t.size := Nat.mod_lt _ h.size_pos
  have hend : loopTest (keyedOps (V := V) test hash) k t z = true := by simp [loopTest, hfree]
  obtain ⟨i, hi, hloop, hstop, hfirst⟩ := probe_finds hz hend t.size _ hhome (dist_lt hhome hz)
  refine ⟨i, hi, hloop, ?_, ?_⟩
  · intro p hp hlt
    have hmiss := hfirst p hp hlt
    cases hd : t.data p with
    | none => simp [loopTest, hd] at hmiss
    | some e => exact ⟨e, rfl, by simpa [loopTest, hd, keyedOps] using hmiss⟩
  · cases hd : t.data i with
    | none => exact Or.inl rfl
    | some e => exact Or.inr ⟨e, rfl, by simpa [loopTest, hd, keyedOps] using hstop⟩

theorem Located.loop_own {t : HashTable (K × V)} (h : Located test hash t)
    (hrefl : ∀ k, test k k = true) {q : ℕ} (hq : q < t.size) {e : K × V} (he : t.data q = some e) :
    hashTableLoop (keyedOps (V := V) test hash) e.1 t = some q := by
  obtain ⟨i, hi, hloop, hbefore, hend⟩ := h.loop e.1
  have hhome : hash e.1 % t.size < t.size := Nat.mod_lt _ h.size_pos
  have hle : ¬ dist t.size (hash e.1 % t.size) q < dist t.size (hash e.1 % t.size) i := by
    intro hlt
    obtain ⟨f, hf, hmiss⟩ := hbefore q hq hlt
    rw [he] at hf
    cases hf
    rw [hrefl] at hmiss
    cases hmiss
  have hge : ¬ dist t.size (hash e.1 % t.size) i < dist t.size (hash e.1 % t.size) q := by
    intro hlt
    rcases hend with hnone | ⟨f, hf, hmatch⟩
    · exact h.chained q hq e he i hi hlt.le hnone
    · exact h.unblocked q hq e he i hi hlt f hf hmatch
  rw [hloop, dist_injective hi hq hhome (by omega)]

theorem Located.overwrite {t : HashTable (K × V)} (h : Located test hash t) {i : ℕ}
    {e : K × V} (he : t.data i = some e) (v : V) :
    Located test hash { t with data := Function.update t.data i (some (e.1, v)) } where
  size_pos := h.size_pos
  limit_eq := h.limit_eq
  entries_lt := h.entries_lt
  count := by
    rw [h.count]
    exact (occupied_overwrite _ (by simp [he])).symm
  chained := chained_overwrite h.chained he rfl
  unblocked := unblocked_overwrite h.unblocked he rfl (fun _ => id) (fun _ => id)

theorem Located.fill {t : HashTable (K × V)} (h : Located test hash t) {i : ℕ} (hi : i < t.size)
    {k : K} (hbefore : ∀ p < t.size,
      dist t.size (hash k % t.size) p < dist t.size (hash k % t.size) i →
        ∃ e, t.data p = some e ∧ test k e.1 = false)
    (hfree : t.data i = none) (hlimit : t.entries + 1 < t.limit) (v : V) :
    Located test hash { t with
      entries := t.entries + 1
      data := Function.update t.data i (some (k, v)) } where
  size_pos := h.size_pos
  limit_eq := h.limit_eq
  entries_lt := by
    have hlt := t.sizing.limit_lt h.size_pos
    rw [← h.limit_eq] at hlt
    exact hlimit.trans hlt
  count := by
    rw [h.count]
    exact (occupied_fill _ hi hfree).symm
  chained := by
    apply chained_fill h.chained _ (Nat.mod_lt _ h.size_pos) hi
    intro p hp hlt
    obtain ⟨e, he, -⟩ := hbefore p hp hlt
    rw [he]
    simp
  unblocked := by
    apply unblocked_fill h.unblocked h.chained _ hi hfree
    intro p hp hlt
    obtain ⟨e, he, hmiss⟩ := hbefore p hp hlt
    refine ⟨e, he, ?_⟩
    rw [Finds, hmiss]
    decide

theorem sethash_located : ∀ fuel k v (t t' : HashTable (K × V)), Located test hash t →
    sethash (keyedOps test hash) fuel k v t = some t' → Located test hash t' := by
  intro fuel
  induction fuel with
  | zero =>
    intro k v t t' _ hset
    cases hset
  | succ fuel ih =>
    intro k v t t' h hset
    obtain ⟨i, hi, hloop, hbefore, hend⟩ := h.loop k
    simp only [sethash, hloop, Option.bind_eq_bind, Option.bind_some] at hset
    rcases hend with hnone | ⟨e, he, -⟩
    · simp only [hnone] at hset
      split at hset
      · rw [Option.bind_eq_some_iff] at hset
        obtain ⟨new, hnew, hlast⟩ := hset
        apply ih k v new t' _ hlast
        -- The extension stores the pairs of the old buckets in an empty table, one by one.
        have hrebuild : ∀ i new, rebuild (keyedOps test hash) (sethash (keyedOps test hash) fuel) t i =
            some new → Located test hash new := by
          intro i
          induction i with
          | zero =>
            intro new hnew
            cases hnew
            exact located_empty t.sizing (t.sizing.newSize_pos h.size_pos)
          | succ i ihi =>
            intro new' hnew'
            rw [rebuild_succ, Option.bind_eq_some_iff] at hnew'
            obtain ⟨new, hnew, hset⟩ := hnew'
            cases hd : t.data i with
            | none =>
              simp only [hd, Option.some.injEq] at hset
              exact hset ▸ ihi new hnew
            | some e =>
              simp only [hd] at hset
              exact ih _ _ new new' (ihi new hnew) hset
        exact hrebuild t.size new hnew
      · next hlimit =>
        cases hset
        exact h.fill hi hbefore hnone (by omega) v
    · simp only [he] at hset
      cases hset
      exact h.overwrite he v

theorem Located.sethash_own {t : HashTable (K × V)} (h : Located test hash t)
    (hrefl : ∀ k, test k k = true) {q : ℕ} (hq : q < t.size) {e : K × V} (he : t.data q = some e)
    (v : V) (fuel : ℕ) : sethash (keyedOps test hash) (fuel + 1) e.1 v t =
      some { t with data := Function.update t.data q (some (e.1, v)) } := by
  simp only [sethash, h.loop_own hrefl hq he, Option.bind_eq_bind, Option.bind_some, he]
  rfl

/-- The removal of what is in bucket q: the table stays located, and behind every free
bucket nothing changes. -/
theorem Located.remove {t : HashTable (K × V)} (h : Located test hash t) {q : ℕ} (hq : q < t.size)
    {e : K × V} (he : t.data q = some e) :
    ∃ data, fillHole (keyedOps (V := V) test hash) t.size t.size t.data q ((q + 1) % t.size) 1 = some data ∧
      Located test hash { t with data := data, entries := t.entries - 1 } ∧
      ∀ z < t.size, t.data z = none → ∀ p < t.size, dist t.size q z ≤ dist t.size q p →
        data p = t.data p := by
  obtain ⟨z, hz, hfree⟩ := h.free
  have hqz : q ≠ z := by
    rintro rfl
    rw [he] at hfree
    cases hfree
  have hn := ne_next hq hz hqz
  have hone : dist t.size q (next t.size q) = 1 := by
    rw [dist_next_right hq hq (Ne.symm hn), dist_self]
  have hopen := hole_open h.chained hq (by simp [he]) hn
  have hbefore := dist_next_before hq hz hqz
  obtain ⟨data, hrun, hchain, -, -, hocc⟩ :=
    fillHole_closes (O := keyedOps (V := V) test hash) hz t.size t.data q (next t.size q) hopen hfree
      hbefore (dist_lt (next_lt hq) hz)
  have hunblocked := fillHole_unblocked (O := keyedOps (V := V) test hash) hz t.size t.data q
    (next t.size q) hopen (h.unblocked.off q) hfree hbefore data hrun
  rw [hone] at hrun
  refine ⟨data, hrun, ?_, ?_⟩
  · have hcount := h.count
    have hentries := h.entries_lt
    exact
      { size_pos := h.size_pos
        limit_eq := h.limit_eq
        entries_lt := by dsimp only; omega
        count := by dsimp only; omega
        chained := hchain
        unblocked := hunblocked }
  · intro z' hz' hfree' p hp hle
    have hqz' : q ≠ z' := by
      rintro rfl
      rw [he] at hfree'
      cases hfree'
    have hpos := dist_pos hq hqz'
    apply fillHole_frame hq hz' t.size t.data q _ 1 hq (next_lt hq) hfree' _ _ data hrun p hp hle
    · rw [dist_self]
      exact hpos
    · rw [hone]
      exact hpos

theorem remhash_located {t t' : HashTable (K × V)} (h : Located test hash t) {k : K} {found : Bool}
    (hrem : remhash (keyedOps test hash) k t = some (found, t')) : Located test hash t' := by
  obtain ⟨i, hi, hloop, -, hend⟩ := h.loop k
  simp only [remhash, hloop, Option.bind_eq_bind, Option.bind_some] at hrem
  rcases hend with hnone | ⟨e, he, -⟩
  · simp only [hnone] at hrem
    cases hrem
    exact h
  · obtain ⟨data, hrun, hlocated, -⟩ := h.remove hi he
    simp only [he, hrun, Option.bind_some] at hrem
    cases hrem
    exact hlocated

theorem Located.remhash_own {t : HashTable (K × V)} (h : Located test hash t)
    (hrefl : ∀ k, test k k = true) {q : ℕ} (hq : q < t.size) {e : K × V} (he : t.data q = some e) :
    ∃ t', remhash (keyedOps test hash) e.1 t = some (true, t') ∧ Located test hash t' ∧
      t'.size = t.size ∧ ∀ z < t.size, t.data z = none → ∀ p < t.size,
        dist t.size q z ≤ dist t.size q p → t'.data p = t.data p := by
  obtain ⟨data, hrun, hlocated, hframe⟩ := h.remove hq he
  refine ⟨{ t with data := data, entries := t.entries - 1 }, ?_, hlocated, rfl, hframe⟩
  simp only [remhash, h.loop_own hrefl hq he, Option.bind_eq_bind, Option.bind_some, he, hrun]

theorem clrhash_located {t : HashTable (K × V)} (h : Located test hash t) :
    Located test hash (clClrhash t) := by
  unfold clClrhash
  split
  · have hnone : ∀ i < t.size, (doClrhash t).data i = none := by
      intro i hi
      simp [doClrhash, hi]
    exact
      { size_pos := h.size_pos
        limit_eq := h.limit_eq
        entries_lt := h.size_pos
        count := by
          rw [occupied_congr (d := fun _ => none) (fun i hi => by rw [hnone i hi])]
          exact (occupied_none _).symm
        chained := by
          intro q hq b hb
          rw [hnone q hq] at hb
          cases hb
        unblocked := by
          intro q hq b hb
          rw [hnone q hq] at hb
          cases hb }
  · exact h

theorem step_located {t t' : HashTable (K × V)} (h : Located test hash t) {fuel : ℕ} {op : Op K V}
    (hstep : step (keyedOps test hash) fuel t op = some t') : Located test hash t' := by
  cases op with
  | set k v => exact sethash_located fuel k v t t' h hstep
  | rem k =>
    obtain ⟨⟨found, t''⟩, hrem, rfl⟩ := Option.map_eq_some_iff.mp hstep
    exact remhash_located h hrem
  | clr =>
    cases hstep
    exact clrhash_located h

theorem run_located {fuel : ℕ} : ∀ {ops : List (Op K V)} {t t' : HashTable (K × V)},
    Located test hash t → run (keyedOps test hash) fuel t ops = some t' → Located test hash t' := by
  intro ops
  induction ops with
  | nil =>
    intro t t' h hrun
    cases hrun
    exact h
  | cons op ops ih =>
    intro t t' h hrun
    simp only [run, List.foldlM_cons, Option.bind_eq_bind, Option.bind_eq_some_iff] at hrun
    obtain ⟨t'', hstep, hrest⟩ := hrun
    exact ih (step_located h hstep) hrest

end EclHashTable
