import Ecl.HashTableSizes

/-! Calls of sethash while a table grows. When every extension makes the table larger, or
finds no memory, the calls come to an end; when the sizes stay where they are, they do not. -/
namespace HashTableSizes

open EclHashTable (TableOps)
open ProbeChains

variable {K V B : Type} {O : TableOps K V B} {pairs : ℕ → K × V} {A : ℕ → Prop}

structure DistinctKeys (O : TableOps K V B) (pairs : ℕ → K × V) : Prop where
  test_iff : ∀ i j, O.test (pairs i).1 (O.store (pairs j).1 (pairs j).2) = true ↔ i = j
  key_store : ∀ i, O.key (O.store (pairs i).1 (pairs i).2) = (pairs i).1
  value_store : ∀ i, O.value (O.store (pairs i).1 (pairs i).2) = (pairs i).2

def Terminates (O : TableOps K V B) (t : HashTable B) : Prop :=
  ∀ pairs : ℕ → K × V, DistinctKeys O pairs → ∀ n, ∃ fuel,
    (∃ t', sethashes O fuel t pairs n = .returns t') ∨
      sethashes O fuel t pairs n = .fails .storageExhausted ∧
        ∃ size, limit t.factor size ≤ n ∧ newSize t.rehashSize size = .error .storageExhausted

structure Sound (t : HashTable B) : Prop where
  size_ge : 16 ≤ t.size
  limit_eq : t.limit = limit t.factor t.size
  entries_lt : t.entries < t.size
  count : t.entries = occupied t.size t.data

theorem limit_lt {factor : Equalp.FloatValue} {size : ℕ} (h : 0 < size) : limit factor size < size := by
  simp only [limit]
  split <;> omega

theorem Sound.limit_lt {t : HashTable B} (h : Sound t) : t.limit < t.size := by
  have hsize := h.size_ge
  rw [h.limit_eq]
  apply HashTableSizes.limit_lt
  omega

theorem sound_emptyExtension (t : HashTable B) {size : ℕ} (h : 16 ≤ size) :
    Sound (emptyExtension t size) where
  size_ge := h
  limit_eq := rfl
  entries_lt := by
    simp only [emptyExtension]
    omega
  count := (occupied_none size).symm

theorem Sound.loop {t : HashTable B} (h : Sound t) (O : TableOps K V B) (k : K) :
    ∃ i < t.size, hashTableLoop O k t = some i ∧
      (t.data i = none ∨ ∃ e, t.data i = some e ∧ O.test k e = true) := by
  have hsize := h.size_ge
  obtain ⟨z, hz, hfree⟩ := exists_free (h.count ▸ h.entries_lt)
  have hhome : O.hash k % t.size < t.size := Nat.mod_lt _ (by omega)
  have hstop : loopTest O k t z = true := by simp [loopTest, hfree]
  obtain ⟨i, hi, hloop, hend, -⟩ := probe_finds hz hstop t.size _ hhome (dist_lt hhome hz)
  refine ⟨i, hi, hloop, ?_⟩
  cases hd : t.data i with
  | none => exact Or.inl rfl
  | some e =>
    refine Or.inr ⟨e, rfl, ?_⟩
    simpa [loopTest, hd] using hend

theorem Sound.fill {t : HashTable B} (h : Sound t) {i : ℕ} (hi : i < t.size)
    (hnone : t.data i = none) (hlimit : t.entries + 1 < t.limit) (e : B) :
    Sound { t with entries := t.entries + 1, data := Function.update t.data i (some e) } where
  size_ge := h.size_ge
  limit_eq := h.limit_eq
  entries_lt := hlimit.trans h.limit_lt
  count := by
    rw [h.count]
    exact (occupied_fill e hi hnone).symm

theorem Sound.overwrite {t : HashTable B} (h : Sound t) {i : ℕ} {e : B}
    (he : t.data i = some e) (e' : B) :
    Sound { t with data := Function.update t.data i (some e') } where
  size_ge := h.size_ge
  limit_eq := h.limit_eq
  entries_lt := h.entries_lt
  count := by
    rw [h.count]
    exact (occupied_overwrite e' (by simp [he])).symm

section sizes

variable {r : RehashSize} {s s' : ℕ}

theorem eclAlloc_ok {n : ℕ} : eclAlloc n = .ok () ↔ n < 2 ^ 52 := by
  simp only [eclAlloc]
  constructor
  · intro h
    split at h
    · cases h
    · split at h
      · cases h
      · omega
  · intro h
    rw [if_neg (by omega), if_neg (by omega)]

theorem newSize_lt (h : newSize r s = .ok s') : s' < 2 ^ 52 := by
  simp only [newSize] at h
  cases hobj : signals (newSizeObj r s) with
  | error f =>
    rw [hobj] at h
    cases h
  | ok obj =>
    rw [hobj] at h
    simp only [Except.bind, bind, pure, Except.pure] at h
    generalize (if obj ≤ Integers.mostPositiveFixnum then obj.toNat else s * 2) = n at h
    cases halloc : eclAlloc n with
    | error f =>
      rw [halloc] at h
      cases h
    | ok u =>
      rw [halloc] at h
      cases h
      exact eclAlloc_ok.mp halloc

end sizes

section ending

def Enlarging (r : RehashSize) (A : ℕ → Prop) : Prop :=
  ∀ s, A s → 16 ≤ s ∧ s < 2 ^ 52 ∧ (newSize r s = .error .storageExhausted ∨
    ∃ s', newSize r s = .ok s' ∧ s < s' ∧ A s')

structure Later (A : ℕ → Prop) (t t' : HashTable B) : Prop where
  sound : Sound t'
  rehashSize : t'.rehashSize = t.rehashSize
  factor : t'.factor = t.factor
  size : A t'.size
  larger : t.size ≤ t'.size
  entries : t'.entries ≤ t.entries + 1

def Exhausted (N : ℕ) (t : HashTable B) (out : Outcome (HashTable B)) : Prop :=
  out = .fails .storageExhausted ∧
    ∃ s, limit t.factor s ≤ N ∧ newSize t.rehashSize s = .error .storageExhausted

def EndsFrom (r : RehashSize) (A : ℕ → Prop) (N s : ℕ)
    (set : K → V → HashTable B → Outcome (HashTable B)) : Prop :=
  ∀ k v (t : HashTable B), Sound t → t.rehashSize = r → A t.size → t.entries < N → s ≤ t.size →
    (∃ t', set k v t = .returns t' ∧ Later A t t') ∨ Exhausted N t (set k v t)

theorem rebuild_ends {N s : ℕ} {t : HashTable B} {set : K → V → HashTable B → Outcome (HashTable B)}
    (hset : EndsFrom t.rehashSize A N s set) (hN : occupied t.size t.data < N) (hmin : 16 ≤ s)
    (hs : A s) :
    ∀ i ≤ t.size, (∃ new, rebuild O set t (emptyExtension t s) i = .returns new ∧ Sound new ∧
        new.rehashSize = t.rehashSize ∧ new.factor = t.factor ∧ A new.size ∧ s ≤ new.size ∧
        new.entries ≤ occupied i t.data) ∨
      Exhausted N t (rebuild O set t (emptyExtension t s) i) := by
  intro i
  induction i with
  | zero =>
    intro _
    exact Or.inl ⟨_, rfl, sound_emptyExtension t hmin, rfl, rfl, hs, le_rfl, Nat.zero_le _⟩
  | succ i ih =>
    intro hi
    rcases ih (by omega) with ⟨new, hrun, hsound, hr, hf, hA, hle, hcount⟩ | ⟨hrun, hex⟩
    · rw [rebuild, hrun, Outcome.bind, occupied_succ]
      cases hd : t.data i with
      | none => exact Or.inl ⟨new, rfl, hsound, hr, hf, hA, hle, hcount.trans (Nat.le_add_right _ _)⟩
      | some e =>
        have hbound : occupied i t.data ≤ occupied t.size t.data := occupied_le (by omega)
        simp only [Option.isSome_some, if_true]
        rcases hset (O.key e) (O.value e) new hsound hr hA (by omega) hle with
          ⟨t', hrun', hlater⟩ | ⟨hrun', hex⟩
        · exact Or.inl ⟨t', hrun', hlater.sound, hlater.rehashSize.trans hr,
            hlater.factor.trans hf, hlater.size, hle.trans hlater.larger,
            hlater.entries.trans (Nat.succ_le_succ hcount)⟩
        · exact Or.inr ⟨hrun', hf ▸ hr ▸ hex⟩
    · refine Or.inr ⟨?_, hex⟩
      rw [rebuild, hrun]
      rfl

theorem sethash_ends {r : RehashSize} (hA : Enlarging r A) (N : ℕ) :
    ∀ F s, 2 ^ 52 ≤ s + F → EndsFrom r A N s (sethash O (B := B) (F + 1)) := by
  intro F
  induction F with
  | zero =>
    intro s hs k v t _ _ hsize _ hle
    have := (hA _ hsize).2.1
    omega
  | succ F ih =>
    intro s hs k v t ht hr hsize hN hle
    obtain ⟨i, hi, hloop, hfound⟩ := ht.loop O k
    rw [sethash, hloop, Option.elim_some]
    rcases hfound with hnone | ⟨e, he, -⟩
    · by_cases hlimit : t.limit ≤ t.entries + 1
      · simp only [setAt, hnone, if_pos hlimit]
        have hfull : limit t.factor t.size ≤ N := by
          rw [← ht.limit_eq]
          omega
        rcases (hA _ hsize).2.2 with hstorage | ⟨s', hnew, hlarger, hs'⟩
        · refine Or.inr ⟨?_, t.size, hfull, hr ▸ hstorage⟩
          rw [eclExtendHashtable, hr, hstorage]
          rfl
        · have hends : EndsFrom r A N s' (sethash O (B := B) (F + 1)) := ih s' (by omega)
          rw [eclExtendHashtable, hr, hnew]
          simp only [Outcome.lift, Outcome.bind]
          rcases rebuild_ends (O := O) (hr ▸ hends) (ht.count ▸ hN) (hA _ hs').1 hs' t.size le_rfl with
            ⟨new, hrun, hsound, hrs, hf, hAn, hle', hcount⟩ | ⟨hrun, hex⟩
          · rw [← ht.count] at hcount
            rw [hrun]
            rcases hends k v new hsound (hrs.trans hr) hAn (by omega) hle' with
              ⟨t', hset, hlater⟩ | ⟨hset, hex⟩
            · refine Or.inl ⟨t', hset, hlater.sound, hlater.rehashSize.trans hrs,
                hlater.factor.trans hf, hlater.size, ?_, ?_⟩
              · exact hlarger.le.trans (hle'.trans hlater.larger)
              · exact hlater.entries.trans (Nat.succ_le_succ hcount)
            · exact Or.inr ⟨hset, hf ▸ hrs ▸ hex⟩
          · rw [hrun]
            exact Or.inr ⟨rfl, hex⟩
      · refine Or.inl ⟨_, ?_, ht.fill hi hnone (by omega) (O.store k v), rfl, rfl, hsize, le_rfl, le_rfl⟩
        simp only [setAt, hnone, if_neg hlimit]
    · refine Or.inl ⟨_, ?_, ht.overwrite he (O.update e v), rfl, rfl, hsize, le_rfl, Nat.le_succ _⟩
      simp only [setAt, he]

theorem sethashes_end {t : HashTable B} (hA : Enlarging t.rehashSize A) (ht : Sound t)
    (hsize : A t.size) (hentries : t.entries = 0) (pairs : ℕ → K × V) (N : ℕ) :
    ∀ n ≤ N, (∃ t', sethashes O (2 ^ 52 + 1) t pairs n = .returns t' ∧ Sound t' ∧
        t'.rehashSize = t.rehashSize ∧ t'.factor = t.factor ∧ A t'.size ∧ t'.entries ≤ n) ∨
      Exhausted N t (sethashes O (2 ^ 52 + 1) t pairs n) := by
  intro n
  induction n with
  | zero => exact fun _ => Or.inl ⟨t, rfl, ht, rfl, rfl, hsize, hentries.le⟩
  | succ n ih =>
    intro hn
    rcases ih (by omega) with ⟨t', hrun, ht', hr, hf, hA', hle⟩ | ⟨hrun, hex⟩
    · rw [sethashes, hrun, Outcome.bind]
      rcases sethash_ends (O := O) hA N (2 ^ 52) 0 (by omega) (pairs n).1 (pairs n).2 t' ht' hr hA'
        (by omega) (Nat.zero_le _) with ⟨t'', hset, hlater⟩ | ⟨hset, hex⟩
      · exact Or.inl ⟨t'', hset, hlater.sound, hlater.rehashSize.trans hr, hlater.factor.trans hf,
          hlater.size, hlater.entries.trans (Nat.succ_le_succ hle)⟩
      · exact Or.inr ⟨hset, hf ▸ hr ▸ hex⟩
    · refine Or.inr ⟨?_, hex⟩
      rw [sethashes, hrun]
      rfl

theorem terminates_of_enlarging {t : HashTable B} (hA : Enlarging t.rehashSize A) (ht : Sound t)
    (hsize : A t.size) (hentries : t.entries = 0) : Terminates O t := by
  intro pairs _ n
  refine ⟨2 ^ 52 + 1, ?_⟩
  rcases sethashes_end (O := O) hA ht hsize hentries pairs n n le_rfl with ⟨t', hrun, -⟩ | hex
  · exact Or.inl ⟨t', hrun⟩
  · exact Or.inr hex

end ending

section filling

def stored (O : TableOps K V B) (pairs : ℕ → K × V) (j : ℕ) : B := O.store (pairs j).1 (pairs j).2

theorem DistinctKeys.stored_injective (h : DistinctKeys O pairs) {i j : ℕ}
    (hij : stored O pairs i = stored O pairs j) : i = j := by
  apply (h.test_iff i j).mp
  rw [stored, stored] at hij
  rw [← hij]
  exact (h.test_iff i i).mpr rfl

structure Holding (O : TableOps K V B) (pairs : ℕ → K × V) (J : Finset ℕ) (t : HashTable B) :
    Prop where
  sound : Sound t
  held : ∀ p < t.size, ∀ e, t.data p = some e → ∃ j ∈ J, e = stored O pairs j
  placed : ∀ j ∈ J, ∃ p < t.size, t.data p = some (stored O pairs j)
  separate : ∀ j, ∀ p < t.size, ∀ q < t.size, t.data p = some (stored O pairs j) →
    t.data q = some (stored O pairs j) → p = q
  entries : t.entries = J.card

theorem holding_emptyExtension (t : HashTable B) {size : ℕ} (h : 16 ≤ size) :
    Holding O pairs ∅ (emptyExtension t size) where
  sound := sound_emptyExtension t h
  held := by simp [emptyExtension]
  placed := by simp
  separate := by simp [emptyExtension]
  entries := rfl

theorem Holding.loop {J : Finset ℕ} {t : HashTable B} (h : Holding O pairs J t)
    (hkeys : DistinctKeys O pairs) {j : ℕ} (hj : j ∉ J) :
    ∃ i < t.size, hashTableLoop O (pairs j).1 t = some i ∧ t.data i = none := by
  obtain ⟨i, hi, hloop, hnone | ⟨e, he, htest⟩⟩ := h.sound.loop O (pairs j).1
  · exact ⟨i, hi, hloop, hnone⟩
  · obtain ⟨m, hm, rfl⟩ := h.held i hi e he
    have hjm : j = m := (hkeys.test_iff j m).mp htest
    exact absurd (hjm ▸ hm) hj

theorem Holding.fill {J : Finset ℕ} {t : HashTable B} (h : Holding O pairs J t)
    (hkeys : DistinctKeys O pairs) {i j : ℕ} (hj : j ∉ J) (hi : i < t.size)
    (hnone : t.data i = none) (hlimit : t.entries + 1 < t.limit) :
    Holding O pairs (insert j J) { t with
      entries := t.entries + 1
      data := Function.update t.data i (some (stored O pairs j)) } where
  sound := h.sound.fill hi hnone hlimit _
  held := by
    intro p hp e he
    by_cases hpi : p = i
    · subst p
      simp only [Function.update_self, Option.some.injEq] at he
      exact ⟨j, Finset.mem_insert_self _ _, he.symm⟩
    · simp only [Function.update_of_ne hpi] at he
      obtain ⟨m, hm, rfl⟩ := h.held p hp e he
      exact ⟨m, Finset.mem_insert_of_mem hm, rfl⟩
  placed := by
    intro m hm
    rcases Finset.mem_insert.mp hm with rfl | hm
    · exact ⟨i, hi, Function.update_self _ _ _⟩
    · obtain ⟨p, hp, hd⟩ := h.placed m hm
      have hpi : p ≠ i := by
        rintro rfl
        rw [hnone] at hd
        cases hd
      exact ⟨p, hp, (Function.update_of_ne hpi _ _).trans hd⟩
  separate := by
    -- A bucket of the old table holds no pair j.
    have hother : ∀ m, ∀ p < t.size, t.data p = some (stored O pairs m) → m ≠ j := by
      rintro m p hp hd rfl
      obtain ⟨m', hm', heq⟩ := h.held p hp _ hd
      exact hj (hkeys.stored_injective heq ▸ hm')
    intro m p hp q hq hdp hdq
    by_cases hpi : p = i <;> by_cases hqi : q = i
    · rw [hpi, hqi]
    · subst p
      simp only [Function.update_self, Option.some.injEq] at hdp
      simp only [Function.update_of_ne hqi] at hdq
      exact absurd (hkeys.stored_injective hdp).symm (hother m q hq hdq)
    · subst q
      simp only [Function.update_self, Option.some.injEq] at hdq
      simp only [Function.update_of_ne hpi] at hdp
      exact absurd (hkeys.stored_injective hdq).symm (hother m p hp hdp)
    · simp only [Function.update_of_ne hpi] at hdp
      simp only [Function.update_of_ne hqi] at hdq
      exact h.separate m p hp q hq hdp hdq
  entries := by
    rw [Finset.card_insert_of_notMem hj, ← h.entries]

def Confining (r : RehashSize) (A : ℕ → Prop) : Prop :=
  ∀ s, A s → 16 ≤ s ∧ s < 2 ^ 52 ∧ newSize r s ≠ .error .storageExhausted ∧
    ∀ s', newSize r s = .ok s' → A s'

structure Holds (O : TableOps K V B) (pairs : ℕ → K × V) (r : RehashSize) (A : ℕ → Prop)
    (J : Finset ℕ) (out : Outcome (HashTable B)) : Prop where
  fails : out ≠ .fails .storageExhausted
  returns : ∀ t, out = .returns t → Holding O pairs J t ∧ t.rehashSize = r ∧ A t.size

theorem holds_runsOut {r : RehashSize} {J : Finset ℕ} : Holds O pairs r A J .runsOut where
  fails := by simp
  returns := by simp

theorem holds_returns {r : RehashSize} {J : Finset ℕ} {t : HashTable B} (h : Holding O pairs J t)
    (hr : t.rehashSize = r) (hs : A t.size) : Holds O pairs r A J (.returns t) where
  fails := by simp
  returns := by
    rintro t' ⟨rfl⟩
    exact ⟨h, hr, hs⟩

theorem Holds.bind {r : RehashSize} {J J' : Finset ℕ} {out : Outcome (HashTable B)}
    {f : HashTable B → Outcome (HashTable B)} (h : Holds O pairs r A J out)
    (hf : ∀ t, Holding O pairs J t → t.rehashSize = r → A t.size → Holds O pairs r A J' (f t)) :
    Holds O pairs r A J' (out.bind f) := by
  cases out with
  | returns t =>
    obtain ⟨ht, hr, hs⟩ := h.returns t rfl
    exact hf t ht hr hs
  | fails e =>
    refine ⟨?_, ?_⟩
    · rintro ⟨rfl⟩
      exact h.fails rfl
    · intro t hrun
      cases hrun
  | runsOut => exact holds_runsOut

def Adds (O : TableOps K V B) (pairs : ℕ → K × V) (r : RehashSize) (A : ℕ → Prop)
    (set : K → V → HashTable B → Outcome (HashTable B)) : Prop :=
  ∀ (J : Finset ℕ) j (t : HashTable B), Holding O pairs J t → t.rehashSize = r → A t.size → j ∉ J →
    Holds O pairs r A (insert j J) (set (pairs j).1 (pairs j).2 t)

open Classical in
noncomputable def below (O : TableOps K V B) (pairs : ℕ → K × V) (J : Finset ℕ) (t : HashTable B)
    (i : ℕ) : Finset ℕ :=
  J.filter fun j => ∃ p < i, t.data p = some (stored O pairs j)

theorem mem_below {J : Finset ℕ} {t : HashTable B} {i j : ℕ} : j ∈ below O pairs J t i ↔
    j ∈ J ∧ ∃ p < i, t.data p = some (stored O pairs j) := by
  simp only [below, Finset.mem_filter]

theorem Holding.below_size {J : Finset ℕ} {t : HashTable B} (h : Holding O pairs J t) :
    below O pairs J t t.size = J := by
  ext j
  rw [mem_below]
  exact ⟨And.left, fun hj => ⟨hj, h.placed j hj⟩⟩

theorem below_succ_none {J : Finset ℕ} {t : HashTable B} {i : ℕ} (h : t.data i = none) :
    below O pairs J t (i + 1) = below O pairs J t i := by
  ext j
  rw [mem_below, mem_below]
  constructor
  · rintro ⟨hj, p, hp, hd⟩
    rcases Nat.lt_succ_iff_lt_or_eq.mp hp with hlt | rfl
    · exact ⟨hj, p, hlt, hd⟩
    · rw [h] at hd
      cases hd
  · rintro ⟨hj, p, hp, hd⟩
    exact ⟨hj, p, by omega, hd⟩

theorem below_succ_some (hkeys : DistinctKeys O pairs) {J : Finset ℕ} {t : HashTable B} {i j : ℕ}
    (hj : j ∈ J) (h : t.data i = some (stored O pairs j)) :
    below O pairs J t (i + 1) = insert j (below O pairs J t i) := by
  ext m
  rw [Finset.mem_insert, mem_below, mem_below]
  constructor
  · rintro ⟨hm, p, hp, hd⟩
    rcases Nat.lt_succ_iff_lt_or_eq.mp hp with hlt | rfl
    · exact Or.inr ⟨hm, p, hlt, hd⟩
    · rw [h, Option.some.injEq] at hd
      exact Or.inl (hkeys.stored_injective hd).symm
  · rintro (rfl | ⟨hm, p, hp, hd⟩)
    · exact ⟨hj, i, by omega, h⟩
    · exact ⟨hm, p, by omega, hd⟩

theorem rebuild_holds (hkeys : DistinctKeys O pairs) {r : RehashSize} {t : HashTable B} {s : ℕ}
    {J : Finset ℕ} {set : K → V → HashTable B → Outcome (HashTable B)} (hset : Adds O pairs r A set)
    (ht : Holding O pairs J t) (hr : t.rehashSize = r) (hmin : 16 ≤ s) (hs : A s) :
    ∀ i ≤ t.size, Holds O pairs r A (below O pairs J t i)
      (rebuild O set t (emptyExtension t s) i) := by
  intro i
  induction i with
  | zero =>
    intro _
    have hnone : below O pairs J t 0 = ∅ := by
      ext j
      simp [mem_below]
    rw [hnone]
    exact holds_returns (holding_emptyExtension t hmin) hr hs
  | succ i ih =>
    intro hi
    rw [rebuild]
    apply (ih (by omega)).bind
    intro new hnew hnr hA
    cases hd : t.data i with
    | none =>
      rw [below_succ_none hd]
      exact holds_returns hnew hnr hA
    | some e =>
      obtain ⟨j, hj, rfl⟩ := ht.held i (by omega) e hd
      rw [below_succ_some hkeys hj hd]
      simp only [stored, hkeys.key_store, hkeys.value_store]
      apply hset _ j new hnew hnr hA
      intro hmem
      obtain ⟨-, p, hp, hdp⟩ := mem_below.mp hmem
      have := ht.separate j p (by omega) i (by omega) hdp hd
      omega

theorem sethash_adds (hkeys : DistinctKeys O pairs) {r : RehashSize} (hA : Confining r A) :
    ∀ fuel, Adds O pairs r A (sethash O (B := B) fuel) := by
  intro fuel
  induction fuel with
  | zero =>
    intro J j t _ _ _ _
    exact holds_runsOut
  | succ fuel ih =>
    intro J j t ht hr hsize hj
    obtain ⟨i, hi, hloop, hnone⟩ := ht.loop hkeys hj
    rw [sethash, hloop, Option.elim_some]
    by_cases hlimit : t.limit ≤ t.entries + 1
    · simp only [setAt, hnone, if_pos hlimit]
      have hextend : Holds O pairs r A J (eclExtendHashtable O (sethash O fuel) t) := by
        obtain ⟨-, -, hmemory, hconf⟩ := hA _ hsize
        rw [eclExtendHashtable, hr]
        cases hn : newSize r t.size with
        | error f =>
          refine ⟨?_, ?_⟩
          · rintro ⟨rfl⟩
            exact hmemory hn
          · intro t' hrun
            cases hrun
        | ok s =>
          have hs := hconf s hn
          have hrebuild := rebuild_holds hkeys ih ht hr (hA _ hs).1 hs t.size le_rfl
          rw [ht.below_size] at hrebuild
          exact hrebuild
      apply hextend.bind
      intro new hnew hnr hAn
      exact ih J j new hnew hnr hAn hj
    · simp only [setAt, hnone, if_neg hlimit]
      exact holds_returns (ht.fill hkeys hj hi hnone (by omega)) hr hsize

theorem sethashes_add (hkeys : DistinctKeys O pairs) {t : HashTable B}
    (hA : Confining t.rehashSize A) (ht : Holding O pairs ∅ t) (hsize : A t.size) (fuel : ℕ) :
    ∀ n, Holds O pairs t.rehashSize A (Finset.range n) (sethashes O fuel t pairs n) := by
  intro n
  induction n with
  | zero => exact holds_returns ht rfl hsize
  | succ n ih =>
    rw [sethashes, Finset.range_add_one]
    apply ih.bind
    intro new hnew hr hAn
    exact sethash_adds hkeys hA fuel _ n new hnew hr hAn (by simp)

theorem not_terminates (hkeys : DistinctKeys O pairs) {t : HashTable B}
    (hA : Confining t.rehashSize A) (ht : Holding O pairs ∅ t) (hsize : A t.size) :
    ¬ Terminates O t := by
  intro hends
  obtain ⟨fuel, ⟨t', hrun⟩ | ⟨hrun, -⟩⟩ := hends pairs hkeys (2 ^ 52)
  · obtain ⟨hh, -, hs⟩ := (sethashes_add hkeys hA ht hsize fuel _).returns t' hrun
    have hlt := hh.sound.entries_lt
    have hbound := (hA _ hs).2.1
    rw [hh.entries, Finset.card_range] at hlt
    omega
  · exact (sethashes_add hkeys hA ht hsize fuel _).fails hrun

end filling

end HashTableSizes
