import Ecl.WeakHashCounting

/-! Insertion into weak tables, through whatever extensions it needs. With a growing rehash
size the memory bounds the depth of the extensions. -/
namespace WeakHashTable

open ProbeChains

variable {K V : Type} {O : HashTest K} {key : K} {u : V} {t t' : Table K V} {i n : ℕ}

theorem Counted.store_used (h : Counted t) (hused : t.data i ≠ .free) :
    Counted (store t i key u) where
  size_ge := h.size_ge
  limit_eq := h.limit_eq
  count := by
    rw [slots_store]
    simp only [store]
    rw [occupied_overwrite _ (slots_ne_none.mpr hused), h.count]
  entries_lt := h.entries_lt
  memory_ge := h.memory_ge
  word := h.word

theorem Counted.store_free (h : Counted t) (key : K) (u : V) (hi : i < t.size)
    (hf : t.data i = .free) (hroom : t.entries + 1 < t.limit) :
    Counted (store { t with entries := t.entries + 1 } i key u) where
  size_ge := h.size_ge
  limit_eq := h.limit_eq
  count := by
    rw [slots_store]
    change t.entries + 1 = occupied t.size (Function.update (slots t) i (some (.entry key u)))
    rw [occupied_fill _ hi (slots_eq_none.mpr hf), h.count]
  entries_lt := by
    have := h.size_ge
    have hlt : t.sizing.limit t.size < t.size := t.sizing.limit_lt (by omega)
    have := h.limit_eq
    simp only [store]
    omega
  memory_ge := h.memory_ge
  word := h.word

structure Stored (t t' : Table K V) : Prop where
  counted : Counted t'
  sizing : t'.sizing = t.sizing
  memory : t'.memory = t.memory
  size : t.size ≤ t'.size
  entries : t'.entries ≤ t.entries + 1

def Inserts (t : Table K V) (o : Outcome Unit (Table K V)) : Prop :=
  o ≠ .endless ∧ ∀ t', o.Leaves t' → Stored t t'

/-- What the loop of ecl_extend_hashtable has made of the buckets of t below i. -/
structure Rebuilt (t : Table K V) (i : ℕ) (new : Table K V) : Prop where
  counted : Counted new
  sizing : new.sizing = t.sizing
  memory : new.memory = t.memory
  size : t.size < new.size
  entries : new.entries ≤ occupied i (slots t)

theorem Rebuilt.age {new new' : Table K V} (h : Rebuilt t i new) (ha : Ages new new') :
    Rebuilt t i new' where
  counted := h.counted.age ha
  sizing := ha.sizing.trans h.sizing
  memory := ha.memory.trans h.memory
  size := ha.size ▸ h.size
  entries := ha.entries ▸ h.entries

theorem Rebuilt.succ {new : Table K V} (h : Rebuilt t i new) : Rebuilt t (i + 1) new :=
  ⟨h.counted, h.sizing, h.memory, h.size, h.entries.trans (occupied_le (Nat.le_succ i))⟩

theorem Rebuilt.set {new new' : Table K V} (h : Rebuilt t i new) (hs : Stored new new')
    (hused : t.data i ≠ .free) : Rebuilt t (i + 1) new' where
  counted := hs.counted
  sizing := hs.sizing.trans h.sizing
  memory := hs.memory.trans h.memory
  size := lt_of_lt_of_le h.size hs.size
  entries := by
    have := hs.entries
    have := h.entries
    rw [occupied_succ, if_pos (Option.isSome_iff_ne_none.mpr (slots_ne_none.mpr hused))]
    omega

theorem rebuild_cases (set : K → V → Table K V → Outcome Unit (Table K V))
    (old : ℕ → Bucket K V) (m i : ℕ) (new : Table K V) :
    rebuild set old (m + 1) i new = rebuild set old m (i + 1) (collect new) ∨
    ∃ k v, old i ≠ .free ∧ rebuild set old (m + 1) i new =
      (set k v (collect new)).bind fun _ new => rebuild set old m (i + 1) new := by
  cases hb : old i with
  | free | tombstone => exact Or.inl (by simp only [rebuild, hb, copyBucket])
  | entry k v =>
    by_cases hl : lost (collect new).weak (collect new).collected k v = true
    · exact Or.inl (by simp only [rebuild, hb, copyBucket, if_pos hl])
    · have hl' : lost (collect new).weak (collect new).collected k v = false := by simpa using hl
      have hkey := entryKey_eq hl'
      by_cases hg : gone (collect new).weak (collect new).collected k v = true
      · rw [if_pos hg] at hkey
        exact Or.inl (by simp only [rebuild, hb, copyBucket, if_neg hl, hkey])
      · rw [if_neg hg] at hkey
        exact Or.inr ⟨k, v, by simp, by simp only [rebuild, hb, copyBucket, if_neg hl, hkey]⟩

theorem bind_ne_endless {α β T : Type} {o : Outcome α T} {f : α → T → Outcome β T}
    (ho : o ≠ .endless) (hf : ∀ a t, o = .returns a t → f a t ≠ .endless) :
    o.bind f ≠ .endless := by
  cases o with
  | returns a t => exact hf a t rfl
  | faults t => simp
  | exhausted => simp [Outcome.bind]
  | endless => exact absurd rfl ho

theorem rebuild_ends {set : K → V → Table K V → Outcome Unit (Table K V)}
    (hset : ∀ k v new, Counted new → new.sizing = t.sizing → new.memory = t.memory →
      t.size < new.size → Inserts new (set k v new)) :
    ∀ m i new, Rebuilt t i new → rebuild set t.data m i new ≠ .endless ∧
      ∀ t', (rebuild set t.data m i new).Leaves t' → Rebuilt t (i + m) t' := by
  intro m
  induction m with
  | zero =>
    intro i new h
    exact ⟨by simp [rebuild], fun t' hl => leaves_returns.mp hl ▸ h⟩
  | succ m ih =>
    intro i new h
    have hc := h.age (collect_ages new)
    rw [show i + (m + 1) = i + 1 + m by omega]
    rcases rebuild_cases set t.data m i new with hs | ⟨k, v, hused, hs⟩
    · rw [hs]
      exact ih (i + 1) _ hc.succ
    · obtain ⟨hend, hstored⟩ := hset k v (collect new) hc.counted hc.sizing hc.memory hc.size
      rw [hs]
      refine ⟨bind_ne_endless hend fun a t₁ hret => ?_, fun t' hl => ?_⟩
      · exact (ih (i + 1) t₁ (hc.set (hstored t₁ (Or.inl ⟨a, hret⟩)) hused)).1
      · rw [leaves_bind] at hl
        rcases hl with ⟨a, t₁, hret, hl⟩ | hfault
        · exact (ih (i + 1) t₁ (hc.set (hstored t₁ (Or.inl ⟨a, hret⟩)) hused)).2 t' hl
        · have hlast := hc.set (hstored t' (Or.inr hfault)) hused
          exact ⟨hlast.counted, hlast.sizing, hlast.memory, hlast.size,
            hlast.entries.trans (occupied_le (by omega))⟩

theorem emptyExtension_rebuilt (h : Counted t) (hgrows : t.sizing.Grows)
    (hmem : 16 * t.sizing.newSize t.size ≤ t.memory) : Rebuilt t 0 (emptyExtension t) := by
  have hlt : t.size < t.sizing.newSize t.size := hgrows t.size h.size_ge
  have hge := h.size_ge
  refine ⟨⟨?_, rfl, ?_, ?_, hmem, h.word⟩, rfl, rfl, hlt, Nat.zero_le _⟩
  · simp only [emptyExtension]
    omega
  · have hnone : slots (emptyExtension t) = fun _ => none := by
      funext i
      exact slots_eq_none.mpr rfl
    rw [hnone, occupied_none]
    rfl
  · simp only [emptyExtension]
    omega

theorem extend_ends {set : K → V → Table K V → Outcome Unit (Table K V)} (h : Counted t)
    (hgrows : t.sizing.Grows)
    (hset : ∀ k v new, Counted new → new.sizing = t.sizing → new.memory = t.memory →
      t.size < new.size → Inserts new (set k v new)) :
    eclExtendHashtable set t ≠ .endless ∧
      ∀ t', (eclExtendHashtable set t).Leaves t' → Rebuilt t t.size t' := by
  unfold eclExtendHashtable
  split
  · exact ⟨by simp, fun t' hl => absurd hl leaves_exhausted⟩
  · have hstart := emptyExtension_rebuilt h hgrows (by omega)
    simpa using rebuild_ends hset t.size 0 _ hstart

/-- The search may start from a size n that is out of date, but has a free bucket below it. -/
theorem sethashAgain_inserts :
    ∀ depth n key u (t : Table K V), Counted t → t.sizing.Grows → t.entries < n → n ≤ t.size →
      t.memory < t.size + depth → Inserts t (sethashAgain O depth n key u t) := by
  intro depth
  induction depth with
  | zero =>
    intro n key u t h _ _ _ hdepth
    have := h.memory_ge
    have := h.size_ge
    omega
  | succ depth ih =>
    intro n key u t h hgrows hn hle hdepth
    rcases h.probe O key O.nullFaults hn hle with
      ⟨p, t₁, hp, ha⟩ | ⟨t₁, hp, ha⟩
    · have h₁ := h.age ha
      have hhome : O.hashKey key % n < n := Nat.mod_lt _ (by omega)
      obtain ⟨hpn, _, _, _, hg⟩ :=
        probe_stops hhome _ _ _ _ hhome (fun p _ h => by simp at h) (q := p.1) (g := p.2) hp
      have hword : (t₁.entries + 1) % 2 ^ 64 = t₁.entries + 1 := by
        have := h₁.entries_lt
        have := h₁.memory_ge
        have := h₁.word
        omega
      have hsame : ∀ t', Stored t₁ t' → Stored t t' := fun t' hs =>
        ⟨hs.counted, hs.sizing.trans ha.sizing, hs.memory.trans ha.memory, ha.size ▸ hs.size,
          ha.entries ▸ hs.entries⟩
      rcases sethashAgain_cases O depth n key u t hp with
        ⟨hfree, _, hroom, hrun⟩ | ⟨_, _, hlimit, hrun⟩ | ⟨r, hr, hrun⟩
      · rw [hword] at hroom hrun
        have hstore := h₁.store_free key u (by rw [ha.size]; omega) hfree hroom
        rw [hrun]
        exact ⟨by simp, fun t' hl => leaves_returns.mp hl ▸
          hsame _ ⟨hstore, rfl, rfl, le_rfl, le_rfl⟩⟩
      · -- the rebuilt table has no more entries than this one
        have hset : ∀ (k : K) (v : V) (new : Table K V), Counted new →
            new.sizing = t₁.sizing → new.memory = t₁.memory → t₁.size < new.size →
              Inserts new (sethashAgain O depth new.size k v new) := by
          intro k v new hnew hsizing hmem hsize
          refine ih new.size k v new hnew ?_ hnew.entries_lt le_rfl ?_
          · rw [hsizing, ha.sizing]
            exact hgrows
          · rw [hmem, ha.memory]
            rw [ha.size] at hsize
            omega
        obtain ⟨hend, hleaves⟩ := extend_ends h₁ (ha.sizing ▸ hgrows) hset
        have hagain : ∀ t₂, Rebuilt t₁ t₁.size t₂ →
            t₂.entries ≤ t₁.entries ∧ Inserts t₂ (sethashAgain O depth n key u t₂) := by
          intro t₂ hr
          have hentries := hr.entries
          have hsize := hr.size
          rw [← h₁.count] at hentries
          refine ⟨hentries, ih n key u t₂ hr.counted ?_ ?_ ?_ ?_⟩
          · rw [hr.sizing, ha.sizing]
            exact hgrows
          · rw [ha.entries] at hentries
            omega
          · rw [ha.size] at hsize
            omega
          · rw [hr.memory, ha.memory]
            rw [ha.size] at hsize
            omega
        rw [hrun]
        refine ⟨bind_ne_endless hend fun _ t₂ hret => ?_, fun t' hl => ?_⟩
        · exact (hagain t₂ (hleaves t₂ (Or.inl ⟨_, hret⟩))).2.1
        · rw [leaves_bind] at hl
          rcases hl with ⟨a, t₂, hret, hl⟩ | hfault
          · have hr := hleaves t₂ (Or.inl ⟨a, hret⟩)
            obtain ⟨hentries, _, hstored⟩ := hagain t₂ hr
            have hs := hstored t' hl
            exact hsame t' ⟨hs.counted, hs.sizing.trans hr.sizing, hs.memory.trans hr.memory,
              hr.size.le.trans hs.size, by have := hs.entries; omega⟩
          · have hr := hleaves t' (Or.inr hfault)
            have hentries := hr.entries
            rw [← h₁.count] at hentries
            exact hsame t' ⟨hr.counted, hr.sizing, hr.memory, hr.size.le, by omega⟩
      · have hused : t₁.data r ≠ .free := by
          rcases hr with ⟨_, hsome⟩ | ⟨hused, rfl⟩
          · rcases hg with hg | ⟨s, _, hg, htomb, _⟩
            · rw [hg] at hsome
              cases hsome
            · obtain rfl : s = r := by simpa [hg] using hsome
              simp [htomb]
          · exact hused
        rw [hrun]
        exact ⟨by simp, fun t' hl => leaves_returns.mp hl ▸
          hsame _ ⟨h₁.store_used hused, rfl, rfl, le_rfl, Nat.le_succ _⟩⟩
    · rw [sethashAgain_fault hp]
      exact ⟨by simp, fun t' hl => leaves_faults.mp hl ▸
        ⟨h.age ha, ha.sizing, ha.memory, ha.size.ge, by rw [ha.entries]; omega⟩⟩

theorem sethash_ends (h : Counted t) (hgrows : t.sizing.Grows) :
    Ends t (sethashWeak O key u t) := by
  obtain ⟨hend, hstored⟩ := sethashAgain_inserts (O := O) (t.memory + t.pending.length + 1) t.size
    key u t h hgrows h.entries_lt le_rfl (by omega)
  exact ⟨hend, fun t' hl => ⟨(hstored t' hl).counted, (hstored t' hl).sizing⟩⟩

end WeakHashTable
