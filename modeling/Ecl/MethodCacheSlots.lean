import Ecl.MethodCache

/-! When a search of the cache finds a record to return. The records that have been returned since
the generation last advanced are the youngest, and cannot be taken for other keys. -/
namespace MethodCache

variable {K V : Type}

/-- A cache with the records that were returned since its generation last advanced. -/
structure Tracked (K V : Type) where
  cache : Cache K V
  recent : List ℕ

def Tracked.make (size : ℕ) : Tracked K V := ⟨makeCache size, []⟩

/-- A search may be followed by storing the keys and a value in the record. -/
inductive Event (K V : Type) where
  | search (keys : List K) (stored : Option V)
  | removeOne (firstKey : K)
  deriving DecidableEq

def Aged (c : Cache K V) (recent : List ℕ) : Prop :=
  ∀ i, (c.table i).key ≠ none →
    (c.table i).gen ≤ c.generation ∧ ((c.table i).gen = c.generation ↔ i ∈ recent)

section
variable [DecidableEq K] (hash : List K → ℕ)

def Tracked.step (s : Tracked K V) : Event K V → Option (Tracked K V)
  | .removeOne firstKey => some { s with cache := s.cache.removeOne firstKey }
  | .search keys stored => do
    let (i, c) ← s.cache.search hash keys
    let recent := if (c.table i).key = none then [i] else i :: s.recent
    match stored with
    | none => return ⟨c, recent⟩
    | some v => return ⟨c.store i keys v, recent⟩

def Tracked.run : Tracked K V → List (Event K V) → Option (Tracked K V)
  | s, [] => some s
  | s, e :: events => (s.step hash e).bind fun s => s.run events

def Tracked.GivesSlot (s : Tracked K V) : Event K V → Prop
  | .removeOne _ => True
  | .search keys _ => ∃ i c, s.cache.search hash keys = some (i, c) ∧
      ((c.table i).key = none ∨ (c.table i).key = some keys)

/-- In the window of the search is a record without a key, one with its keys, or one that has not
been returned since the generation last advanced. -/
def Tracked.HasSpare (s : Tracked K V) : Event K V → Prop
  | .removeOne _ => True
  | .search keys _ =>
    let c := s.cache.applyClearList
    ∃ i ∈ c.window 20 (c.start hash keys),
      (c.table i).key = none ∨ (c.table i).key = some keys ∨ i ∉ s.recent

def Tracked.AllGiveSlots : Tracked K V → List (Event K V) → Prop
  | _, [] => True
  | s, e :: events => s.GivesSlot hash e ∧ ∃ s', s.step hash e = some s' ∧ s'.AllGiveSlots events

def Tracked.AllHaveSpares : Tracked K V → List (Event K V) → Prop
  | _, [] => True
  | s, e :: events =>
    s.HasSpare hash e ∧ ∀ s', s.step hash e = some s' → s'.AllHaveSpares events

end

theorem Aged.applyClearList [DecidableEq K] {c : Cache K V} {recent : List ℕ} (h : Aged c recent) :
    Aged c.applyClearList recent := by
  have hclear : Aged c.clearListFromCache recent := by
    intro i hi
    have hsame : clearRecord c.clearList (c.table i) = c.table i := by
      simp only [Cache.clearListFromCache, clearRecord] at hi ⊢
      split
      · split
        · next hkey hmem => simp [hkey, hmem] at hi
        · rfl
      · rfl
    simp only [Cache.clearListFromCache, hsame] at hi ⊢
    exact h i hi
  rw [Cache.applyClearList]
  split
  · exact h
  · exact hclear

theorem Aged.shift {c : Cache K V} {recent : List ℕ} (h : Aged c recent) : Aged c.shift recent := by
  intro i hi
  have hlive : ¬ (c.table i).gen ≤ c.generation / 2 := by
    intro hold
    simp [Cache.shift, shiftRecord, hold] at hi
  simp only [Cache.shift, shiftRecord, if_neg hlive] at hi ⊢
  obtain ⟨hle, hiff⟩ := h i hi
  rw [← hiff]
  omega

theorem Aged.refresh {c : Cache K V} {recent : List ℕ} {i : ℕ} (hi : i ∈ recent)
    (h : ∀ j, j ≠ i → (c.table j).key ≠ none →
      (c.table j).gen ≤ c.generation ∧ ((c.table j).gen = c.generation ↔ j ∈ recent)) :
    Aged (c.refresh i) recent := by
  have hset : Aged (c.set i { c.table i with gen := c.generation }) recent := by
    intro j hj
    by_cases hji : j = i
    · subst hji
      simp [Cache.set, hi]
    · simp only [Cache.set, Function.update_of_ne hji] at hj ⊢
      exact h j hji hj
  rw [Cache.refresh]
  split
  · exact hset.shift
  · exact hset

theorem refresh_key {c : Cache K V} (hsize : 0 < c.size) (i : ℕ) :
    ((c.refresh i).table i).key = (c.table i).key := by
  rw [Cache.refresh]
  split
  · next hshift =>
    simp only [Cache.set_generation, Cache.set_size] at hshift
    have hlive : ¬ c.generation ≤ c.generation / 2 := by omega
    simp [Cache.shift, shiftRecord, Cache.set, hlive]
  · simp [Cache.set]

theorem refresh_gen {c : Cache K V} (hsize : 0 < c.size) (i : ℕ) :
    ((c.refresh i).table i).gen = (c.refresh i).generation := by
  rw [Cache.refresh]
  split
  · next hshift =>
    simp only [Cache.set_generation, Cache.set_size] at hshift
    have hlive : ¬ c.generation ≤ c.generation / 2 := by omega
    simp [Cache.shift, shiftRecord, Cache.set, hlive]
  · simp [Cache.set]

theorem refresh_size (c : Cache K V) (i : ℕ) : (c.refresh i).size = c.size := by
  rw [Cache.refresh]
  split <;> rfl

section
variable [DecidableEq K] {hash : List K → ℕ}

theorem applyClearList_size (c : Cache K V) : c.applyClearList.size = c.size := by
  rw [Cache.applyClearList]
  split <;> rfl

structure Slot (c : Cache K V) (recent : List ℕ) (keys : List K) (i : ℕ) (c' : Cache K V) :
    Prop where
  size : c'.size = c.size
  young : (c'.table i).gen = c'.generation
  key : (c'.table i).key = some keys ∧ Aged c' (i :: recent) ∨ (c'.table i).key = none ∧ Aged c' [i]

theorem search_slot {c : Cache K V} {recent : List ℕ} {keys : List K} (hsize : 0 < c.size)
    (haged : Aged c recent) {i : ℕ} {c' : Cache K V} (h : c.search hash keys = some (i, c')) :
    Slot c recent keys i c' := by
  have haged' := haged.applyClearList
  have hsize' : 0 < c.applyClearList.size := by rwa [applyClearList_size]
  obtain ⟨hfound, rfl⟩ | rfl := search_cases h
  · refine ⟨by rw [refresh_size, applyClearList_size], refresh_gen hsize' i, Or.inl ⟨?_, ?_⟩⟩
    · rw [refresh_key hsize', hfound]
    · refine Aged.refresh List.mem_cons_self fun j hj hkeyj => ?_
      obtain ⟨hle, hiff⟩ := haged' j hkeyj
      exact ⟨hle, by rw [hiff, List.mem_cons]; simp [hj]⟩
  · refine ⟨by rw [refresh_size]; exact applyClearList_size c, refresh_gen (by exact hsize') i,
      Or.inr ⟨?_, ?_⟩⟩
    · rw [refresh_key (by exact hsize')]
      simp [Cache.set]
    · refine Aged.refresh (List.mem_singleton_self _) fun j hj hkeyj => ?_
      simp only [Cache.set, Function.update_of_ne hj] at hkeyj ⊢
      obtain ⟨hle, -⟩ := haged' j hkeyj
      exact ⟨by omega, by simp [hj]; omega⟩

theorem search_isSome_iff {c : Cache K V} {recent : List ℕ} (haged : Aged c recent)
    (keys : List K) (stored : Option V) :
    (c.search hash keys).isSome ↔ (Tracked.mk c recent).HasSpare hash (.search keys stored) := by
  have haged' := haged.applyClearList
  have hnone : c.search hash keys = none ↔ ∀ j ∈ c.applyClearList.window 20
      (c.applyClearList.start hash keys), ∃ key, (c.applyClearList.table j).key = some key ∧
        key ≠ keys ∧ c.applyClearList.generation ≤ (c.applyClearList.table j).gen := by
    rw [← probe_none_iff]
    simp only [Cache.search]
    split <;> simp_all
  rw [← not_iff_not, Option.not_isSome_iff_eq_none, hnone]
  simp only [Tracked.HasSpare, not_exists, not_and, not_or, not_not]
  refine forall₂_congr fun j hj => ?_
  constructor
  · rintro ⟨key, hkey, hne, hgen⟩
    obtain ⟨hle, hiff⟩ := haged' j (by rw [hkey]; exact Option.some_ne_none key)
    exact ⟨by simp [hkey], by simpa [hkey] using hne, hiff.mp (by omega)⟩
  · rintro ⟨hsome, hne, hrecent⟩
    obtain ⟨key, hkey⟩ := Option.ne_none_iff_exists'.mp hsome
    obtain ⟨-, hiff⟩ := haged' j hsome
    exact ⟨key, hkey, fun e => hne (by rw [hkey, e]), Nat.le_of_eq (hiff.mpr hrecent).symm⟩

structure Tracked.Valid (s : Tracked K V) : Prop where
  size : 0 < s.cache.size
  aged : Aged s.cache s.recent

theorem givesSlot_iff {s : Tracked K V} (h : s.Valid) (e : Event K V) :
    s.GivesSlot hash e ↔ s.HasSpare hash e := by
  cases e with
  | removeOne firstKey => exact Iff.rfl
  | search keys stored =>
    rw [← search_isSome_iff h.aged keys stored]
    constructor
    · rintro ⟨i, c, hsearch, -⟩
      rw [hsearch]
      rfl
    · intro hsome
      obtain ⟨⟨i, c⟩, hsearch⟩ := Option.isSome_iff_exists.mp hsome
      obtain ⟨-, -, hkey⟩ := search_slot h.size h.aged hsearch
      exact ⟨i, c, hsearch, hkey.symm.imp And.left And.left⟩

theorem step_isSome {s : Tracked K V} {e : Event K V} (h : s.GivesSlot hash e) :
    ∃ s', s.step hash e = some s' := by
  cases e with
  | removeOne firstKey => exact ⟨_, rfl⟩
  | search keys stored =>
    obtain ⟨i, c, hsearch, -⟩ := h
    cases stored with
    | none | some v => exact ⟨_, by rw [Tracked.step, hsearch]; rfl⟩

end

theorem Aged.store {c : Cache K V} {recent : List ℕ} (h : Aged c recent) {i : ℕ} (hi : i ∈ recent)
    (hgen : (c.table i).gen = c.generation) (keys : List K) (v : V) :
    Aged (c.store i keys v) recent := by
  intro j hj
  by_cases hji : j = i
  · subst hji
    simp [Cache.store, Cache.set, hgen, hi]
  · simp only [Cache.store, Cache.set, Function.update_of_ne hji] at hj ⊢
    exact h j hj

theorem Tracked.valid_make {size : ℕ} (h : 0 < size) : (make size : Tracked K V).Valid where
  size := h
  aged := fun _ hi => absurd rfl hi

section
variable [DecidableEq K] {hash : List K → ℕ}

theorem Tracked.Valid.step {s s' : Tracked K V} {e : Event K V} (h : s.Valid)
    (hstep : s.step hash e = some s') : s'.Valid := by
  cases e with
  | removeOne firstKey =>
    cases hstep
    exact ⟨h.size, h.aged⟩
  | search keys stored =>
    cases hsearch : s.cache.search hash keys with
    | none => simp [Tracked.step, hsearch] at hstep
    | some r =>
      obtain ⟨i, c⟩ := r
      have hslot := search_slot h.size h.aged hsearch
      have haged : Aged c (if (c.table i).key = none then [i] else i :: s.recent) := by
        rcases hslot.key with ⟨hkey, haged⟩ | ⟨hkey, haged⟩
        · rwa [if_neg (by rw [hkey]; exact Option.some_ne_none keys)]
        · rwa [if_pos hkey]
      have hmem : i ∈ if (c.table i).key = none then [i] else i :: s.recent := by
        split <;> exact List.mem_cons_self
      have hsize : 0 < c.size := by
        rw [hslot.size]
        exact h.size
      rw [Tracked.step, hsearch] at hstep
      cases stored with
      | none =>
        cases hstep
        exact ⟨hsize, haged⟩
      | some v =>
        cases hstep
        exact ⟨hsize, haged.store hmem hslot.young keys v⟩

theorem givesSlot_last {s s' : Tracked K V} {events : List (Event K V)} {e : Event K V}
    (h : s.AllGiveSlots hash (events ++ [e])) (hrun : s.run hash events = some s') :
    s'.GivesSlot hash e := by
  induction events generalizing s with
  | nil =>
    cases hrun
    exact h.1
  | cons first events ih =>
    obtain ⟨-, t, ht, hrest⟩ := h
    rw [Tracked.run, ht] at hrun
    exact ih hrest hrun

/-- In every run, from a new cache on, all searches return a record with their keys or without a
key, and none ends in the internal error, if and only if each has a spare record in its window. -/
theorem all_give_slots_iff {size : ℕ} (h : 0 < size) (events : List (Event K V)) :
    (Tracked.make size).AllGiveSlots hash events ↔ (Tracked.make size).AllHaveSpares hash events := by
  have hrun : ∀ s : Tracked K V, s.Valid →
      (s.AllGiveSlots hash events ↔ s.AllHaveSpares hash events) := by
    induction events with
    | nil => exact fun _ _ => Iff.rfl
    | cons e events ih =>
      intro s hs
      rw [Tracked.AllGiveSlots, Tracked.AllHaveSpares, givesSlot_iff hs]
      refine and_congr_right fun hspare => ?_
      obtain ⟨s', hs'⟩ := step_isSome ((givesSlot_iff hs e).mpr hspare)
      have hvalid := hs.step hs'
      constructor
      · rintro ⟨t, ht, hrest⟩ u hu
        rw [ht] at hu
        cases hu
        exact (ih _ (hs.step ht)).mp hrest
      · exact fun hrest => ⟨s', hs', (ih s' hvalid).mpr (hrest s' hs')⟩
  exact hrun _ (Tracked.valid_make h)

end

/-- A record that is not yet used is spare. -/
theorem new_cache_gives_slot :
    (Tracked.make 4096 : Tracked ℕ ℕ).AllGiveSlots (fun _ => 7) [.search [1] (some 5)] :=
  (all_give_slots_iff (by decide) _).mpr
    ⟨⟨2, by decide, Or.inl rfl⟩, fun _ _ => trivial⟩

section
variable {c : Cache ℕ ℕ} {n k gen : ℕ}

structure Numbered (c : Cache ℕ ℕ) (n gen : ℕ) : Prop where
  size : c.size = 4096
  clearList : c.clearList = []
  generation : c.generation = gen
  key : ∀ j < n, (c.table j).key = some [j]

theorem probe_numbered (h : Numbered c n gen) (hn : n ≤ 20) (r : ℕ) (d : ℕ) {i : ℕ}
    (hi : i + d ≤ n) (hk : ∀ j < i + d, j ≠ k) (minGen : ℤ) (oldest : Option ℕ) :
    ∃ minGen' oldest', c.probe [k] (d + r) i minGen oldest =
      c.probe [k] r (i + d) minGen' oldest' := by
  induction d generalizing i minGen oldest with
  | zero => exact ⟨minGen, oldest, by rw [Nat.zero_add, Nat.add_zero]⟩
  | succ d ih =>
    have hkey : (c.table i).key = some [i] := h.key i (by omega)
    have hother : ¬ [k] = [i] := by
      intro e
      cases e
      exact hk k (by omega) rfl
    have hnext : c.next i = i + 1 := by
      rw [Cache.next, h.size, if_neg (by omega)]
    have hone : ∃ minGen' oldest', c.probe [k] (d + r + 1) i minGen oldest =
        c.probe [k] (d + r) (i + 1) minGen' oldest' := by
      rw [Cache.probe, hkey]
      simp only [List.length_singleton, if_true, if_neg hother, hnext]
      split
      · exact ⟨_, _, rfl⟩
      · exact ⟨_, _, rfl⟩
    obtain ⟨minGen₁, oldest₁, h₁⟩ := hone
    obtain ⟨minGen₂, oldest₂, h₂⟩ :=
      ih (i := i + 1) (by omega) (fun j hj => hk j (by omega)) minGen₁ oldest₁
    refine ⟨minGen₂, oldest₂, ?_⟩
    rw [show d + 1 + r = d + r + 1 by omega, h₁, h₂, show i + 1 + d = i + (d + 1) by omega]

theorem probe_reaches (h : Numbered c n gen) (hn : n ≤ 20) (hk : k ≤ n) (hlast : k < 20)
    (minGen : ℤ) : ∃ minGen' oldest', c.probe [k] 20 0 minGen none =
      c.probe [k] (19 - k + 1) k minGen' oldest' := by
  have hprobe := probe_numbered h hn (19 - k + 1) k (i := 0) (k := k)
    (by omega) (fun j hj => by omega) minGen none
  rwa [Nat.zero_add, show k + (19 - k + 1) = 20 by omega] at hprobe

theorem refresh_small (h : c.generation < 6144) (hsize : c.size = 4096) (i : ℕ) :
    c.refresh i = c.set i { c.table i with gen := c.generation } := by
  rw [Cache.refresh, if_neg]
  rw [Cache.set_generation, Cache.set_size, hsize]
  omega

structure Elsewhere (c c' : Cache ℕ ℕ) (i gen : ℕ) : Prop where
  size : c'.size = c.size
  clearList : c'.clearList = []
  generation : c'.generation = gen
  table : ∀ j, j ≠ i → c'.table j = c.table j

theorem search_of_taken (h : Numbered c n gen) (hgen : gen + 1 < 6144) {i : ℕ}
    (hprobe : c.probe [k] 20 0 c.generation none = .notFound (some i)) :
    ∃ c', c.search (fun _ => 0) [k] = some (i, c') ∧ Elsewhere c c' i (gen + 1) := by
  refine ⟨_, by
    rw [Cache.search, Cache.applyClearList, if_pos h.clearList, Cache.start, Nat.zero_mod,
      Nat.zero_div, hprobe], ?_⟩
  rw [← h.generation] at hgen ⊢
  rw [refresh_small (by exact hgen) (by exact h.size)]
  refine ⟨rfl, h.clearList, rfl, fun j hj => ?_⟩
  simp only [Cache.set, Function.update_of_ne hj]

theorem search_of_found (h : Numbered c n gen) (hgen : gen < 6144) {i : ℕ}
    (hprobe : c.probe [k] 20 0 c.generation none = .found i) :
    ∃ c', c.search (fun _ => 0) [k] = some (i, c') ∧ Elsewhere c c' i gen ∧
      c'.table i = { c.table i with gen := gen } := by
  refine ⟨_, by
    rw [Cache.search, Cache.applyClearList, if_pos h.clearList, Cache.start, Nat.zero_mod,
      Nat.zero_div, hprobe], ?_⟩
  rw [← h.generation] at hgen ⊢
  rw [refresh_small hgen h.size]
  refine ⟨⟨rfl, h.clearList, rfl, fun j hj => ?_⟩, ?_⟩
  · simp only [Cache.set, Function.update_of_ne hj]
  · simp only [Cache.set, Function.update_self]

theorem search_blank (h : Numbered c n n) (hn : n < 20)
    (hblank : ∀ j, n ≤ j → c.table j = ⟨none, .objnull, 0⟩) :
    ∃ c', c.search (fun _ => 0) [n] = some (n, c') ∧ Numbered (c'.store n [n] n) (n + 1) (n + 1) ∧
      ∀ j, n + 1 ≤ j → (c'.store n [n] n).table j = ⟨none, .objnull, 0⟩ := by
  have hprobe : c.probe [n] 20 0 c.generation none = .notFound (some n) := by
    obtain ⟨minGen, oldest, hreach⟩ := probe_reaches h (by omega) (Nat.le_refl n) hn c.generation
    rw [hreach, Cache.probe, hblank n (Nat.le_refl n)]
  obtain ⟨c', hsearch, helse⟩ := search_of_taken h (by omega) hprobe
  refine ⟨c', hsearch, ⟨helse.size.trans h.size, helse.clearList, helse.generation, ?_⟩, ?_⟩
  · intro j hj
    by_cases hjn : j = n
    · subst hjn
      simp [Cache.store, Cache.set]
    · simp only [Cache.store, Cache.set, Function.update_of_ne hjn, helse.table j hjn]
      exact h.key j (by omega)
  · intro j hj
    have hjn : j ≠ n := by omega
    simp only [Cache.store, Cache.set, Function.update_of_ne hjn, helse.table j hjn]
    exact hblank j (by omega)

theorem search_stored (h : Numbered c 20 20) (hk : k < 20)
    (hyoung : ∀ j < k, (c.table j).gen = 20) :
    ∃ c', c.search (fun _ => 0) [k] = some (k, c') ∧ Numbered c' 20 20 ∧
      ∀ j < k + 1, (c'.table j).gen = 20 := by
  have hprobe : c.probe [k] 20 0 c.generation none = .found k := by
    obtain ⟨minGen, oldest, hreach⟩ :=
      probe_reaches h (Nat.le_refl 20) (Nat.le_of_lt hk) hk c.generation
    rw [hreach, Cache.probe, h.key k hk]
    simp
  obtain ⟨c', hsearch, helse, hfound⟩ := search_of_found h (by omega) hprobe
  refine ⟨c', hsearch, ⟨helse.size.trans h.size, helse.clearList, helse.generation, ?_⟩, ?_⟩
  · intro j hj
    by_cases hjk : j = k
    · subst hjk
      rw [hfound]
      exact h.key j hj
    · rw [helse.table j hjk]
      exact h.key j hj
  · intro j hj
    by_cases hjk : j = k
    · rw [hjk, hfound]
    · rw [helse.table j hjk]
      exact hyoung j (by omega)

end

theorem Tracked.run_append {K V : Type} [DecidableEq K] {hash : List K → ℕ} {s t : Tracked K V}
    {events : List (Event K V)} (h : s.run hash events = some t) (rest : List (Event K V)) :
    s.run hash (events ++ rest) = t.run hash rest := by
  induction events generalizing s with
  | nil =>
    cases h
    rfl
  | cons e events ih =>
    rw [Tracked.run] at h
    obtain ⟨u, hu, hrest⟩ := Option.bind_eq_some_iff.mp h
    rw [List.cons_append, Tracked.run, hu]
    exact ih hrest

theorem numbers_stored {n : ℕ} (hn : n ≤ 20) :
    ∃ s, (Tracked.make 4096 : Tracked ℕ ℕ).run (fun _ => 0)
        ((List.range n).map (fun k => .search [k] (some k))) = some s ∧ Numbered s.cache n n ∧
      ∀ j, n ≤ j → s.cache.table j = ⟨none, .objnull, 0⟩ := by
  induction n with
  | zero => exact ⟨_, rfl, ⟨rfl, rfl, rfl, fun _ hj => absurd hj (Nat.not_lt_zero _)⟩, fun _ _ => rfl⟩
  | succ n ih =>
    obtain ⟨s, hrun, hnumbered, hblank⟩ := ih (by omega)
    obtain ⟨c, hsearch, hnext⟩ := search_blank hnumbered (by omega) hblank
    obtain ⟨t, hstep, hcache⟩ : ∃ t, s.step (fun _ => 0) (.search [n] (some n)) = some t ∧
        t.cache = c.store n [n] n := ⟨_, by rw [Tracked.step, hsearch]; rfl, rfl⟩
    refine ⟨t, ?_, hcache ▸ hnext⟩
    rw [List.range_succ, List.map_append, Tracked.run_append hrun]
    exact Option.bind_eq_some_iff.mpr ⟨t, hstep, rfl⟩

theorem numbers_found {s : Tracked ℕ ℕ} (h : Numbered s.cache 20 20) {n : ℕ} (hn : n ≤ 20) :
    ∃ t, s.run (fun _ => 0) ((List.range n).map (fun k => .search [k] none)) = some t ∧
      Numbered t.cache 20 20 ∧ ∀ j < n, (t.cache.table j).gen = 20 := by
  induction n with
  | zero => exact ⟨s, rfl, h, fun _ hj => absurd hj (Nat.not_lt_zero _)⟩
  | succ n ih =>
    obtain ⟨t, hrun, hnumbered, hyoung⟩ := ih (by omega)
    obtain ⟨c, hsearch, hnext⟩ := search_stored hnumbered (by omega) hyoung
    obtain ⟨u, hstep, hcache⟩ : ∃ u, t.step (fun _ => 0) (.search [n] none) = some u ∧
        u.cache = c := ⟨_, by rw [Tracked.step, hsearch]; rfl, rfl⟩
    refine ⟨u, ?_, hcache ▸ hnext⟩
    rw [List.range_succ, List.map_append, Tracked.run_append hrun]
    exact Option.bind_eq_some_iff.mpr ⟨u, hstep, rfl⟩

theorem window_small {c : Cache ℕ ℕ} (hsize : c.size = 4096) {d i : ℕ} (h : i + d ≤ 20) {j : ℕ}
    (hj : j ∈ c.window d i) : j < 20 := by
  induction d generalizing i with
  | zero => cases hj
  | succ d ih =>
    rw [Cache.window, Cache.next, hsize, if_neg (by omega), List.mem_cons] at hj
    rcases hj with rfl | hj
    · omega
    · exact ih (by omega) hj

/-- Twenty keys that begin their search at one record are stored, then found again: the record
after them is never looked at. -/
theorem recent_records_fill_window :
    ¬ (Tracked.make 4096 : Tracked ℕ ℕ).AllGiveSlots (fun _ => 0)
      ((List.range 20).map (fun k => .search [k] (some k)) ++
        (List.range 20).map (fun k => .search [k] none) ++ [.search [20] (some 20)]) := by
  intro h
  obtain ⟨s, hstored, hnumbered, -⟩ := numbers_stored (Nat.le_refl 20)
  obtain ⟨t, hfound, hnumbered', hyoung⟩ := numbers_found hnumbered (Nat.le_refl 20)
  obtain ⟨i, c, hsearch, -⟩ := givesSlot_last h (by rw [Tracked.run_append hstored, hfound])
  have hnone : t.cache.probe [20] 20 0 t.cache.generation none = .notFound none := by
    refine probe_none_iff.mpr fun j hj => ?_
    have hj' := window_small hnumbered'.size (Nat.le_refl 20) hj
    refine ⟨[j], hnumbered'.key j hj', fun e => ?_, ?_⟩
    · cases e
      omega
    · exact Nat.le_of_eq (hnumbered'.generation.trans (hyoung j hj').symm)
  rw [Cache.search, Cache.applyClearList, if_pos hnumbered'.clearList, Cache.start, Nat.zero_mod,
    Nat.zero_div, hnone] at hsearch
  cases hsearch

end MethodCache
