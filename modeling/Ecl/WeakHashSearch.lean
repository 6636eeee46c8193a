import Ecl.WeakHashTable

/-! Searches in weak tables. Calls change a table in two ways: they store, and they replace
entries that have been lost by tombstones. -/
namespace WeakHashTable

open ProbeChains

variable {K V : Type} {O : HashTest K} {w : Weakness} {c d : Collected K V} {k key : K} {v : V}
  {b b' b'' : Bucket K V} {t t' t'' : Table K V}

instance : Preorder (Collected K V) where
  le c d := (∀ k, c.key k = true → d.key k = true) ∧ ∀ v, c.value v = true → d.value v = true
  le_refl _ := ⟨fun _ h => h, fun _ h => h⟩
  le_trans _ _ _ h₁ h₂ := ⟨fun k h => h₂.1 k (h₁.1 k h), fun v h => h₂.2 v (h₁.2 v h)⟩

theorem Collected.le_union_left (c d : Collected K V) : c ≤ c.union d :=
  ⟨fun k h => by simp [union, h], fun v h => by simp [union, h]⟩

def Table.final (t : Table K V) : Collected K V := t.pending.foldl Collected.union t.collected

theorem Table.collected_le_final (t : Table K V) : t.collected ≤ t.final := by
  unfold final
  generalize t.collected = c
  induction t.pending generalizing c with
  | nil => exact le_refl c
  | cons g gs ih => exact (c.le_union_left g).trans (ih (c.union g))

def gone (w : Weakness) (c : Collected K V) (k : K) (v : V) : Bool :=
  match w with
  | .key => c.key k
  | .value => c.value v
  | .keyAndValue => c.key k || c.value v
  | .keyOrValue => c.key k

theorem gone_of_lost (h : lost w c k v = true) : gone w c k v = true := by
  cases w <;> simp_all [lost, gone]

theorem gone_mono (hcd : c ≤ d) (h : gone w c k v = true) : gone w d k v = true := by
  have hk := hcd.1 k
  have hv := hcd.2 v
  cases w <;> simp only [gone, Bool.or_eq_true] at h ⊢ <;> tauto

theorem lost_mono (hcd : c ≤ d) (h : lost w c k v = true) : lost w d k v = true := by
  have hk := hcd.1 k
  have hv := hcd.2 v
  cases w <;> simp only [lost, Bool.or_eq_true, Bool.and_eq_true] at h ⊢ <;> tauto

theorem not_gone_of_alive (hk : c.key k = false) (hv : c.value v = false) :
    gone w c k v = false := by
  cases w <;> simp [gone, hk, hv]

theorem entryKey_eq (h : lost w c k v = false) :
    entryKey w c k = if gone w c k v = true then none else some k := by
  cases w <;> cases hk : c.key k <;> simp_all [lost, gone, entryKey]

/-- A bucket later on: the same, or a tombstone where there was an entry that was lost. -/
def Aged (w : Weakness) (c : Collected K V) (b b' : Bucket K V) : Prop :=
  b' = b ∨ b' = .tombstone ∧ ∃ k v, b = .entry k v ∧ lost w c k v = true

theorem aged_copyBucket (w : Weakness) (c : Collected K V) (b : Bucket K V) :
    Aged w c b (copyBucket w c b) := by
  cases b with
  | free => exact Or.inl rfl
  | tombstone => exact Or.inl rfl
  | entry k v =>
    by_cases h : lost w c k v = true
    · exact Or.inr ⟨by simp [copyBucket, h], k, v, rfl, h⟩
    · exact Or.inl (by simp [copyBucket, h])

theorem Aged.mono (h : Aged w c b b') (hcd : c ≤ d) : Aged w d b b' := by
  rcases h with h | ⟨h, k, v, hb, hl⟩
  · exact Or.inl h
  · exact Or.inr ⟨h, k, v, hb, lost_mono hcd hl⟩

theorem Aged.trans (h : Aged w c b b') (h' : Aged w c b' b'') : Aged w c b b'' := by
  rcases h with rfl | ⟨rfl, hl⟩
  · exact h'
  · rcases h' with rfl | ⟨_, k, v, he, _⟩
    · exact Or.inr ⟨rfl, hl⟩
    · simp at he

theorem Aged.free_iff (h : Aged w c b b') : b' = .free ↔ b = .free := by
  rcases h with rfl | ⟨rfl, k, v, rfl, _⟩ <;> simp

theorem Aged.tombstone (h : Aged w c .tombstone b') : b' = .tombstone := by
  rcases h with h | ⟨h, _⟩ <;> exact h

theorem Aged.of_entry (h : Aged w c b (.entry k v)) : b = .entry k v := by
  rcases h with h | ⟨h, _⟩
  · exact h.symm
  · simp at h

theorem Aged.entry (h : Aged w c (.entry k v) b') (hl : gone w c k v = false) :
    b' = .entry k v := by
  rcases h with h | ⟨_, k', v', hb, hl'⟩
  · exact h
  · cases hb
    rw [gone_of_lost hl'] at hl
    cases hl

def Passes (O : HashTest K) (w : Weakness) (c : Collected K V) (key : K) (b : Bucket K V) :
    Prop :=
  b ≠ .free ∧ ∀ k v, b = .entry k v → gone w c k v = false → O.test key k = false

theorem Passes.age (h : Passes O w c key b) (hcd : c ≤ d) (ha : Aged w d b b') :
    Passes O w d key b' := by
  refine ⟨fun hf => h.1 (ha.free_iff.mp hf), fun k v hb hg => ?_⟩
  subst b'
  refine h.2 k v ha.of_entry ?_
  by_contra hg'
  rw [gone_mono hcd (by simpa using hg')] at hg
  cases hg

theorem Passes.unage (h : Passes O w c key b') (ha : Aged w c b b') : Passes O w c key b := by
  refine ⟨fun hf => h.1 (ha.free_iff.mpr hf), fun k v hb hg => ?_⟩
  subst b
  exact h.2 k v (ha.entry hg) hg

theorem Passes.store (h : O.test key k = false) (v : V) : Passes O w c key (.entry k v) := by
  refine ⟨by simp, fun k' v' he _ => ?_⟩
  cases he
  exact h

structure Later (t t' : Table K V) : Prop where
  sizing : t'.sizing = t.sizing
  weak : t'.weak = t.weak
  memory : t'.memory = t.memory
  size : t'.size = t.size
  entries : t'.entries = t.entries
  limit : t'.limit = t.limit
  final : t'.final = t.final
  collected : t.collected ≤ t'.collected

structure Ages (t t' : Table K V) : Prop extends Later t t' where
  bucket : ∀ p, Aged t.weak t'.collected (t.data p) (t'.data p)

theorem Later.refl (t : Table K V) : Later t t := ⟨rfl, rfl, rfl, rfl, rfl, rfl, rfl, le_refl _⟩

theorem Later.trans (h : Later t t') (h' : Later t' t'') : Later t t'' where
  sizing := h'.sizing.trans h.sizing
  weak := h'.weak.trans h.weak
  memory := h'.memory.trans h.memory
  size := h'.size.trans h.size
  entries := h'.entries.trans h.entries
  limit := h'.limit.trans h.limit
  final := h'.final.trans h.final
  collected := h.collected.trans h'.collected

theorem Later.store (h : Later t t') (i : ℕ) (k : K) (v : V) :
    Later t (WeakHashTable.store t' i k v) :=
  ⟨h.sizing, h.weak, h.memory, h.size, h.entries, h.limit, h.final, h.collected⟩

theorem Ages.refl (t : Table K V) : Ages t t := ⟨Later.refl t, fun _ => Or.inl rfl⟩

theorem Ages.trans (h : Ages t t') (h' : Ages t' t'') : Ages t t'' where
  toLater := h.toLater.trans h'.toLater
  bucket p := ((h.bucket p).mono h'.collected).trans (h.weak ▸ h'.bucket p)

theorem collect_ages (t : Table K V) : Ages t (collect t) := by
  unfold collect
  split
  · exact Ages.refl t
  · rename_i g gs hp
    exact ⟨⟨rfl, rfl, rfl, rfl, rfl, rfl, by simp [Table.final, hp],
      Collected.le_union_left _ _⟩, fun _ => Or.inl rfl⟩

theorem copyEntry_ages (t : Table K V) (i : ℕ) : Ages t (copyEntry t i) := by
  have h := collect_ages t
  refine ⟨⟨h.sizing, h.weak, h.memory, h.size, h.entries, h.limit, h.final, h.collected⟩,
    fun p => ?_⟩
  by_cases hp : p = i
  · subst p
    have hc := aged_copyBucket (collect t).weak (collect t).collected ((collect t).data i)
    simp only [copyEntry, Function.update_self]
    exact (h.bucket i).trans (h.weak ▸ hc)
  · simp only [copyEntry, Function.update_of_ne hp]
    exact h.bucket p

theorem copyEntry_kept {i : ℕ} (h : (copyEntry t i).data i = .entry k v) :
    lost t.weak (copyEntry t i).collected k v = false := by
  have hw := (collect_ages t).weak
  simp only [copyEntry, Function.update_self] at h ⊢
  rw [hw] at h
  cases hb : (collect t).data i with
  | free => simp [hb, copyBucket] at h
  | tombstone => simp [hb, copyBucket] at h
  | entry k' v' =>
    rw [hb] at h
    by_cases hl : lost t.weak (collect t).collected k' v' = true
    · simp [copyBucket, hl] at h
    · simp only [copyBucket, if_neg hl, Bucket.entry.injEq] at h
      obtain ⟨rfl, rfl⟩ := h
      simpa using hl

section Outcomes

variable {α β T : Type}

@[simp] theorem leaves_returns {a : α} {s t : T} : (Outcome.returns a s).Leaves t ↔ s = t := by
  simp [Outcome.Leaves]

@[simp] theorem leaves_faults {s t : T} : (Outcome.faults s : Outcome α T).Leaves t ↔ s = t := by
  simp [Outcome.Leaves]

@[simp] theorem leaves_exhausted {t : T} : ¬ (Outcome.exhausted : Outcome α T).Leaves t := by
  simp [Outcome.Leaves]

@[simp] theorem leaves_endless {t : T} : ¬ (Outcome.endless : Outcome α T).Leaves t := by
  simp [Outcome.Leaves]

@[simp] theorem returns_bind {a : α} {s : T} {f : α → T → Outcome β T} :
    (Outcome.returns a s).bind f = f a s := rfl

@[simp] theorem faults_bind {s : T} {f : α → T → Outcome β T} :
    (Outcome.faults s).bind f = .faults s := rfl

theorem leaves_bind {o : Outcome α T} {f : α → T → Outcome β T} {t : T} :
    (o.bind f).Leaves t ↔ (∃ a s, o = .returns a s ∧ (f a s).Leaves t) ∨ o = .faults t := by
  cases o <;> simp [Outcome.bind]

theorem bind_returns {o : Outcome α T} {f : α → T → Outcome β T} {b : β} {t : T} :
    o.bind f = .returns b t ↔ ∃ a s, o = .returns a s ∧ f a s = .returns b t := by
  cases o <;> simp [Outcome.bind]

end Outcomes

theorem probe_cases (O : HashTest K) (nullFaults : K → Bool) (key : K) (n fuel i : ℕ)
    (f : Option ℕ) (t : Table K V) :
    (probe O nullFaults key n (fuel + 1) i f t = .returns (i, f) (copyEntry t i) ∧
      ((copyEntry t i).data i = .free ∨ ∃ k v, (copyEntry t i).data i = .entry k v ∧
        gone t.weak (copyEntry t i).collected k v = false ∧ O.test key k = true)) ∨
    (probe O nullFaults key n (fuel + 1) i f t = .faults (copyEntry t i) ∧
      nullFaults key = true ∧ ∃ k v, (copyEntry t i).data i = .entry k v ∧
        gone t.weak (copyEntry t i).collected k v = true) ∨
    ∃ f', probe O nullFaults key n (fuel + 1) i f t =
        probe O nullFaults key n fuel (next n i) f' (copyEntry t i) ∧
      Passes O t.weak (copyEntry t i).collected key ((copyEntry t i).data i) ∧
      (f' = f ∨ f' = some i ∧ (copyEntry t i).data i = .tombstone) := by
  have hw := (copyEntry_ages t i).weak
  cases hb : (copyEntry t i).data i with
  | free => exact Or.inl ⟨by simp only [probe, hb], Or.inl rfl⟩
  | tombstone =>
    refine Or.inr (Or.inr ⟨some i, ?_, ⟨by simp, by simp⟩, Or.inr ⟨rfl, rfl⟩⟩)
    simp only [probe, hb]
    rfl
  | entry k v =>
    have hkey := entryKey_eq (copyEntry_kept hb)
    cases hg : gone t.weak (copyEntry t i).collected k v with
    | true =>
      rw [if_pos hg] at hkey
      cases hn : nullFaults key with
      | true => exact Or.inr (Or.inl ⟨by simp [probe, hb, hw, hkey, hn], rfl, k, v, rfl, hg⟩)
      | false =>
        refine Or.inr (Or.inr ⟨f, by simp [probe, hb, hw, hkey, hn, next], ⟨by simp, ?_⟩,
          Or.inl rfl⟩)
        rintro k' v' he hg'
        cases he
        simp [hg] at hg'
    | false =>
      rw [if_neg (by simp [hg])] at hkey
      cases ht : O.test key k with
      | true => exact Or.inl ⟨by simp [probe, hb, hw, hkey, ht], Or.inr ⟨k, v, rfl, hg, ht⟩⟩
      | false =>
        exact Or.inr (Or.inr ⟨f, by simp [probe, hb, hw, hkey, ht, next], Passes.store ht v,
          Or.inl rfl⟩)

theorem probe_ages {nullFaults : K → Bool} {n : ℕ} :
    ∀ fuel i f (t : Table K V), (probe O nullFaults key n fuel i f t).Leaves t' → Ages t t' := by
  intro fuel
  induction fuel with
  | zero => intro i f t h; simp [probe] at h
  | succ fuel ih =>
    intro i f t h
    rcases probe_cases O nullFaults key n fuel i f t with ⟨hp, _⟩ | ⟨hp, _⟩ | ⟨f', hp, _⟩
    · rw [hp, leaves_returns] at h
      exact h ▸ copyEntry_ages t i
    · rw [hp, leaves_faults] at h
      exact h ▸ copyEntry_ages t i
    · rw [hp] at h
      exact (copyEntry_ages t i).trans (ih _ _ _ h)

theorem probe_all_pass {nullFaults : K → Bool} {n q : ℕ} {g : Option ℕ} :
    ∀ fuel i f (t : Table K V), i < n →
      (∀ p < n, Passes O t.weak t.collected key (t.data p)) →
      probe O nullFaults key n fuel i f t ≠ .returns (q, g) t' := by
  intro fuel
  induction fuel with
  | zero => intro i f t _ _ h; simp [probe] at h
  | succ fuel ih =>
    intro i f t hi hall
    have ha := copyEntry_ages t i
    have hall' : ∀ p < n, Passes O t.weak (copyEntry t i).collected key
        ((copyEntry t i).data p) := fun p hp => (hall p hp).age ha.collected (ha.bucket p)
    rcases probe_cases O nullFaults key n fuel i f t with ⟨_, hstop⟩ | ⟨hp, _⟩ | ⟨f', hp, _⟩
    · rcases hstop with hfree | ⟨k, v, he, hg, ht⟩
      · exact absurd hfree (hall' i hi).1
      · rw [(hall' i hi).2 k v he hg] at ht
        cases ht
    · simp [hp]
    · rw [hp]
      exact ih _ _ _ (next_lt hi) (ha.weak ▸ hall')

/-- Where a search stops: all buckets from the home h of the key up to there are passed. -/
theorem probe_stops {nullFaults : K → Bool} {n h q : ℕ} {g : Option ℕ} (hh : h < n) :
    ∀ fuel i f (t : Table K V), i < n →
      Reaches n (Passes O t.weak t.collected key) t.data h i →
      probe O nullFaults key n fuel i f t = .returns (q, g) t' →
      q < n ∧ dist n h i ≤ dist n h q ∧
      Reaches n (Passes O t.weak t'.collected key) t'.data h q ∧
      (t'.data q = .free ∨ ∃ k v, t'.data q = .entry k v ∧
        gone t.weak t'.collected k v = false ∧ O.test key k = true) ∧
      (g = f ∨ ∃ r < n, g = some r ∧ t'.data r = .tombstone ∧ dist n h r < dist n h q) := by
  intro fuel
  induction fuel with
  | zero => intro i f t _ _ hp; simp [probe] at hp
  | succ fuel ih =>
    intro i f t hi hr hret
    have ha := copyEntry_ages t i
    have hr' : Reaches n (Passes O t.weak (copyEntry t i).collected key)
        (copyEntry t i).data h i := hr.mono fun p _ hp => hp.age ha.collected (ha.bucket p)
    rcases probe_cases O nullFaults key n fuel i f t with
      ⟨hp, hstop⟩ | ⟨hp, _⟩ | ⟨f', hp, hpass, hf'⟩
    · rw [hp] at hret
      obtain ⟨⟨rfl, rfl⟩, rfl⟩ : (i = q ∧ f = g) ∧ copyEntry t i = t' := by simpa using hret
      exact ⟨hi, le_rfl, hr', hstop, Or.inl rfl⟩
    · simp [hp] at hret
    · rw [hp] at hret
      by_cases hback : next n i = h
      · -- all around: every bucket is passed
        refine absurd hret (probe_all_pass _ _ _ _ (next_lt hi) (fun p hp => ?_))
        rw [ha.weak]
        by_cases hpi : p = i
        · exact hpi ▸ hpass
        · refine hr' p hp ?_
          have := dist_next_before hi hp (Ne.symm hpi)
          rwa [hback] at this
      · have hnext := dist_next_right hh hi hback
        have hreached : Reaches n (Passes O (copyEntry t i).weak (copyEntry t i).collected key)
            (copyEntry t i).data h (next n i) := by
          intro p hp hlt
          rw [ha.weak]
          by_cases hpi : p = i
          · exact hpi ▸ hpass
          · have : dist n h p ≠ dist n h i := fun heq => hpi (dist_injective hp hi hh heq)
            exact hr' p hp (by omega)
        obtain ⟨hq, hle, hreach, hend, hg⟩ := ih _ _ _ (next_lt hi) hreached hret
        rw [ha.weak] at hreach hend
        refine ⟨hq, by omega, hreach, hend, ?_⟩
        rcases hg with rfl | hg
        · rcases hf' with hf' | ⟨rfl, htomb⟩
          · exact Or.inl hf'
          · have hage := (probe_ages _ _ _ _ (Or.inl ⟨_, hret⟩)).bucket i
            rw [htomb] at hage
            exact Or.inr ⟨i, hi, rfl, hage.tombstone, by omega⟩
        · exact Or.inr hg

end WeakHashTable

namespace WeakHashTable

open ProbeChains

variable {K V : Type} {O : HashTest K} {c d : Collected K V} {key k₀ k₂ : K} {v : V} {q : ℕ}
  {t t' : Table K V}

def Alive (c : Collected K V) (k : K) (v : V) : Prop := c.key k = false ∧ c.value v = false

theorem Alive.mono (h : Alive d k₀ v) (hcd : c ≤ d) : Alive c k₀ v := by
  have hk := hcd.1 k₀
  have hv := hcd.2 v
  unfold Alive at *
  simp_all

theorem Alive.not_gone (h : Alive c k₀ v) (w : Weakness) : gone w c k₀ v = false :=
  not_gone_of_alive h.1 h.2

structure Placed (O : HashTest K) (t : Table K V) (key k₀ : K) (v : V) (q : ℕ) : Prop where
  lt : q < t.size
  item : t.data q = .entry k₀ v
  matching : O.test key k₀ = true
  reached : Reaches t.size (Passes O t.weak t.collected key) t.data (O.hashKey key % t.size) q

theorem Placed.age (h : Placed O t key k₀ v q) (ha : Ages t t') (hv : Alive t'.collected k₀ v) :
    Placed O t' key k₀ v q where
  lt := ha.size ▸ h.lt
  item := by
    have hb := ha.bucket q
    rw [h.item] at hb
    exact hb.entry (hv.not_gone _)
  matching := h.matching
  reached := by
    rw [ha.size, ha.weak]
    exact h.reached.mono fun p _ hp => hp.age ha.collected (ha.bucket p)

/-- No search for the key breaks off: the test allows for entries that have lost their key,
or there are none to come. -/
def Quiet (O : HashTest K) (t : Table K V) (key : K) : Prop :=
  O.nullFaults key = true → t.weak = .keyOrValue → ∀ p < t.size, ∀ k v,
    t.data p = .entry k v → t.final.key k = true → lost t.weak t.collected k v = true

theorem Quiet.age (h : Quiet O t key) (ha : Ages t t') : Quiet O t' key := by
  intro hn hw p hp k v he hk
  have hb := ha.bucket p
  rw [he] at hb
  rw [ha.weak] at hw ⊢
  exact lost_mono ha.collected (h hn hw p (ha.size ▸ hp) k v hb.of_entry (ha.final ▸ hk))

theorem Quiet.not_gone {i : ℕ} {k : K} {u : V} (h : Quiet O t key) (hi : i < t.size)
    (hn : O.nullFaults key = true) (he : (copyEntry t i).data i = .entry k u) :
    gone t.weak (copyEntry t i).collected k u = false := by
  have ha := copyEntry_ages t i
  have hlost := copyEntry_kept he
  have hb := ha.bucket i
  rw [he] at hb
  have hfinal := (copyEntry t i).collected_le_final
  rw [ha.final] at hfinal
  cases hw : t.weak with
  | keyOrValue =>
    cases hk : (copyEntry t i).collected.key k with
    | false => simp [gone, hk]
    | true =>
      have := lost_mono ha.collected (h hn hw i hi k u hb.of_entry (hfinal.1 k hk))
      rw [hlost] at this
      cases this
  | key | value | keyAndValue => rwa [hw] at hlost

theorem probe_arrives (hq : q < t.size) :
    ∀ fuel i f (t' : Table K V), Ages t t' → i < t.size → dist t.size i q < fuel →
      Quiet O t' key → Alive t.final k₀ v → t'.data q = .entry k₀ v → O.test key k₀ = true →
      Reaches t.size (Passes O t.weak t'.collected key) t'.data i q →
      ∃ g t'', probe O O.nullFaults key t.size fuel i f t' = .returns (q, g) t'' ∧
        Ages t t'' ∧ t''.data q = .entry k₀ v := by
  intro fuel
  induction fuel with
  | zero => intro i f t' _ _ h; omega
  | succ fuel ih =>
    intro i f t' ht hi hfuel hquiet hv hitem hmatch hr
    have ha := copyEntry_ages t' i
    have htrans := ht.trans ha
    have hfinal := (copyEntry t' i).collected_le_final
    rw [htrans.final] at hfinal
    have hgone := (hv.mono hfinal).not_gone t.weak
    have hitem' : (copyEntry t' i).data q = .entry k₀ v := by
      have hb := ha.bucket q
      rw [hitem, ht.weak] at hb
      exact hb.entry hgone
    have hr' : Reaches t.size (Passes O t.weak (copyEntry t' i).collected key)
        (copyEntry t' i).data i q :=
      hr.mono fun p _ hp => hp.age ha.collected (ht.weak ▸ ha.bucket p)
    rcases probe_cases O O.nullFaults key t.size fuel i f t' with
      ⟨hp, hstop⟩ | ⟨_, hn, k, u, he, hg⟩ | ⟨f', hp, hpass, _⟩
    · by_cases hiq : i = q
      · subst i
        exact ⟨f, _, hp, htrans, hitem'⟩
      · have hpass := hr' i hi (by simpa using dist_pos hi hiq)
        rcases hstop with hfree | ⟨k, u, he, hg, htest⟩
        · exact absurd hfree hpass.1
        · rw [hpass.2 k u he (ht.weak ▸ hg)] at htest
          cases htest
    · rw [hquiet.not_gone (ht.size ▸ hi) hn he] at hg
      cases hg
    · have hiq : i ≠ q := by
        rintro rfl
        rw [ht.weak] at hpass
        rw [hpass.2 k₀ v hitem' hgone] at hmatch
        cases hmatch
      have hstep := dist_next_left hi hq hiq
      rw [hp]
      refine ih _ _ _ htrans (next_lt hi) (by omega) (hquiet.age ha) hv hitem' hmatch ?_
      intro p hp hlt
      have hip : i ≠ p := by
        rintro rfl
        have := dist_next_before hi hq hiq
        omega
      have := dist_next_left hi hp hip
      exact hr' p hp (by omega)

theorem gethash_placed (h : Placed O t key k₀ v q) (hquiet : Quiet O t key)
    (hv : Alive t.final k₀ v) (dflt : Option V) :
    ∃ t', gethashWeak O key t dflt = .returns (some v) t' := by
  have hpos : 0 < t.size := lt_of_le_of_lt (Nat.zero_le q) h.lt
  have hhome : O.hashKey key % t.size < t.size := Nat.mod_lt _ hpos
  obtain ⟨g, t', hp, ha, hitem⟩ := probe_arrives h.lt (probeFuel t.size t) _ none t (Ages.refl t)
    hhome (lt_of_lt_of_le (dist_lt hhome h.lt) (Nat.le_add_left _ _)) hquiet hv h.item
    h.matching h.reached
  have hfinal := t'.collected_le_final
  rw [ha.final] at hfinal
  refine ⟨t', ?_⟩
  simp only [gethashWeak, hp, Outcome.bind, hitem, entryValue, (hv.mono hfinal).2]
  simp

/-- The search for the key ends at a free bucket, with no tombstone before it, and the
counter of entries has come to the limit. -/
def Extends (O : HashTest K) (t : Table K V) (key : K) : Prop :=
  ∃ i t', probe O O.nullFaults key t.size (probeFuel t.size t) (O.hashKey key % t.size) none t =
      .returns (i, none) t' ∧ t'.data i = .free ∧ t'.limit ≤ (t'.entries + 1) % 2 ^ 64

/-- sethash after its search: it stores at the free bucket found, or extends the table and
begins again, or stores at the last tombstone or over an entry. -/
theorem sethashAgain_cases (O : HashTest K) (depth n : ℕ) (key : K) (u : V) (t : Table K V)
    {p : ℕ × Option ℕ} {t₁ : Table K V}
    (hp : probe O O.nullFaults key n (probeFuel n t) (O.hashKey key % n) none t = .returns p t₁) :
    (t₁.data p.1 = .free ∧ p.2 = none ∧ (t₁.entries + 1) % 2 ^ 64 < t₁.limit ∧
      sethashAgain O (depth + 1) n key u t =
        .returns () (store { t₁ with entries := (t₁.entries + 1) % 2 ^ 64 } p.1 key u)) ∨
    (t₁.data p.1 = .free ∧ p.2 = none ∧ t₁.limit ≤ (t₁.entries + 1) % 2 ^ 64 ∧
      sethashAgain O (depth + 1) n key u t =
        (eclExtendHashtable (fun k v new => sethashAgain O depth new.size k v new) t₁).bind
          fun _ t => sethashAgain O depth n key u t) ∨
    ∃ r, (t₁.data p.1 = .free ∧ p.2 = some r ∨ t₁.data p.1 ≠ .free ∧ r = p.1) ∧
      sethashAgain O (depth + 1) n key u t = .returns () (store t₁ r key u) := by
  obtain ⟨i, g⟩ := p
  cases hb : t₁.data i with
  | free =>
    cases g with
    | none =>
      by_cases hlimit : t₁.limit ≤ (t₁.entries + 1) % 2 ^ 64
      · refine Or.inr (Or.inl ⟨rfl, rfl, hlimit, ?_⟩)
        simp only [sethashAgain, hp, returns_bind, hb, ge_iff_le, if_pos hlimit]
      · refine Or.inl ⟨rfl, rfl, by omega, ?_⟩
        simp only [sethashAgain, hp, returns_bind, hb, ge_iff_le, if_neg hlimit]
    | some r =>
      exact Or.inr (Or.inr ⟨r, Or.inl ⟨rfl, rfl⟩, by simp only [sethashAgain, hp, returns_bind, hb]⟩)
  | tombstone | entry k v =>
    exact Or.inr (Or.inr ⟨i, Or.inr ⟨by simp, rfl⟩, by
      simp only [sethashAgain, hp, returns_bind, hb]⟩)

theorem sethashAgain_fault {depth n : ℕ} {u : V}
    (hp : probe O O.nullFaults key n (probeFuel n t) (O.hashKey key % n) none t = .faults t') :
    sethashAgain O (depth + 1) n key u t = .faults t' := by
  rw [sethashAgain, hp, faults_bind]

/-- A call of sethash that does not extend the table stores the entry where a search for its
key arrives. -/
theorem sethash_stores {u : V} (hpos : 0 < t.size) (hn : ¬ Extends O t key)
    (hset : (sethashWeak O key u t).Leaves t') :
    sethashWeak O key u t = .faults t' ∧ Ages t t' ∨
    ∃ t₁ e r, t' = store { t₁ with entries := e } r key u ∧ Ages t t₁ ∧ r < t.size ∧
      Reaches t.size (Passes O t.weak t₁.collected key) t₁.data (O.hashKey key % t.size) r ∧
      ∀ k v, t₁.data r = .entry k v → O.test key k = true := by
  have hhome : O.hashKey key % t.size < t.size := Nat.mod_lt _ hpos
  unfold sethashWeak at hset ⊢
  have hprobe := hset
  rw [sethashAgain, leaves_bind] at hprobe
  rcases hprobe with ⟨⟨i, g⟩, t₁, hp, _⟩ | hfault
  · have ha := probe_ages _ _ _ _ (Or.inl ⟨_, hp⟩)
    obtain ⟨hi, _, hreach, hend, hg⟩ :=
      probe_stops hhome _ _ _ _ hhome (fun p _ h => by simp at h) hp
    rcases sethashAgain_cases O (t.memory + t.pending.length) t.size key u t hp with
      ⟨hfree, _, _, hrun⟩ | ⟨hfree, hnone, hlimit, _⟩ | ⟨r, hr, hrun⟩
    · rw [hrun, leaves_returns] at hset
      exact Or.inr ⟨t₁, _, i, hset.symm, ha, hi, hreach, fun k v he => by simp [hfree] at he⟩
    · exact absurd ⟨i, t₁, by rw [hp]; exact hnone ▸ rfl, hfree, hlimit⟩ hn
    · rw [hrun, leaves_returns] at hset
      rcases hr with ⟨_, hsome⟩ | ⟨hused, rfl⟩
      · rcases hg with hg | ⟨s, hs, hg, htomb, hlt⟩
        · rw [hg] at hsome
          cases hsome
        · obtain rfl : s = r := by simpa [hg] using hsome
          exact Or.inr ⟨t₁, t₁.entries, s, hset.symm, ha, hs,
            fun p hp hps => hreach p hp (hps.trans hlt), fun k v he => by simp [htomb] at he⟩
      · rcases hend with hfree | ⟨k, v, he, _, htest⟩
        · exact absurd hfree hused
        · refine Or.inr ⟨t₁, t₁.entries, r, hset.symm, ha, hi, hreach, fun k' v' he' => ?_⟩
          rw [he] at he'
          cases he'
          exact htest
  · exact Or.inl ⟨sethashAgain_fault hfault, probe_ages _ _ _ _ (Or.inr hfault)⟩

theorem sethash_placed (hpos : 0 < t.size) (hrefl : O.test key key = true)
    (hn : ¬ Extends O t key) (hset : sethashWeak O key v t = .returns () t') :
    ∃ r, Placed O t' key key v r := by
  rcases sethash_stores hpos hn (Or.inl ⟨(), hset⟩) with
    ⟨hfault, _⟩ | ⟨t₁, e, r, rfl, ha, hr, hreach, _⟩
  · rw [hset] at hfault
    cases hfault
  · refine ⟨r, by simpa [store, ha.size] using hr, by simp [store], hrefl, ?_⟩
    simp only [store, ha.size, ha.weak]
    intro p hp hlt
    have hpr : p ≠ r := by
      rintro rfl
      omega
    rw [Function.update_of_ne hpr]
    exact hreach p hp hlt

theorem Placed.sethash {u : V} (h : Placed O t key k₀ v q) (hn : ¬ Extends O t k₂)
    (hpass : O.test key k₂ = false) (hother : O.test k₂ k₀ = false)
    (hset : (sethashWeak O k₂ u t).Leaves t') (hv : Alive t'.collected k₀ v) :
    Placed O t' key k₀ v q := by
  have hpos : 0 < t.size := lt_of_le_of_lt (Nat.zero_le q) h.lt
  rcases sethash_stores hpos hn hset with ⟨_, ha⟩ | ⟨t₁, e, r, rfl, ha, hr, _, hmatch⟩
  · exact h.age ha hv
  · have h₁ := h.age ha hv
    have hqr : q ≠ r := by
      rintro rfl
      rw [hmatch k₀ v h₁.item] at hother
      cases hother
    exact ⟨h₁.lt, by simp [store, hqr, h₁.item], h.matching,
      h₁.reached.update (Passes.store hpass u)⟩

theorem gethash_ages {dflt : Option V} (h : (gethashWeak O k₂ t dflt).Leaves t') : Ages t t' := by
  rw [gethashWeak, leaves_bind] at h
  rcases h with ⟨p, t₁, hp, hrest⟩ | hfault
  · have ha := probe_ages _ _ _ _ (Or.inl ⟨_, hp⟩)
    split at hrest <;> exact leaves_returns.mp hrest ▸ ha
  · exact probe_ages _ _ _ _ (Or.inr hfault)

theorem countLoop_ages : ∀ n i j (t : Table K V), Ages t (countLoop n i j t).2 := by
  intro n
  induction n with
  | zero => intro i j t; exact Ages.refl t
  | succ n ih =>
    intro i j t
    have ha := copyEntry_ages t i
    rw [countLoop]
    split
    · exact ha.trans (ih _ _ _)
    · split
      · exact ha
      · exact ha.trans (ih _ _ _)

theorem Placed.hashTableCount (h : Placed O t key k₀ v q)
    (hcount : (step O t .hashTableCount).Leaves t') (hv : Alive t'.collected k₀ v) :
    Placed O t' key k₀ v q := by
  have hpos : t.size ≠ 0 := by have := h.lt; omega
  simp only [step, eclHashTableCount, if_pos hpos, Outcome.bind, leaves_returns] at hcount
  subst t'
  obtain ⟨hlt, hitem, hmatch, hreach⟩ := h.age (countLoop_ages t.size 0 0 t) hv
  exact ⟨hlt, hitem, hmatch, hreach⟩

end WeakHashTable
