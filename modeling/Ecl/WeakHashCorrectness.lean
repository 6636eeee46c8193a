import Ecl.HashTableCorrectness
import Ecl.WeakHashGrowth

/-! Weak hash tables over whole runs: what is stored is found, removal is local, and some
bucket stays free. -/
namespace WeakHashTable

open ProbeChains
open EclHashTable (Sizing defaultSizing)

variable {K V : Type} {O : HashTest K} {key k k₀ : K} {u v : V} {t t' t'' : Table K V}

section Sizes

theorem rebuild_size_pos {set : K → V → Table K V → Outcome Unit (Table K V)}
    {old : ℕ → Bucket K V}
    (hset : ∀ k v new t', 0 < new.size → (set k v new).Leaves t' → 0 < t'.size) :
    ∀ m i new, 0 < new.size → (rebuild set old m i new).Leaves t' → 0 < t'.size := by
  intro m
  induction m with
  | zero => intro i new h hl; exact leaves_returns.mp hl ▸ h
  | succ m ih =>
    intro i new h hl
    have hc : 0 < (collect new).size := (collect_ages new).size ▸ h
    rcases rebuild_cases set old m i new with hs | ⟨k, v, _, hs⟩
    · exact ih _ _ hc (hs ▸ hl)
    · rw [hs, leaves_bind] at hl
      rcases hl with ⟨a, t₁, hret, hl⟩ | hfault
      · exact ih _ _ (hset k v _ t₁ hc (Or.inl ⟨a, hret⟩)) hl
      · exact hset k v _ t' hc (Or.inr hfault)

theorem sethashAgain_size_pos :
    ∀ depth n key u (t t' : Table K V), 0 < t.size →
      (sethashAgain O depth n key u t).Leaves t' → 0 < t'.size := by
  intro depth
  induction depth with
  | zero => intro n key u t t' _ hl; simp [sethashAgain] at hl
  | succ depth ih =>
    intro n key u t t' h hl
    have hprobe := hl
    rw [sethashAgain, leaves_bind] at hprobe
    rcases hprobe with ⟨p, t₁, hp, _⟩ | hfault
    · have h₁ : 0 < t₁.size := (probe_ages _ _ _ _ (Or.inl ⟨_, hp⟩)).size ▸ h
      rcases sethashAgain_cases O depth n key u t hp with
        ⟨_, _, _, hrun⟩ | ⟨_, _, _, hrun⟩ | ⟨r, _, hrun⟩
      · rw [hrun, leaves_returns] at hl
        exact hl ▸ h₁
      · have hextend : ∀ t₂, (eclExtendHashtable (fun k v new => sethashAgain O depth new.size k v
            new) t₁).Leaves t₂ → 0 < t₂.size := by
          intro t₂ hl₂
          unfold eclExtendHashtable at hl₂
          split at hl₂
          · exact absurd hl₂ leaves_exhausted
          · exact rebuild_size_pos (fun k v new t' h hl => ih _ k v new t' h hl) _ _ _
              (t₁.sizing.newSize_pos h₁) hl₂
        rw [hrun, leaves_bind] at hl
        rcases hl with ⟨a, t₂, hret, hl⟩ | hfault
        · exact ih _ _ _ _ _ (hextend t₂ (Or.inl ⟨a, hret⟩)) hl
        · exact hextend t' (Or.inr hfault)
      · rw [hrun, leaves_returns] at hl
        exact hl ▸ h₁
    · exact (probe_ages _ _ _ _ (Or.inr hfault)).size ▸ h

theorem remhash_later (h : (remhashWeak O k t).Leaves t') :
    ∃ e, Later t { t' with entries := e } := by
  rw [remhashWeak, leaves_bind] at h
  rcases h with ⟨p, t₁, hp, hrest⟩ | hfault
  · have ha := (probe_ages _ _ _ _ (Or.inl ⟨_, hp⟩)).toLater
    split at hrest
    · rw [leaves_bind] at hrest
      rcases hrest with ⟨_, t₂, hshift, hrest⟩ | hfault
      · have hl := ha.trans (shift_later _ _ _ _ _ (Or.inl ⟨_, hshift⟩))
        rw [leaves_returns] at hrest
        subst t'
        exact ⟨t₂.entries, hl⟩
      · exact absurd hfault (shift_no_fault _ _ _ _ _)
    · exact ⟨t₁.entries, leaves_returns.mp hrest ▸ ha⟩
  · exact ⟨t'.entries, (probe_ages _ _ _ _ (Or.inr hfault)).toLater⟩

/-- Calls other than sethash and clrhash collect, and leave the shape of the table. -/
theorem step_later {op : Op K V} (h : (step O t op).Leaves t')
    (hset : ∀ k v, op ≠ .sethash k v) (hclr : op ≠ .clrhash) :
    ∃ e, Later t { t' with entries := e } := by
  cases op with
  | gethash k =>
    rw [step, leaves_bind] at h
    rcases h with ⟨a, t₁, hget, hrest⟩ | hfault
    · rw [leaves_returns] at hrest
      exact ⟨t'.entries, (gethash_ages (Or.inl ⟨a, hrest ▸ hget⟩)).toLater⟩
    · exact ⟨t'.entries, (gethash_ages (Or.inr hfault)).toLater⟩
  | sethash k v => exact absurd rfl (hset k v)
  | remhash k =>
    rw [step, leaves_bind] at h
    rcases h with ⟨a, t₁, hrem, hrest⟩ | hfault
    · rw [leaves_returns] at hrest
      exact remhash_later (Or.inl ⟨a, hrest ▸ hrem⟩)
    · exact remhash_later (Or.inr hfault)
  | hashTableCount =>
    simp only [step, eclHashTableCount] at h
    split at h
    · rw [returns_bind, leaves_returns] at h
      subst t'
      exact ⟨_, (countLoop_ages t.size 0 0 t).toLater⟩
    · rw [returns_bind, leaves_returns] at h
      exact ⟨t.entries, h ▸ Later.refl t⟩
  | clrhash => exact absurd rfl hclr

theorem step_size_pos {op : Op K V} (hpos : 0 < t.size) (h : (step O t op).Leaves t') :
    0 < t'.size := by
  by_cases hset : ∃ k v, op = .sethash k v
  · obtain ⟨k, v, rfl⟩ := hset
    exact sethashAgain_size_pos _ _ _ _ _ _ hpos h
  by_cases hclr : op = .clrhash
  · subst op
    simp only [step, leaves_returns] at h
    subst t'
    unfold clClrhash
    split
    · exact hpos
    · exact hpos
  · push Not at hset
    obtain ⟨e, hl⟩ := step_later h hset hclr
    have hsize : t'.size = t.size := hl.size
    omega

theorem runs_size_pos {meets : Table K V → Op K V → Prop} (hpos : 0 < t.size)
    (h : Runs O meets t t') : 0 < t'.size := by
  induction h with
  | start => exact hpos
  | @step t₁ t₂ op gcs _ _ hstep ih =>
    have hpos : 0 < { t₁ with pending := gcs }.size := ih
    exact step_size_pos hpos hstep

theorem reachable_size_pos {meets : Table K V → Op K V → Prop} (h : Reachable O meets t) :
    0 < t.size := by
  obtain ⟨sizing, weak, memory, size, _, _, hrun⟩ := h
  refine runs_size_pos ?_ hrun
  simp only [makeHashTable]
  split <;> omega

end Sizes

/-- A call about other keys, which does not extend the table, and whose removals meet no
tombstone and no entry without a key. -/
def Elsewhere (O : HashTest K) (key : K) (t : Table K V) : Op K V → Prop
  | .gethash _ => True
  | .sethash k _ => O.test key k = false ∧ O.test k key = false ∧ ¬ Extends O t k
  | .remhash k => O.test k key = false ∧ SweepClear O t k
  | .hashTableCount => True
  | .clrhash => False

theorem elsewhere_collected {op : Op K V} (hpos : 0 < t.size) (hop : Elsewhere O key t op)
    (h : (step O t op).Leaves t') : t.collected ≤ t'.collected := by
  by_cases hset : ∃ k v, op = .sethash k v
  · obtain ⟨k, v, rfl⟩ := hset
    rcases sethash_stores hpos hop.2.2 h with ⟨_, ha⟩ | ⟨t₁, e, r, rfl, ha, _⟩
    · exact ha.collected
    · exact ha.collected
  · push Not at hset
    have hclr : op ≠ .clrhash := by
      rintro rfl
      exact hop
    obtain ⟨e, hl⟩ := step_later h hset hclr
    exact hl.collected

theorem elsewhere_placed {op : Op K V} {q : ℕ} (hp : Placed O t key key v q)
    (hop : Elsewhere O key t op) (h : (step O t op).Leaves t') (hv : Alive t'.collected key v) :
    ∃ q', Placed O t' key key v q' := by
  cases op with
  | gethash k =>
    rw [step, leaves_bind] at h
    rcases h with ⟨a, t₁, hget, hrest⟩ | hfault
    · rw [leaves_returns] at hrest
      exact ⟨q, hp.age (gethash_ages (Or.inl ⟨a, hrest ▸ hget⟩)) hv⟩
    · exact ⟨q, hp.age (gethash_ages (Or.inr hfault)) hv⟩
  | sethash k u => exact ⟨q, hp.sethash hop.2.2 hop.1 hop.2.1 h hv⟩
  | remhash k =>
    rw [step, leaves_bind] at h
    rcases h with ⟨a, t₁, hrem, hrest⟩ | hfault
    · rw [leaves_returns] at hrest
      exact hp.remhash rfl hop.1 hop.2 (Or.inl ⟨a, hrest ▸ hrem⟩) hv
    · exact hp.remhash rfl hop.1 hop.2 (Or.inr hfault) hv
  | hashTableCount => exact ⟨q, hp.hashTableCount h hv⟩
  | clrhash => exact hop.elim

theorem Placed.pending {q : ℕ} (hp : Placed O t key k₀ v q) (gcs : List (Collected K V)) :
    Placed O { t with pending := gcs } key k₀ v q :=
  ⟨hp.lt, hp.item, hp.matching, hp.reached⟩

theorem runs_placed {q : ℕ} (hp : Placed O t key key v q) (h : Runs O (Elsewhere O key) t t')
    (hv : Alive t'.collected key v) : ∃ q', Placed O t' key key v q' := by
  induction h with
  | start => exact ⟨q, hp⟩
  | @step t₁ t₂ op gcs hsteps hop hstep ih =>
    have hpos₁ : 0 < t₁.size := runs_size_pos (lt_of_le_of_lt (Nat.zero_le q) hp.lt) hsteps
    have hpos : 0 < { t₁ with pending := gcs }.size := hpos₁
    have hle : { t₁ with pending := gcs }.collected ≤ t₂.collected :=
      elsewhere_collected hpos hop hstep
    obtain ⟨q', hp'⟩ := ih (hv.mono hle)
    exact elsewhere_placed (hp'.pending gcs) hop hstep hv

/-- The table that calls leave, the collections to come being those of the table. -/
def calls (O : HashTest K) (t : Table K V) (ops : List (Op K V)) : Outcome Unit (Table K V) :=
  ops.foldl (fun o op => o.bind fun _ t => step O t op) (.returns () t)

theorem calls_runs {ops : List (Op K V)} (h : calls O t ops = .returns () t') :
    Runs O (fun _ _ => True) t t' := by
  induction ops using List.reverseRecOn generalizing t' with
  | nil =>
    cases h
    exact .start
  | append_singleton ops op ih =>
    rw [calls, List.foldl_append, List.foldl_cons, List.foldl_nil, bind_returns] at h
    obtain ⟨_, t₁, hcalls, hstep⟩ := h
    have hlast : Step O t₁ op t₁.pending t' := Or.inl ⟨(), hstep⟩
    exact .step (ih hcalls) trivial hlast

def Outcome.result {α T : Type} : Outcome α T → Option α
  | .returns a _ => some a
  | _ => none

theorem result_eq_some {α T : Type} {o : Outcome α T} {a : α} (h : o.result = some a) :
    ∃ t, o = .returns a t := by
  cases o with
  | returns b t =>
    cases h
    exact ⟨t, rfl⟩
  | faults t => cases h
  | exhausted => cases h
  | endless => cases h

def eqTest : HashTest ℕ := ⟨id, fun x y => x == y, fun _ => false⟩

def emptyTable : Table ℕ ℕ := makeHashTable defaultSizing .key 1024 16

/-- What a call of sethash stores without extending the table, a later gethash returns. -/
theorem gethash_after_sethash {t₀ t₁ t₂ : Table K V} {gcs₀ gcs : List (Collected K V)}
    (hr : Reachable O (fun _ _ => True) t₀) (hrefl : O.test k k = true)
    (hroom : ¬ Extends O { t₀ with pending := gcs₀ } k)
    (hset : sethashWeak O k v { t₀ with pending := gcs₀ } = .returns () t₁)
    (hrun : Runs O (Elsewhere O k) t₁ t₂) (hquiet : Quiet O { t₂ with pending := gcs } k)
    (hv : Alive { t₂ with pending := gcs }.final k v) (dflt : Option V) :
    ∃ t', gethashWeak O k { t₂ with pending := gcs } dflt = .returns (some v) t' := by
  have hpos₀ : 0 < t₀.size := reachable_size_pos hr
  have hpos : 0 < { t₀ with pending := gcs₀ }.size := hpos₀
  obtain ⟨q, hp⟩ := sethash_placed hpos hrefl hroom hset
  obtain ⟨q', hp'⟩ := runs_placed hp hrun
    (hv.mono { t₂ with pending := gcs }.collected_le_final)
  exact gethash_placed (hp'.pending gcs) hquiet hv dflt

theorem not_extends (h : (t.entries + 1) % 2 ^ 64 < t.limit) : ¬ Extends O t key := by
  rintro ⟨i, t', hp, _, hlimit⟩
  have ha := probe_ages _ _ _ _ (Or.inl ⟨_, hp⟩)
  rw [ha.limit, ha.entries] at hlimit
  omega

/-- A later insert of a key with the same home, and the collection of that key. -/
theorem gethash_after_sethash_collision : ∃ t₁ t₂ t' : Table ℕ ℕ,
    sethashWeak eqTest 3 7 emptyTable = .returns () t₁ ∧
      step eqTest t₁ (.sethash 19 8) = .returns () t₂ ∧
      gethashWeak eqTest 3 { t₂ with pending := [⟨fun k => k == 19, fun _ => false⟩] } none =
        .returns (some 7) t' := by
  have hrun : ((sethashWeak eqTest 3 7 emptyTable).bind fun _ t₁ =>
      (step eqTest t₁ (.sethash 19 8)).bind fun _ t₂ =>
        .returns (t₁.entries, t₁.limit, t₂.collected.key 3, t₂.collected.value 7) t₂).result =
      some (1, 12, false, false) := by decide +kernel
  obtain ⟨t, hrun⟩ := result_eq_some hrun
  obtain ⟨_, t₁, hset, hrun⟩ := bind_returns.mp hrun
  obtain ⟨_, t₂, hstep, hrun⟩ := bind_returns.mp hrun
  simp only [Outcome.returns.injEq, Prod.mk.injEq] at hrun
  obtain ⟨⟨hentries, hlimit, hk, hv⟩, _⟩ := hrun
  have hroom : ¬ Extends eqTest { emptyTable with pending := [] } 3 :=
    not_extends (by decide +kernel)
  have hmeets : Elsewhere eqTest 3 { t₁ with pending := t₁.pending } (.sethash 19 8) :=
    ⟨rfl, rfl, not_extends (by simp only [hentries, hlimit]; norm_num)⟩
  have hlater : Step eqTest t₁ (.sethash 19 8) t₁.pending t₂ := Or.inl ⟨(), hstep⟩
  have hquiet : Quiet eqTest { t₂ with pending := [⟨fun k => k == 19, fun _ => false⟩] } 3 :=
    fun h => by cases h
  obtain ⟨t', hget⟩ := gethash_after_sethash
    ⟨defaultSizing, .key, 1024, 16, by norm_num, by norm_num, .start⟩ rfl hroom hset
    (.step .start hmeets hlater) hquiet (by simp [Alive, Table.final, Collected.union, hk, hv]) none
  exact ⟨t₁, t₂, t', hset, hstep, hget⟩

/-- The insert of 40 extends a table of 16 buckets to 24, and uses bucket 11. -/
theorem insert_lost_by_extension : ∃ t₀ t₁ t₂ : Table ℕ ℕ,
    Reachable eqTest (fun _ _ => True) t₀ ∧ sethashWeak eqTest 40 7 t₀ = .returns () t₁ ∧
      gethashWeak eqTest 40 t₁ none = .returns none t₂ := by
  have hrun : ((calls eqTest emptyTable ((List.range 11).map fun i => .sethash i i)).bind fun _ t =>
      (sethashWeak eqTest 40 7 t).bind fun _ t => gethashWeak eqTest 40 t none).result =
      some none := by decide +kernel
  obtain ⟨t₂, hrun⟩ := result_eq_some hrun
  obtain ⟨_, t₀, hcalls, hrun⟩ := bind_returns.mp hrun
  obtain ⟨_, t₁, hset, hget⟩ := bind_returns.mp hrun
  exact ⟨t₀, t₁, t₂, ⟨defaultSizing, .key, 1024, 16, by norm_num, by norm_num, calls_runs hcalls⟩,
    hset, hget⟩

def Finds (O : HashTest K) (t : Table K V) (key k₀ : K) (v : V) : Prop :=
  ∃ p t', probe O O.nullFaults key t.size (probeFuel t.size { t with pending := [] })
      (O.hashKey key % t.size) none { t with pending := [] } = .returns p t' ∧
    t'.data p.1 = .entry k₀ v

theorem Finds.placed (hpos : 0 < t.size) (h : Finds O t key k₀ v) :
    ∃ q, Placed O t key k₀ v q := by
  obtain ⟨⟨q, g⟩, t', hp, hitem⟩ := h
  have hhome : O.hashKey key % t.size < t.size := Nat.mod_lt _ hpos
  have ha : Ages { t with pending := [] } t' := probe_ages _ _ _ _ (Or.inl ⟨_, hp⟩)
  obtain ⟨hq, _, hreach, hend, _⟩ :=
    probe_stops hhome _ _ _ _ hhome (fun p _ h => by simp at h) hp
  have hle : t'.collected ≤ t.collected := by
    have := t'.collected_le_final
    rwa [ha.final] at this
  have hb := ha.bucket q
  simp only at hitem
  rw [hitem] at hb hend
  refine ⟨q, hq, hb.of_entry, ?_, hreach.mono fun p _ hpass => ?_⟩
  · rcases hend with hf | ⟨k, u, he, _, htest⟩
    · cases hf
    · cases he
      exact htest
  · exact (hpass.unage (ha.bucket p)).age hle (Or.inl rfl)

/-- Where the sweep of remhash is clear, every other live key that was found is found. -/
theorem remhash_keeps_others {gcs gcs' : List (Collected K V)}
    (hr : Reachable O (fun _ _ => True) t) (hclear : SweepClear O { t with pending := gcs } k)
    (hrem : Step O t (.remhash k) gcs t') (hfinds : Finds O t key k₀ v)
    (hhash : O.hashKey k₀ = O.hashKey key) (hother : O.test k k₀ = false)
    (hquiet : Quiet O { t' with pending := gcs' } key)
    (hv : Alive { t' with pending := gcs' }.final k₀ v) (dflt : Option V) :
    ∃ t'', gethashWeak O key { t' with pending := gcs' } dflt = .returns (some v) t'' := by
  obtain ⟨q, hp⟩ := hfinds.placed (reachable_size_pos hr)
  have halive : Alive t'.collected k₀ v := hv.mono { t' with pending := gcs' }.collected_le_final
  have hrem' : (remhashWeak O k { t with pending := gcs }).Leaves t' := by
    unfold Step at hrem
    rw [step, leaves_bind] at hrem
    rcases hrem with ⟨a, t₁, hrun, hrest⟩ | hfault
    · rw [leaves_returns] at hrest
      exact Or.inl ⟨a, hrest ▸ hrun⟩
    · exact Or.inr hfault
  obtain ⟨q', hp'⟩ := (hp.pending gcs).remhash hhash hother hclear hrem' halive
  exact gethash_placed (hp'.pending gcs') hquiet hv dflt

theorem swept_lt {i j : ℕ} (hpos : 0 < t.size) (h : Swept t i j) : j < t.size := by
  cases h <;> exact Nat.mod_lt _ hpos

theorem AllHaveKeys.sweepClear (hpos : 0 < t.size) (h : AllHaveKeys t) : SweepClear O t k :=
  fun _ j _ hj => h j (swept_lt hpos hj)

instance (t : Table K V) (b : Bucket K V) : Decidable (HasKey t b) :=
  match b with
  | .free => isFalse (by rintro ⟨_, _, h, _⟩; cases h)
  | .tombstone => isFalse (by rintro ⟨_, _, h, _⟩; cases h)
  | .entry k v => decidable_of_iff (gone t.weak t.final k v = false)
      ⟨fun h => ⟨k, v, rfl, h⟩, by rintro ⟨_, _, he, h⟩; cases he; exact h⟩

instance [DecidableEq K] [DecidableEq V] (t : Table K V) : Decidable (AllHaveKeys t) :=
  inferInstanceAs (Decidable (∀ p < t.size, t.data p = .free ∨ HasKey t (t.data p)))

/-- The removal of 0 moves 16 to its home. -/
theorem remhash_keeps_others_collision : ∃ t t' t'' : Table ℕ ℕ,
    calls eqTest emptyTable [.sethash 0 1, .sethash 16 3] = .returns () t ∧
      step eqTest t (.remhash 0) = .returns () t' ∧
      gethashWeak eqTest 16 { t' with pending := [] } none = .returns (some 3) t'' := by
  have hrun : ((calls eqTest emptyTable [.sethash 0 1, .sethash 16 3]).bind fun _ t =>
      (step eqTest t (.remhash 0)).bind fun _ t' =>
        (probe eqTest eqTest.nullFaults 16 t.size (probeFuel t.size { t with pending := [] })
          (eqTest.hashKey 16 % t.size) none { t with pending := [] }).bind fun p t₁ =>
            .returns (decide (AllHaveKeys t), t₁.data p.1, t'.collected.key 16,
              t'.collected.value 3) t').result =
      some (true, .entry 16 3, false, false) := by decide +kernel
  obtain ⟨_, hrun⟩ := result_eq_some hrun
  obtain ⟨_, t, hcalls, hrun⟩ := bind_returns.mp hrun
  obtain ⟨_, t', hstep, hrun⟩ := bind_returns.mp hrun
  obtain ⟨p, t₁, hprobe, hrun⟩ := bind_returns.mp hrun
  simp only [Outcome.returns.injEq, Prod.mk.injEq, decide_eq_true_eq] at hrun
  obtain ⟨⟨hkeys, hitem, hk, hv⟩, _⟩ := hrun
  have hreach : Reachable eqTest (fun _ _ => True) t :=
    ⟨defaultSizing, .key, 1024, 16, by norm_num, by norm_num, calls_runs hcalls⟩
  have hclear : SweepClear eqTest { t with pending := t.pending } 0 :=
    hkeys.sweepClear (reachable_size_pos hreach)
  have hrem : Step eqTest t (.remhash 0) t.pending t' := Or.inl ⟨(), hstep⟩
  have hquiet : Quiet eqTest { t' with pending := [] } 16 := fun h => by cases h
  obtain ⟨t'', hget⟩ := remhash_keeps_others hreach hclear hrem ⟨p, t₁, hprobe, hitem⟩ rfl rfl
    hquiet ⟨hk, hv⟩ none
  exact ⟨t, t', t'', hcalls, hstep, hget⟩

/-- The entry of 32, between those of 0 and 16, is collected while 0 is removed. -/
theorem removal_hides_key : ∃ (t t' t'' : Table ℕ ℕ) (gcs : List (Collected ℕ ℕ)),
    Reachable eqTest (fun _ _ => True) t ∧ Finds eqTest t 16 16 3 ∧
      eqTest.test 0 16 = false ∧ Step eqTest t (.remhash 0) gcs t' ∧
      Alive t'.collected 16 3 ∧
      gethashWeak eqTest 16 { t' with pending := [] } none = .returns none t'' := by
  have hrun : ((calls eqTest emptyTable [.sethash 0 1, .sethash 32 2, .sethash 16 3]).bind fun _ t =>
      (step eqTest { t with pending := [⟨fun k => k == 32, fun _ => false⟩] } (.remhash 0)).bind
        fun _ t' =>
        (probe eqTest eqTest.nullFaults 16 t.size (probeFuel t.size { t with pending := [] })
          (eqTest.hashKey 16 % t.size) none { t with pending := [] }).bind fun p t₁ =>
            (gethashWeak eqTest 16 { t' with pending := [] } none).bind fun v t'' =>
              .returns (t₁.data p.1, t'.collected.key 16, t'.collected.value 3, v) t'').result =
      some (.entry 16 3, false, false, none) := by decide +kernel
  obtain ⟨_, hrun⟩ := result_eq_some hrun
  obtain ⟨_, t, hcalls, hrun⟩ := bind_returns.mp hrun
  obtain ⟨_, t', hstep, hrun⟩ := bind_returns.mp hrun
  obtain ⟨p, t₁, hprobe, hrun⟩ := bind_returns.mp hrun
  obtain ⟨v, t'', hget, hrun⟩ := bind_returns.mp hrun
  simp only [Outcome.returns.injEq, Prod.mk.injEq] at hrun
  obtain ⟨⟨hitem, hk, hv, rfl⟩, _⟩ := hrun
  exact ⟨t, t', t'', [⟨fun k => k == 32, fun _ => false⟩],
    ⟨defaultSizing, .key, 1024, 16, by norm_num, by norm_num, calls_runs hcalls⟩,
    ⟨p, t₁, hprobe, hitem⟩, rfl, Or.inl ⟨(), hstep⟩, ⟨hk, hv⟩, hget⟩

def CountsKeys (t : Table K V) (op : Op K V) : Prop := op = .hashTableCount → AllHaveKeys t

theorem step_ends {op : Op K V} (h : Counted t) (hgrows : t.sizing.Grows) (hop : CountsKeys t op) :
    Ends t (step O t op) := by
  cases op with
  | gethash k =>
    obtain ⟨hend, hleaves⟩ := gethash_ends h O k none
    refine ⟨bind_ne_endless hend (by simp), fun t' hl => ?_⟩
    rw [step, leaves_bind] at hl
    rcases hl with ⟨a, t₁, hget, hrest⟩ | hfault
    · rw [leaves_returns] at hrest
      exact hleaves t' (Or.inl ⟨a, hrest ▸ hget⟩)
    · exact hleaves t' (Or.inr hfault)
  | sethash k v => exact sethash_ends h hgrows
  | remhash k =>
    obtain ⟨hend, hleaves⟩ := remhash_ends h O k
    refine ⟨bind_ne_endless hend (by simp), fun t' hl => ?_⟩
    rw [step, leaves_bind] at hl
    rcases hl with ⟨a, t₁, hrem, hrest⟩ | hfault
    · rw [leaves_returns] at hrest
      exact hleaves t' (Or.inl ⟨a, hrest ▸ hrem⟩)
    · exact hleaves t' (Or.inr hfault)
  | hashTableCount => exact hashTableCount_ends h (hop rfl)
  | clrhash => exact clrhash_ends h

theorem Counted.pending (h : Counted t) (gcs : List (Collected K V)) :
    Counted { t with pending := gcs } :=
  ⟨h.size_ge, h.limit_eq, h.count, h.entries_lt, h.memory_ge, h.word⟩

theorem runs_counted (h : Counted t) (hgrows : t.sizing.Grows) (hrun : Runs O CountsKeys t t') :
    Counted t' ∧ t'.sizing = t.sizing := by
  induction hrun with
  | start => exact ⟨h, rfl⟩
  | @step t₁ t₂ op gcs _ hop hstep ih =>
    obtain ⟨h₁, hsizing⟩ := ih
    obtain ⟨h₂, hsizing₂⟩ := (step_ends (h₁.pending gcs) (by rwa [hsizing]) hop).2 t₂ hstep
    exact ⟨h₂, hsizing₂.trans hsizing⟩

theorem make_counted (sizing : Sizing) (weak : Weakness) {memory size : ℕ}
    (hmem : 16 * max 16 size ≤ memory) (hword : memory < 2 ^ 64) :
    Counted (makeHashTable sizing weak memory size : Table K V) := by
  have hsize : (makeHashTable sizing weak memory size : Table K V).size = max 16 size := by
    simp only [makeHashTable]
    split <;> omega
  have hnone : slots (makeHashTable sizing weak memory size : Table K V) = fun _ => none := by
    funext i
    exact slots_eq_none.mpr rfl
  refine ⟨by omega, rfl, ?_, ?_, by rw [hsize]; exact hmem, hword⟩
  · rw [hnone, occupied_none]
    rfl
  · rw [hsize]
    simp only [makeHashTable]
    omega

/-- In every run whose counts find a key in each bucket in use, on a table that grows, some
bucket is free and every further call ends. -/
theorem weak_tables_keep_a_free_bucket {sizing : Sizing} (hgrows : sizing.Grows) (weak : Weakness)
    {memory size : ℕ} (hmem : 16 * max 16 size ≤ memory) (hword : memory < 2 ^ 64)
    (hrun : Runs O CountsKeys (makeHashTable sizing weak memory size) t) :
    (∃ z < t.size, t.data z = .free) ∧
      ∀ op gcs, step O { t with pending := gcs } op ≠ .endless := by
  obtain ⟨h, hsizing⟩ := runs_counted (make_counted sizing weak hmem hword) hgrows hrun
  refine ⟨h.free h.entries_lt le_rfl, fun op gcs => ?_⟩
  by_cases hcount : op = .hashTableCount
  · subst op
    simp only [step, eclHashTableCount]
    split <;> simp
  · have hsame : { t with pending := gcs }.sizing.Grows := by
      have : t.sizing = sizing := hsizing
      rwa [this]
    exact (step_ends (h.pending gcs) hsame (fun h => absurd h hcount)).1

/-- An insert, and a count. -/
theorem weak_tables_keep_a_free_bucket_counted : ∃ t₁ t : Table ℕ ℕ,
    sethashWeak eqTest 3 7 emptyTable = .returns () t₁ ∧
      step eqTest t₁ .hashTableCount = .returns () t ∧ (∃ z < t.size, t.data z = .free) ∧
      step eqTest { t with pending := [] } (.gethash 5) ≠ .endless := by
  have hrun : ((sethashWeak eqTest 3 7 emptyTable).bind fun _ t₁ =>
      (step eqTest t₁ .hashTableCount).bind fun _ t =>
        .returns (decide (AllHaveKeys t₁)) t).result = some true := by decide +kernel
  obtain ⟨_, hrun⟩ := result_eq_some hrun
  obtain ⟨_, t₁, hset, hrun⟩ := bind_returns.mp hrun
  obtain ⟨_, t, hstep, hrun⟩ := bind_returns.mp hrun
  simp only [Outcome.returns.injEq, decide_eq_true_eq] at hrun
  have hfirst : Step eqTest emptyTable (.sethash 3 7) [] t₁ := Or.inl ⟨(), hset⟩
  have hcount : CountsKeys { t₁ with pending := t₁.pending } (.hashTableCount : Op ℕ ℕ) :=
    fun _ => hrun.1
  have hlast : Step eqTest t₁ .hashTableCount t₁.pending t := Or.inl ⟨(), hstep⟩
  have hruns : Runs eqTest CountsKeys emptyTable t :=
    .step (.step .start (fun h => by cases h) hfirst) hcount hlast
  obtain ⟨hfree, hends⟩ := weak_tables_keep_a_free_bucket
    (Sizing.grows_of_float rfl (by norm_num)) .key (by norm_num) (by norm_num) hruns
  exact ⟨t₁, t, hset, hstep, hfree, hends (.gethash 5) []⟩

theorem Runs.trans {meets : Table K V → Op K V → Prop} (h : Runs O meets t t')
    (h' : Runs O meets t' t'') : Runs O meets t t'' := by
  induction h' with
  | start => exact h
  | step _ hop hstep ih => exact .step ih hop hstep

def Outcome.isEndless {α T : Type} : Outcome α T → Bool
  | .endless => true
  | _ => false

/-- Ten keys are collected; the count sets the counter to zero, and six inserts use up the
buckets that are left. -/
theorem count_uses_up_buckets : ∃ t : Table ℕ ℕ, Reachable eqTest (fun _ _ => True) t ∧
    (∀ z < t.size, t.data z ≠ .free) ∧ gethashWeak eqTest 99 t none = .endless := by
  have hrun : ((calls eqTest emptyTable ((List.range 10).map fun i => .sethash i i)).bind fun _ t =>
      (step eqTest { t with pending := [⟨fun k => decide (k < 10), fun _ => false⟩] }
        .hashTableCount).bind fun _ t =>
          (calls eqTest t ((List.range 6).map fun i => .sethash (i + 10) i)).bind fun _ t =>
            .returns (decide (∀ z < t.size, t.data z ≠ .free),
              (gethashWeak eqTest 99 t none).isEndless) t).result = some (true, true) := by
    decide +kernel
  obtain ⟨_, hrun⟩ := result_eq_some hrun
  obtain ⟨_, t₁, hcalls, hrun⟩ := bind_returns.mp hrun
  obtain ⟨_, t₂, hcount, hrun⟩ := bind_returns.mp hrun
  obtain ⟨_, t₃, hcalls', hrun⟩ := bind_returns.mp hrun
  simp only [Outcome.returns.injEq, Prod.mk.injEq, decide_eq_true_eq] at hrun
  obtain ⟨⟨hused, hend⟩, _⟩ := hrun
  have hstep : Step eqTest t₁ .hashTableCount [⟨fun k => decide (k < 10), fun _ => false⟩] t₂ :=
    Or.inl ⟨(), hcount⟩
  refine ⟨t₃, ⟨defaultSizing, .key, 1024, 16, by norm_num, by norm_num,
    (Runs.step (calls_runs hcalls) trivial hstep).trans (calls_runs hcalls')⟩, hused, ?_⟩
  cases hget : gethashWeak eqTest 99 t₃ none with
  | returns a t | faults t | exhausted => simp [hget, Outcome.isEndless] at hend
  | endless => rfl

end WeakHashTable
