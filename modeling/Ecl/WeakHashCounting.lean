import Ecl.HashTableGrowth
import Ecl.WeakHashSearch

/-! Removal from weak tables by backward shift. The shift takes a tombstone, or an entry
without a key, for the end of the cluster. -/
namespace WeakHashTable

open ProbeChains

variable {K V : Type} {O : HashTest K} {key k₀ k₂ : K} {v : V} {q : ℕ} {t t' : Table K V}

/-- The buckets that the shift may look at once bucket i is empty: those after it, up to the
first free one. -/
inductive Swept (t : Table K V) (i : ℕ) : ℕ → Prop where
  | first : Swept t i (next t.size i)
  | next {j : ℕ} : Swept t i j → t.data j ≠ .free → Swept t i (next t.size j)

def HasKey (t : Table K V) (b : Bucket K V) : Prop :=
  ∃ k v, b = .entry k v ∧ gone t.weak t.final k v = false

def Found (O : HashTest K) (t : Table K V) (key : K) (i : ℕ) : Prop :=
  i < t.size ∧ (∃ k v, t.data i = .entry k v ∧ O.test key k = true) ∧
    Reaches t.size (Passes O t.weak t.final key) t.data (O.hashKey key % t.size) i

/-- Between the bucket that remhash of the key empties and the next free one there are only
entries that keep their keys. -/
def SweepClear (O : HashTest K) (t : Table K V) (key : K) : Prop :=
  ∀ i j, Found O t key i → Swept t i j → t.data j = .free ∨ HasKey t (t.data j)

theorem shift_cases (O : HashTest K) (n fuel e j k : ℕ) (t : Table K V) :
    (n < k ∧ shift O n (fuel + 1) e j k t = .returns () t) ∨
    (k ≤ n ∧ (∀ fk fv, (copyEntry t j).data j = .entry fk fv →
        gone t.weak (copyEntry t j).collected fk fv = true) ∧
      shift O n (fuel + 1) e j k t = .returns () { copyEntry t j with
        data := Function.update (copyEntry t j).data e .free }) ∨
    ∃ fk fv, k ≤ n ∧ (copyEntry t j).data j = .entry fk fv ∧
      gone t.weak (copyEntry t j).collected fk fv = false ∧
      (k ≤ dist n (O.hashKey fk % n) j ∧ shift O n (fuel + 1) e j k t =
          shift O n fuel j (next n j) 1 (store (copyEntry t j) e fk fv) ∨
        dist n (O.hashKey fk % n) j < k ∧ shift O n (fuel + 1) e j k t =
          shift O n fuel e (next n j) (k + 1) (copyEntry t j)) := by
  have hw := (copyEntry_ages t j).weak
  by_cases hk : n < k
  · exact Or.inl ⟨hk, by simp [shift, hk]⟩
  refine Or.inr ?_
  cases hb : (copyEntry t j).data j with
  | free | tombstone =>
    exact Or.inl ⟨by omega, by simp, by simp [shift, hk, copiedEntry, hb]⟩
  | entry fk fv =>
    have hkey := entryKey_eq (copyEntry_kept hb)
    cases hg : gone t.weak (copyEntry t j).collected fk fv with
    | true =>
      rw [if_pos hg] at hkey
      refine Or.inl ⟨by omega, ?_, by simp [shift, hk, copiedEntry, hb, hw, hkey]⟩
      intro k' v' he
      cases he
      exact hg
    | false =>
      rw [if_neg (by simp [hg])] at hkey
      refine Or.inr ⟨fk, fv, by omega, rfl, hg, ?_⟩
      have hrun : shift O n (fuel + 1) e j k t = if k ≤ dist n (O.hashKey fk % n) j then
          shift O n fuel j (next n j) 1 (store (copyEntry t j) e fk fv)
          else shift O n fuel e (next n j) (k + 1) (copyEntry t j) := by
        simp only [shift, if_neg hk, copiedEntry, hb, hw, hkey, Option.map_some]
        rfl
      by_cases hd : k ≤ dist n (O.hashKey fk % n) j
      · exact Or.inl ⟨hd, by rw [hrun, if_pos hd]⟩
      · exact Or.inr ⟨by omega, by rw [hrun, if_neg hd]⟩

theorem shift_later {n : ℕ} : ∀ fuel e j k (t : Table K V),
    (shift O n fuel e j k t).Leaves t' → Later t t' := by
  intro fuel
  induction fuel with
  | zero => intro e j k t h; simp [shift] at h
  | succ fuel ih =>
    intro e j k t h
    have hl := (copyEntry_ages t j).toLater
    rcases shift_cases O n fuel e j k t with ⟨_, hs⟩ | ⟨_, _, hs⟩ | ⟨fk, fv, _, _, _, h'⟩
    · rw [hs, leaves_returns] at h
      exact h ▸ Later.refl t
    · rw [hs, leaves_returns] at h
      subst t'
      exact ⟨hl.sizing, hl.weak, hl.memory, hl.size, hl.entries, hl.limit, hl.final, hl.collected⟩
    · rcases h' with ⟨_, hs⟩ | ⟨_, hs⟩
      · rw [hs] at h
        exact (hl.store e fk fv).trans (ih _ _ _ _ h)
      · rw [hs] at h
        exact hl.trans (ih _ _ _ _ h)

theorem shift_no_fault {n : ℕ} : ∀ fuel e j k (t : Table K V),
    shift O n fuel e j k t ≠ .faults t' := by
  intro fuel
  induction fuel with
  | zero => intro e j k t h; simp [shift] at h
  | succ fuel ih =>
    intro e j k t
    rcases shift_cases O n fuel e j k t with
      ⟨_, hs⟩ | ⟨_, _, hs⟩ | ⟨_, _, _, _, _, ⟨_, hs⟩ | ⟨_, hs⟩⟩
    · simp [hs]
    · simp [hs]
    · exact hs ▸ ih _ _ _ _
    · exact hs ▸ ih _ _ _ _

theorem not_passes_free {w : Weakness} {c : Collected K V} :
    ¬ Passes O w c key (.free : Bucket K V) := fun h => h.1 rfl

def bucketHome (O : HashTest K) (n : ℕ) : Bucket K V → ℕ
  | .entry k _ => O.hashKey k % n
  | _ => 0

/-- The shift keeps the entry of k₀ and v where a search for the key arrives, as long as it
meets a key in every bucket of a chain that ends where the table is free. -/
theorem shift_tracks {n : ℕ} (hhash : O.hashKey k₀ = O.hashKey key) (hpos : 0 < n)
    {swept wasFree : ℕ → Prop} (hnext : ∀ j, swept j → ¬ wasFree j → swept (next n j)) :
    ∀ fuel e k q (t : Table K V), t.size = n → 0 < k → ¬ wasFree e →
      Tracked n (Passes O t.weak t.collected key) t.data (O.hashKey key % n) (.entry k₀ v) e k q →
      (∀ j, swept j → wasFree j ∧ t.data j = .free ∨ ¬ wasFree j ∧ HasKey t (t.data j)) →
      swept ((e + k) % n) → shift O n fuel e ((e + k) % n) k t = .returns () t' →
      Alive t'.collected k₀ v →
      ∃ q' < n, t'.data q' = .entry k₀ v ∧
        Reaches n (Passes O t'.weak t'.collected key) t'.data (O.hashKey key % n) q' := by
  have hh : O.hashKey key % n < n := Nat.mod_lt _ hpos
  intro fuel
  induction fuel with
  | zero => intro e k q t _ _ _ _ _ _ h; simp [shift] at h
  | succ fuel ih =>
    intro e k q t hn hk he htrack hregion hj hret hv
    have ha := copyEntry_ages t ((e + k) % n)
    have hdone := shift_cases O n fuel e ((e + k) % n) k t
    generalize hc : copyEntry t ((e + k) % n) = t₁ at ha hdone
    have hfinal := t₁.collected_le_final
    have hregion' : ∀ j, swept j →
        wasFree j ∧ t₁.data j = .free ∨ ¬ wasFree j ∧ HasKey t₁ (t₁.data j) := by
      intro j hjs
      refine (hregion j hjs).imp (fun h => ⟨h.1, (ha.bucket j).free_iff.mpr h.2⟩) ?_
      rintro ⟨hf, fk, fv, hb, hg⟩
      have hkeep := ha.bucket j
      rw [hb] at hkeep
      refine ⟨hf, fk, fv, hkeep.entry ?_, by rw [ha.weak, ha.final]; exact hg⟩
      by_contra hg'
      rw [gone_mono (ha.final ▸ hfinal) (by simpa using hg')] at hg
      cases hg
    have htrack' : t₁.collected ≤ t'.collected →
        Tracked n (Passes O t₁.weak t₁.collected key) t₁.data (O.hashKey key % n)
          (.entry k₀ v) e k q := by
      intro hle
      refine htrack.mono (fun p _ hp => ?_) ?_
      · exact ha.weak ▸ hp.age ha.collected (ha.bucket p)
      · have hb := ha.bucket q
        rw [htrack.item] at hb
        exact hb.entry ((hv.mono hle).not_gone _)
    rcases hdone with ⟨hlt, hs⟩ | ⟨_, hnone, hs⟩ | ⟨fk, fv, _, hb, hg, hstep⟩
    · rw [hs] at hret
      cases hret
      exact ⟨q, htrack.place_lt, htrack.item, htrack.finish hlt.le⟩
    · rw [hs] at hret
      cases hret
      have htr := htrack' (le_refl _)
      -- the end of the cluster is a free bucket, where searches end as well
      have hfree : t₁.data ((e + k) % n) = .free := by
        rcases hregion' _ hj with ⟨_, hf⟩ | ⟨_, gk, gv, hb, hg⟩
        · exact hf
        · have hgone := hnone gk gv hb
          rw [ha.weak, gone_mono hfinal (ha.weak ▸ hgone)] at hg
          cases hg
      obtain ⟨hitem, hreach⟩ := htr.close (x := .free) hh hk (by rw [hfree]; exact not_passes_free)
        (by simp [hfree])
      exact ⟨q, htr.place_lt, hitem, hreach⟩
    · have hnf : ¬ wasFree ((e + k) % n) := by
        rcases hregion' _ hj with ⟨_, hf⟩ | ⟨hf, _⟩
        · simp [hb] at hf
        · exact hf
      have hkey : HasKey t₁ (t₁.data ((e + k) % n)) := by
        rcases hregion' _ hj with ⟨_, hf⟩ | ⟨_, hk⟩
        · simp [hb] at hf
        · exact hk
      have hswept := hnext _ hj hnf
      rcases hstep with ⟨hd, hs⟩ | ⟨hd, hs⟩
      · rw [hs] at hret
        have hle : t₁.collected ≤ t'.collected := (shift_later _ _ _ _ _ (Or.inl ⟨_, hret⟩)).collected
        obtain ⟨q', htr⟩ := (htrack' hle).move (bucketHome O n) hh hk hb
          (by simp [bucketHome, hhash]) hd (Nat.mod_lt _ hpos)
        refine ih _ 1 q' (store t₁ e fk fv) (ha.size.trans hn) one_pos hnf htr ?_ hswept hret hv
        intro j hjs
        simp only [store]
        by_cases hje : j = e
        · subst j
          rw [Function.update_self]
          exact Or.inr ⟨he, by rwa [hb] at hkey⟩
        · rw [Function.update_of_ne hje]
          exact hregion' j hjs
      · rw [hs] at hret
        have hle : t₁.collected ≤ t'.collected := (shift_later _ _ _ _ _ (Or.inl ⟨_, hret⟩)).collected
        have htr := (htrack' hle).skip (bucketHome O n) hh hb
          (by simp [bucketHome, hhash]) hd
        rw [next_mod] at hswept hret
        exact ih e (k + 1) q _ (ha.size.trans hn) (by omega) he htr hregion' hswept hret hv

theorem Placed.remhash (h : Placed O t key k₀ v q) (hhash : O.hashKey k₀ = O.hashKey key)
    (hother : O.test k₂ k₀ = false) (hclear : SweepClear O t k₂)
    (hrem : (remhashWeak O k₂ t).Leaves t') (hv : Alive t'.collected k₀ v) :
    ∃ q', Placed O t' key k₀ v q' := by
  have hpos : 0 < t.size := lt_of_le_of_lt (Nat.zero_le q) h.lt
  have hhome : O.hashKey k₂ % t.size < t.size := Nat.mod_lt _ hpos
  rw [remhashWeak, leaves_bind] at hrem
  rcases hrem with ⟨⟨i, g⟩, t₁, hp, hrest⟩ | hfault
  · have ha := probe_ages _ _ _ _ (Or.inl ⟨_, hp⟩)
    obtain ⟨hi, _, hreach, hend, _⟩ :=
      probe_stops hhome _ _ _ _ hhome (fun p _ h => by simp at h) hp
    rcases hend with hfree | ⟨k₁, v₁, he, hg, htest⟩
    · rw [hfree, leaves_returns] at hrest
      exact ⟨q, h.age (hrest ▸ ha) hv⟩
    · simp only [he, leaves_bind, leaves_returns] at hrest
      rcases hrest with ⟨_, t₂, hshift, rfl⟩ | hfault
      · have hl := shift_later _ _ _ _ _ (Or.inl ⟨_, hshift⟩)
        have h₁ := h.age ha (hv.mono hl.collected)
        have hqi : q ≠ i := by
          rintro rfl
          have := he.symm.trans h₁.item
          cases this
          rw [hother] at htest
          cases htest
        have hbi : Aged t.weak t₁.collected (t.data i) (.entry k₁ v₁) := he ▸ ha.bucket i
        have hfound : Found O t k₂ i := by
          refine ⟨hi, ⟨k₁, v₁, hbi.of_entry, htest⟩, ?_⟩
          refine hreach.mono fun p _ hpass => ?_
          have hle := t₁.collected_le_final
          rw [ha.final] at hle
          refine ⟨fun hf => (hpass.unage (ha.bucket p)).1 hf, fun k' v' hb hg' => ?_⟩
          refine (hpass.unage (ha.bucket p)).2 k' v' hb ?_
          by_contra hg''
          rw [gone_mono hle (by simpa using hg'')] at hg'
          cases hg'
        have hregion : ∀ j, Swept t i j →
            t.data j = .free ∧ t₁.data j = .free ∨ ¬ t.data j = .free ∧ HasKey t₁ (t₁.data j) := by
          intro j hj
          rcases hclear i j hfound hj with hf | ⟨fk, fv, hb, hg'⟩
          · exact Or.inl ⟨hf, (ha.bucket j).free_iff.mpr hf⟩
          · have hkeep := ha.bucket j
            have hle := t₁.collected_le_final
            rw [ha.final] at hle
            rw [hb] at hkeep
            refine Or.inr ⟨by simp [hb], fk, fv, hkeep.entry ?_, by rw [ha.weak, ha.final]; exact hg'⟩
            by_contra hg''
            rw [gone_mono hle (by simpa using hg'')] at hg'
            cases hg'
        have hone : next t.size i = (i + 1) % t.size := rfl
        have hstart := tracked_start h.lt hi hqi h₁.item (ha.size ▸ h₁.reached)
        rw [ha.size] at hshift
        obtain ⟨q', hq', hitem, hreach'⟩ := shift_tracks hhash hpos
          (fun j hj hf => Swept.next hj hf) _ i 1 q t₁ ha.size one_pos (by simp [hbi.of_entry])
          hstart hregion Swept.first hshift hv
        have hsize : t₂.size = t.size := hl.size.trans ha.size
        exact ⟨q', by simpa [hsize] using hq', hitem, h.matching, by simpa [hsize] using hreach'⟩
      · exact absurd hfault (shift_no_fault _ _ _ _ _)
  · exact ⟨q, h.age (probe_ages _ _ _ _ (Or.inr hfault)) hv⟩

end WeakHashTable

namespace WeakHashTable

open ProbeChains

variable {K V : Type} {O : HashTest K} {key : K} {v : V} {t t' : Table K V} {n z : ℕ}

def slots (t : Table K V) (i : ℕ) : Option (Bucket K V) :=
  match t.data i with
  | .free => none
  | b => some b

@[simp] theorem slots_eq_none {i : ℕ} : slots t i = none ↔ t.data i = .free := by
  unfold slots
  split <;> simp_all

theorem slots_ne_none {i : ℕ} : slots t i ≠ none ↔ t.data i ≠ .free := by simp

theorem slots_store (t : Table K V) (i : ℕ) (k : K) (u : V) :
    slots (store t i k u) = Function.update (slots t) i (some (.entry k u)) := by
  funext p
  by_cases hp : p = i
  · subst p
    simp [slots, store]
  · simp [slots, store, hp]

theorem slots_clear (t : Table K V) (i : ℕ) :
    slots { t with data := Function.update t.data i .free } = Function.update (slots t) i none := by
  funext p
  by_cases hp : p = i
  · subst p
    simp [slots]
  · simp [slots, hp]

theorem Ages.occupied (h : Ages t t') (n : ℕ) :
    occupied n (slots t') = occupied n (slots t) := by
  apply occupied_congr
  intro i _
  rw [Bool.eq_iff_iff, Option.isSome_iff_ne_none, Option.isSome_iff_ne_none, slots_ne_none,
    slots_ne_none, Ne, (h.bucket i).free_iff]

theorem Ages.free (h : Ages t t') {i : ℕ} (hf : t.data i = .free) : t'.data i = .free :=
  (h.bucket i).free_iff.mpr hf

structure Counted (t : Table K V) : Prop where
  size_ge : 16 ≤ t.size
  limit_eq : t.limit = t.sizing.limit t.size
  count : t.entries = occupied t.size (slots t)
  entries_lt : t.entries < t.size
  memory_ge : 16 * t.size ≤ t.memory
  word : t.memory < 2 ^ 64

theorem Counted.age (h : Counted t) (ha : Ages t t') : Counted t' where
  size_ge := ha.size ▸ h.size_ge
  limit_eq := by rw [ha.limit, ha.size, ha.sizing, h.limit_eq]
  count := by rw [ha.entries, ha.size, ha.occupied, h.count]
  entries_lt := by rw [ha.entries, ha.size]; exact h.entries_lt
  memory_ge := by rw [ha.memory, ha.size]; exact h.memory_ge
  word := ha.memory ▸ h.word

theorem Counted.free (h : Counted t) (hn : t.entries < n) (hle : n ≤ t.size) :
    ∃ z < n, t.data z = .free := by
  have hlt : occupied n (slots t) < n := by
    have := occupied_le (c := slots t) hle
    have := h.count
    omega
  obtain ⟨z, hz, hf⟩ := exists_free hlt
  exact ⟨z, hz, slots_eq_none.mp hf⟩

theorem probe_ends {nullFaults : K → Bool} (hz : z < n) :
    ∀ fuel i f (t : Table K V), i < n → t.data z = .free → dist n i z < fuel →
      (∃ p t', probe O nullFaults key n fuel i f t = .returns p t') ∨
        ∃ t', probe O nullFaults key n fuel i f t = .faults t' := by
  intro fuel
  induction fuel with
  | zero => intro i f t _ _ h; omega
  | succ fuel ih =>
    intro i f t hi hf hlt
    rcases probe_cases O nullFaults key n fuel i f t with ⟨hp, _⟩ | ⟨hp, _⟩ | ⟨f', hp, hpass, _⟩
    · exact Or.inl ⟨_, _, hp⟩
    · exact Or.inr ⟨_, hp⟩
    · have hiz : i ≠ z := by
        rintro rfl
        exact hpass.1 ((copyEntry_ages t i).free hf)
      have := dist_next_left hi hz hiz
      rw [hp]
      exact ih _ _ _ (next_lt hi) ((copyEntry_ages t i).free hf) (by omega)

/-- Where a shift is headed for a free bucket z, it frees exactly one bucket. -/
theorem shift_frees (hz : z < n) :
    ∀ fuel e j k (t : Table K V), e < n → j < n → t.data e ≠ .free → t.data z = .free →
      k + dist n j z = dist n e z → dist n j z < fuel →
      ∃ t', shift O n fuel e j k t = .returns () t' ∧ Later t t' ∧
        occupied n (slots t') + 1 = occupied n (slots t) := by
  intro fuel
  induction fuel with
  | zero => intro e j k t _ _ _ _ _ h; omega
  | succ fuel ih =>
    intro e j k t he hj hused hf hk hfuel
    have ha := copyEntry_ages t j
    have hused' : (copyEntry t j).data e ≠ .free := fun h => hused ((ha.bucket e).free_iff.mp h)
    have hbound := dist_lt he hz
    rcases shift_cases O n fuel e j k t with ⟨hlt, _⟩ | ⟨_, _, hs⟩ | ⟨fk, fv, _, hb, _, hstep⟩
    · omega
    · refine ⟨_, hs, (shift_later (fuel + 1) e j k t (Or.inl ⟨(), hs⟩)), ?_⟩
      rw [slots_clear, occupied_clear he (slots_ne_none.mpr hused'), ha.occupied]
    · have hjz : j ≠ z := by
        rintro rfl
        rw [ha.free hf] at hb
        cases hb
      have hez : z ≠ e := by
        rintro rfl
        exact hused hf
      have hdist := dist_next_left hj hz hjz
      rcases hstep with ⟨_, hs⟩ | ⟨_, hs⟩
      · have hone : dist n j (next n j) = 1 := by
          rw [dist_next_right hj hj (Ne.symm (ne_next hj hz hjz)), dist_self]
        have hmoved : (store (copyEntry t j) e fk fv).data j ≠ .free := by
          by_cases hje : j = e
          · simp [store, hje]
          · simp [store, hje, hb]
        obtain ⟨t', hrun, hl, hocc⟩ := ih j (next n j) 1 (store (copyEntry t j) e fk fv) hj
          (next_lt hj) hmoved (by simpa [store, hez] using ha.free hf) (by omega) (by omega)
        refine ⟨t', hs ▸ hrun, (ha.toLater.store e fk fv).trans hl, ?_⟩
        rw [hocc, slots_store, occupied_overwrite _ (slots_ne_none.mpr hused'), ha.occupied]
      · obtain ⟨t', hrun, hl, hocc⟩ := ih e (next n j) (k + 1) (copyEntry t j) he (next_lt hj) hused'
          (ha.free hf) (by omega) (by omega)
        exact ⟨t', hs ▸ hrun, ha.toLater.trans hl, by rw [hocc, ha.occupied]⟩

def Ends {α : Type} (t : Table K V) (o : Outcome α (Table K V)) : Prop :=
  o ≠ .endless ∧ ∀ t', o.Leaves t' → Counted t' ∧ t'.sizing = t.sizing

theorem Counted.home_lt (h : Counted t) : O.hashKey key % t.size < t.size :=
  Nat.mod_lt _ (by have := h.size_ge; omega)

theorem Counted.probe (h : Counted t) (O : HashTest K) (key : K) (nullFaults : K → Bool) (hn : t.entries < n)
    (hle : n ≤ t.size) :
    (∃ p t₁, WeakHashTable.probe O nullFaults key n (probeFuel n t) (O.hashKey key % n) none t =
        .returns p t₁ ∧ Ages t t₁) ∨
      ∃ t₁, WeakHashTable.probe O nullFaults key n (probeFuel n t) (O.hashKey key % n) none t =
        .faults t₁ ∧ Ages t t₁ := by
  obtain ⟨z, hz, hf⟩ := h.free hn hle
  have hhome : O.hashKey key % n < n := Nat.mod_lt _ (by omega)
  have hfuel : dist n (O.hashKey key % n) z < probeFuel n t :=
    lt_of_lt_of_le (dist_lt hhome hz) (Nat.le_add_left _ _)
  rcases probe_ends hz (probeFuel n t) _ none t hhome hf hfuel with ⟨p, t₁, hp⟩ | ⟨t₁, hp⟩
  · exact Or.inl ⟨p, t₁, hp, probe_ages _ _ _ _ (Or.inl ⟨_, hp⟩)⟩
  · exact Or.inr ⟨t₁, hp, probe_ages _ _ _ _ (Or.inr hp)⟩

theorem gethash_ends (h : Counted t) (O : HashTest K) (key : K) (dflt : Option V) :
    Ends t (gethashWeak O key t dflt) := by
  refine ⟨?_, fun t' hl => ⟨h.age (gethash_ages hl), (gethash_ages hl).sizing⟩⟩
  unfold gethashWeak
  rcases h.probe O key O.nullFaults h.entries_lt le_rfl with
    ⟨p, t₁, hp, _⟩ | ⟨t₁, hp, _⟩
  · rw [hp, returns_bind]
    split <;> simp
  · simp [hp]

theorem remhash_ends (h : Counted t) (O : HashTest K) (key : K) :
    Ends t (remhashWeak O key t) := by
  unfold remhashWeak
  rcases h.probe O key (fun _ => false) h.entries_lt le_rfl with
    ⟨⟨i, g⟩, t₁, hp, ha⟩ | ⟨t₁, hp, ha⟩
  · have h₁ := h.age ha
    have hhome : O.hashKey key % t.size < t.size := h.home_lt
    have hi : i < t.size := (probe_stops hhome _ _ _ _ hhome (fun p _ h => by simp at h) hp).1
    rw [hp, returns_bind]
    cases hb : t₁.data i with
    | entry k u =>
      obtain ⟨z, hz, hf⟩ := h₁.free h₁.entries_lt le_rfl
      rw [ha.size] at hz
      have hiz : i ≠ z := by
        rintro rfl
        rw [hb] at hf
        cases hf
      have hdist := dist_next_left hi hz hiz
      have hfuel : dist t.size (next t.size i) z < shiftFuel t.size := by
        have := dist_lt (next_lt hi) hz
        have : t.size + 1 ≤ (t.size + 1) ^ 3 := Nat.le_self_pow (by norm_num) _
        unfold shiftFuel
        omega
      obtain ⟨t', hrun, hl, hocc⟩ := shift_frees (O := O) hz (shiftFuel t.size) i (next t.size i) 1 t₁
        hi (next_lt hi) (by simp [hb]) hf (by omega) hfuel
      have hcount := h₁.count
      have hlt := h₁.entries_lt
      have hmem := h₁.memory_ge
      have hword := h₁.word
      rw [ha.size] at hcount hlt hmem ⊢
      have hrun' : shift O t.size (shiftFuel t.size) i ((i + 1) % t.size) 1 t₁ = .returns () t' :=
        hrun
      have hentries : (t'.entries + (2 ^ 64 - 1)) % 2 ^ 64 = t₁.entries - 1 := by
        rw [hl.entries]
        omega
      have hsize : t'.size = t.size := hl.size.trans ha.size
      simp only [hrun', returns_bind, hentries]
      refine ⟨by simp, fun t'' hl' => ?_⟩
      rw [leaves_returns] at hl'
      subst t''
      refine ⟨⟨?_, ?_, ?_, ?_, ?_, ?_⟩, hl.sizing.trans ha.sizing⟩
      · exact hsize ▸ h.size_ge
      · simpa [hl.limit, hl.sizing, hl.size] using h₁.limit_eq
      · change t₁.entries - 1 = occupied t'.size (slots t')
        rw [hsize]
        omega
      · simp only [hsize]
        omega
      · simp only [hsize, hl.memory]
        exact hmem
      · simpa [hl.memory] using hword
    | free => exact ⟨by simp, fun t' hl => by rw [← leaves_returns.mp hl]; exact ⟨h₁, ha.sizing⟩⟩
    | tombstone =>
      exact ⟨by simp, fun t' hl => by rw [← leaves_returns.mp hl]; exact ⟨h₁, ha.sizing⟩⟩
  · rw [hp, faults_bind]
    exact ⟨by simp, fun t' hl => by rw [← leaves_faults.mp hl]; exact ⟨h.age ha, ha.sizing⟩⟩

def AllHaveKeys (t : Table K V) : Prop :=
  ∀ p < t.size, t.data p = .free ∨ HasKey t (t.data p)

theorem AllHaveKeys.age (h : AllHaveKeys t) (ha : Ages t t') : AllHaveKeys t' := by
  intro p hp
  rw [ha.size] at hp
  refine (h p hp).imp ha.free ?_
  rintro ⟨k, u, hb, hg⟩
  have hkeep := ha.bucket p
  have hle := t'.collected_le_final
  rw [ha.final] at hle
  rw [hb] at hkeep
  refine ⟨k, u, hkeep.entry ?_, by rw [ha.weak, ha.final]; exact hg⟩
  by_contra hg'
  rw [gone_mono hle (by simpa using hg')] at hg
  cases hg

theorem copiedEntry_eq (h : AllHaveKeys t) {i : ℕ} (hi : i < t.size) :
    (copiedEntry (copyEntry t i) i).isSome = (slots t i).isSome := by
  have ha := copyEntry_ages t i
  rcases h.age ha i (ha.size ▸ hi) with hf | ⟨k, u, hb, hg⟩
  · have hs : slots t i = none := slots_eq_none.mpr ((ha.bucket i).free_iff.mp hf)
    simp [copiedEntry, hf, hs]
  · have hs : slots t i ≠ none := by
      rw [slots_ne_none, Ne, ← (ha.bucket i).free_iff, hb]
      simp
    have hle := (copyEntry t i).collected_le_final
    have hng : gone t.weak (copyEntry t i).collected k u = false := by
      by_contra hg'
      rw [← ha.weak] at hg'
      rw [gone_mono hle (by simpa using hg')] at hg
      cases hg
    have hkey := entryKey_eq (copyEntry_kept hb)
    rw [if_neg (by simp [hng])] at hkey
    simp [copiedEntry, hb, ha.weak, hkey, Option.isSome_iff_ne_none.mpr hs]

theorem countLoop_counts {s : ℕ} :
    ∀ m i j (t : Table K V), AllHaveKeys t → t.size = s → i + m = s →
      j = occupied i (slots t) → occupied s (slots t) < s →
      (countLoop m i j t).1 = occupied s (slots t) := by
  intro m
  induction m with
  | zero =>
    intro i j t _ _ hi hj _
    obtain rfl : i = s := by omega
    exact hj
  | succ m ih =>
    intro i j t h hs hi hj hlt
    have ha := copyEntry_ages t i
    have hocc := ha.occupied
    have hsome := copiedEntry_eq h (i := i) (by omega)
    have hsucc := occupied_succ i (slots t)
    have hrest := ih (i + 1) (occupied (i + 1) (slots t)) (copyEntry t i) (h.age ha)
      (ha.size.trans hs) (by omega) (hocc (i + 1)).symm (by rwa [hocc])
    rw [hocc] at hrest
    rw [countLoop]
    cases hc : copiedEntry (copyEntry t i) i with
    | none =>
      rw [hc] at hsome
      rw [← hsome] at hsucc
      simp only [Option.isSome_none] at hsucc
      dsimp only
      rwa [hj, show occupied i (slots t) = occupied (i + 1) (slots t) by simpa using hsucc.symm]
    | some e =>
      rw [hc] at hsome
      rw [← hsome] at hsucc
      simp only [Option.isSome_some, if_true] at hsucc
      have hle : occupied (i + 1) (slots t) ≤ occupied s (slots t) := occupied_le (by omega)
      dsimp only
      rw [if_neg (by rw [ha.size, hs]; omega), hj, ← hsucc]
      exact hrest

theorem hashTableCount_ends (h : Counted t) (hkeys : AllHaveKeys t) :
    Ends t (step O t .hashTableCount) := by
  have hpos : t.size ≠ 0 := by have := h.size_ge; omega
  have ha := countLoop_ages t.size 0 0 t
  have hcount := h.count
  have hlt := h.entries_lt
  have hloop := countLoop_counts t.size 0 0 t hkeys rfl (by omega) (by simp [occupied])
    (by omega)
  obtain ⟨hsize, hlimit, hcount', hentries, hmem, hword⟩ := h.age ha
  simp only [step, eclHashTableCount, if_pos hpos, returns_bind]
  refine ⟨by simp, fun t' hl => ?_⟩
  rw [leaves_returns] at hl
  subst t'
  refine ⟨⟨hsize, hlimit, ?_, ?_, hmem, hword⟩, ha.sizing⟩
  · dsimp only
    rw [hloop, ha.size, ← ha.occupied]
    rfl
  · dsimp only
    rw [hloop, ha.size]
    omega

theorem clrhash_ends (h : Counted t) : Ends t (step O t .clrhash) := by
  refine ⟨by simp [step], fun t' hl => ?_⟩
  simp only [step, leaves_returns] at hl
  subst t'
  unfold clClrhash
  split
  · refine ⟨⟨h.size_ge, h.limit_eq, ?_, ?_, h.memory_ge, h.word⟩, rfl⟩
    · change 0 = occupied t.size (slots (doClrhash t))
      rw [← occupied_none (β := Bucket K V) t.size]
      symm
      apply occupied_congr
      intro i hi
      have : slots (doClrhash t) i = none := slots_eq_none.mpr (by simp [doClrhash, hi])
      simp [this]
    · have := h.size_ge
      simp only [doClrhash]
      omega
  · exact ⟨h, rfl⟩

end WeakHashTable
