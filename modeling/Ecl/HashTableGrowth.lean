import Ecl.HashTableRefinement
import Mathlib.Data.Nat.Log

/-! Storing and growth. HASH_TABLE_SET and ecl_extend_hashtable call each other, so one
induction on the budget covers both; with a growing rehash size the budget is finite. -/
namespace EclHashTable

open ProbeChains

variable {K V B : Type} {O : TableOps K V B} {same : K → K → Prop} {admits : K → V → Prop}
  {wf : B → Prop}

def StoresPairs (O : TableOps K V B) (same : K → K → Prop) (admits : K → V → Prop)
    (wf : B → Prop) (set : K → V → HashTable B → Option (HashTable B)) : Prop :=
  ∀ k v t t', Invariant O same wf t → admits k v → set k v t = some t' →
    Invariant O same wf t' ∧ Stored O same k v t t' ∧ t'.sizing = t.sizing

def HoldsBelow (O : TableOps K V B) (same : K → K → Prop) (t : HashTable B) (i : ℕ)
    (k : K) (v : V) : Prop :=
  ∃ p < i, ∃ e, t.data p = some e ∧ same k (O.key e) ∧ O.value e = v

theorem holds_below_size {t : HashTable B} {k : K} {v : V} :
    HoldsBelow O same t t.size k v ↔ Holds O same t k v := by
  constructor
  · rintro ⟨p, hp, e, he, hk, hv⟩
    exact ⟨e, ⟨p, hp, he⟩, hk, hv⟩
  · rintro ⟨e, ⟨p, hp, he⟩, hk, hv⟩
    exact ⟨p, hp, e, he, hk, hv⟩

theorem holds_below_succ {t : HashTable B} {i : ℕ} {k : K} {v : V} :
    HoldsBelow O same t (i + 1) k v ↔ HoldsBelow O same t i k v ∨
      ∃ e, t.data i = some e ∧ same k (O.key e) ∧ O.value e = v := by
  constructor
  · rintro ⟨p, hp, h⟩
    rcases Nat.lt_succ_iff_lt_or_eq.mp hp with hlt | rfl
    · exact Or.inl ⟨p, hlt, h⟩
    · exact Or.inr h
  · rintro (⟨p, hp, h⟩ | h)
    · exact ⟨p, by omega, h⟩
    · exact ⟨i, by omega, h⟩

/-- The loop of ecl_extend_hashtable up to bucket i. -/
def rebuild (O : TableOps K V B) (set : K → V → HashTable B → Option (HashTable B))
    (t : HashTable B) (i : ℕ) : Option (HashTable B) :=
  (List.range i).foldlM (fun new i => match t.data i with
    | none => some new
    | some e => set (O.key e) (O.value e) new) (emptyExtension t)

theorem rebuild_succ (set : K → V → HashTable B → Option (HashTable B)) (t : HashTable B)
    (i : ℕ) : rebuild O set t (i + 1) = (rebuild O set t i).bind fun new =>
      match t.data i with
      | none => some new
      | some e => set (O.key e) (O.value e) new := by
  simp only [rebuild, List.range_succ, List.foldlM_append, List.foldlM_cons, List.foldlM_nil,
    bind_pure]
  rfl

theorem emptyExtension_invariant {t : HashTable B} (ht : Invariant O same wf t) :
    Invariant O same wf (emptyExtension t) :=
  empty_invariant t.sizing (t.sizing.newSize_pos ht.size_pos)

theorem rebuild_holds (hO : Lawful O same admits wf)
    {set : K → V → HashTable B → Option (HashTable B)} (hset : StoresPairs O same admits wf set)
    {t : HashTable B} (ht : Invariant O same wf t) :
    ∀ i ≤ t.size, ∀ new, rebuild O set t i = some new →
      Invariant O same wf new ∧ new.sizing = t.sizing ∧
        ∀ k v, Holds O same new k v ↔ HoldsBelow O same t i k v := by
  have heq := hO.equivalence
  intro i
  induction i with
  | zero =>
    intro _ new hnew
    simp only [rebuild, List.range_zero, List.foldlM_nil, Option.pure_def,
      Option.some.injEq] at hnew
    subst new
    refine ⟨emptyExtension_invariant ht, rfl, fun k v => iff_of_false ?_ ?_⟩
    · rintro ⟨e, ⟨p, _, hp⟩, _⟩
      simp [emptyExtension] at hp
    · rintro ⟨p, hp, _⟩
      omega
  | succ i ih =>
    intro hi new' hnew
    rw [rebuild_succ, Option.bind_eq_some_iff] at hnew
    obtain ⟨new, hnew, hlast⟩ := hnew
    obtain ⟨hinv, hsizing, hholds⟩ := ih (by omega) new hnew
    cases he : t.data i with
    | none =>
      simp only [he, Option.some.injEq] at hlast
      subst new'
      refine ⟨hinv, hsizing, fun k v => ?_⟩
      rw [hholds, holds_below_succ]
      simp [he]
    | some e =>
      simp only [he] at hlast
      have hwf := ht.contents i (by omega) e he
      obtain ⟨hinv', hstored, hsizing'⟩ := hset _ _ _ _ hinv (hO.admits_stored e hwf) hlast
      refine ⟨hinv', hsizing'.trans hsizing, fun k v => ?_⟩
      rw [hstored k v, holds_below_succ, hholds]
      constructor
      · rintro (⟨hk, hv⟩ | ⟨_, h⟩)
        · exact Or.inr ⟨e, he, heq.symm hk, hv.symm⟩
        · exact Or.inl h
      · rintro (⟨p, hp, x, hx, hk, hv⟩ | ⟨x, hx, hk, hv⟩)
        · -- two buckets of the old table never hold the same key
          refine Or.inr ⟨fun hek => ?_, p, hp, x, hx, hk, hv⟩
          have := ht.distinct i (by omega) p (by omega) e x he hx (heq.trans hek hk)
          omega
        · rw [he] at hx
          cases hx
          exact Or.inl ⟨heq.symm hk, hv.symm⟩

theorem extend_holds (hO : Lawful O same admits wf)
    {set : K → V → HashTable B → Option (HashTable B)} (hset : StoresPairs O same admits wf set)
    {t new : HashTable B} (ht : Invariant O same wf t)
    (hnew : eclExtendHashtable O set t = some new) :
    Invariant O same wf new ∧ new.sizing = t.sizing ∧
      ∀ k v, Holds O same new k v ↔ Holds O same t k v := by
  obtain ⟨hinv, hsizing, hholds⟩ := rebuild_holds hO hset ht t.size le_rfl new hnew
  exact ⟨hinv, hsizing, fun k v => (hholds k v).trans holds_below_size⟩

/-- The store at the bucket where the loop ended, when no extension is needed. -/
theorem sethash_in_place (hO : Lawful O same admits wf) {t : HashTable B}
    (ht : Invariant O same wf t) {k : K} {v : V} (hkv : admits k v) :
    (∃ t', ∀ fuel, sethash O (fuel + 1) k v t = some t' ∧ Invariant O same wf t' ∧
        Stored O same k v t t' ∧ t'.sizing = t.sizing ∧ t'.size = t.size ∧
        t'.entries ≤ t.entries + 1) ∨
      t.limit ≤ t.entries + 1 ∧ (∀ w, ¬ Holds O same t k w) ∧
        ∀ fuel, sethash O (fuel + 1) k v t =
          (eclExtendHashtable O (sethash O fuel) t).bind (sethash O fuel k v) := by
  have heq := hO.equivalence
  obtain ⟨i, hi, hloop, hpath, ⟨e, he, hk⟩ | ⟨hnone, habsent⟩⟩ := loop_finds hO ht k
  · have hwf := ht.contents i hi e he
    refine Or.inl ⟨_, fun fuel => ⟨?_, overwrite_invariant hO ht hi hkv he hk, ?_, rfl, rfl,
      Nat.le_succ _⟩⟩
    · simp only [sethash, hloop, Option.bind_eq_bind, Option.bind_some, he]
    · refine stored_of_update hO hi (hO.update_key k v e hwf hk hkv) (hO.update_value e v) ?_ ?_
        rfl rfl
      · intro p hp hpi x hx hkx
        exact hpi (ht.distinct p hp i hi x e hx he (heq.trans (heq.symm hkx) hk))
      · intro x hx
        rw [he] at hx
        cases hx
        exact hk
  · by_cases hlimit : t.limit ≤ t.entries + 1
    · refine Or.inr ⟨hlimit, ?_, ?_⟩
      · rintro w ⟨e, hs, hk, _⟩
        exact habsent e hs hk
      · intro fuel
        simp only [sethash, hloop, Option.bind_eq_bind, Option.bind_some, hnone, if_pos hlimit]
    · refine Or.inl ⟨_, fun fuel => ⟨?_, insert_invariant hO ht hi hkv hpath hnone habsent
        (by omega), ?_, rfl, rfl, le_rfl⟩⟩
      · simp only [sethash, hloop, Option.bind_eq_bind, Option.bind_some, hnone, if_neg hlimit]
      · refine stored_of_update hO hi (hO.store_key k v hkv) (hO.store_value k v) ?_ ?_ rfl rfl
        · intro p hp _ x hx
          exact habsent x ⟨p, hp, hx⟩
        · intro x hx
          rw [hnone] at hx
          cases hx

theorem sethash_stores (hO : Lawful O same admits wf) :
    ∀ fuel, StoresPairs O same admits wf (sethash O fuel) := by
  intro fuel
  induction fuel with
  | zero => intro k v t t' _ _ h; simp [sethash] at h
  | succ fuel ih =>
    intro k v t t' ht hkv hset
    rcases sethash_in_place hO ht hkv with ⟨t'', h⟩ | ⟨_, _, hextend⟩
    · obtain ⟨hrun, hinv, hstored, hsizing, _⟩ := h fuel
      rw [hrun] at hset
      cases hset
      exact ⟨hinv, hstored, hsizing⟩
    · rw [hextend, Option.bind_eq_some_iff] at hset
      obtain ⟨new, hnew, hlast⟩ := hset
      obtain ⟨hinv, hsizing, hholds⟩ := extend_holds hO ih ht hnew
      obtain ⟨hinv', hstored, hsizing'⟩ := ih k v new t' hinv hkv hlast
      refine ⟨hinv', fun k' v' => ?_, hsizing'.trans hsizing⟩
      rw [hstored k' v', hholds]

/-- Extending makes a table larger. A rehash size of 0 or 1.0 is accepted but does not. -/
def Sizing.Grows (z : Sizing) : Prop := ∀ s, 16 ≤ s → s < z.newSize s

theorem leading_bits {s : ℕ} (hs : 16 ≤ s) :
    ∃ m k : ℕ, 2 ≤ m ∧ m + 1 ≤ 2 ^ 53 ∧ m * 2 ^ k ≤ s ∧ s < (m + 1) * 2 ^ k := by
  have hlow : 2 ^ Nat.log 2 s ≤ s := Nat.pow_log_le_self 2 (by omega)
  have hhigh : s < 2 ^ (Nat.log 2 s + 1) := Nat.lt_pow_succ_log_self (by norm_num) s
  by_cases hlog : Nat.log 2 s < 53
  · have hpow : 2 ^ (Nat.log 2 s + 1) ≤ 2 ^ 53 := Nat.pow_le_pow_right (by norm_num) hlog
    exact ⟨s, 0, by omega, by omega, by omega, by omega⟩
  · obtain ⟨k, hk⟩ : ∃ k, Nat.log 2 s = k + 52 := ⟨Nat.log 2 s - 52, by omega⟩
    have hpos : 0 < 2 ^ k := by positivity
    rw [hk] at hlow hhigh
    refine ⟨s / 2 ^ k, k, ?_, ?_, Nat.div_mul_le_self _ _, ?_⟩
    · rw [Nat.le_div_iff_mul_le hpos]
      rw [pow_add] at hlow
      omega
    · rw [Nat.succ_le_iff, Nat.div_lt_iff_lt_mul hpos, ← pow_add]
      calc s < 2 ^ (k + 52 + 1) := hhigh
        _ = 2 ^ (53 + k) := by congr 1; omega
    · rw [mul_comm]
      exact Nat.lt_mul_div_succ s hpos

/-- The default rehash size 1.5, and every larger factor. -/
theorem Sizing.grows_of_float {z : Sizing} {r : ℚ} (h : z.rehashSize = .float r)
    (hr : 3 / 2 ≤ r) : z.Grows := by
  intro s hs
  obtain ⟨m, k, hm, hm53, hle, hlt⟩ := leading_bits hs
  have hpos : (0 : ℚ) < 2 ^ k := by positivity
  have hmq : (2 : ℚ) ≤ m := by exact_mod_cast hm
  have hround : (m : ℚ) * 2 ^ k ≤ z.round s := by
    rw [← z.round_exact m k (by omega)]
    exact z.round_monotone _ _ (by exact_mod_cast hle)
  have hprod : ((m + 1 : ℕ) : ℚ) * 2 ^ k ≤ z.round (r * z.round s) := by
    rw [← z.round_exact (m + 1) k hm53]
    apply z.round_monotone
    calc ((m + 1 : ℕ) : ℚ) * 2 ^ k ≤ 3 / 2 * (m * 2 ^ k) := by push_cast; nlinarith
      _ ≤ r * z.round s := mul_le_mul hr hround (by positivity) (by linarith)
  have hceil : ((s : ℤ) + 1) ≤ ⌈z.round (r * z.round s)⌉ := by
    have hnat : (s : ℚ) + 1 ≤ z.round (r * z.round s) :=
      le_trans (by exact_mod_cast hlt) hprod
    have := Int.le_ceil (z.round (r * z.round s))
    exact_mod_cast hnat.trans this
  simp only [Sizing.newSize, h]
  split <;> omega

theorem Sizing.limit_unbounded (z : Sizing) (N : ℕ) : ∃ S, ∀ s ≥ S, N < z.limit s := by
  obtain ⟨k, hk⟩ : ∃ k, N < 2 ^ k := ⟨N, Nat.lt_two_pow_self⟩
  refine ⟨10 * 2 ^ k, fun s hs => ?_⟩
  have hsize : (10 : ℚ) * 2 ^ k ≤ z.round s := by
    have hexact := z.round_exact 10 k (by norm_num)
    push_cast at hexact
    rw [← hexact]
    exact z.round_monotone _ _ (by exact_mod_cast hs)
  have hprod : (2 : ℚ) ^ k ≤ z.round (z.round s * z.factor) := by
    have hexact := z.round_exact 1 k (by norm_num)
    rw [Nat.cast_one, one_mul] at hexact
    have hle : (2 : ℚ) ^ k ≤ z.round s * z.factor := by
      have hpos : (0 : ℚ) < 2 ^ k := by positivity
      nlinarith [z.factor_min]
    calc (2 : ℚ) ^ k = z.round (2 ^ k) := hexact.symm
      _ ≤ z.round (z.round s * z.factor) := z.round_monotone _ _ hle
  have hfloor : ((2 ^ k : ℕ) : ℤ) ≤ ⌊z.round (z.round s * z.factor)⌋ := by
    rw [Int.le_floor]
    push_cast
    exact hprod
  unfold Sizing.limit
  dsimp only
  split <;> omega

/-- With a growing rehash size, the depth of the extensions is bounded by the first size S
whose limit exceeds every number of entries met. -/
theorem sethash_returns (hO : Lawful O same admits wf) {z : Sizing} (hz : z.Grows) {S N : ℕ}
    (hS : ∀ s ≥ S, N + 1 < z.limit s) :
    ∀ F k v t, Invariant O same wf t → admits k v → t.sizing = z → t.entries ≤ N →
      16 ≤ t.size → S ≤ t.size + F → ∃ t', sethash O (F + 1) k v t = some t' ∧ t.size ≤ t'.size ∧
        t'.entries ≤ t.entries + 1 := by
  intro F
  induction F with
  | zero =>
    intro k v t ht hkv hsizing hN hmin hsize
    rcases sethash_in_place hO ht hkv with ⟨t', h⟩ | ⟨hlimit, _⟩
    · obtain ⟨hrun, _, _, _, hsz, hentries⟩ := h 0
      exact ⟨t', hrun, hsz.ge, hentries⟩
    · have := hS t.size (by omega)
      rw [ht.limit_eq, hsizing] at hlimit
      omega
  | succ F ih =>
    intro k v t ht hkv hsizing hN hmin hsize
    rcases sethash_in_place hO ht hkv with ⟨t', h⟩ | ⟨_, _, hextend⟩
    · obtain ⟨hrun, _, _, _, hsz, hentries⟩ := h (F + 1)
      exact ⟨t', hrun, hsz.ge, hentries⟩
    · have hgrow : t.size < t.sizing.newSize t.size := hsizing ▸ hz t.size hmin
      have hrebuild : ∀ i ≤ t.size, ∃ new, rebuild O (sethash O (F + 1)) t i = some new ∧
          t.size < new.size ∧ new.entries ≤ occupied i t.data := by
        intro i
        induction i with
        | zero =>
          intro _
          exact ⟨emptyExtension t, rfl, hgrow, Nat.zero_le _⟩
        | succ i ihi =>
          intro hi
          obtain ⟨new, hnew, hlarger, hcount⟩ := ihi (by omega)
          obtain ⟨hinv, hsz, _⟩ := rebuild_holds hO (sethash_stores hO _) ht i (by omega) new hnew
          rw [rebuild_succ, hnew, Option.bind_some, occupied_succ]
          cases he : t.data i with
          | none => exact ⟨new, rfl, hlarger, hcount.trans (Nat.le_add_right _ _)⟩
          | some e =>
            have hbound : occupied i t.data ≤ occupied t.size t.data := occupied_le (by omega)
            rw [← ht.count] at hbound
            obtain ⟨new', hset, hsz', hcount'⟩ := ih (O.key e) (O.value e) new hinv
              (hO.admits_stored e (ht.contents i (by omega) e he)) (hsz.trans hsizing)
              (by omega) (by omega) (by omega)
            refine ⟨new', hset, by omega, ?_⟩
            simp only [Option.isSome_some, if_true]
            omega
      obtain ⟨new, hnew, hlarger, hcount⟩ := hrebuild t.size le_rfl
      rw [← ht.count] at hcount
      obtain ⟨hinv, hsz, _⟩ := extend_holds hO (sethash_stores hO _) ht hnew
      obtain ⟨t', hset, hsz', hentries⟩ := ih k v new hinv hkv (hsz.trans hsizing)
        (by omega) (by omega) (by omega)
      refine ⟨t', ?_, by omega, by omega⟩
      have hnew' : eclExtendHashtable O (sethash O (F + 1)) t = some new := hnew
      rw [hextend, hnew', Option.bind_some, hset]

end EclHashTable
