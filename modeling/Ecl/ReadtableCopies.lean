import Ecl.Readtables

/-! Copies of readtables. The dispatch tables of the direct table are copied with it; those of
the other characters stay common to both readtables. -/
namespace Readtables

open Characters

variable {F : Type} {s s' : Store F} {rt c d : ℕ} {e : Entry F}

/-- No hash table belongs to two readtables, and no dispatch table to two characters, nor to two
readtables unless by a character outside the direct table. -/
structure WellFormed (s : Store F) : Prop where
  hashes : ∀ rt rt' h, (s.readtables rt).hash = some h → (s.readtables rt').hash = some h → rt = rt'
  tables : ∀ rt c rt' c' d, (readtableGet rt c s).table = some d →
    (readtableGet rt' c' s).table = some d → c = c' ∧ (c < rtabSize → rt = rt')
  hashBound : ∀ rt h, (s.readtables rt).hash = some h → h < s.next
  tableBound : ∀ rt c d, (readtableGet rt c s).table = some d → d < s.next

section get

theorem get_direct (hc : c < rtabSize) : readtableGet rt c s = (s.readtables rt).table c :=
  if_neg (Nat.not_le.mpr hc)

theorem get_hash (hc : rtabSize ≤ c) :
    readtableGet rt c s = ((s.readtables rt).hash.bind fun h => s.hashes h c).getD .constituent :=
  if_pos hc

theorem get_congr (hrt : s'.readtables rt = s.readtables rt)
    (hhash : ∀ h, (s.readtables rt).hash = some h → s'.hashes h = s.hashes h) (c : ℕ) :
    readtableGet rt c s' = readtableGet rt c s := by
  by_cases hc : c < rtabSize
  · rw [get_direct hc, get_direct hc, hrt]
  · rw [get_hash (Nat.not_lt.mp hc), get_hash (Nat.not_lt.mp hc), hrt]
    cases hh : (s.readtables rt).hash with
    | none => rfl
    | some h => rw [Option.bind_some, Option.bind_some, hhash h hh]

theorem get_set (h : WellFormed s) (rt c : ℕ) (e : Entry F) (rt' c' : ℕ) :
    readtableGet rt' c' (readtableSet rt c e s) =
      if rt' = rt ∧ c' = c then e else readtableGet rt' c' s := by
  unfold readtableSet
  split
  · next hc =>
    split
    · next k hk =>
      by_cases hrt : rt' = rt
      · subst rt'
        by_cases hc' : c' = c
        · subst c'
          rw [if_pos ⟨rfl, rfl⟩, get_hash hc, hk]
          simp
        · rw [if_neg fun hboth => hc' hboth.2]
          by_cases hdirect : c' < rtabSize
          · rw [get_direct hdirect, get_direct hdirect]
          · rw [get_hash (Nat.not_lt.mp hdirect), get_hash (Nat.not_lt.mp hdirect), hk]
            simp [Function.update_of_ne hc']
      · rw [if_neg fun hboth => hrt hboth.1]
        apply get_congr
        · rfl
        · intro k' hk'
          have hne : k' ≠ k := fun heq => hrt (h.hashes rt' rt k' hk' (heq ▸ hk))
          exact Function.update_of_ne hne _ _
    · next hk =>
      by_cases hrt : rt' = rt
      · subst rt'
        by_cases hdirect : c' < rtabSize
        · have hne : c' ≠ c := by omega
          rw [if_neg fun hboth => hne hboth.2, get_direct hdirect, get_direct hdirect]
          simp [Store.modify]
        · rw [get_hash (Nat.not_lt.mp hdirect), get_hash (Nat.not_lt.mp hdirect), hk]
          by_cases hc' : c' = c
          · subst c'
            simp [Store.modify]
          · simp [Store.modify, hc']
      · rw [if_neg fun hboth => hrt hboth.1]
        apply get_congr
        · exact Function.update_of_ne hrt _ _
        · intro k' hk'
          have hne : k' ≠ s.next := Nat.ne_of_lt (h.hashBound rt' k' hk')
          exact Function.update_of_ne hne _ _
  · next hc =>
    by_cases hrt : rt' = rt
    · subst rt'
      by_cases hdirect : c' < rtabSize
      · rw [get_direct hdirect, get_direct hdirect]
        by_cases hc' : c' = c
        · subst c'
          simp [Store.modify]
        · simp [Store.modify, hc']
      · have hne : c' ≠ c := by omega
        rw [if_neg fun hboth => hne hboth.2, get_hash (Nat.not_lt.mp hdirect),
          get_hash (Nat.not_lt.mp hdirect)]
        simp [Store.modify]
    · rw [if_neg fun hboth => hrt hboth.1]
      apply get_congr
      · exact Function.update_of_ne hrt _ _
      · exact fun _ _ => rfl

end get

section set

theorem set_hash (rt c : ℕ) (e : Entry F) (s : Store F) (rt' : ℕ) :
    ((readtableSet rt c e s).readtables rt').hash = (s.readtables rt').hash ∨
      rt' = rt ∧ ((readtableSet rt c e s).readtables rt').hash = some s.next ∧
        (readtableSet rt c e s).next = s.next + 1 := by
  unfold readtableSet
  split
  · split
    · exact Or.inl rfl
    · by_cases hrt : rt' = rt
      · subst rt'
        exact Or.inr ⟨rfl, by simp [Store.modify], rfl⟩
      · exact Or.inl (by simp [Store.modify, hrt])
  · by_cases hrt : rt' = rt
    · subst rt'
      exact Or.inl (by simp [Store.modify])
    · exact Or.inl (by simp [Store.modify, hrt])

theorem set_next (rt c : ℕ) (e : Entry F) (s : Store F) : s.next ≤ (readtableSet rt c e s).next := by
  unfold readtableSet
  split
  · split
    · exact Nat.le_refl _
    · exact Nat.le_succ _
  · exact Nat.le_refl _

theorem set_dispatch (rt c : ℕ) (e : Entry F) (s : Store F) :
    (readtableSet rt c e s).dispatch = s.dispatch := by
  unfold readtableSet
  split
  · split <;> rfl
  · rfl

def Fresh (e : Entry F) (s : Store F) : Prop :=
  ∀ d, e.table = some d → d < s.next ∧ ∀ rt c, (readtableGet rt c s).table ≠ some d

theorem set_wellFormed (h : WellFormed s) (he : Fresh e s) (rt c : ℕ) :
    WellFormed (readtableSet rt c e s) := by
  have hget := get_set h rt c e
  constructor
  case hashes =>
    intro p q k hp hq
    rcases set_hash rt c e s p with hold | ⟨rfl, hnew, -⟩
    · rcases set_hash rt c e s q with hold' | ⟨rfl, hnew', -⟩
      · exact h.hashes p q k (hold ▸ hp) (hold' ▸ hq)
      · obtain rfl := Option.some.inj (hnew'.symm.trans hq)
        exact absurd (h.hashBound p _ (hold ▸ hp)) (Nat.lt_irrefl _)
    · rcases set_hash p c e s q with hold' | ⟨rfl, -, -⟩
      · obtain rfl := Option.some.inj (hnew.symm.trans hp)
        exact absurd (h.hashBound q _ (hold' ▸ hq)) (Nat.lt_irrefl _)
      · rfl
  case tables =>
    intro p i q j d hp hq
    rw [hget] at hp hq
    split at hp
    · next hpi =>
      obtain ⟨-, hfresh⟩ := he d hp
      split at hq
      · next hqj =>
        obtain ⟨rfl, rfl⟩ := hpi
        obtain ⟨rfl, rfl⟩ := hqj
        exact ⟨rfl, fun _ => rfl⟩
      · exact absurd hq (hfresh q j)
    · split at hq
      · exact absurd hp ((he d hq).2 p i)
      · exact h.tables p i q j d hp hq
  case hashBound =>
    intro p k hp
    rcases set_hash rt c e s p with hold | ⟨-, hnew, hnext⟩
    · exact Nat.lt_of_lt_of_le (h.hashBound p k (hold ▸ hp)) (set_next rt c e s)
    · obtain rfl := Option.some.inj (hnew.symm.trans hp)
      rw [hnext]
      exact Nat.lt_succ_self _
  case tableBound =>
    intro p i d hp
    rw [hget] at hp
    apply Nat.lt_of_lt_of_le _ (set_next rt c e s)
    split at hp
    · exact (he d hp).1
    · exact h.tableBound p i d hp

end set

section allocation

theorem WellFormed.grow (h : WellFormed s) (hrt : s'.readtables = s.readtables)
    (hhash : s'.hashes = s.hashes) (hnext : s.next ≤ s'.next) : WellFormed s' := by
  have hget : ∀ rt c, readtableGet rt c s' = readtableGet rt c s := by
    intro rt c
    apply get_congr
    · rw [hrt]
    · exact fun k _ => by rw [hhash]
  constructor
  case hashes =>
    rw [hrt]
    exact h.hashes
  case tables =>
    simp only [hget]
    exact h.tables
  case hashBound =>
    rw [hrt]
    exact fun rt k hk => Nat.lt_of_lt_of_le (h.hashBound rt k hk) hnext
  case tableBound =>
    simp only [hget]
    exact fun rt c d hd => Nat.lt_of_lt_of_le (h.tableBound rt c d hd) hnext

structure CopiedEntry (s s' : Store F) (e : Entry F) : Prop where
  readtables : s'.readtables = s.readtables
  hashes : s'.hashes = s.hashes
  next : s.next ≤ s'.next
  dispatch : ∀ d, d < s.next → s'.dispatch d = s.dispatch d
  table : ∀ d, e.table = some d → s.next ≤ d ∧ d < s'.next

theorem copyEntry_spec (e : Entry F) (s : Store F) :
    CopiedEntry s (copyEntry e s).2 (copyEntry e s).1 := by
  unfold copyEntry
  split
  · next hnone => exact ⟨rfl, rfl, Nat.le_refl _, fun _ _ => rfl, fun d hd =>
      absurd (hnone.symm.trans hd) (by simp)⟩
  · refine ⟨rfl, rfl, Nat.le_succ _, fun d hd => ?_, fun d hd => ?_⟩
    · exact Function.update_of_ne (Nat.ne_of_lt hd) _ _
    · obtain rfl := Option.some.inj hd
      exact ⟨Nat.le_refl _, Nat.lt_succ_self _⟩

theorem CopiedEntry.fresh (hc : CopiedEntry s s' e) (h : WellFormed s) : Fresh e s' := by
  intro d hd
  refine ⟨(hc.table d hd).2, fun rt c hin => ?_⟩
  have hsame : readtableGet rt c s' = readtableGet rt c s := by
    apply get_congr
    · rw [hc.readtables]
    · exact fun k _ => by rw [hc.hashes]
  rw [hsame] at hin
  exact absurd (h.tableBound rt c d hin) (Nat.not_lt.mpr (hc.table d hd).1)

structure CopiedTable (s s' : Store F) (is : List ℕ) (toTable table : ℕ → Entry F) : Prop where
  readtables : s'.readtables = s.readtables
  hashes : s'.hashes = s.hashes
  next : s.next ≤ s'.next
  dispatch : ∀ d, d < s.next → s'.dispatch d = s.dispatch d
  kept : ∀ i, i ∉ is → table i = toTable i
  fresh : ∀ i ∈ is, ∀ d, (table i).table = some d → s.next ≤ d ∧ d < s'.next
  apart : ∀ i ∈ is, ∀ j ∈ is, ∀ d, (table i).table = some d → (table j).table = some d → i = j

theorem copyDirect_spec (fromTable : ℕ → Entry F) (is : List ℕ) : ∀ toTable (s : Store F),
    is.Nodup → CopiedTable s (copyDirect fromTable is toTable s).2 is toTable
      (copyDirect fromTable is toTable s).1 := by
  induction is with
  | nil =>
    intro toTable s _
    exact ⟨rfl, rfl, Nat.le_refl _, fun _ _ => rfl, fun _ _ => rfl,
      fun i hi => absurd hi List.not_mem_nil, fun i hi => absurd hi List.not_mem_nil⟩
  | cons i is ih =>
    intro toTable s hnodup
    obtain ⟨hi, hnodup⟩ := List.nodup_cons.mp hnodup
    have hone := copyEntry_spec (fromTable i) s
    have hrest := ih (Function.update toTable i (copyEntry (fromTable i) s).1)
      (copyEntry (fromTable i) s).2 hnodup
    have hself := hrest.kept i hi
    rw [Function.update_self] at hself
    unfold copyDirect
    constructor
    case readtables => exact hrest.readtables.trans hone.readtables
    case hashes => exact hrest.hashes.trans hone.hashes
    case next => exact Nat.le_trans hone.next hrest.next
    case dispatch =>
      exact fun d hd => (hrest.dispatch d (Nat.lt_of_lt_of_le hd hone.next)).trans (hone.dispatch d hd)
    case kept =>
      intro j hj
      obtain ⟨hji, hjs⟩ := not_or.mp (fun hin => hj (List.mem_cons.mpr hin))
      exact (hrest.kept j hjs).trans (Function.update_of_ne hji _ _)
    case fresh =>
      intro j hj d hd
      rcases List.mem_cons.mp hj with rfl | hj
      · rw [hself] at hd
        obtain ⟨hle, hlt⟩ := hone.table d hd
        exact ⟨hle, Nat.lt_of_lt_of_le hlt hrest.next⟩
      · obtain ⟨hle, hlt⟩ := hrest.fresh j hj d hd
        exact ⟨Nat.le_trans hone.next hle, hlt⟩
    case apart =>
      have hside : ∀ j ∈ is, ∀ d, (copyEntry (fromTable i) s).1.table = some d →
          ((copyDirect fromTable is (Function.update toTable i (copyEntry (fromTable i) s).1)
            (copyEntry (fromTable i) s).2).1 j).table ≠ some d := by
        intro j hj d hd hd'
        exact absurd (hone.table d hd).2 (Nat.not_lt.mpr (hrest.fresh j hj d hd').1)
      intro j hj k hk d hd hd'
      rcases List.mem_cons.mp hj with rfl | hjs
      · rcases List.mem_cons.mp hk with rfl | hks
        · rfl
        · rw [hself] at hd
          exact absurd hd' (hside k hks d hd)
      · rcases List.mem_cons.mp hk with rfl | hks
        · rw [hself] at hd'
          exact absurd hd (hside j hjs d hd')
        · exact hrest.apart j hjs k hks d hd hd'

structure Copied (s s' : Store F) (source b : ℕ) : Prop where
  readtables : ∀ rt, rt ≠ b → s'.readtables rt = s.readtables rt
  hashes : ∀ k, k < s.next → s'.hashes k = s.hashes k
  next : s.next ≤ s'.next
  dispatch : ∀ d, d < s.next → s'.dispatch d = s.dispatch d
  hash : ∀ k, (s'.readtables b).hash = some k → s.next ≤ k ∧ k < s'.next
  high : ∀ c, rtabSize ≤ c → readtableGet b c s' = readtableGet source c s
  fresh : ∀ c, c < rtabSize → ∀ d, (readtableGet b c s').table = some d → s.next ≤ d ∧ d < s'.next
  apart : ∀ c c', c < rtabSize → c' < rtabSize → ∀ d, (readtableGet b c s').table = some d →
    (readtableGet b c' s').table = some d → c = c'

theorem copied_of_output {s₁ s₂ : Store F} {source b : ℕ} {table : ℕ → Entry F}
    {hash : Option ℕ} {readCase : ReadCase} {is : List ℕ} {toTable : ℕ → Entry F}
    (his : ∀ c, c < rtabSize → c ∈ is) (ht : CopiedTable s s₁ is toTable table)
    (hh : copyHash (s.readtables source).hash s₁ = (hash, s₂)) {next : ℕ}
    (hnext : s₂.next ≤ next) : Copied s
      { s₂.modify b fun _ => ⟨false, readCase, table, hash⟩ with next := next } source b := by
  have hself : ({ s₂.modify b fun _ => ⟨false, readCase, table, hash⟩ with
      next := next } : Store F).readtables b = ⟨false, readCase, table, hash⟩ :=
    Function.update_self _ _ _
  have hdirect : ∀ c, c < rtabSize → readtableGet b c
      ({ s₂.modify b fun _ => ⟨false, readCase, table, hash⟩ with next := next } : Store F) =
      table c := by
    intro c hc
    rw [get_direct hc, hself]
  have hs₂ : s₂.readtables = s.readtables ∧ s₁.next ≤ s₂.next ∧ s₂.dispatch = s₁.dispatch ∧
      (∀ k, k < s.next → s₂.hashes k = s.hashes k) ∧
      ∀ k, hash = some k → s.next ≤ k ∧ k < s₂.next ∧
        ∃ h, (s.readtables source).hash = some h ∧ s₂.hashes k = s.hashes h := by
    unfold copyHash at hh
    split at hh
    · cases hh
      exact ⟨ht.readtables, Nat.le_refl _, rfl, fun k _ => by rw [ht.hashes],
        fun k hk => absurd hk (by simp)⟩
    · next k hk =>
      cases hh
      refine ⟨ht.readtables, Nat.le_succ _, rfl, fun k' hk' => ?_, fun k' hk' => ?_⟩
      · have hne : k' ≠ s₁.next := Nat.ne_of_lt (Nat.lt_of_lt_of_le hk' ht.next)
        exact (Function.update_of_ne hne _ _).trans (by rw [ht.hashes])
      · obtain rfl := Option.some.inj hk'
        exact ⟨ht.next, Nat.lt_succ_self _, k, hk,
          (Function.update_self _ _ _).trans (by rw [ht.hashes])⟩
  obtain ⟨hreadtables, hle, hdispatch, hhashes, hhash⟩ := hs₂
  constructor
  case readtables =>
    intro rt hrt
    exact (Function.update_of_ne hrt _ _).trans (congrFun hreadtables rt)
  case hashes => exact hhashes
  case next => exact Nat.le_trans ht.next (Nat.le_trans hle hnext)
  case dispatch => exact fun d hd => (congrFun hdispatch d).trans (ht.dispatch d hd)
  case hash =>
    intro k hk
    rw [hself] at hk
    obtain ⟨hge, hlt, -⟩ := hhash k hk
    exact ⟨hge, Nat.lt_of_lt_of_le hlt hnext⟩
  case high =>
    intro c hc
    rw [get_hash hc, get_hash hc, hself]
    cases hk : hash with
    | none =>
      have hnone : (s.readtables source).hash = none := by
        unfold copyHash at hh
        split at hh
        · next hnone => exact hnone
        · cases hh
          cases hk
      rw [hnone]
      rfl
    | some k =>
      obtain ⟨-, -, k', hk', hsame⟩ := hhash k hk
      rw [hk']
      exact congrArg (fun f : ℕ → Option (Entry F) => (f c).getD .constituent) hsame
  case fresh =>
    intro c hc d hd
    rw [hdirect c hc] at hd
    obtain ⟨hge, hlt⟩ := ht.fresh c (his c hc) d hd
    exact ⟨hge, Nat.lt_of_lt_of_le hlt (Nat.le_trans hle hnext)⟩
  case apart =>
    intro c c' hc hc' d hd hd'
    rw [hdirect c hc] at hd
    rw [hdirect c' hc'] at hd'
    exact ht.apart c (his c hc) c' (his c' hc') d hd hd'

theorem copyReadtable_copied (source : ℕ) (target : Option ℕ) (s : Store F) :
    Copied s (copyReadtable source target s).2 source (copyReadtable source target s).1 := by
  have htable := copyDirect_spec (s.readtables source).table (List.range rtabSize)
    (s.readtables source).table s List.nodup_range
  unfold copyReadtable
  dsimp only
  split
  · next rt =>
    exact copied_of_output (fun c => List.mem_range.mpr) htable rfl (Nat.le_refl _)
  · exact copied_of_output (fun c => List.mem_range.mpr) htable rfl (Nat.le_succ _)

theorem copyReadtable_new (source : ℕ) (s : Store F) :
    s.next ≤ (copyReadtable source none s).1 ∧
      (copyReadtable source none s).1 < (copyReadtable source none s).2.next := by
  have htable := copyDirect_spec (s.readtables source).table (List.range rtabSize)
    (s.readtables source).table s List.nodup_range
  refine ⟨Nat.le_trans htable.next ?_, Nat.lt_succ_self _⟩
  unfold copyReadtable copyHash
  dsimp only
  split
  · exact Nat.le_refl _
  · exact Nat.le_succ _

variable {source b : ℕ}

theorem Copied.get (hc : Copied s s' source b) (h : WellFormed s) (hrt : rt ≠ b) (c : ℕ) :
    readtableGet rt c s' = readtableGet rt c s :=
  get_congr (hc.readtables rt hrt) (fun k hk => hc.hashes k (h.hashBound rt k hk)) c

theorem Copied.wellFormed (hc : Copied s s' source b) (h : WellFormed s) : WellFormed s' := by
  have hbound : ∀ rt c d, rt ≠ b → (readtableGet rt c s').table = some d → d < s.next := by
    intro rt c d hrt hd
    rw [hc.get h hrt] at hd
    exact h.tableBound rt c d hd
  -- an entry of b against one of another readtable
  have hside : ∀ c rt c' d, rt ≠ b → (readtableGet b c s').table = some d →
      (readtableGet rt c' s').table = some d → c = c' ∧ rtabSize ≤ c := by
    intro c rt c' d hrt hd hd'
    by_cases hlow : c < rtabSize
    · exact absurd (hbound rt c' d hrt hd') (Nat.not_lt.mpr (hc.fresh c hlow d hd).1)
    · have hhigh := Nat.not_lt.mp hlow
      rw [hc.high c hhigh] at hd
      rw [hc.get h hrt] at hd'
      exact ⟨(h.tables source c rt c' d hd hd').1, hhigh⟩
  constructor
  case hashes =>
    intro p q k hp hq
    by_cases hpb : p = b <;> by_cases hqb : q = b
    · rw [hpb, hqb]
    · subst p
      rw [hc.readtables q hqb] at hq
      exact absurd (h.hashBound q k hq) (Nat.not_lt.mpr (hc.hash k hp).1)
    · subst q
      rw [hc.readtables p hpb] at hp
      exact absurd (h.hashBound p k hp) (Nat.not_lt.mpr (hc.hash k hq).1)
    · rw [hc.readtables p hpb] at hp
      rw [hc.readtables q hqb] at hq
      exact h.hashes p q k hp hq
  case tables =>
    intro p i q j d hp hq
    by_cases hpb : p = b <;> by_cases hqb : q = b
    · subst p q
      refine ⟨?_, fun _ => rfl⟩
      by_cases hi : i < rtabSize <;> by_cases hj : j < rtabSize
      · exact hc.apart i j hi hj d hp hq
      · rw [hc.high j (Nat.not_lt.mp hj)] at hq
        exact absurd (h.tableBound source j d hq) (Nat.not_lt.mpr (hc.fresh i hi d hp).1)
      · rw [hc.high i (Nat.not_lt.mp hi)] at hp
        exact absurd (h.tableBound source i d hp) (Nat.not_lt.mpr (hc.fresh j hj d hq).1)
      · rw [hc.high i (Nat.not_lt.mp hi)] at hp
        rw [hc.high j (Nat.not_lt.mp hj)] at hq
        exact (h.tables source i source j d hp hq).1
    · subst p
      obtain ⟨heq, hhigh⟩ := hside i q j d hqb hp hq
      exact ⟨heq, fun hlow => absurd hlow (Nat.not_lt.mpr hhigh)⟩
    · subst q
      obtain ⟨heq, hhigh⟩ := hside j p i d hpb hq hp
      exact ⟨heq.symm, fun hlow => absurd hlow (Nat.not_lt.mpr (heq ▸ hhigh))⟩
    · rw [hc.get h hpb] at hp
      rw [hc.get h hqb] at hq
      exact h.tables p i q j d hp hq
  case hashBound =>
    intro p k hp
    by_cases hpb : p = b
    · subst p
      exact (hc.hash k hp).2
    · rw [hc.readtables p hpb] at hp
      exact Nat.lt_of_lt_of_le (h.hashBound p k hp) hc.next
  case tableBound =>
    intro p i d hp
    by_cases hpb : p = b
    · subst p
      by_cases hi : i < rtabSize
      · exact (hc.fresh i hi d hp).2
      · rw [hc.high i (Nat.not_lt.mp hi)] at hp
        exact Nat.lt_of_lt_of_le (h.tableBound source i d hp) hc.next
    · exact Nat.lt_of_lt_of_le (hbound p i d hpb hp) hc.next

end allocation

end Readtables
