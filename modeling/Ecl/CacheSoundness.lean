import Ecl.MethodDispatch
import Ecl.MethodCacheSlots

/-! Caches whose records, as far as no invalidation is queued for them, hold what a relation allows
for their keys. -/
namespace MethodCache

open MethodDispatch

variable {K V : Type} {c c' : Cache K V} {P Q : List K → V → Prop}

def Cache.Sound (c : Cache K V) (P : List K → V → Prop) : Prop :=
  ∀ i k keys, (c.table i).key = some (k :: keys) → k ∉ c.clearList →
    ∃ v, (c.table i).value = .object v ∧ P (k :: keys) v

theorem sound_makeCache (size : ℕ) (P : List K → V → Prop) : (makeCache size).Sound P :=
  fun _ _ _ hkey => nomatch hkey

theorem Cache.Sound.replace (h : c.Sound P) (htable : c'.table = c.table)
    (hlist : ∀ k ∈ c.clearList, k ∈ c'.clearList)
    (hlive : ∀ i k keys v, (c'.table i).key = some (k :: keys) → k ∉ c'.clearList →
      P (k :: keys) v → Q (k :: keys) v) : c'.Sound Q := by
  intro i k keys hkey hk
  have hold : (c.table i).key = some (k :: keys) := htable ▸ hkey
  obtain ⟨v, hv, hp⟩ := h i k keys hold fun hin => hk (hlist k hin)
  refine ⟨v, ?_, hlive i k keys v hkey hk hp⟩
  rw [htable]
  exact hv

theorem Cache.Sound.store (h : c.Sound P) (i : ℕ) {keys : List K} {v : V} (hv : P keys v) :
    (c.store i keys v).Sound P := by
  intro j k rest hkey hk
  by_cases hj : j = i
  · subst hj
    simp only [Cache.store, Cache.set, Function.update_self] at hkey ⊢
    cases hkey
    exact ⟨v, rfl, hv⟩
  · simp only [Cache.store, Cache.set, Function.update_of_ne hj] at hkey ⊢
    exact h j k rest hkey hk

variable [DecidableEq K] {hash : List K → ℕ} {keys : List K} {i : ℕ}

theorem Cache.Sound.search (h : c.Sound P) (hs : c.search hash keys = some (i, c')) :
    c'.Sound P := by
  obtain ⟨-, hwithin⟩ := search_within hs
  intro j k rest hkey _
  obtain ⟨hkey', hvalue⟩ := hwithin j _ hkey
  obtain ⟨hk, hold, hsame⟩ := applyClearList_key hkey'
  obtain ⟨v, hv, hp⟩ := h j k rest hold hk
  exact ⟨v, hvalue.trans (hsame.trans hv), hp⟩

theorem Cache.Sound.hit {k : K} (h : c.Sound P) (hs : c.search hash (k :: keys) = some (i, c'))
    (hkey : (c'.table i).key ≠ none) : ∃ v, (c'.table i).value = .object v ∧ P (k :: keys) v := by
  apply h.search hs i k keys (search_key hs hkey)
  rw [(search_within hs).1]
  exact List.not_mem_nil

theorem applyClearList_eq (h : c.clearList = []) : c.applyClearList = c := if_pos h

theorem search_isSome (h : c.clearList = []) (hstart : (c.table (c.start hash keys)).key = none) :
    (c.search hash keys).isSome = true := by
  have hprobe : c.probe keys 20 (c.start hash keys) c.generation none ≠ .notFound none := by
    rw [Cache.probe, hstart]
    simp only
    split
    · intro hfound
      cases hfound
    · exact probe_some (Option.some_ne_none _)
  rw [Cache.search, applyClearList_eq h]
  cases hp : c.probe keys 20 (c.start hash keys) c.generation none with
  | found j => rfl
  | notFound oldest =>
    cases oldest with
    | none => exact absurd hp hprobe
    | some j => rfl

theorem search_start (h : c.clearList = []) (hstart : (c.table (c.start hash keys)).key = none)
    (hs : c.search hash keys = some (i, c')) :
    c'.clearList = [] ∧ (c'.table (c'.start hash keys)).key = none := by
  obtain ⟨hlist, hwithin⟩ := search_within hs
  refine ⟨hlist, ?_⟩
  have hsize : c'.size = c.size := by
    obtain ⟨-, rfl⟩ | rfl := search_cases hs
    · rw [refresh_size, applyClearList_eq h]
    · rw [refresh_size, applyClearList_eq h]
      rfl
  rw [Cache.start, hsize, ← Cache.start]
  cases hkey : (c'.table (c.start hash keys)).key with
  | none => rfl
  | some key =>
    rw [applyClearList_eq h] at hwithin
    have hold := (hwithin _ key hkey).1
    rw [hstart] at hold
    cases hold

end MethodCache
