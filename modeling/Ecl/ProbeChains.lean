import Mathlib.Data.Finset.Card

/-! Circular tables searched by linear probing, with deletion by backward shift.
A table is a function from bucket numbers to contents; only numbers below n count.
Distances run forwards around the table, so chains that wrap need no special case. -/
namespace ProbeChains

def dist (n a b : ℕ) : ℕ := if a ≤ b then b - a else b + n - a

def next (n i : ℕ) : ℕ := (i + 1) % n

theorem next_eq {n i : ℕ} (h : i < n) : next n i = if i + 1 = n then 0 else i + 1 := by
  unfold next
  split
  · simp_all
  · exact Nat.mod_eq_of_lt (by omega)

theorem next_lt {n i : ℕ} (h : i < n) : next n i < n := Nat.mod_lt _ (by omega)

@[simp] theorem dist_self (n a : ℕ) : dist n a a = 0 := by simp [dist]

theorem dist_lt {n a b : ℕ} (ha : a < n) (hb : b < n) : dist n a b < n := by
  unfold dist
  split <;> omega

theorem dist_pos {n a b : ℕ} (ha : a < n) (h : a ≠ b) : 0 < dist n a b := by
  unfold dist
  split <;> omega

theorem dist_injective {n a p q : ℕ} (hp : p < n) (hq : q < n) (ha : a < n)
    (h : dist n a p = dist n a q) : p = q := by
  unfold dist at h
  split at h <;> split at h <;> omega

theorem dist_next_right {n a b : ℕ} (ha : a < n) (hb : b < n) (h : next n b ≠ a) :
    dist n a (next n b) = dist n a b + 1 := by
  rw [next_eq hb] at h ⊢
  unfold dist
  split_ifs at h ⊢ <;> omega

theorem dist_next_left {n a b : ℕ} (ha : a < n) (hb : b < n) (h : a ≠ b) :
    dist n a b = dist n (next n a) b + 1 := by
  rw [next_eq ha]
  unfold dist
  split_ifs <;> omega

theorem ne_next {n a z : ℕ} (ha : a < n) (hz : z < n) (h : a ≠ z) : a ≠ next n a := by
  rw [next_eq ha]
  split <;> omega

theorem dist_next_before {n a z : ℕ} (ha : a < n) (hz : z < n) (h : a ≠ z) :
    dist n (next n a) z < dist n (next n a) a := by
  rw [next_eq ha]
  unfold dist
  split_ifs <;> omega

theorem dist_add {n a b c : ℕ} (ha : a < n) (hb : b < n) (hc : c < n)
    (h : dist n a b ≤ dist n a c) : dist n a b + dist n b c = dist n a c := by
  unfold dist at *
  split_ifs at * <;> omega

theorem dist_triangle {n a b c : ℕ} (ha : a < n) (hb : b < n) :
    dist n a c ≤ dist n a b + dist n b c := by
  unfold dist
  split_ifs <;> omega

theorem dist_le_of_suffix {n a b c : ℕ} (ha : a < n) (hb : b < n)
    (h : dist n b c ≤ dist n a c) : dist n a b ≤ dist n a c := by
  unfold dist at h ⊢
  split_ifs at h ⊢ <;> omega

variable {β : Type*} {n : ℕ} {home : β → ℕ} {c : ℕ → Option β}

def PathFull (n : ℕ) (c : ℕ → Option β) (a b : ℕ) : Prop :=
  ∀ p < n, dist n a p ≤ dist n a b → c p ≠ none

/-- Every stored item is reached from its home bucket without meeting a free one. -/
def Chained (n : ℕ) (home : β → ℕ) (c : ℕ → Option β) : Prop :=
  ∀ q < n, ∀ b, c q = some b → PathFull n c (home b) q

def Distinct (n : ℕ) (R : β → β → Prop) (c : ℕ → Option β) : Prop :=
  ∀ p < n, ∀ q < n, ∀ x y, c p = some x → c q = some y → R x y → p = q

def Stores (n : ℕ) (c : ℕ → Option β) (x : β) : Prop := ∃ p < n, c p = some x

def occupied (n : ℕ) (c : ℕ → Option β) : ℕ :=
  ((Finset.range n).filter (fun i => (c i).isSome)).card

theorem occupied_none (n : ℕ) : occupied n (fun _ => (none : Option β)) = 0 := by
  simp [occupied]

theorem occupied_congr {c d : ℕ → Option β} (h : ∀ i < n, (c i).isSome = (d i).isSome) :
    occupied n c = occupied n d := by
  unfold occupied
  congr 1
  apply Finset.filter_congr
  intro i hi
  rw [h i (Finset.mem_range.mp hi)]

theorem occupied_overwrite {e : ℕ} (b : β) (h : c e ≠ none) :
    occupied n (Function.update c e (some b)) = occupied n c := by
  apply occupied_congr
  intro i _
  by_cases hi : i = e
  · subst i
    simp [Option.isSome_iff_ne_none.mpr h]
  · simp [hi]

theorem occupied_fill {e : ℕ} (b : β) (he : e < n) (h : c e = none) :
    occupied n (Function.update c e (some b)) = occupied n c + 1 := by
  unfold occupied
  have hset : (Finset.range n).filter (fun i => (Function.update c e (some b) i).isSome) =
      insert e ((Finset.range n).filter (fun i => (c i).isSome)) := by
    ext i
    by_cases hi : i = e
    · subst i; simp [he]
    · simp [hi]
  rw [hset, Finset.card_insert_of_notMem (by simp [h])]

theorem occupied_clear {e : ℕ} (he : e < n) (h : c e ≠ none) :
    occupied n (Function.update c e none) + 1 = occupied n c := by
  obtain ⟨b, hb⟩ := Option.ne_none_iff_exists'.mp h
  have hfill := occupied_fill (c := Function.update c e none) b he (by simp)
  rw [← hfill, Function.update_idem, ← hb, Function.update_eq_self]

theorem occupied_succ (n : ℕ) (c : ℕ → Option β) :
    occupied (n + 1) c = occupied n c + if (c n).isSome then 1 else 0 := by
  unfold occupied
  rw [Finset.range_add_one, Finset.filter_insert]
  split
  · rw [Finset.card_insert_of_notMem (by simp)]
  · rfl

theorem occupied_le {m : ℕ} (h : m ≤ n) : occupied m c ≤ occupied n c :=
  Finset.card_le_card (Finset.filter_subset_filter _ (Finset.range_mono h))

theorem exists_free (h : occupied n c < n) : ∃ z < n, c z = none := by
  by_contra hn
  push Not at hn
  have hall : (Finset.range n).filter (fun i => (c i).isSome) = Finset.range n := by
    apply Finset.filter_true_of_mem
    intro i hi
    exact Option.isSome_iff_ne_none.mpr (hn i (Finset.mem_range.mp hi))
  simp [occupied, hall] at h

def probe (n : ℕ) (stop : ℕ → Bool) : ℕ → ℕ → Option ℕ
  | 0, _ => none
  | fuel + 1, i => if stop i then some i else probe n stop fuel (next n i)

theorem probe_finds {stop : ℕ → Bool} {z : ℕ} (hz : z < n) (hs : stop z = true) :
    ∀ fuel i, i < n → dist n i z < fuel →
      ∃ q < n, probe n stop fuel i = some q ∧ stop q = true ∧
        ∀ p < n, dist n i p < dist n i q → stop p = false := by
  intro fuel
  induction fuel with
  | zero => intro i _ h; omega
  | succ fuel ih =>
    intro i hi hd
    by_cases hstop : stop i = true
    · exact ⟨i, hi, by simp [probe, hstop], hstop, by simp⟩
    · have hne : i ≠ z := by rintro rfl; exact hstop hs
      have hstep := dist_next_left hi hz hne
      obtain ⟨q, hq, hprobe, hsq, hfirst⟩ := ih (next n i) (next_lt hi) (by omega)
      refine ⟨q, hq, by simp [probe, hstop, hprobe], hsq, ?_⟩
      intro p hp hlt
      by_cases hpi : p = i
      · subst p; simpa using hstop
      · have hiq : i ≠ q := by rintro rfl; simp at hlt
        have h1 := dist_next_left hi hp (Ne.symm hpi)
        have h2 := dist_next_left hi hq hiq
        exact hfirst p hp (by omega)

theorem chained_fill {e : ℕ} {b : β} (hc : Chained n home c)
    (hb : ∀ p < n, dist n (home b) p < dist n (home b) e → c p ≠ none)
    (hhome : home b < n) (hen : e < n) : Chained n home (Function.update c e (some b)) := by
  intro q hq x hx p hp hle
  by_cases hpe : p = e
  · subst p; simp
  rw [Function.update_of_ne hpe]
  by_cases hqe : q = e
  · subst q
    simp only [Function.update_self, Option.some.injEq] at hx
    subst x
    have hne : dist n (home b) p ≠ dist n (home b) e :=
      fun h => hpe (dist_injective hp hen hhome h)
    exact hb p hp (by omega)
  · rw [Function.update_of_ne hqe] at hx
    exact hc q hq x hx p hp hle

theorem chained_overwrite {e : ℕ} {b b' : β} (hc : Chained n home c) (he : c e = some b)
    (hh : home b' = home b) : Chained n home (Function.update c e (some b')) := by
  intro q hq x hx p hp hle
  have hold : c p ≠ none := by
    by_cases hqe : q = e
    · subst q
      simp only [Function.update_self, Option.some.injEq] at hx
      subst x
      exact hc e hq b he p hp (hh ▸ hle)
    · rw [Function.update_of_ne hqe] at hx
      exact hc q hq x hx p hp hle
  by_cases hpe : p = e
  · subst p; simp
  · rwa [Function.update_of_ne hpe]

/-- Deletion in progress: the item of bucket e is to go, and the items strictly between e
and j cannot be moved back to e. Bucket e still counts as used, so that every other item
keeps its path; the paths that lead through e are those of items from j on. -/
structure Hole (n : ℕ) (home : β → ℕ) (c : ℕ → Option β) (e j : ℕ) : Prop where
  hole_lt : e < n
  scan_lt : j < n
  apart : e ≠ j
  stale : c e ≠ none
  chained : ∀ q < n, q ≠ e → ∀ b, c q = some b → PathFull n c (home b) q
  settled : ∀ q < n, q ≠ e → dist n e q < dist n e j →
    ∀ b, c q = some b → dist n (home b) q < dist n e q

theorem hole_open {e : ℕ} (hc : Chained n home c) (he : e < n) (hs : c e ≠ none)
    (hne : e ≠ next n e) : Hole n home c e (next n e) where
  hole_lt := he
  scan_lt := next_lt he
  apart := hne
  stale := hs
  chained := fun q hq _ b hb => hc q hq b hb
  settled := by
    intro q hq hqe hlt
    have h := dist_next_right he he (Ne.symm hne)
    have hpos := dist_pos he (Ne.symm hqe)
    simp only [dist_self] at h
    omega

theorem hole_move {e j : ℕ} {b : β} (h : Hole n home c e j) (hj : c j = some b)
    (hhome : home b < n) (hd : dist n e j ≤ dist n (home b) j) (hne : j ≠ next n j) :
    Hole n home (Function.update c e (some b)) j (next n j) where
  hole_lt := h.scan_lt
  scan_lt := next_lt h.scan_lt
  apart := hne
  stale := by rw [Function.update_of_ne (Ne.symm h.apart), hj]; simp
  chained := by
    intro q hq hqj x hx p hp hle
    by_cases hpe : p = e
    · subst p; simp
    rw [Function.update_of_ne hpe]
    by_cases hqe : q = e
    · subst q
      simp only [Function.update_self, Option.some.injEq] at hx
      subst x
      -- the path to the hole is the first part of the path to j
      have heq : dist n (home b) e ≤ dist n (home b) j :=
        dist_le_of_suffix hhome h.hole_lt (by omega)
      exact h.chained j h.scan_lt (Ne.symm h.apart) b hj p hp (hle.trans heq)
    · rw [Function.update_of_ne hqe] at hx
      exact h.chained q hq hqe x hx p hp hle
  settled := by
    intro q hq hqj hlt
    have h1 := dist_next_right h.scan_lt h.scan_lt (Ne.symm hne)
    have hpos := dist_pos h.scan_lt (Ne.symm hqj)
    simp only [dist_self] at h1
    omega

theorem hole_skip {e j : ℕ} {b : β} (h : Hole n home c e j) (hj : c j = some b)
    (hd : dist n (home b) j < dist n e j) (hne : next n j ≠ e) :
    Hole n home c e (next n j) where
  hole_lt := h.hole_lt
  scan_lt := next_lt h.scan_lt
  apart := Ne.symm hne
  stale := h.stale
  chained := h.chained
  settled := by
    intro q hq hqe hlt x hx
    rw [dist_next_right h.hole_lt h.scan_lt hne] at hlt
    by_cases hqj : q = j
    · subst q
      rw [hj] at hx
      cases hx
      exact hd
    · have hneq : dist n e q ≠ dist n e j :=
        fun heq => hqj (dist_injective hq h.scan_lt h.hole_lt heq)
      exact h.settled q hq hqe (by omega) x hx

theorem hole_close {e j : ℕ} (h : Hole n home c e j) (hj : c j = none)
    (hhome : ∀ b, home b < n) : Chained n home (Function.update c e none) := by
  intro q hq x hx p hp hle
  have hqe : q ≠ e := by
    rintro rfl
    simp at hx
  rw [Function.update_of_ne hqe] at hx
  have hfull := h.chained q hq hqe x hx
  have hpe : p ≠ e := by
    rintro rfl
    -- a path through the hole that avoids j ends before j, where nothing leads through it
    have hjq : dist n (home x) q < dist n (home x) j := by
      by_contra hn
      exact hfull j h.scan_lt (by omega) hj
    have hadd := dist_add (hhome x) hp hq hle
    have haddj := dist_add (hhome x) hp h.scan_lt (by omega)
    have hset := h.settled q hq hqe (by omega) x hx
    omega
  rw [Function.update_of_ne hpe]
  exact hfull p hp hle

theorem stores_move {e j : ℕ} {b : β} (hj : c j = some b) (hjn : j < n) (hen : e < n)
    (hne : e ≠ j) (x : β) :
    (∃ p < n, p ≠ j ∧ Function.update c e (some b) p = some x) ↔
      ∃ p < n, p ≠ e ∧ c p = some x := by
  constructor
  · rintro ⟨p, hp, hpj, hx⟩
    by_cases hpe : p = e
    · subst p
      simp only [Function.update_self, Option.some.injEq] at hx
      exact ⟨j, hjn, Ne.symm hne, hx ▸ hj⟩
    · exact ⟨p, hp, hpe, by rwa [Function.update_of_ne hpe] at hx⟩
  · rintro ⟨p, hp, hpe, hx⟩
    by_cases hpj : p = j
    · subst p
      rw [hj] at hx
      exact ⟨e, hen, hne, by simp [hx]⟩
    · exact ⟨p, hp, hpj, by rwa [Function.update_of_ne hpe]⟩

theorem stores_close {e : ℕ} (x : β) :
    Stores n (Function.update c e none) x ↔ ∃ p < n, p ≠ e ∧ c p = some x := by
  constructor
  · rintro ⟨p, hp, hx⟩
    by_cases hpe : p = e
    · subst p; simp at hx
    · exact ⟨p, hp, hpe, by rwa [Function.update_of_ne hpe] at hx⟩
  · rintro ⟨p, hp, hpe, hx⟩
    exact ⟨p, hp, by rwa [Function.update_of_ne hpe]⟩

def DistinctOff (n : ℕ) (R : β → β → Prop) (c : ℕ → Option β) (e : ℕ) : Prop :=
  ∀ p < n, ∀ q < n, p ≠ e → q ≠ e → ∀ x y, c p = some x → c q = some y → R x y → p = q

theorem distinct_move {R : β → β → Prop} {e j : ℕ} {b : β} (h : DistinctOff n R c e)
    (hj : c j = some b) (hjn : j < n) (hne : e ≠ j) :
    DistinctOff n R (Function.update c e (some b)) j := by
  intro p hp q hq hpj hqj x y hx hy hr
  by_cases hpe : p = e <;> by_cases hqe : q = e
  · rw [hpe, hqe]
  · subst p
    simp only [Function.update_self, Option.some.injEq] at hx
    subst x
    rw [Function.update_of_ne hqe] at hy
    exact absurd (h j hjn q hq (Ne.symm hne) hqe b y hj hy hr) (Ne.symm hqj)
  · subst q
    simp only [Function.update_self, Option.some.injEq] at hy
    subst y
    rw [Function.update_of_ne hpe] at hx
    exact absurd (h p hp j hjn hpe (Ne.symm hne) x b hx hj hr) hpj
  · rw [Function.update_of_ne hpe] at hx
    rw [Function.update_of_ne hqe] at hy
    exact h p hp q hq hpe hqe x y hx hy hr

theorem distinct_close {R : β → β → Prop} {e : ℕ} (h : DistinctOff n R c e) :
    Distinct n R (Function.update c e none) := by
  intro p hp q hq x y hx hy hr
  by_cases hpe : p = e
  · subst p; simp at hx
  by_cases hqe : q = e
  · subst q; simp at hy
  rw [Function.update_of_ne hpe] at hx
  rw [Function.update_of_ne hqe] at hy
  exact h p hp q hq hpe hqe x y hx hy hr

end ProbeChains

namespace ProbeChains

variable {β : Type*} {n : ℕ} {home : β → ℕ} {c : ℕ → Option β} {R : β → β → Prop}

def UnblockedOff (n : ℕ) (home : β → ℕ) (R : β → β → Prop) (c : ℕ → Option β) (e : ℕ) : Prop :=
  ∀ q < n, q ≠ e → ∀ b, c q = some b → ∀ p < n, p ≠ e → dist n (home b) p < dist n (home b) q →
    ∀ x, c p = some x → ¬ R b x

def Unblocked (n : ℕ) (home : β → ℕ) (R : β → β → Prop) (c : ℕ → Option β) : Prop :=
  ∀ q < n, ∀ b, c q = some b → ∀ p < n, dist n (home b) p < dist n (home b) q →
    ∀ x, c p = some x → ¬ R b x

theorem Unblocked.off (h : Unblocked n home R c) (e : ℕ) : UnblockedOff n home R c e :=
  fun q hq _ b hb p hp _ hlt x hx => h q hq b hb p hp hlt x hx

theorem unblocked_fill {e : ℕ} {b : β} (h : Unblocked n home R c) (hc : Chained n home c)
    (hb : ∀ p < n, dist n (home b) p < dist n (home b) e → ∃ x, c p = some x ∧ ¬ R b x)
    (he : e < n) (hfree : c e = none) : Unblocked n home R (Function.update c e (some b)) := by
  intro q hq x hx p hp hlt y hy
  by_cases hqe : q = e
  · subst q
    simp only [Function.update_self, Option.some.injEq] at hx
    subst x
    have hpe : p ≠ e := by
      rintro rfl
      omega
    rw [Function.update_of_ne hpe] at hy
    obtain ⟨z, hz, hr⟩ := hb p hp hlt
    rw [hz] at hy
    cases hy
    exact hr
  · rw [Function.update_of_ne hqe] at hx
    have hpe : p ≠ e := by
      rintro rfl
      exact hc q hq x hx p hp hlt.le hfree
    rw [Function.update_of_ne hpe] at hy
    exact h q hq x hx p hp hlt y hy

theorem unblocked_overwrite {e : ℕ} {b b' : β} (h : Unblocked n home R c) (he : c e = some b)
    (hhome : home b' = home b) (hleft : ∀ x, R b' x → R b x) (hright : ∀ x, R x b' → R x b) :
    Unblocked n home R (Function.update c e (some b')) := by
  -- Every item of the new table stands where one with the same relations stood.
  have hold : ∀ q x, Function.update c e (some b') q = some x →
      ∃ y, c q = some y ∧ home x = home y ∧ (∀ z, R x z → R y z) ∧ ∀ z, R z x → R z y := by
    intro q x hx
    by_cases hqe : q = e
    · subst q
      simp only [Function.update_self, Option.some.injEq] at hx
      subst x
      exact ⟨b, he, hhome, hleft, hright⟩
    · rw [Function.update_of_ne hqe] at hx
      exact ⟨x, hx, rfl, fun _ => id, fun _ => id⟩
  intro q hq x hx p hp hlt y hy hr
  obtain ⟨x', hx', hh, hl, -⟩ := hold q x hx
  obtain ⟨y', hy', -, -, hr'⟩ := hold p y hy
  rw [hh] at hlt
  exact h q hq x' hx' p hp hlt y' hy' (hr' x' (hl y hr))

/-- The item at j moves back to the hole. An item whose path leads through the hole comes
after j, so that it had the moved one before it already. -/
theorem unblocked_move {e j : ℕ} {b : β} (h : Hole n home c e j) (hu : UnblockedOff n home R c e)
    (hj : c j = some b) (hhome : ∀ b, home b < n) (hd : dist n e j ≤ dist n (home b) j) :
    UnblockedOff n home R (Function.update c e (some b)) j := by
  intro q hq hqj x hx p hp hpj hlt y hy
  by_cases hqe : q = e
  · subst q
    simp only [Function.update_self, Option.some.injEq] at hx
    subst x
    have hpe : p ≠ e := by
      rintro rfl
      omega
    rw [Function.update_of_ne hpe] at hy
    have hle : dist n (home b) e ≤ dist n (home b) j :=
      dist_le_of_suffix (hhome b) h.hole_lt hd
    exact hu j h.scan_lt (Ne.symm h.apart) b hj p hp hpe (by omega) y hy
  · rw [Function.update_of_ne hqe] at hx
    by_cases hpe : p = e
    · subst p
      simp only [Function.update_self, Option.some.injEq] at hy
      subst y
      have hadd := dist_add (hhome x) hp hq hlt.le
      have hbefore : ¬ dist n e q < dist n e j := by
        intro hqj'
        have := h.settled q hq hqe hqj' x hx
        omega
      have hne : dist n e j ≠ dist n e q := fun heq =>
        hqj (dist_injective hq h.scan_lt hp heq.symm)
      have hjq : dist n (home x) j < dist n (home x) q := by
        have hdetour := @dist_triangle n _ _ j (hhome x) hp
        omega
      exact hu q hq hqe x hx j h.scan_lt (Ne.symm h.apart) hjq b hj
    · rw [Function.update_of_ne hpe] at hy
      exact hu q hq hqe x hx p hp hpe hlt y hy

theorem unblocked_close {e : ℕ} (h : UnblockedOff n home R c e) :
    Unblocked n home R (Function.update c e none) := by
  intro q hq x hx p hp hlt y hy
  have hqe : q ≠ e := by
    rintro rfl
    simp at hx
  have hpe : p ≠ e := by
    rintro rfl
    simp at hy
  rw [Function.update_of_ne hqe] at hx
  rw [Function.update_of_ne hpe] at hy
  exact h q hq hqe x hx p hp hpe hlt y hy

end ProbeChains

namespace ProbeChains

variable {β : Type*} {n : ℕ} {clear : β → Prop} {c : ℕ → β}

def Reaches (n : ℕ) (clear : β → Prop) (c : ℕ → β) (h q : ℕ) : Prop :=
  ∀ p < n, dist n h p < dist n h q → clear (c p)

theorem Reaches.mono {clear' : β → Prop} {c' : ℕ → β} {h q : ℕ} (hr : Reaches n clear c h q)
    (hc : ∀ p < n, clear (c p) → clear' (c' p)) : Reaches n clear' c' h q :=
  fun p hp hlt => hc p hp (hr p hp hlt)

theorem Reaches.update {h q e : ℕ} {b : β} (hr : Reaches n clear c h q) (hb : clear b) :
    Reaches n clear (Function.update c e b) h q := by
  intro p hp hlt
  by_cases hpe : p = e
  · subst p
    simpa using hb
  · rw [Function.update_of_ne hpe]
    exact hr p hp hlt

theorem dist_mod {e k : ℕ} (he : e < n) (hk : k < n) : dist n e ((e + k) % n) = k := by
  by_cases h : e + k < n
  · rw [Nat.mod_eq_of_lt h]
    unfold dist
    split <;> omega
  · rw [Nat.mod_eq_sub_mod (by omega), Nat.mod_eq_of_lt (by omega)]
    unfold dist
    split <;> omega

theorem next_mod (n e k : ℕ) : next n ((e + k) % n) = (e + (k + 1)) % n := by
  unfold next
  rw [Nat.mod_add_mod, Nat.add_assoc]

/-- Item b of home h at bucket q while a hole at e is scanned for, now k buckets after it.
Where the search for b leads through the hole, the scan is not past b. -/
structure Tracked (n : ℕ) (clear : β → Prop) (c : ℕ → β) (h : ℕ) (b : β) (e k q : ℕ) :
    Prop where
  hole_lt : e < n
  place_lt : q < n
  apart : q ≠ e
  item : c q = b
  reached : ∀ p < n, p ≠ e → dist n h p < dist n h q → clear (c p)
  ahead : dist n h e < dist n h q → k ≤ dist n e q

theorem tracked_start {h q e : ℕ} {b : β} (hq : q < n) (he : e < n) (hne : q ≠ e)
    (hb : c q = b) (hr : Reaches n clear c h q) : Tracked n clear c h b e 1 q where
  hole_lt := he
  place_lt := hq
  apart := hne
  item := hb
  reached := fun p hp _ => hr p hp
  ahead := fun _ => dist_pos he (Ne.symm hne)

theorem Tracked.mono {clear' : β → Prop} {c' : ℕ → β} {h e k q : ℕ} {b : β}
    (t : Tracked n clear c h b e k q) (hc : ∀ p < n, clear (c p) → clear' (c' p))
    (hb : c' q = b) : Tracked n clear' c' h b e k q where
  hole_lt := t.hole_lt
  place_lt := t.place_lt
  apart := t.apart
  item := hb
  reached := fun p hp hpe hlt => hc p hp (t.reached p hp hpe hlt)
  ahead := t.ahead

theorem Tracked.dist_through {h e k q : ℕ} {b : β} (t : Tracked n clear c h b e k q) (hh : h < n)
    (hlt : dist n h e < dist n h q) : dist n h e + dist n e q = dist n h q :=
  dist_add hh t.hole_lt t.place_lt hlt.le

theorem Tracked.clear_scanned {h e k q : ℕ} {b : β} (t : Tracked n clear c h b e k q)
    (hh : h < n) (hk : 0 < k) (hlt : dist n h e < dist n h q) (hne : (e + k) % n ≠ q) :
    clear (c ((e + k) % n)) ∧ dist n h ((e + k) % n) < dist n h q := by
  have hle := t.ahead hlt
  have hn : k < n := lt_of_le_of_lt hle (dist_lt t.hole_lt t.place_lt)
  have hj : (e + k) % n < n := Nat.mod_lt _ (by omega)
  have hd := dist_mod t.hole_lt hn
  have hkq : k ≠ dist n e q := by
    intro heq
    rw [heq] at hd
    exact hne (dist_injective (heq ▸ hj) t.place_lt t.hole_lt (heq ▸ hd))
  have hadd := t.dist_through hh hlt
  have hbefore : dist n h ((e + k) % n) < dist n h q := by
    have htriangle := dist_triangle hh t.hole_lt (c := (e + k) % n)
    omega
  refine ⟨t.reached _ hj ?_ hbefore, hbefore⟩
  rintro hje
  rw [hje, dist_self] at hd
  omega

theorem Tracked.move {h e k q : ℕ} {b x : β} (home : β → ℕ) (t : Tracked n clear c h b e k q)
    (hh : h < n) (hk : 0 < k) (hx : c ((e + k) % n) = x) (hhome : home b = h)
    (hd : k ≤ dist n (home x) ((e + k) % n)) (hm : home x < n) :
    ∃ q', Tracked n clear (Function.update c e x) h b ((e + k) % n) 1 q' := by
  have hn : 0 < n := by omega
  have hj : (e + k) % n < n := Nat.mod_lt _ hn
  have hkn : k < n := lt_of_le_of_lt hd (dist_lt hm hj)
  have hdist := dist_mod t.hole_lt hkn
  have hje : (e + k) % n ≠ e := by
    intro heq
    rw [heq, dist_self] at hdist
    omega
  by_cases hjq : (e + k) % n = q
  · -- the item itself: the hole is on its path, at the end of a first part of it
    rw [hjq] at hx hd hdist ⊢
    rw [t.item] at hx
    subst x
    rw [hhome] at hd
    have hle : dist n h e ≤ dist n h q := dist_le_of_suffix hh t.hole_lt (by omega)
    refine ⟨e, t.place_lt, t.hole_lt, Ne.symm t.apart, by simp, ?_, fun hlt => by omega⟩
    intro p hp _ hlt
    have hpe : p ≠ e := by
      rintro rfl
      omega
    rw [Function.update_of_ne hpe]
    exact t.reached p hp hpe (by omega)
  · refine ⟨q, hj, t.place_lt, Ne.symm hjq, ?_, ?_, fun _ => dist_pos hj hjq⟩
    · rw [Function.update_of_ne t.apart, t.item]
    · intro p hp hpj hlt
      by_cases hpe : p = e
      · subst p
        rw [Function.update_self, ← hx]
        exact (t.clear_scanned hh hk hlt hjq).1
      · rw [Function.update_of_ne hpe]
        exact t.reached p hp hpe hlt

theorem Tracked.skip {h e k q : ℕ} {b x : β} (home : β → ℕ) (t : Tracked n clear c h b e k q)
    (hh : h < n) (hx : c ((e + k) % n) = x) (hhome : home b = h)
    (hd : dist n (home x) ((e + k) % n) < k) : Tracked n clear c h b e (k + 1) q := by
  refine ⟨t.hole_lt, t.place_lt, t.apart, t.item, t.reached, fun hlt => ?_⟩
  have hle := t.ahead hlt
  have hadd := t.dist_through hh hlt
  have hn : k < n := lt_of_le_of_lt hle (dist_lt t.hole_lt t.place_lt)
  have hdist := dist_mod t.hole_lt hn
  by_cases hjq : (e + k) % n = q
  · rw [hjq] at hx hd hdist
    rw [t.item] at hx
    subst x
    rw [hhome] at hd
    omega
  · have hkq : k ≠ dist n e q := by
      intro heq
      exact hjq (dist_injective (Nat.mod_lt _ (by omega)) t.place_lt t.hole_lt (hdist.trans heq))
    omega

theorem Tracked.close {h e k q : ℕ} {b x : β} (t : Tracked n clear c h b e k q) (hh : h < n)
    (hk : 0 < k) (hstop : ¬ clear (c ((e + k) % n))) (hb : c ((e + k) % n) ≠ b) :
    Function.update c e x q = b ∧ Reaches n clear (Function.update c e x) h q := by
  refine ⟨by rw [Function.update_of_ne t.apart, t.item], fun p hp hlt => ?_⟩
  have hpe : p ≠ e := by
    rintro rfl
    refine hstop (t.clear_scanned hh hk hlt ?_).1
    intro hjq
    exact hb (hjq ▸ t.item)
  rw [Function.update_of_ne hpe]
  exact t.reached p hp hpe hlt

theorem Tracked.finish {h e k q : ℕ} {b : β} (t : Tracked n clear c h b e k q) (hk : n ≤ k) :
    Reaches n clear c h q := by
  intro p hp hlt
  refine t.reached p hp ?_ hlt
  rintro rfl
  have := t.ahead hlt
  have := dist_lt t.hole_lt t.place_lt
  omega

end ProbeChains
