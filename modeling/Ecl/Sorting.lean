import Mathlib.Data.List.Nodup

/-! Lists whose elements between two places have changed places. -/
namespace Rearrangements

variable {α : Type*}

structure Rearranged (start stop : ℕ) (l l' : List α) : Prop where
  perm : l'.Perm l
  outside : ∀ i, i < start ∨ stop ≤ i → l'[i]? = l[i]?
  inside : ∀ i, start ≤ i → i < stop → ∃ k, start ≤ k ∧ k < stop ∧ l'[i]? = l[k]?

def AllWithin (P : α → Prop) (start stop : ℕ) (l : List α) : Prop :=
  ∀ i, start ≤ i → i < stop → ∀ x ∈ l[i]?, P x

def SortedWithin (before : α → α → Bool) (start stop : ℕ) (l : List α) : Prop :=
  ∀ i k, start ≤ i → i < k → k < stop → ∀ x ∈ l[i]?, ∀ y ∈ l[k]?, before y x = false

variable {start stop : ℕ} {l l' l'' : List α}

theorem Rearranged.refl (start stop : ℕ) (l : List α) : Rearranged start stop l l :=
  ⟨List.Perm.refl l, fun _ _ => rfl, fun i hi hk => ⟨i, hi, hk, rfl⟩⟩

theorem Rearranged.trans (h : Rearranged start stop l l') (h' : Rearranged start stop l' l'') :
    Rearranged start stop l l'' where
  perm := h'.perm.trans h.perm
  outside i hi := (h'.outside i hi).trans (h.outside i hi)
  inside i hi hk := by
    obtain ⟨k, hsk, hks, hk'⟩ := h'.inside i hi hk
    obtain ⟨j, hsj, hjs, hj⟩ := h.inside k hsk hks
    exact ⟨j, hsj, hjs, hk'.trans hj⟩

theorem Rearranged.widen {start' stop' : ℕ} (h : Rearranged start stop l l')
    (hstart : start' ≤ start) (hstop : stop ≤ stop') : Rearranged start' stop' l l' where
  perm := h.perm
  outside i hi := h.outside i (by omega)
  inside i hi hk := by
    by_cases hin : start ≤ i ∧ i < stop
    · obtain ⟨k, hsk, hks, hk'⟩ := h.inside i hin.1 hin.2
      exact ⟨k, by omega, by omega, hk'⟩
    · exact ⟨i, hi, hk, h.outside i (by omega)⟩

theorem getElem?_swap {i j : ℕ} (hi : i < l.length) (hj : j < l.length) (k : ℕ) :
    ((l.set i l[j]).set j l[i])[k]? = if k = j then l[i]? else if k = i then l[j]? else l[k]? := by
  by_cases hkj : k = j
  · subst hkj
    rw [if_pos rfl, List.getElem?_set_self (by rwa [List.length_set]), List.getElem?_eq_getElem hi]
  · rw [if_neg hkj, List.getElem?_set_ne (Ne.symm hkj)]
    by_cases hki : k = i
    · subst hki
      rw [if_pos rfl, List.getElem?_set_self hi, List.getElem?_eq_getElem hj]
    · rw [if_neg hki, List.getElem?_set_ne (Ne.symm hki)]

theorem Rearranged.swap {i j : ℕ} (hi : i < l.length) (hj : j < l.length)
    (hsi : start ≤ i) (his : i < stop) (hsj : start ≤ j) (hjs : j < stop) :
    Rearranged start stop l ((l.set i l[j]).set j l[i]) where
  perm := List.set_set_perm hi hj
  outside k hk := by rw [getElem?_swap hi hj, if_neg (by omega), if_neg (by omega)]
  inside k hsk hks := by
    rw [getElem?_swap hi hj]
    split
    · exact ⟨i, hsi, his, rfl⟩
    · split
      · exact ⟨j, hsj, hjs, rfl⟩
      · exact ⟨k, hsk, hks, rfl⟩

theorem AllWithin.rearranged {P : α → Prop} (hP : AllWithin P start stop l)
    (h : Rearranged start stop l l') : AllWithin P start stop l' := by
  intro i hi hk x hx
  obtain ⟨k, hsk, hks, hk'⟩ := h.inside i hi hk
  exact hP k hsk hks x (hk' ▸ hx)

theorem AllWithin.elsewhere {P : α → Prop} {start' stop' : ℕ} (hP : AllWithin P start' stop' l)
    (h : Rearranged start stop l l') (hout : stop' ≤ start ∨ stop ≤ start') :
    AllWithin P start' stop' l' := by
  intro i hi hk x hx
  rw [h.outside i (by omega)] at hx
  exact hP i hi hk x hx

theorem SortedWithin.elsewhere {before : α → α → Bool} {start' stop' : ℕ}
    (hs : SortedWithin before start' stop' l) (h : Rearranged start stop l l')
    (hout : stop' ≤ start ∨ stop ≤ start') : SortedWithin before start' stop' l' := by
  intro i k hi hik hk x hx y hy
  rw [h.outside i (by omega)] at hx
  rw [h.outside k (by omega)] at hy
  exact hs i k hi hik hk x hx y hy

end Rearrangements

namespace StableSorting

variable {α : Type*}

def WeakOrder (before : α → α → Bool) : Prop :=
  IsStrictWeakOrder α fun x y => before x y = true

def equivalent (before : α → α → Bool) (x y : α) : Bool := !before x y && !before y x

def notAfter (before : α → α → Bool) (x y : α) : Bool := !before y x

structure Sorts (before : α → α → Bool) (l l' : List α) : Prop where
  perm : l'.Perm l
  sorted : l'.Pairwise fun x y => before y x = false

structure StablySorts (before : α → α → Bool) (l l' : List α) : Prop
    extends Sorts before l l' where
  stable : ∀ x, l'.filter (equivalent before x) = l.filter (equivalent before x)

def mergeBy (before : α → α → Bool) (l l' : List α) : List α := List.merge l l' (notAfter before)

variable {before : α → α → Bool}

theorem WeakOrder.asymm (h : WeakOrder before) {x y : α} (hxy : before x y = true) :
    before y x = false := by
  by_contra hyx
  exact h.irrefl x (h.trans x y x hxy (by simpa using hyx))

theorem WeakOrder.irrefl (h : WeakOrder before) (x : α) : before x x = false := by
  by_contra hx
  exact (h.toIsStrictOrder).irrefl x (by simpa using hx)

theorem WeakOrder.before_of_notAfter (h : WeakOrder before) {x y z : α}
    (hxy : before x y = true) (hyz : before z y = false) : before x z = true := by
  by_contra hxz
  by_cases hzx : before z x = true
  · rw [h.trans z x y hzx hxy] at hyz
    exact Bool.noConfusion hyz
  · by_cases hyz' : before y z = true
    · exact hxz (h.trans x y z hxy hyz')
    · exact (h.incomp_trans x z y ⟨hxz, hzx⟩ ⟨by simp [hyz], hyz'⟩).1 hxy

theorem WeakOrder.notAfter_trans (h : WeakOrder before) {x y z : α} (hxy : before y x = false)
    (hyz : before z y = false) : before z x = false := by
  by_contra hzx
  have := h.before_of_notAfter (x := z) (y := x) (z := y) (by simpa using hzx) hxy
  rw [this] at hyz
  exact Bool.noConfusion hyz

theorem WeakOrder.comap {β : Type*} (h : WeakOrder before) (key : β → α) :
    WeakOrder fun x y => before (key x) (key y) where
  irrefl x := h.toIsStrictOrder.irrefl (key x)
  trans x y z := h.trans (key x) (key y) (key z)
  incomp_trans x y z := h.incomp_trans (key x) (key y) (key z)

variable (before) in
theorem StablySorts.of_length_le {l : List α} (h : l.length ≤ 1) : StablySorts before l l where
  perm := List.Perm.refl l
  sorted := by
    cases l with
    | nil => exact List.Pairwise.nil
    | cons x l =>
      cases l with
      | nil => exact List.pairwise_singleton _ x
      | cons y l => exact absurd h (by simp)
  stable _ := rfl

theorem mergeBy_cons_right {x y : α} (h : before y x = true) (l l' : List α) :
    mergeBy before (x :: l) (y :: l') = y :: mergeBy before (x :: l) l' :=
  List.cons_merge_cons_neg _ _ _ (by simp [notAfter, h])

theorem mergeBy_cons_left {x y : α} (h : ¬ before y x = true) (l l' : List α) :
    mergeBy before (x :: l) (y :: l') = x :: mergeBy before l (y :: l') :=
  List.cons_merge_cons_pos _ _ _ (by simp [notAfter, h])

theorem mergeBy_nil_left (l : List α) : mergeBy before [] l = l := by simp [mergeBy]

theorem mergeBy_nil_right (l : List α) : mergeBy before l [] = l := by simp [mergeBy]

theorem mergeBy_map {β : Type*} {before' : β → β → Bool} (f : α → β) {l l' : List α}
    (h : ∀ x ∈ l, ∀ y ∈ l', before y x = before' (f y) (f x)) :
    (mergeBy before l l').map f = mergeBy before' (l.map f) (l'.map f) :=
  List.map_merge fun x hx y hy => by rw [notAfter, notAfter, h x hx y hy]

theorem mergeBy_congr {before' : α → α → Bool} {l l' : List α}
    (h : ∀ x ∈ l, ∀ y ∈ l', before y x = before' y x) :
    mergeBy before l l' = mergeBy before' l l' := by
  have hmap := mergeBy_map id h
  simpa using hmap

theorem mergeBy_perm (l l' : List α) : (mergeBy before l l').Perm (l ++ l') :=
  List.merge_perm_append _

theorem mergeBy_sorted (h : WeakOrder before) {l l' : List α}
    (hl : l.Pairwise fun x y => before y x = false)
    (hl' : l'.Pairwise fun x y => before y x = false) :
    (mergeBy before l l').Pairwise fun x y => before y x = false := by
  have hmerge := List.pairwise_merge
    (fun x y z (hxy : notAfter before x y = true) (hyz : notAfter before y z = true) => by
      simp only [notAfter, Bool.not_eq_true'] at *
      exact h.notAfter_trans hxy hyz)
    (fun x y => by
      by_cases hxy : before x y = true
      · simp [notAfter, h.asymm hxy]
      · simp [notAfter, hxy]) l l'
    (hl.imp fun hx => by simpa [notAfter] using hx)
    (hl'.imp fun hx => by simpa [notAfter] using hx)
  exact hmerge.imp fun hx => by simpa [notAfter] using hx

theorem filter_equivalent_nil (h : WeakOrder before) {x y z : α} {l : List α}
    (hl : (y :: l).Pairwise fun x y => before y x = false) (hz : before z y = true)
    (hx : equivalent before x z = true) : (y :: l).filter (equivalent before x) = [] := by
  apply List.filter_eq_nil_iff.mpr
  intro w hw hxw
  have hzw : before z w = true := by
    obtain rfl | hw := List.mem_cons.mp hw
    · exact hz
    · exact h.before_of_notAfter hz (List.rel_of_pairwise_cons hl hw)
  simp only [equivalent, Bool.and_eq_true, Bool.not_eq_true'] at hx hxw
  have := h.before_of_notAfter hzw (z := x) hxw.1
  rw [this] at hx
  exact Bool.noConfusion hx.2

theorem mergeBy_stable (h : WeakOrder before) {l l' : List α}
    (hl : l.Pairwise fun x y => before y x = false)
    (hl' : l'.Pairwise fun x y => before y x = false) (x : α) :
    (mergeBy before l l').filter (equivalent before x) =
      l.filter (equivalent before x) ++ l'.filter (equivalent before x) := by
  induction l generalizing l' with
  | nil => simp [mergeBy_nil_left]
  | cons y l ih =>
    induction l' with
    | nil => simp [mergeBy_nil_right]
    | cons z l' ih' =>
      by_cases hzy : before z y = true
      · rw [mergeBy_cons_right hzy]
        by_cases hx : equivalent before x z = true
        · rw [List.filter_cons_of_pos hx, List.filter_cons_of_pos hx, ih' hl'.tail,
            filter_equivalent_nil h hl hzy hx, List.nil_append, List.nil_append]
        · rw [List.filter_cons_of_neg hx, List.filter_cons_of_neg hx, ih' hl'.tail]
      · rw [mergeBy_cons_left hzy]
        by_cases hx : equivalent before x y = true
        · rw [List.filter_cons_of_pos hx, List.filter_cons_of_pos hx, ih hl.tail hl',
            List.cons_append]
        · rw [List.filter_cons_of_neg hx, List.filter_cons_of_neg hx, ih hl.tail hl']

theorem StablySorts.merge (h : WeakOrder before) {l l' r r' : List α}
    (hl : StablySorts before l l') (hr : StablySorts before r r') :
    StablySorts before (l ++ r) (mergeBy before l' r') where
  perm := (mergeBy_perm l' r').trans (hl.perm.append hr.perm)
  sorted := mergeBy_sorted h hl.sorted hr.sorted
  stable x := by
    rw [mergeBy_stable h hl.sorted hr.sorted, hl.stable, hr.stable, List.filter_append]

inductive Runs (before : α → α → Bool) (n : ℕ) : List α → List α → Prop where
  | last {l l' : List α} (short : l.length ≤ n) (sorts : StablySorts before l l') :
    Runs before n l l'
  | run {l l' r r' : List α} (length : l.length = n) (sorts : StablySorts before l l')
    (more : r ≠ []) (rest : Runs before n r r') : Runs before n (l ++ r) (l' ++ r')

theorem Runs.length_eq {n : ℕ} {l l' : List α} (h : Runs before n l l') :
    l'.length = l.length := by
  induction h with
  | last _ sorts => exact sorts.perm.length_eq
  | run _ sorts _ _ ih => rw [List.length_append, List.length_append, ih, sorts.perm.length_eq]

theorem Runs.single (l : List α) : Runs before 1 l l := by
  induction l with
  | nil => exact .last (Nat.zero_le 1) (.of_length_le before (Nat.zero_le 1))
  | cons x l ih =>
    by_cases hl : l = []
    · subst hl
      exact .last (Nat.le_refl 1) (.of_length_le before (Nat.le_refl 1))
    · exact .run (l := [x]) rfl (.of_length_le before (Nat.le_refl 1)) hl ih

theorem Runs.of_short {n : ℕ} {l l' : List α} (h : Runs before n l l') (hl : l.length ≤ n) :
    StablySorts before l l' := by
  cases h with
  | last _ sorts => exact sorts
  | run length _ more _ =>
    rw [List.length_append, length] at hl
    exact absurd (List.eq_nil_of_length_eq_zero (by omega)) more

theorem Runs.of_long {n : ℕ} {l l' : List α} (h : Runs before n l l') (hl : n < l.length) :
    ∃ a a' r r', l = a ++ r ∧ l' = a' ++ r' ∧ a.length = n ∧ StablySorts before a a' ∧ r ≠ [] ∧
      Runs before n r r' := by
  cases h with
  | last short _ => omega
  | run length sorts more rest => exact ⟨_, _, _, _, rfl, rfl, length, sorts, more, rest⟩

end StableSorting

namespace SelectionSorting

variable {M E : Type}

def best (beats : M → M → Except E Bool) : M → List M → Except E M
  | m, [] => .ok m
  | m, x :: xs => do
    if ← beats m x then best beats x xs else best beats m xs

/-- The fuel is the length of the list. -/
def loop [DecidableEq M] (beats : M → M → Except E Bool) : ℕ → List M → Except E (List M)
  | 0, _ => .ok []
  | _, [] => .ok []
  | n + 1, m :: rest => do
    let most ← best beats m rest
    let sorted ← loop beats n ((m :: rest).filter (· ≠ most))
    return most :: sorted

def sort [DecidableEq M] (beats : M → M → Except E Bool) (l : List M) : Except E (List M) :=
  loop beats l.length l

variable {beats : M → M → Except E Bool}

theorem best_of_unbeaten {m : M} {l : List M} (h : ∀ x ∈ l, beats m x = .ok false) :
    best beats m l = .ok m := by
  induction l with
  | nil => rfl
  | cons x xs ih =>
    have hx : beats m x = .ok false := h x List.mem_cons_self
    have hxs : best beats m xs = .ok m := ih fun y hy => h y (List.mem_cons_of_mem x hy)
    simpa [best, hx, bind, Except.bind] using hxs

theorem filter_ne_head [DecidableEq M] {m : M} {l : List M} (h : (m :: l).Nodup) :
    (m :: l).filter (· ≠ m) = l := by
  have hm : m ∉ l := (List.nodup_cons.mp h).1
  have hl : l.filter (· ≠ m) = l := by
    apply List.filter_eq_self.mpr
    intro x hx
    simpa using ne_of_mem_of_not_mem hx hm
  simpa using hl

theorem sort_of_unbeaten [DecidableEq M] {l : List M} (hn : l.Nodup)
    (h : l.Pairwise fun a b => beats a b = .ok false) : sort beats l = .ok l := by
  unfold sort
  induction l with
  | nil => rfl
  | cons m l ih =>
    obtain ⟨hm, hl⟩ := List.pairwise_cons.mp h
    have hrest : loop beats l.length l = .ok l := ih (List.nodup_cons.mp hn).2 hl
    have hbest : best beats m l = .ok m := best_of_unbeaten hm
    simp only [List.length_cons, loop, hbest, filter_ne_head hn, hrest, bind, Except.bind, pure,
      Except.pure]

section
variable {beats' : M → M → Except E Bool}

theorem best_congr {m : M} {l : List M}
    (h : ∀ a ∈ m :: l, ∀ b ∈ m :: l, beats a b = beats' a b) : best beats m l = best beats' m l := by
  induction l generalizing m with
  | nil => rfl
  | cons x xs ih =>
    have hx : best beats x xs = best beats' x xs :=
      ih fun a ha b hb => h a (List.mem_cons_of_mem m ha) b (List.mem_cons_of_mem m hb)
    have hm : best beats m xs = best beats' m xs := by
      have hsub : m :: xs ⊆ m :: x :: xs := List.cons_subset_cons m (List.subset_cons_self x xs)
      exact ih fun a ha b hb => h a (hsub ha) b (hsub hb)
    simp only [best, h m List.mem_cons_self x (List.mem_cons_of_mem m List.mem_cons_self), hx, hm]

theorem sort_congr [DecidableEq M] {l : List M} (h : ∀ a ∈ l, ∀ b ∈ l, beats a b = beats' a b) :
    sort beats l = sort beats' l := by
  suffices hloop : ∀ (n : ℕ) (scan : List M), scan ⊆ l → loop beats n scan = loop beats' n scan from
    hloop l.length l (List.Subset.refl l)
  intro n
  induction n with
  | zero => exact fun _ _ => rfl
  | succ n ih =>
    intro scan hsub
    cases scan with
    | nil => rfl
    | cons m rest =>
      have hbest : best beats m rest = best beats' m rest :=
        best_congr fun a ha b hb => h a (hsub ha) b (hsub hb)
      have hrest : ∀ most, loop beats n ((m :: rest).filter (· ≠ most)) =
          loop beats' n ((m :: rest).filter (· ≠ most)) :=
        fun most => ih _ fun x hx => hsub (List.mem_of_mem_filter hx)
      simp only [loop, hbest, hrest]

end

section
variable {R : M → M → Prop} {l : List M}

def Decides (beats : M → M → Except E Bool) (R : M → M → Prop) (l : List M) : Prop :=
  ∀ a ∈ l, ∀ b ∈ l, a ≠ b → R a b ∧ beats a b = .ok false ∨ R b a ∧ beats a b = .ok true

theorem best_spec (h : Decides beats R l)
    (ht : ∀ a ∈ l, ∀ b ∈ l, ∀ c ∈ l, R a b → R b c → R a c) {m : M} {rest : List M} (hm : m ∈ l) (hr : rest ⊆ l) (hn : (m :: rest).Nodup) :
    ∃ b ∈ m :: rest, best beats m rest = .ok b ∧ ∀ x ∈ m :: rest, x ≠ b → R b x := by
  induction rest generalizing m with
  | nil => exact ⟨m, List.mem_cons_self, rfl, fun x hx hxm => absurd (List.mem_singleton.mp hx) hxm⟩
  | cons x xs ih =>
    have hxl : x ∈ l := hr List.mem_cons_self
    have hxs : xs ⊆ l := fun y hy => hr (List.mem_cons_of_mem x hy)
    have hmx : m ≠ x := fun he => (List.nodup_cons.mp hn).1 (he ▸ List.mem_cons_self)
    have hnx : (x :: xs).Nodup := (List.nodup_cons.mp hn).2
    have hnm : (m :: xs).Nodup := hn.sublist ((List.sublist_cons_self x xs).cons_cons m)
    rcases h m hm x hxl hmx with ⟨hR, hb⟩ | ⟨hR, hb⟩
    · obtain ⟨b, hbm, hbest, hleast⟩ := ih hm hxs hnm
      have hbl : b ∈ l := List.cons_subset.mpr ⟨hm, hxs⟩ hbm
      refine ⟨b, ?_, by simpa [best, hb, bind, Except.bind] using hbest, ?_⟩
      · rcases List.mem_cons.mp hbm with rfl | hbm
        · exact List.mem_cons_self
        · exact List.mem_cons_of_mem m (List.mem_cons_of_mem x hbm)
      · intro y hy hyb
        rcases List.mem_cons.mp hy with rfl | hy
        · exact hleast y List.mem_cons_self hyb
        rcases List.mem_cons.mp hy with rfl | hy
        · by_cases hmb : m = b
          · exact hmb ▸ hR
          · exact ht b hbl m hm y hxl (hleast m List.mem_cons_self hmb) hR
        · exact hleast y (List.mem_cons_of_mem m hy) hyb
    · obtain ⟨b, hbm, hbest, hleast⟩ := ih hxl hxs hnx
      have hbl : b ∈ l := hr hbm
      refine ⟨b, List.mem_cons_of_mem m hbm, by simpa [best, hb, bind, Except.bind] using hbest, ?_⟩
      intro y hy hyb
      rcases List.mem_cons.mp hy with rfl | hy
      · by_cases hxb : x = b
        · exact hxb ▸ hR
        · exact ht b hbl x hxl y hm (hleast x List.mem_cons_self hxb) hR
      · exact hleast y hy hyb

/-- A comparison that decides a transitive relation sorts by it. -/
theorem sort_spec [DecidableEq M] (h : Decides beats R l)
    (ht : ∀ a ∈ l, ∀ b ∈ l, ∀ c ∈ l, R a b → R b c → R a c) (hn : l.Nodup) : ∃ sorted, sort beats l = .ok sorted ∧ sorted.Perm l ∧ sorted.Pairwise R := by
  suffices hloop : ∀ (n : ℕ) (scan : List M), scan ⊆ l → scan.Nodup → scan.length ≤ n →
      ∃ sorted, loop beats n scan = .ok sorted ∧ sorted.Perm scan ∧ sorted.Pairwise R from
    hloop l.length l (List.Subset.refl l) hn (Nat.le_refl _)
  intro n
  induction n with
  | zero =>
    intro scan _ _ hlen
    have hscan : scan = [] := List.eq_nil_of_length_eq_zero (Nat.le_zero.mp hlen)
    exact ⟨[], rfl, hscan ▸ List.Perm.refl [], List.Pairwise.nil⟩
  | succ n ih =>
    intro scan hsub hnodup hlen
    cases scan with
    | nil => exact ⟨[], rfl, List.Perm.refl [], List.Pairwise.nil⟩
    | cons m rest =>
      obtain ⟨b, hb, hbest, hleast⟩ := best_spec h ht (hsub List.mem_cons_self)
        (fun x hx => hsub (List.mem_cons_of_mem m hx)) hnodup
      have herase : (m :: rest).filter (· ≠ b) = (m :: rest).erase b := by
        rw [hnodup.erase_eq_filter b]
        apply List.filter_congr
        intro x _
        by_cases hx : x = b <;> simp [hx]
      have hlen' : ((m :: rest).filter (· ≠ b)).length ≤ n := by
        rw [herase, List.length_erase_of_mem hb]
        simpa using hlen
      obtain ⟨sorted, hsorted, hperm, hpair⟩ := ih ((m :: rest).filter (· ≠ b))
        (fun x hx => hsub (List.mem_of_mem_filter hx)) (hnodup.filter _) hlen'
      refine ⟨b :: sorted, ?_, ?_, ?_⟩
      · simp only [loop, hbest, hsorted, bind, Except.bind, pure, Except.pure]
      · apply (hperm.cons b).trans
        rw [herase]
        exact (List.perm_cons_erase hb).symm
      · apply List.pairwise_cons.mpr
        refine ⟨fun x hx => ?_, hpair⟩
        obtain ⟨hxm, hxb⟩ := List.mem_filter.mp (hperm.subset hx)
        exact hleast x hxm (by simpa using hxb)

end
end SelectionSorting
