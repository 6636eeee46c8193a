import Ecl.ListSorting

/-! # QUICK-SORT

The pivot waits at the start while the pointers move towards each other; behind i everything comes
before it, and from j on nothing does. -/
namespace QuickSorting

open SequenceSorting StableSorting ListSorting Rearrangements

variable {α κ : Type} {predicate : κ → κ → Bool} {key : α → κ} [Inhabited α]

theorem elt_of_getElem? {l l' : List α} {i k : ℕ} (h : l[i]? = l'[k]?) : elt l i = elt l' k := by
  rw [elt, elt, List.getD_eq_getElem?_getD, List.getD_eq_getElem?_getD, h]

theorem rotatef_eq {l : List α} {i j : ℕ} (hi : i < l.length) (hj : j < l.length) :
    rotatef l i j = (l.set i l[j]).set j l[i] := by
  rw [rotatef, elt, elt, List.getD_eq_getElem l default hi, List.getD_eq_getElem l default hj]

theorem rotatef_length (l : List α) (i j : ℕ) : (rotatef l i j).length = l.length := by
  rw [rotatef, List.length_set, List.length_set]

theorem elt_rotatef {l : List α} {i j : ℕ} (hi : i < l.length) (hj : j < l.length) (k : ℕ) :
    elt (rotatef l i j) k = if k = j then elt l i else if k = i then elt l j else elt l k := by
  rw [rotatef_eq hi hj]
  split
  · next h => exact elt_of_getElem? ((getElem?_swap hi hj k).trans (if_pos h))
  · next h =>
    split
    · next h' => exact elt_of_getElem? ((getElem?_swap hi hj k).trans ((if_neg h).trans (if_pos h')))
    · next h' => exact elt_of_getElem? ((getElem?_swap hi hj k).trans ((if_neg h).trans (if_neg h')))

theorem rotatef_rearranged {l : List α} {i j start stop : ℕ} (hstop : stop ≤ l.length)
    (hsi : start ≤ i) (his : i < stop) (hsj : start ≤ j) (hjs : j < stop) :
    Rearranged start stop l (rotatef l i j) := by
  rw [rotatef_eq (Nat.lt_of_lt_of_le his hstop) (Nat.lt_of_lt_of_le hjs hstop)]
  exact .swap _ _ hsi his hsj hjs

variable {l : List α} {d : α} {i j : ℕ}

variable (predicate key) in
theorem scanDown_spec (hij : i < j) :
    i ≤ (scanDown predicate key l (key d) i j).1 ∧ (scanDown predicate key l (key d) i j).1 < j ∧
      ((scanDown predicate key l (key d) i j).2 = true →
        (scanDown predicate key l (key d) i j).1 = i) ∧
      ((scanDown predicate key l (key d) i j).2 ≠ true →
        i < (scanDown predicate key l (key d) i j).1 ∧ precedes predicate key
          (elt l (scanDown predicate key l (key d) i j).1) d = true) ∧
      ∀ k, (scanDown predicate key l (key d) i j).1 < k → k < j →
        precedes predicate key (elt l k) d = false := by
  induction j with
  | zero => omega
  | succ j ih =>
    by_cases hj : j > i
    · by_cases hbefore : predicate (key (elt l j)) (key d) = true
      · simp only [scanDown, if_pos hj, if_pos hbefore]
        exact ⟨by omega, by omega, fun h => Bool.noConfusion h, fun _ => ⟨hj, hbefore⟩,
          fun k hk hk' => by omega⟩
      · simp only [scanDown, if_pos hj, if_neg hbefore]
        obtain ⟨hi, hlt, hend, hfound, hpassed⟩ := ih hj
        refine ⟨hi, by omega, hend, hfound, fun k hk hk' => ?_⟩
        by_cases hkj : k = j
        · subst hkj
          simpa [precedes] using hbefore
        · exact hpassed k hk (by omega)
    · simp only [scanDown, if_neg hj]
      exact ⟨by omega, by omega, fun _ => by omega, fun h => absurd rfl h,
        fun k hk hk' => by omega⟩

variable (predicate key) in
theorem scanUp_spec {n : ℕ} (hn : j ≤ i + n) (hij : i < j) :
    i < (scanUp predicate key l (key d) j n i).1 ∧ (scanUp predicate key l (key d) j n i).1 ≤ j ∧
      ((scanUp predicate key l (key d) j n i).2 = true →
        (scanUp predicate key l (key d) j n i).1 = j) ∧
      ((scanUp predicate key l (key d) j n i).2 ≠ true →
        (scanUp predicate key l (key d) j n i).1 < j ∧ precedes predicate key
          (elt l (scanUp predicate key l (key d) j n i).1) d = false) ∧
      ∀ k, i < k → k < (scanUp predicate key l (key d) j n i).1 →
        precedes predicate key (elt l k) d = true := by
  induction n generalizing i with
  | zero => omega
  | succ n ih =>
    by_cases hj : i + 1 < j
    · by_cases hbefore : predicate (key (elt l (i + 1))) (key d) = true
      · simp only [scanUp, if_pos hj, if_pos hbefore]
        obtain ⟨hi, hle, hend, hfound, hpassed⟩ := ih (by omega) hj
        refine ⟨by omega, hle, hend, hfound, fun k hk hk' => ?_⟩
        by_cases hki : k = i + 1
        · subst hki
          exact hbefore
        · exact hpassed k (by omega) hk'
      · simp only [scanUp, if_pos hj, if_neg hbefore]
        exact ⟨by omega, by omega, fun h => Bool.noConfusion h,
          fun _ => ⟨hj, by simpa [precedes] using hbefore⟩, fun k hk hk' => by omega⟩
    · simp only [scanUp, if_neg hj]
      exact ⟨by omega, by omega, fun _ => by omega, fun h => absurd rfl h,
        fun k hk hk' => by omega⟩

structure Between (before : α → α → Bool) (d : α) (start stop : ℕ) (l : List α) (i j : ℕ) :
    Prop where
  start_le : start ≤ i
  lt : i < j
  le_stop : j ≤ stop
  below : ∀ k, start < k → k ≤ i → before (elt l k) d = true
  above : ∀ k, j ≤ k → k < stop → before (elt l k) d = false

variable (predicate key) in
theorem outerLoop_spec {n start stop : ℕ} (hn : j ≤ i + n) (hstop : stop ≤ l.length)
    (h : Between (precedes predicate key) d start stop l i j) :
    ∃ l' q, outerLoop predicate key (key d) n l i j = some (l', q) ∧
      Rearranged (start + 1) stop l l' ∧ start ≤ q ∧ q < stop ∧
      (∀ k, start < k → k ≤ q → precedes predicate key (elt l' k) d = true) ∧
      ∀ k, q < k → k < stop → precedes predicate key (elt l' k) d = false := by
  induction n generalizing l i j with
  | zero =>
    have := h.lt
    omega
  | succ n ih =>
    have hstart := h.start_le
    have hle := h.le_stop
    have hlt := h.lt
    obtain ⟨hidown, hdownj, hend, hfound, hpassed⟩ :=
      scanDown_spec predicate key (l := l) (d := d) h.lt
    rw [outerLoop]
    generalize scanDown predicate key l (key d) i j = down at *
    have habove : ∀ k, down.1 < k → k < stop → precedes predicate key (elt l k) d = false := by
      intro k hk hks
      by_cases hkj : k < j
      · exact hpassed k hk hkj
      · exact h.above k (by omega) hks
    by_cases hdown : down.2 = true
    · simp only [if_pos hdown]
      rw [hend hdown] at habove ⊢
      exact ⟨l, i, rfl, .refl _ _ l, hstart, by omega, h.below, habove⟩
    obtain ⟨hlow, hbefore⟩ := hfound hdown
    obtain ⟨hiup, hupj, hend', hfound', hpassed'⟩ := scanUp_spec predicate key
      (l := l) (d := d) (n := down.1 - i) (by omega) hlow
    simp only [if_neg hdown]
    generalize scanUp predicate key l (key d) down.1 (down.1 - i) i = up at *
    have hbelow : ∀ k, start < k → k < up.1 → precedes predicate key (elt l k) d = true := by
      intro k hk hku
      by_cases hki : k ≤ i
      · exact h.below k hk hki
      · exact hpassed' k (by omega) hku
    by_cases hup : up.2 = true
    · simp only [if_pos hup]
      rw [hend' hup] at hbelow
      refine ⟨l, down.1, rfl, .refl _ _ l, by omega, by omega, fun k hk hkd => ?_, habove⟩
      by_cases hkd' : k = down.1
      · exact hkd' ▸ hbefore
      · exact hbelow k hk (by omega)
    obtain ⟨hup', hafter⟩ := hfound' hup
    simp only [if_neg hup]
    have hupl : up.1 < l.length := by omega
    have hdownl : down.1 < l.length := by omega
    obtain ⟨l', q, hloop, hre, hq⟩ := ih (l := rotatef l up.1 down.1) (i := up.1) (j := down.1)
      (by omega) (by rwa [rotatef_length]) {
        start_le := by omega
        lt := hup'
        le_stop := by omega
        below := fun k hk hku => by
          rw [elt_rotatef hupl hdownl]
          split
          · omega
          · split
            · exact hbefore
            · exact hbelow k hk (by omega)
        above := fun k hk hks => by
          rw [elt_rotatef hupl hdownl]
          split
          · exact hafter
          · split
            · omega
            · exact habove k (by omega) hks }
    exact ⟨l', q, hloop, (rotatef_rearranged hstop (by omega) (by omega) (by omega)
      (by omega)).trans hre, hq⟩

structure Parted (before : α → α → Bool) (start stop : ℕ) (l : List α) (q : ℕ) : Prop where
  start_le : start ≤ q
  lt_stop : q < stop
  left : AllWithin (fun x => before x (elt l q) = true) start q l
  right : AllWithin (fun x => before x (elt l q) = false) (q + 1) stop l

theorem mem_getElem? {x : α} {k : ℕ} (h : x ∈ l[k]?) : x = elt l k := by
  rw [elt, List.getD_eq_getElem?_getD, h, Option.getD_some]

variable (predicate key) in
theorem partition_spec {start stop : ℕ} (hlt : start < stop) (hstop : stop < l.length) :
    ∃ l' q, partition predicate key l start stop = some (l', q) ∧
      Rearranged start (stop + 1) l l' ∧
      Parted (precedes predicate key) start (stop + 1) l' q := by
  have hp : start ≤ start + (stop - start) / 2 ∧ start + (stop - start) / 2 < stop + 1 := by omega
  rw [partition]
  generalize start + (stop - start) / 2 = p at hp
  have hpl : p < l.length := by omega
  have hsl : start < l.length := by omega
  have hfirst : Rearranged start (stop + 1) l (rotatef l p start) :=
    rotatef_rearranged hstop hp.1 hp.2 (Nat.le_refl _) (by omega)
  obtain ⟨l', q, hloop, hre, hsq, hqs, hbelow, habove⟩ := outerLoop_spec predicate key
    (l := rotatef l p start) (d := elt l p) (n := stop + 1 - start) (i := start) (j := stop + 1)
    (by omega) (show stop + 1 ≤ _ by rw [rotatef_length]; omega)
    ⟨Nat.le_refl start, by omega, Nat.le_refl _, fun k hk hk' => by omega, fun k hk hk' => by omega⟩
  have hlen : l'.length = l.length := (hre.perm.trans hfirst.perm).length_eq
  have hpivot : elt l' start = elt l p := by
    rw [elt_of_getElem? (hre.outside start (Or.inl (Nat.lt_succ_self _))), elt_rotatef hpl hsl,
      if_pos rfl]
  have hswap : (l'.set start (elt l' q)).set q (elt l p) = rotatef l' start q := by
    rw [rotatef, hpivot]
  have helt : ∀ k, elt (rotatef l' start q) k =
      if k = q then elt l p else if k = start then elt l' q else elt l' k := by
    intro k
    rw [elt_rotatef (by omega) (by omega), hpivot]
  simp only [hloop, Option.map_some, hswap]
  have hre' : Rearranged start (stop + 1) l' (rotatef l' start q) :=
    rotatef_rearranged (by omega) (Nat.le_refl _) (by omega) hsq (by omega)
  refine ⟨_, q, rfl, (hfirst.trans (hre.widen (Nat.le_succ _) (Nat.le_refl _))).trans hre',
    hsq, hqs, fun k hk hkq x hx => ?_, fun k hk hks x hx => ?_⟩
  · rw [mem_getElem? hx, helt q, if_pos rfl, helt k, if_neg (Nat.ne_of_lt hkq)]
    split
    · exact hbelow q (by omega) (Nat.le_refl q)
    · exact hbelow k (by omega) (by omega)
  · rw [mem_getElem? hx, helt q, if_pos rfl, helt k, if_neg (by omega), if_neg (by omega)]
    exact habove k (by omega) hks

theorem Parted.rearranged_left {before : α → α → Bool} {start stop q : ℕ} {l l' : List α}
    (h : Parted before start stop l q) (hre : Rearranged start q l l') :
    Parted before start stop l' q := by
  have helt : elt l' q = elt l q := elt_of_getElem? (hre.outside q (Or.inr (Nat.le_refl q)))
  exact ⟨h.start_le, h.lt_stop, helt ▸ h.left.rearranged hre,
    helt ▸ h.right.elsewhere hre (Or.inr (Nat.le_succ q))⟩

theorem Parted.rearranged_right {before : α → α → Bool} {start stop q : ℕ} {l l' : List α}
    (h : Parted before start stop l q) (hre : Rearranged (q + 1) stop l l') :
    Parted before start stop l' q := by
  have helt : elt l' q = elt l q := elt_of_getElem? (hre.outside q (Or.inl (Nat.lt_succ_self q)))
  exact ⟨h.start_le, h.lt_stop, helt ▸ h.left.elsewhere hre (Or.inl (Nat.le_succ q)),
    helt ▸ h.right.rearranged hre⟩

theorem Parted.sorted (hp : WeakOrder predicate) {start stop q : ℕ} {l : List α}
    (h : Parted (precedes predicate key) start stop l q)
    (hleft : SortedWithin (precedes predicate key) start q l)
    (hright : SortedWithin (precedes predicate key) (q + 1) stop l) :
    SortedWithin (precedes predicate key) start stop l := by
  have hp' := precedes_weakOrder hp key
  intro i k hi hik hk x hx y hy
  by_cases hkq : k < q
  · exact hleft i k hi hik hkq x hx y hy
  by_cases hqi : q < i
  · exact hright i k hqi hik hk x hx y hy
  by_cases hiq : i = q
  · subst hiq
    rw [mem_getElem? hx]
    exact h.right k (by omega) hk y hy
  · have hbefore := h.left i hi (by omega) x hx
    by_cases hkq' : k = q
    · subst hkq'
      rw [mem_getElem? hy]
      exact hp'.asymm hbefore
    · have hafter : precedes predicate key y (elt l q) = false := h.right k (by omega) hk y hy
      by_contra hyx
      have := hp'.trans y x _ (by simpa using hyx) hbefore
      rw [this] at hafter
      exact Bool.noConfusion hafter

variable (predicate key) in
theorem quickSort_spec (hp : WeakOrder predicate) {n start stop : ℕ} (hn : stop - start < n)
    (hstop : stop ≤ l.length) :
    ∃ l', quickSort predicate key n l start ((stop : ℤ) - 1) = some l' ∧
      Rearranged start stop l l' ∧ SortedWithin (precedes predicate key) start stop l' := by
  induction n generalizing l start stop with
  | zero => omega
  | succ n ih =>
    rw [quickSort]
    by_cases hlt : (start : ℤ) < (stop : ℤ) - 1
    · rw [if_pos hlt]
      have hlast : ((stop : ℤ) - 1).toNat = stop - 1 := by omega
      obtain ⟨l₁, q, hpart, hre, hparted⟩ := partition_spec predicate key (l := l)
        (show start < stop - 1 by omega) (by omega)
      rw [Nat.sub_add_cancel (by omega)] at hre hparted
      have hsq := hparted.start_le
      have hqs := hparted.lt_stop
      have hlen := hre.perm.length_eq
      have hleft : ∀ r : List α, r.length = l.length → ∃ r',
          quickSort predicate key n r start ((q : ℤ) - 1) = some r' ∧ Rearranged start q r r' ∧
            SortedWithin (precedes predicate key) start q r' := fun r hr =>
        ih (by omega) (by omega)
      have hright : ∀ r : List α, r.length = l.length → ∃ r',
          quickSort predicate key n r (q + 1) ((stop : ℤ) - 1) = some r' ∧
            Rearranged (q + 1) stop r r' ∧
            SortedWithin (precedes predicate key) (q + 1) stop r' := fun r hr =>
        ih (by omega) (by omega)
      simp only [hlast, hpart, Option.bind_some]
      split
      · obtain ⟨l₂, hl₂, hre₂, hs₂⟩ := hleft l₁ hlen
        obtain ⟨l₃, hl₃, hre₃, hs₃⟩ := hright l₂ (hre₂.perm.length_eq.trans hlen)
        refine ⟨l₃, by rw [hl₂, Option.bind_some, hl₃], (hre.trans
          (hre₂.widen (Nat.le_refl _) (by omega))).trans (hre₃.widen (by omega) (Nat.le_refl _)), ?_⟩
        exact ((hparted.rearranged_left hre₂).rearranged_right hre₃).sorted hp
          (hs₂.elsewhere hre₃ (Or.inl (Nat.le_succ q))) hs₃
      · obtain ⟨l₂, hl₂, hre₂, hs₂⟩ := hright l₁ hlen
        obtain ⟨l₃, hl₃, hre₃, hs₃⟩ := hleft l₂ (hre₂.perm.length_eq.trans hlen)
        refine ⟨l₃, by rw [hl₂, Option.bind_some, hl₃], (hre.trans
          (hre₂.widen (by omega) (Nat.le_refl _))).trans (hre₃.widen (Nat.le_refl _) (by omega)), ?_⟩
        exact ((hparted.rearranged_right hre₂).rearranged_left hre₃).sorted hp hs₃
          (hs₂.elsewhere hre₃ (Or.inr (Nat.le_succ q)))
    · rw [if_neg hlt]
      exact ⟨l, rfl, .refl _ _ l, fun i k hi hik hk => by omega⟩

theorem sortVector_spec (hp : WeakOrder predicate) (key : α → κ) {v : SequenceRemoval.Vector α}
    (hv : v.length ≤ v.storage.length) :
    ∃ x, sortVector predicate key v = some { v with storage := x ++ v.storage.drop v.length } ∧
      Sorts (precedes predicate key) v.elements x := by
  obtain ⟨l', hl', hre, hsorted⟩ := quickSort_spec predicate key hp
    (show v.length - 0 < v.length + 1 by omega) hv
  have hdrop : l'.drop v.length = v.storage.drop v.length := by
    apply List.ext_getElem?
    intro i
    rw [List.getElem?_drop, List.getElem?_drop]
    exact hre.outside _ (Or.inr (Nat.le_add_right _ i))
  have hl : l' = l'.take v.length ++ v.storage.drop v.length := by
    rw [← hdrop, List.take_append_drop]
  refine ⟨l'.take v.length, ?_, ?_, ?_⟩
  · rw [← hl, sortVector, hl', Option.map_some]
  · have hperm : (l'.take v.length ++ v.storage.drop v.length).Perm
        (v.storage.take v.length ++ v.storage.drop v.length) := by
      rw [← hl, List.take_append_drop]
      exact hre.perm
    exact (List.perm_append_right_iff _).mp hperm
  · apply List.pairwise_iff_getElem.mpr
    intro i k hi hk hik
    rw [List.length_take] at hi hk
    have hx : (l'.take v.length)[i] ∈ l'[i]? := by
      rw [List.getElem_take]
      exact List.getElem?_eq_getElem (by omega)
    have hy : (l'.take v.length)[k] ∈ l'[k]? := by
      rw [List.getElem_take]
      exact List.getElem?_eq_getElem (by omega)
    exact hsorted i k (Nat.zero_le i) hik (by omega) _ hx _ hy

end QuickSorting
