import Ecl.QuickSorting
import Ecl.VectorSorting

/-! # SORT, STABLE-SORT and MERGE

A sorted sequence is a permutation in which no key precedes an earlier one; STABLE-SORT keeps
equivalent elements in order as well, except that bit vectors go through QUICK-SORT. -/
namespace SortingCorrectness

open ConsChains SequenceSorting StableSorting ListSorting VectorSorting QuickSorting Rearrangements

section
variable {α κ : Type} {predicate : κ → κ → Bool} {key : α → κ} [Inhabited α]

theorem mergeSteps_spec (hp : WeakOrder predicate) {l r : List α} {n j i1 i2 : ℕ}
    {newseq : List α} (h1 : i1 ≤ l.length) (h2 : i2 ≤ r.length)
    (hn : n = l.length - i1 + (r.length - i2)) (hsize : newseq.length = j + n) :
    mergeSteps predicate key l r n j i1 i2 newseq =
      newseq.take j ++ mergeBy (precedes predicate key) (l.drop i1) (r.drop i2) := by
  induction n generalizing j i1 i2 newseq with
  | zero =>
    rw [mergeSteps, List.drop_eq_nil_of_le (by omega), List.drop_eq_nil_of_le (by omega),
      mergeBy_nil_left, List.append_nil, List.take_of_length_le (by omega)]
  | succ n ih =>
    have hwrite : ∀ x : α, (newseq.set j x).take (j + 1) = newseq.take j ++ [x] := fun x => by
      rw [List.take_add_one, List.getElem?_set_self (by omega),
        List.take_set_of_le (Nat.le_refl j), Option.toList_some]
    have hset : ∀ x : α, (newseq.set j x).length = j + 1 + n := fun x => by
      rw [List.length_set, hsize]
      omega
    have hl : i1 < l.length → l.drop i1 = elt l i1 :: l.drop (i1 + 1) := fun h => by
      rw [List.drop_eq_getElem_cons h, elt, List.getD_eq_getElem l default h]
    have hr : i2 < r.length → r.drop i2 = elt r i2 :: r.drop (i2 + 1) := fun h => by
      rw [List.drop_eq_getElem_cons h, elt, List.getD_eq_getElem r default h]
    rw [mergeSteps]
    by_cases hend1 : i1 ≥ l.length
    · rw [if_pos hend1, ih h1 (by omega) (by omega) (hset _), hwrite, hr (by omega),
        List.drop_eq_nil_of_le hend1, mergeBy_nil_left, mergeBy_nil_left, List.append_assoc]
      rfl
    rw [if_neg hend1]
    by_cases hend2 : i2 ≥ r.length
    · rw [if_pos hend2, ih (by omega) h2 (by omega) (hset _), hwrite, hl (by omega),
        List.drop_eq_nil_of_le hend2, mergeBy_nil_right, mergeBy_nil_right, List.append_assoc]
      rfl
    rw [if_neg hend2, takesRight_eq hp, hl (by omega), hr (by omega)]
    by_cases hbefore : precedes predicate key (elt r i2) (elt l i1) = true
    · have hpredicate : predicate (key (elt r i2)) (key (elt l i1)) = true := hbefore
      rw [if_pos hpredicate, ih h1 (by omega) (by omega) (hset _), hwrite,
        mergeBy_cons_right hbefore, hl (by omega), List.append_assoc]
      rfl
    · have hpredicate : ¬ predicate (key (elt r i2)) (key (elt l i1)) = true := hbefore
      rw [if_neg hpredicate, ih (by omega) h2 (by omega) (hset _), hwrite,
        mergeBy_cons_left hbefore, hr (by omega), List.append_assoc]
      rfl

theorem merge_spec (hp : WeakOrder predicate) (key : α → κ) (l r : List α) :
    merge predicate key l r = mergeBy (precedes predicate key) l r := by
  rw [merge, mergeSteps_spec hp (Nat.zero_le _) (Nat.zero_le _) (by omega)
    (by rw [List.length_replicate, Nat.zero_add])]
  rfl

theorem rotatef_same {l : List α} {i j : ℕ} (hi : i < l.length) (hj : j < l.length)
    (h : elt l i = elt l j) : rotatef l i j = l := by
  have hi' : elt l i = l[i] := List.getD_eq_getElem l default hi
  have hj' : elt l j = l[j] := List.getD_eq_getElem l default hj
  rw [rotatef, ← h, hi', List.set_getElem_self, ← hi', h, hj', List.set_getElem_self]

theorem partition_blank (hblank : ∀ x y, precedes predicate key x y = false) {start stop : ℕ}
    {l : List α} (hlt : start < stop) (hstop : stop < l.length) :
    partition predicate key l start stop =
      some (rotatef l (start + (stop - start) / 2) start, start) := by
  have hpl : start + (stop - start) / 2 < l.length := by omega
  have hpivot := elt_rotatef (l := l) hpl (show start < l.length by omega) start
  rw [if_pos rfl] at hpivot
  rw [partition]
  generalize start + (stop - start) / 2 = p at hpl hpivot
  obtain ⟨-, -, hend, hfound, -⟩ := scanDown_spec predicate key (l := rotatef l p start)
    (d := elt l p) (show start < stop + 1 by omega)
  have hdown : (scanDown predicate key (rotatef l p start) (key (elt l p)) start
      (stop + 1)).2 = true := by
    by_contra h
    have hbefore := (hfound h).2
    rw [hblank] at hbefore
    exact Bool.noConfusion hbefore
  obtain ⟨n, hn⟩ : ∃ n, stop + 1 - start = n + 1 := ⟨stop - start, by omega⟩
  simp only [hn, outerLoop, if_pos hdown, hend hdown, Option.map_some]
  have hself : (rotatef l p start).set start (elt l p) = rotatef l p start := by
    have hlen : start < (rotatef l p start).length := by
      rw [rotatef_length]
      omega
    rw [← hpivot, elt, List.getD_eq_getElem _ default hlen, List.set_getElem_self]
  rw [hpivot, hself, hself]

theorem quickSort_blank (hblank : ∀ x y, precedes predicate key x y = false) {n start stop : ℕ}
    {l : List α} (hn : stop - start < n) (hstop : stop ≤ l.length) :
    ∃ l', quickSort predicate key n l start ((stop : ℤ) - 1) = some l' ∧
      (∀ k, k < start → elt l' k = elt l k) ∧
      (l' = l ↔ ∀ s, start ≤ s → s + 1 < stop → elt l s = elt l (s + (stop - 1 - s) / 2)) := by
  induction n generalizing start l with
  | zero => omega
  | succ n ih =>
    rw [quickSort]
    by_cases hlt : (start : ℤ) < (stop : ℤ) - 1
    · have hlast : ((stop : ℤ) - 1).toNat = stop - 1 := by omega
      obtain ⟨p, hp⟩ : ∃ p, start + (stop - 1 - start) / 2 = p := ⟨_, rfl⟩
      have hpl : p < l.length := by omega
      have hsl : start < l.length := by omega
      obtain ⟨k, rfl⟩ : ∃ k, n = k + 1 := ⟨n - 1, by omega⟩
      have hleft : quickSort predicate key (k + 1) (rotatef l p start) start ((start : ℤ) - 1) =
          some (rotatef l p start) := by
        rw [quickSort, if_neg (by omega)]
      obtain ⟨l', hl', hfront, hiff⟩ := ih (l := rotatef l p start)
        (show stop - (start + 1) < k + 1 by omega) (by rwa [rotatef_length])
      rw [if_pos hlt, hlast, partition_blank hblank (by omega) (by omega), hp, Option.bind_some,
        if_pos (by omega), hleft, Option.bind_some]
      have hnow : elt l' start = elt l p := by
        rw [hfront start (Nat.lt_succ_self _), elt_rotatef hpl hsl, if_pos rfl]
      refine ⟨l', hl', fun k hk => ?_, fun h => ?_, fun h => ?_⟩
      · rw [hfront k (by omega), elt_rotatef hpl hsl, if_neg (by omega), if_neg (by omega)]
      · have hsame : rotatef l p start = l := by
          rw [h] at hnow
          exact rotatef_same hpl hsl hnow.symm
        rw [hsame] at hiff
        intro s hs hs'
        by_cases hfirst : s = start
        · rw [hfirst, hp, ← hnow, h]
        · exact hiff.mp h s (by omega) hs'
      · have hsame : rotatef l p start = l :=
          rotatef_same hpl hsl (hp ▸ (h start (Nat.le_refl _) (by omega)).symm)
        rw [hsame] at hiff
        exact hiff.mpr fun s hs hs' => h s (by omega) hs'
    · rw [if_neg hlt]
      exact ⟨l, rfl, fun _ _ => rfl, fun _ s hs hs' => by omega, fun _ => rfl⟩

theorem middles_iff {l : List α} {n : ℕ} :
    (∀ s, s + 1 < n → elt l s = elt l (s + (n - 1 - s) / 2)) ↔
      ∀ i j, i + 1 < n → j + 1 < n → elt l i = elt l j := by
  constructor
  · intro h
    have hlast : ∀ k s, s + k + 2 = n → elt l s = elt l (n - 2) := by
      intro k
      induction k using Nat.strong_induction_on with
      | h k ih =>
        intro s hs
        by_cases hk : k = 0
        · rw [show n - 2 = s by omega]
        · rw [h s (by omega)]
          exact ih (n - 2 - (s + (n - 1 - s) / 2)) (by omega) _ (by omega)
    intro i j hi hj
    rw [hlast (n - 2 - i) i (by omega), hlast (n - 2 - j) j (by omega)]
  · intro h s hs
    exact h s _ hs (by omega)

end

section
variable {κ : Type} {predicate : κ → κ → Bool} {key : Bool → κ}

theorem stablySorts_of_distinct (hp : WeakOrder predicate) {l x : List Bool}
    (hdistinct : precedes predicate key false true = true ∨ precedes predicate key true false = true)
    (h : Sorts (precedes predicate key) l x) : StablySorts (precedes predicate key) l x := by
  refine ⟨h, fun b => ?_⟩
  have hirrefl := (precedes_weakOrder hp key).irrefl
  have hsame : ∀ c, equivalent (precedes predicate key) b c = true → c = b := by
    intro c hc
    simp only [equivalent, Bool.and_eq_true, Bool.not_eq_true'] at hc
    cases b <;> cases c <;> simp_all
  have hall : ∀ r : List Bool, r.filter (equivalent (precedes predicate key) b) =
      List.replicate (r.filter (equivalent (precedes predicate key) b)).length b := fun r =>
    List.eq_replicate_of_mem fun c hc => hsame c (List.mem_filter.mp hc).2
  rw [hall x, hall l, (h.perm.filter _).length_eq]

theorem stablySorts_iff_of_blank (hblank : ∀ x y, precedes predicate key x y = false)
    {l x : List Bool} (h : Sorts (precedes predicate key) l x) :
    StablySorts (precedes predicate key) l x ↔ x = l := by
  constructor
  · intro hs
    have hfilter := hs.stable true
    have hall : ∀ r : List Bool, r.filter (equivalent (precedes predicate key) true) = r := fun r =>
      List.filter_eq_self.mpr fun c _ => by simp [equivalent, hblank]
    rwa [hall, hall] at hfilter
  · rintro rfl
    exact ⟨h, fun _ => rfl⟩

theorem bits_stable_iff (hp : WeakOrder predicate) (key : Bool → κ)
    {v : SequenceRemoval.Vector Bool} (hv : v.length ≤ v.storage.length) :
    ∃ x, stableSortVector predicate key true v =
        some { v with storage := x ++ v.storage.drop v.length } ∧
      Sorts (precedes predicate key) v.elements x ∧
      (StablySorts (precedes predicate key) v.elements x ↔
        precedes predicate key false true = true ∨ precedes predicate key true false = true ∨
          ∀ i j, i + 1 < v.length → j + 1 < v.length → elt v.storage i = elt v.storage j) := by
  obtain ⟨x, hx, hsorts⟩ := sortVector_spec hp key hv
  refine ⟨x, hx, hsorts, ?_⟩
  by_cases h01 : precedes predicate key false true = true
  · exact ⟨fun _ => Or.inl h01, fun _ => stablySorts_of_distinct hp (Or.inl h01) hsorts⟩
  by_cases h10 : precedes predicate key true false = true
  · exact ⟨fun _ => Or.inr (Or.inl h10),
      fun _ => stablySorts_of_distinct hp (Or.inr h10) hsorts⟩
  have hirrefl := (precedes_weakOrder hp key).irrefl
  have hblank : ∀ b c, precedes predicate key b c = false := by
    intro b c
    cases b <;> cases c <;> simp_all
  obtain ⟨l', hl', -, hiff⟩ := quickSort_blank hblank
    (show v.length - 0 < v.length + 1 by omega) hv
  have hstorage : x ++ v.storage.drop v.length = l' := by
    rw [sortVector, hl', Option.map_some] at hx
    exact (congrArg SequenceRemoval.Vector.storage (Option.some.inj hx)).symm
  have hsame : x = v.elements ↔ l' = v.storage := by
    rw [← hstorage, SequenceRemoval.Vector.elements]
    constructor
    · rintro rfl
      exact List.take_append_drop _ _
    · intro h
      exact List.append_cancel_right (h.trans (List.take_append_drop v.length v.storage).symm)
  rw [stablySorts_iff_of_blank hblank hsorts, hsame, hiff]
  simp only [Nat.zero_le, true_imp_iff, middles_iff, h01, h10, Bool.false_eq_true, false_or]

end

/-- Every sorting ends with what it should, but for STABLE-SORT of a bit vector whose bits the
predicate does not tell apart, unless all bits but the last are the same. -/
theorem sorting_correct {κ : Type} (predicate : κ → κ → Bool) (hp : WeakOrder predicate) :
    (∀ {α : Type} [Inhabited α] (key : α → κ),
      (∀ (m : Memory α) (p : Option ℕ) (l : List ℕ), Chain m p l →
        ∃ m' p' l', sortList predicate key m p = some (m', p') ∧ Chain m' p' l' ∧
          StablySorts (precedes predicate key) (l.map m.car) (l'.map m'.car)) ∧
      (∀ v : SequenceRemoval.Vector α, v.length ≤ v.storage.length →
        ∃ x, sortVector predicate key v =
            some { v with storage := x ++ v.storage.drop v.length } ∧
          Sorts (precedes predicate key) v.elements x) ∧
      (∀ v : SequenceRemoval.Vector α, v.length ≤ v.storage.length →
        ∃ x, stableSortVector predicate key false v =
            some { v with storage := x ++ v.storage.drop v.length } ∧
          StablySorts (precedes predicate key) v.elements x) ∧
      ∀ l r l' r' : List α, Sorts (precedes predicate key) l l' →
        Sorts (precedes predicate key) r r' →
        Sorts (precedes predicate key) (l ++ r) (merge predicate key l' r') ∧
          ∀ x, (merge predicate key l' r').filter (equivalent (precedes predicate key) x) =
            l'.filter (equivalent (precedes predicate key) x) ++
              r'.filter (equivalent (precedes predicate key) x)) ∧
    ∀ (key : Bool → κ) (v : SequenceRemoval.Vector Bool), v.length ≤ v.storage.length →
      ∃ x, stableSortVector predicate key true v =
          some { v with storage := x ++ v.storage.drop v.length } ∧
        Sorts (precedes predicate key) v.elements x ∧
        (StablySorts (precedes predicate key) v.elements x ↔
          precedes predicate key false true = true ∨ precedes predicate key true false = true ∨
            ∀ i j, i + 1 < v.length → j + 1 < v.length → elt v.storage i = elt v.storage j) := by
  refine ⟨fun {α} _ key => ⟨fun m p l hchain => ?_, fun v hv => sortVector_spec hp key hv,
    fun v hv => vectorMergeSort_spec hp key hv, fun l r l' r' hl hr => ?_⟩,
    fun key v hv => bits_stable_iff hp key hv⟩
  · obtain ⟨m', p', l', hsort, h⟩ := sortList_spec hp key hchain
    refine ⟨m', p', l', hsort, h.chain, ?_⟩
    have hcar : l'.map m'.car = l'.map m.car :=
      List.map_congr_left fun b hb => h.car b (hchain.used b (h.perm.subset hb))
    rw [hcar]
    exact h.sorts
  · rw [merge_spec hp]
    have horder := precedes_weakOrder hp key
    exact ⟨⟨(mergeBy_perm l' r').trans (hl.perm.append hr.perm),
      mergeBy_sorted horder hl.sorted hr.sorted⟩, mergeBy_stable horder hl.sorted hr.sorted⟩

theorem weakOrder_nat : WeakOrder fun x y : ℕ => decide (x < y) where
  irrefl x := by simp
  trans x y z := by
    simp only [decide_eq_true_eq]
    exact Nat.lt_trans
  incomp_trans x y z := by
    simp only [decide_eq_true_eq]
    omega

theorem sorting_correct_nat :
    ∃ x, sortVector (fun x y : ℕ => decide (x < y)) (id : ℕ → ℕ) ⟨[3, 1, 2], none⟩ =
        some ⟨x ++ [], none⟩ ∧
      Sorts (precedes (fun x y : ℕ => decide (x < y)) id) [3, 1, 2] x :=
  ((sorting_correct (fun x y : ℕ => decide (x < y)) weakOrder_nat).1 id).2.1 ⟨[3, 1, 2], none⟩
    (by decide)

/-- Three bits with one key for both: the first two change places. -/
theorem stable_sort_moves_bits :
    stableSortVector (fun x y : ℕ => decide (x < y)) (fun _ : Bool => 0) true
      ⟨[false, true, true], none⟩ = some ⟨[true, false, true], none⟩ := by
  decide

end SortingCorrectness
