import Ecl.ListSorting

/-! # The merge sort of vectors

A pass turns sorted runs of n elements into sorted runs of twice as many. -/
namespace VectorSorting

open SequenceSorting StableSorting ListSorting

variable {α κ : Type} {predicate : κ → κ → Bool} {key : α → κ}

def slice (l : List α) (i stop : ℕ) : List α := (l.drop i).take (stop - i)

theorem slice_self (l : List α) (i : ℕ) : slice l i i = [] := by simp [slice]

theorem slice_length {l : List α} {i stop : ℕ} (h : stop ≤ l.length) :
    (slice l i stop).length = stop - i := by
  rw [slice, List.length_take, List.length_drop]
  omega

theorem slice_split (l : List α) {i j stop : ℕ} (hi : i ≤ j) (hj : j ≤ stop) :
    slice l i stop = slice l i j ++ slice l j stop := by
  have hdrop : l.drop j = (l.drop i).drop (j - i) := by rw [List.drop_drop, Nat.add_sub_cancel' hi]
  rw [slice, slice, slice, hdrop, show stop - i = (j - i) + (stop - j) by omega, List.take_add]

theorem write_spec {target : List α} {t k : ℕ} (x : α) (rest : List α) (ht : t < target.length) :
    (target.set t x).take (t + 1) ++ rest ++ (target.set t x).drop (t + 1 + k) =
      target.take t ++ x :: rest ++ target.drop (t + (k + 1)) := by
  rw [List.take_add_one, List.getElem?_set_self ht, List.take_set_of_le (Nat.le_refl t),
    List.drop_set_of_lt (by omega), show t + 1 + k = t + (k + 1) by omega]
  simp

variable [Inhabited α]

theorem slice_cons {l : List α} {i stop : ℕ} (hi : i < stop) (h : stop ≤ l.length) :
    slice l i stop = elt l i :: slice l (i + 1) stop := by
  have hlt : i < l.length := Nat.lt_of_lt_of_le hi h
  rw [slice, slice, List.drop_eq_getElem_cons hlt, show stop - i = stop - (i + 1) + 1 by omega,
    List.take_succ_cons, elt, List.getD_eq_getElem l default hlt]

theorem copyLoop_spec {source : List α} {n i t : ℕ} {target : List α}
    (hi : i + n ≤ source.length) (ht : t + n ≤ target.length) :
    copyLoop source n i t target = target.take t ++ slice source i (i + n) ++ target.drop (t + n) := by
  induction n generalizing i t target with
  | zero => simp [copyLoop, slice_self]
  | succ n ih =>
    rw [copyLoop, ih (by omega) (by rw [List.length_set]; omega), write_spec _ _ (by omega),
      slice_cons (show i < i + (n + 1) by omega) hi, show i + 1 + n = i + (n + 1) by omega]

variable (predicate key) in
theorem mergeVectors_spec (source target : List α) {end1 end2 : ℕ}
    {n i j t : ℕ} (hi : i ≤ end1) (hend1 : end1 ≤ source.length) (hj : j ≤ end2)
    (hend2 : end2 ≤ source.length) (hn : end1 - i + (end2 - j) < n)
    (ht : t + (end1 - i + (end2 - j)) ≤ target.length) :
    mergeVectors predicate key source end1 end2 n i j t target = some (target.take t ++
      mergeBy (precedes predicate key) (slice source i end1) (slice source j end2) ++
      target.drop (t + (end1 - i + (end2 - j)))) := by
  induction n generalizing i j t target with
  | zero => omega
  | succ n ih =>
    rw [mergeVectors]
    by_cases hleft : i = end1
    · subst hleft
      rw [if_pos rfl, copyLoop_spec (by omega) (by omega), slice_self, mergeBy_nil_left,
        Nat.sub_self, Nat.zero_add, Nat.add_sub_cancel' hj]
    rw [if_neg hleft]
    by_cases hright : j = end2
    · subst hright
      rw [if_pos rfl, copyLoop_spec (by omega) (by omega), slice_self, mergeBy_nil_right,
        Nat.sub_self, Nat.add_zero, Nat.add_sub_cancel' hi]
    rw [if_neg hright, slice_cons (show i < end1 by omega) hend1,
      slice_cons (show j < end2 by omega) hend2]
    by_cases hbefore : precedes predicate key (elt source j) (elt source i) = true
    · have hpredicate : predicate (key (elt source j)) (key (elt source i)) = true := hbefore
      rw [if_pos hpredicate, ih _ hi (by omega) (by omega) (by rw [List.length_set]; omega),
        mergeBy_cons_right hbefore, write_spec _ _ (by omega),
        slice_cons (show i < end1 by omega) hend1,
        show end1 - i + (end2 - (j + 1)) + 1 = end1 - i + (end2 - j) by omega]
    · have hpredicate : ¬ predicate (key (elt source j)) (key (elt source i)) = true := hbefore
      rw [if_neg hpredicate, ih _ (by omega) hj (by omega) (by rw [List.length_set]; omega),
        mergeBy_cons_left hbefore, write_spec _ _ (by omega),
        slice_cons (show j < end2 by omega) hend2,
        show end1 - (i + 1) + (end2 - j) + 1 = end1 - i + (end2 - j) by omega]

theorem passLoop_spec (hp : WeakOrder predicate) {source l : List α} {vectorLen n : ℕ}
    (hn : 0 < n) (hlen : vectorLen ≤ source.length) {rounds u : ℕ} (target : List α)
    (hu : u ≤ vectorLen) (htarget : vectorLen ≤ target.length) (hrounds : vectorLen - u < rounds)
    (hruns : Runs (precedes predicate key) n l (slice source u vectorLen)) :
    ∃ x start1, passLoop predicate key source vectorLen n rounds u target =
        some (target.take u ++ x ++ target.drop vectorLen, start1) ∧
      Runs (precedes predicate key) (2 * n) l x ∧ u ≤ start1 ∧
      (start1 = u → StablySorts (precedes predicate key) l x) ∧
      (start1 ≠ u → 2 * n < vectorLen - u) := by
  induction rounds generalizing u target l with
  | zero => omega
  | succ rounds ih =>
    have hl := hruns.length_eq
    rw [slice_length hlen] at hl
    rw [passLoop]
    by_cases hmore : u + n < vectorLen
    · rw [if_pos hmore]
      obtain ⟨a, a', r, r', rfl, hs, ha, sorts, hr, hrest⟩ := hruns.of_long (by omega)
      rw [slice_split source (Nat.le_add_right u n) (Nat.le_of_lt hmore)] at hs
      have ha' : a'.length = n := sorts.perm.length_eq.trans ha
      obtain ⟨rfl, rfl⟩ := List.append_inj hs (by
        rw [slice_length (by omega), ha', Nat.add_sub_cancel_left])
      have hrlen := hrest.length_eq
      rw [slice_length hlen] at hrlen
      -- the end of the second run
      obtain ⟨end2, hend2, hle, hlt⟩ : ∃ end2, (if u + n + n > vectorLen then vectorLen
          else u + n + n) = end2 ∧ u + n < end2 ∧ end2 ≤ vectorLen := by
        refine ⟨_, rfl, ?_⟩
        split <;> omega
      have hmerge := mergeVectors_spec predicate key source target (n := end2 - u + 1)
        (show u ≤ u + n by omega) (by omega)
        (Nat.le_of_lt hle) (by omega) (by omega) (show u + _ ≤ _ by omega)
      simp only [hend2, hmerge, Option.bind_some]
      by_cases hdone : end2 = vectorLen
      · subst hdone
        have hsorts := sorts.merge (precedes_weakOrder hp key) (hrest.of_short (by
          split at hend2 <;> omega))
        rw [if_pos rfl, show u + (u + n - u + (end2 - (u + n))) = end2 by omega]
        refine ⟨_, _, rfl, .last ?_ hsorts, Nat.le_refl u, fun _ => hsorts,
          fun h => absurd rfl h⟩
        rw [List.length_append]
        split at hend2 <;> omega
      · obtain ⟨b, b', c, c', rfl, hs', hb, sorts', hc, hrest'⟩ := hrest.of_long (by
          split at hend2 <;> omega)
        have hend : end2 = u + n + n := by split at hend2 <;> omega
        rw [slice_split source (Nat.le_of_lt hle) hlt] at hs'
        obtain ⟨rfl, rfl⟩ := List.append_inj hs' (by
          rw [slice_length (by omega), sorts'.perm.length_eq, hb]
          omega)
        have hsorts := sorts.merge (precedes_weakOrder hp key) sorts'
        have hmerged := hsorts.perm.length_eq
        have hclen := List.length_pos_of_ne_nil hc
        simp only [List.length_append] at hmerged hl hrlen
        have hlength : (target.take u ++ mergeBy (precedes predicate key)
            (slice source u (u + n)) (slice source (u + n) end2)).length = end2 := by
          rw [List.length_append, hmerged, List.length_take]
          omega
        rw [show u + (u + n - u + (end2 - (u + n))) = end2 by omega, if_neg hdone]
        obtain ⟨x, start1, hpass, hruns', hstart, -, -⟩ := ih (target.take u ++
          mergeBy (precedes predicate key) (slice source u (u + n)) (slice source (u + n) end2) ++
          target.drop end2) hlt (by
            rw [List.length_append, hlength, List.length_drop]
            omega) (by omega) hrest'
        have hdrop : (target.take u ++ mergeBy (precedes predicate key) (slice source u (u + n))
            (slice source (u + n) end2) ++ target.drop end2).drop vectorLen =
            target.drop vectorLen := by
          rw [List.drop_append, List.drop_eq_nil_of_le (by omega), List.nil_append, hlength,
            List.drop_drop, Nat.add_sub_cancel' hlt]
        rw [hpass, List.take_left' hlength, hdrop]
        refine ⟨mergeBy (precedes predicate key) (slice source u (u + n))
          (slice source (u + n) end2) ++ x, start1, by simp only [List.append_assoc], ?_, by omega,
          fun h => by omega, fun _ => by omega⟩
        rw [← List.append_assoc]
        exact .run (by
          rw [List.length_append]
          omega) hsorts hc hruns'
    · rw [if_neg hmore]
      have hsorts := hruns.of_short (by omega)
      rw [copyLoop_spec (by omega) (by omega), Nat.add_sub_cancel' hu]
      exact ⟨_, _, rfl, .last (by omega) hsorts, Nat.le_refl u, fun _ => hsorts,
        fun h => absurd rfl h⟩

theorem vectorLoop_spec (hp : WeakOrder predicate) {l : List α} {vectorLen rounds n : ℕ}
    (hn : 0 < n) (hrounds : vectorLen < rounds + n) (direction : Bool) {vector temp : List α}
    (hvector : vectorLen ≤ vector.length) (htemp : temp.length = vectorLen)
    (hrounds' : 0 < rounds)
    (hruns : Runs (precedes predicate key) n l
      ((if direction = true then vector else temp).take vectorLen)) :
    ∃ x, vectorLoop predicate key vectorLen rounds n direction vector temp =
        some (x ++ vector.drop vectorLen) ∧ StablySorts (precedes predicate key) l x := by
  induction rounds generalizing n direction vector temp with
  | zero => omega
  | succ rounds ih =>
    have hsource : vectorLen ≤ (if direction = true then vector else temp).length := by
      split <;> omega
    have htarget : vectorLen ≤ (if direction = true then temp else vector).length := by
      split <;> omega
    have hslice : slice (if direction = true then vector else temp) 0 vectorLen =
        (if direction = true then vector else temp).take vectorLen := rfl
    obtain ⟨x, start1, hpass, hruns', -, hdone, hlong⟩ := passLoop_spec hp hn hsource _
      (Nat.zero_le vectorLen) htarget (show vectorLen - 0 < vectorLen.succ from Nat.lt_succ_self _)
      (hslice ▸ hruns)
    have hxlen : x.length = vectorLen := by
      rw [hruns'.length_eq, ← hruns.length_eq, List.length_take]
      omega
    rw [List.take_zero, List.nil_append] at hpass
    have htake : ∀ y : List α, (x ++ y).take vectorLen = x := fun y => List.take_left' hxlen
    simp only [vectorLoop, hpass, Option.bind_some]
    by_cases hzero : start1 = 0
    · rw [if_pos hzero]
      refine ⟨x, ?_, hdone hzero⟩
      cases direction with
      | true =>
        simp only [if_true]
        rw [copyLoop_spec (by rw [List.length_append]; omega) (by omega), List.take_zero,
          List.nil_append, Nat.zero_add]
        exact congrArg (fun y => some (y ++ vector.drop vectorLen)) (htake _)
      | false => rfl
    · rw [if_neg hzero]
      have hshort := hlong hzero
      cases direction with
      | true =>
        refine ih (by omega) (by omega) false hvector ?_ (by omega) ?_
        · simp only [if_true, List.length_append, List.length_drop]
          omega
        · simp only [Bool.false_eq_true, if_false, if_true, htake]
          exact hruns'
      | false =>
        simp only [Bool.false_eq_true, if_false, Bool.not_false]
        obtain ⟨y, hy, hsorts⟩ := ih (show 0 < 2 * n by omega) (by omega) true
          (show vectorLen ≤ (x ++ vector.drop vectorLen).length by
            rw [List.length_append]
            omega) htemp (by omega) (by
            simp only [if_true, htake]
            exact hruns')
        refine ⟨y, hy.trans ?_, hsorts⟩
        rw [List.drop_append, List.drop_eq_nil_of_le (Nat.le_of_eq hxlen), List.nil_append, hxlen,
          Nat.sub_self, List.drop_zero]

theorem vectorMergeSort_spec (hp : WeakOrder predicate) (key : α → κ)
    {v : SequenceRemoval.Vector α} (hv : v.length ≤ v.storage.length) :
    ∃ x, vectorMergeSort predicate key v = some { v with storage := x ++ v.storage.drop v.length } ∧
      StablySorts (precedes predicate key) v.elements x := by
  obtain ⟨x, hx, hsorts⟩ := vectorLoop_spec hp Nat.one_pos
    (show v.length < v.length + 1 + 1 by omega) true hv List.length_replicate (Nat.succ_pos _)
    (Runs.single (v.storage.take v.length) : Runs (precedes predicate key) 1 _ _)
  exact ⟨x, by rw [vectorMergeSort, hx]; rfl, hsorts⟩

end VectorSorting
