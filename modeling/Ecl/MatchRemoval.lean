import Mathlib.Data.List.Basic

/-! Lists without some of the elements that meet a test, counted from either end. -/
namespace MatchRemoval

variable {α : Type*} (p : α → Bool)

def dropMatches : ℕ → List α → List α
  | 0, l => l
  | _ + 1, [] => []
  | n + 1, x :: l => if p x = true then dropMatches n l else x :: dropMatches (n + 1) l

def dropLastMatches (n : ℕ) (l : List α) : List α := (dropMatches p n l.reverse).reverse

def dropLaterMatches : ℕ → ℕ → List α → List α
  | 0, n, l => dropMatches p n l
  | _ + 1, _, [] => []
  | skip + 1, n, x :: l =>
    x :: dropLaterMatches (if p x = true then skip else skip + 1) n l

def matchesReach : ℕ → List α → ℕ
  | 0, _ => 0
  | _ + 1, [] => 0
  | n + 1, x :: l => (if p x = true then matchesReach n l else matchesReach (n + 1) l) + 1

def removeWithin (fromEnd : Bool) (start stop n : ℕ) (l : List α) : List α :=
  let mid := (l.drop start).take (stop - start)
  l.take start ++ (if fromEnd = true then dropLastMatches p n mid else dropMatches p n mid) ++
    l.drop stop

@[simp] theorem dropMatches_zero (l : List α) : dropMatches p 0 l = l := by
  cases l <;> rfl

@[simp] theorem dropMatches_nil (n : ℕ) : dropMatches p n [] = [] := by
  cases n <;> rfl

theorem dropMatches_of_not {n : ℕ} {x : α} (h : ¬ p x = true) (l : List α) :
    dropMatches p n (x :: l) = x :: dropMatches p n l := by
  cases n with
  | zero => simp
  | succ n => rw [dropMatches, if_neg h]

theorem dropMatches_append (n : ℕ) (l l' : List α) :
    dropMatches p n (l ++ l') = dropMatches p n l ++ dropMatches p (n - l.countP p) l' := by
  induction l generalizing n with
  | nil => simp
  | cons x l ih =>
    by_cases h : p x = true
    · cases n with
      | zero => simp
      | succ n =>
        rw [List.cons_append, dropMatches, if_pos h, dropMatches, if_pos h, ih,
          List.countP_cons_of_pos h, Nat.add_sub_add_right]
    · rw [List.cons_append, dropMatches_of_not p h, dropMatches_of_not p h, ih,
        List.countP_cons_of_neg h, List.cons_append]

theorem dropMatches_of_le {n : ℕ} {l : List α} (h : l.countP p ≤ n) :
    dropMatches p n l = l.filter fun x => !p x := by
  induction l generalizing n with
  | nil => simp
  | cons x l ih =>
    by_cases hx : p x = true
    · rw [List.countP_cons_of_pos hx] at h
      obtain ⟨m, rfl⟩ := Nat.exists_eq_add_of_le' (Nat.le_trans (Nat.le_add_left 1 _) h)
      rw [dropMatches, if_pos hx, ih (by omega), List.filter_cons_of_neg (by simp [hx])]
    · rw [List.countP_cons_of_neg hx] at h
      rw [dropMatches_of_not p hx, ih h, List.filter_cons_of_pos (by simp [hx])]

theorem dropMatches_map {β : Type*} (f : β → α) (n : ℕ) (l : List β) :
    dropMatches p n (l.map f) = (dropMatches (fun x => p (f x)) n l).map f := by
  induction l generalizing n with
  | nil => simp
  | cons x l ih =>
    by_cases h : p (f x) = true
    · cases n with
      | zero => simp
      | succ n => rw [List.map_cons, dropMatches, if_pos h, dropMatches, if_pos h, ih]
    · rw [List.map_cons, dropMatches_of_not p h, dropMatches_of_not (fun x => p (f x)) h, ih,
        List.map_cons]

theorem dropMatches_sublist (n : ℕ) (l : List α) : (dropMatches p n l).Sublist l := by
  induction l generalizing n with
  | nil => simp
  | cons x l ih =>
    by_cases h : p x = true
    · cases n with
      | zero => simp
      | succ n =>
        rw [dropMatches, if_pos h]
        exact (ih n).cons x
    · rw [dropMatches_of_not p h]
      exact (ih n).cons_cons x

theorem dropMatches_length (n : ℕ) (l : List α) :
    (dropMatches p n l).length = l.length - min n (l.countP p) := by
  induction l generalizing n with
  | nil => simp
  | cons x l ih =>
    have hle := List.countP_le_length (p := p) (l := l)
    by_cases hx : p x = true
    · rw [List.countP_cons_of_pos hx]
      cases n with
      | zero => simp
      | succ n =>
        rw [dropMatches, if_pos hx, ih, List.length_cons]
        omega
    · rw [List.countP_cons_of_neg hx, dropMatches_of_not p hx, List.length_cons, List.length_cons,
        ih]
      omega

theorem dropLastMatches_cons (n : ℕ) (x : α) (l : List α) :
    dropLastMatches p n (x :: l) =
      if p x = true ∧ l.countP p < n then dropLastMatches p n l
      else x :: dropLastMatches p n l := by
  simp only [dropLastMatches, List.reverse_cons, dropMatches_append, List.reverse_append,
    List.countP_reverse]
  by_cases hx : p x = true
  · by_cases hn : l.countP p < n
    · obtain ⟨m, hm⟩ : ∃ m, n - l.countP p = m + 1 := ⟨n - l.countP p - 1, by omega⟩
      rw [if_pos ⟨hx, hn⟩, hm, dropMatches, if_pos hx]
      simp
    · have hm : n - l.countP p = 0 := by omega
      rw [if_neg (fun h => hn h.2), hm]
      simp
  · rw [if_neg (fun h => hx h.1), dropMatches_of_not p hx]
    simp

theorem dropLastMatches_of_le {n : ℕ} {l : List α} (h : l.countP p ≤ n) :
    dropLastMatches p n l = dropMatches p n l := by
  rw [dropLastMatches, dropMatches_of_le p (by rwa [List.countP_reverse]), dropMatches_of_le p h,
    List.filter_reverse, List.reverse_reverse]

theorem dropLaterMatches_eq (n : ℕ) (l : List α) :
    dropLaterMatches p (l.countP p - n) n l = dropLastMatches p n l := by
  induction l with
  | nil =>
    rw [List.countP_nil, Nat.zero_sub, dropLaterMatches]
    simp [dropLastMatches]
  | cons x l ih =>
    by_cases h : (x :: l).countP p ≤ n
    · rw [Nat.sub_eq_zero_of_le h, dropLaterMatches, dropLastMatches_of_le p h]
    · obtain ⟨skip, hskip⟩ : ∃ skip, (x :: l).countP p - n = skip + 1 :=
        ⟨(x :: l).countP p - n - 1, by omega⟩
      rw [hskip, dropLaterMatches, dropLastMatches_cons, ← ih]
      by_cases hx : p x = true
      · rw [List.countP_cons_of_pos hx] at h hskip
        rw [if_pos hx, if_neg (fun hc => h hc.2), show l.countP p - n = skip by omega]
      · rw [List.countP_cons_of_neg hx] at hskip
        rw [if_neg hx, if_neg (fun hc => hx hc.1), hskip]

theorem dropMatches_min (n : ℕ) (l : List α) :
    dropMatches p (min n (l.countP p)) l = dropMatches p n l := by
  by_cases h : n ≤ l.countP p
  · rw [Nat.min_eq_left h]
  · have hle : l.countP p ≤ n := by omega
    rw [Nat.min_eq_right hle, dropMatches_of_le p hle, dropMatches_of_le p (Nat.le_refl _)]

theorem dropLastMatches_min (n : ℕ) (l : List α) :
    dropLastMatches p (min n (l.countP p)) l = dropLastMatches p n l := by
  have h := dropMatches_min p n l.reverse
  rw [List.countP_reverse] at h
  rw [dropLastMatches, h, dropLastMatches]

theorem dropLastMatches_length (n : ℕ) (l : List α) :
    (dropLastMatches p n l).length = l.length - min n (l.countP p) := by
  rw [dropLastMatches, List.length_reverse, dropMatches_length, List.length_reverse,
    List.countP_reverse]

theorem removeWithin_min (fromEnd : Bool) (start stop n : ℕ) (l : List α) :
    removeWithin p fromEnd start stop
      (min n (((l.drop start).take (stop - start)).countP p)) l =
      removeWithin p fromEnd start stop n l := by
  simp only [removeWithin, dropLastMatches_min, dropMatches_min]

theorem removeWithin_append (fromEnd : Bool) (n : ℕ) (a b c : List α) :
    removeWithin p fromEnd a.length (a.length + b.length) n (a ++ b ++ c) =
      a ++ (if fromEnd = true then dropLastMatches p n b else dropMatches p n b) ++ c := by
  have hstop : (a ++ b ++ c).drop (a.length + b.length) = c := by
    rw [← List.length_append, List.drop_left]
  have hmid : ((a ++ b ++ c).drop a.length).take (a.length + b.length - a.length) = b := by
    rw [Nat.add_sub_cancel_left, List.append_assoc, List.drop_left, List.take_left]
  rw [removeWithin, hstop, hmid, List.append_assoc a b c, List.take_left]

theorem three_parts {start stop : ℕ} {l : List α} (h : start ≤ stop) (hstop : stop ≤ l.length) :
    ∃ a b c, l = a ++ b ++ c ∧ a.length = start ∧ a.length + b.length = stop := by
  refine ⟨l.take start, (l.drop start).take (stop - start), l.drop stop, ?_, ?_, ?_⟩
  · rw [List.append_assoc, show l.drop stop = (l.drop start).drop (stop - start) by
      rw [List.drop_drop, Nat.add_sub_cancel' h], List.take_append_drop, List.take_append_drop]
  · rw [List.length_take]
    omega
  · rw [List.length_take, List.length_take, List.length_drop]
    omega

theorem removeWithin_zero (fromEnd : Bool) {start stop : ℕ} {l : List α} (h : start ≤ stop)
    (hstop : stop ≤ l.length) : removeWithin p fromEnd start stop 0 l = l := by
  obtain ⟨a, b, c, rfl, rfl, rfl⟩ := three_parts h hstop
  simp only [removeWithin_append, dropLastMatches, dropMatches_zero, List.reverse_reverse, ite_self]

theorem removeWithin_reverse {start stop : ℕ} (n : ℕ) {l : List α} (h : start ≤ stop)
    (hstop : stop ≤ l.length) :
    (removeWithin p false (l.length - stop) (l.length - start) n l.reverse).reverse =
      removeWithin p true start stop n l := by
  obtain ⟨a, b, c, rfl, rfl, rfl⟩ := three_parts h hstop
  have hc : (a ++ b ++ c).length - (a.length + b.length) = c.reverse.length := by
    simp only [List.length_append, List.length_reverse]
    omega
  have hb : (a ++ b ++ c).length - a.length = c.reverse.length + b.reverse.length := by
    simp only [List.length_append, List.length_reverse]
    omega
  rw [hc, hb, List.reverse_append, List.reverse_append, ← List.append_assoc, removeWithin_append,
    removeWithin_append]
  simp [dropLastMatches]

theorem removeWithin_map {β : Type*} (f : β → α) (fromEnd : Bool) (start stop n : ℕ) (l : List β) :
    removeWithin p fromEnd start stop n (l.map f) =
      (removeWithin (fun x => p (f x)) fromEnd start stop n l).map f := by
  simp only [removeWithin, dropLastMatches, ← List.map_take, ← List.map_drop, ← List.map_reverse,
    dropMatches_map, List.map_append, apply_ite (List.map f)]

theorem removeWithin_sublist {start stop : ℕ} (n : ℕ) {l : List α} (h : start ≤ stop)
    (hstop : stop ≤ l.length) : (removeWithin p false start stop n l).Sublist l := by
  obtain ⟨a, b, c, rfl, rfl, rfl⟩ := three_parts h hstop
  rw [removeWithin_append, if_neg Bool.false_ne_true]
  exact ((List.Sublist.refl a).append (dropMatches_sublist p n b)).append (List.Sublist.refl c)

theorem matchesReach_le (n : ℕ) (l : List α) : matchesReach p n l ≤ l.length := by
  induction l generalizing n with
  | nil => cases n <;> simp [matchesReach]
  | cons x l ih =>
    cases n with
    | zero => simp [matchesReach]
    | succ n =>
      have h := ih n
      have h' := ih (n + 1)
      simp only [matchesReach, List.length_cons]
      split <;> omega

theorem dropMatches_reach (n : ℕ) (l : List α) :
    dropMatches p n l = dropMatches p n (l.take (matchesReach p n l)) ++
      l.drop (matchesReach p n l) := by
  induction l generalizing n with
  | nil => simp
  | cons x l ih =>
    cases n with
    | zero => simp [matchesReach]
    | succ n =>
      by_cases hx : p x = true
      · simp only [matchesReach, if_pos hx, List.take_succ_cons, List.drop_succ_cons,
          dropMatches, ← ih]
      · simp only [matchesReach, if_neg hx, List.take_succ_cons, List.drop_succ_cons,
          dropMatches, List.cons_append, ← ih]

theorem dropLaterMatches_cons {skip : ℕ} {x : α} (h : ¬ (p x = true ∧ skip = 0)) (n : ℕ)
    (l : List α) : dropLaterMatches p skip n (x :: l) =
      x :: dropLaterMatches p (if p x = true then skip - 1 else skip) n l := by
  cases skip with
  | zero =>
    have hx : ¬ p x = true := fun hx => h ⟨hx, rfl⟩
    rw [if_neg hx, dropLaterMatches, dropMatches_of_not p hx, dropLaterMatches]
  | succ skip =>
    rw [dropLaterMatches, Nat.add_sub_cancel]

theorem matchesReach_cons {skip n : ℕ} {x : α} (h : ¬ (p x = true ∧ skip = 0)) (hn : 0 < n)
    (l : List α) : matchesReach p (skip + n) (x :: l) =
      matchesReach p ((if p x = true then skip - 1 else skip) + n) l + 1 := by
  obtain ⟨k, hk⟩ : ∃ k, skip + n = k + 1 := ⟨skip + n - 1, by omega⟩
  rw [hk, matchesReach]
  by_cases hx : p x = true
  · have hskip : skip ≠ 0 := fun h0 => h ⟨hx, h0⟩
    rw [if_pos hx, if_pos hx, show skip - 1 + n = k by omega]
  · rw [if_neg hx, if_neg hx, hk]

end MatchRemoval
