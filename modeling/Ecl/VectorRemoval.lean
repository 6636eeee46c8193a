import Ecl.ListRemoval

/-! # REMOVE and DELETE on vectors -/
namespace VectorRemoval

open Integers MatchRemoval SequenceRemoval ListRemoval

variable {α : Type} {compare : α → Bool} {same : Bool}

structure Filling (same : Bool) (rest kept : List α) (index start : ℕ) (m : Arrays α) : Prop where
  unread : m.inp.drop index = rest
  filled : m.out.take start = kept
  start_eq : kept.length = start
  shared : same = true → m.inp = m.out

namespace Filling

variable {rest kept : List α} {x : α} {index start : ℕ} {m : Arrays α}

theorem getD [Inhabited α] (h : Filling same (x :: rest) kept index start m) :
    m.inp.getD index default = x := by
  have hx := congrArg (·[0]?) h.unread
  simp only [List.getElem?_drop, Nat.add_zero, List.getElem?_cons_zero] at hx
  rw [List.getD_eq_getElem?_getD, hx, Option.getD_some]

theorem next (h : Filling same (x :: rest) kept index start m) :
    m.inp.drop (index + 1) = rest := by
  rw [← List.drop_drop, h.unread, List.drop_succ_cons, List.drop_zero]

theorem skip (h : Filling same (x :: rest) kept index start m) :
    Filling same rest kept (index + 1) start m :=
  ⟨h.next, h.filled, h.start_eq, h.shared⟩

theorem start_le (h : Filling same rest kept index start m) : start ≤ m.out.length := by
  have hlen := congrArg List.length h.filled
  rw [List.length_take, h.start_eq] at hlen
  omega

theorem setOut_out (h : Filling same rest kept index start m) (i : ℕ) (y : α) :
    (m.setOut same i y).out = m.out.set i y := by
  cases hs : same with
  | false => rfl
  | true => rw [Arrays.setOut, if_pos rfl, h.shared hs]

theorem keep (h : Filling same (x :: rest) kept index start m) (hle : start ≤ index)
    (hroom : start < m.out.length) :
    Filling same rest (kept ++ [x]) (index + 1) (start + 1) (m.setOut same start x) where
  unread := by
    cases same with
    | false => exact h.next
    | true =>
      rw [Arrays.setOut, if_pos rfl, List.drop_set_of_lt (Nat.lt_succ_of_le hle)]
      exact h.next
  filled := by
    rw [h.setOut_out, List.take_add_one, List.getElem?_set_self hroom, List.take_set_of_le
      (Nat.le_refl _), h.filled]
    rfl
  start_eq := by rw [List.length_append, h.start_eq, List.length_singleton]
  shared := by
    intro hs
    subst hs
    rfl

theorem stay (h : Filling true (x :: rest) kept index index m) :
    Filling true rest (kept ++ [x]) (index + 1) (index + 1) m where
  unread := h.next
  filled := by
    have hx := congrArg (·[0]?) h.unread
    simp only [List.getElem?_drop, Nat.add_zero, List.getElem?_cons_zero] at hx
    rw [List.take_add_one, h.filled, ← h.shared rfl, hx]
    rfl
  start_eq := by rw [List.length_append, h.start_eq, List.length_singleton]
  shared := h.shared

end Filling

theorem setOut_length {rest kept : List α} {index start : ℕ} {m : Arrays α}
    (h : Filling same rest kept index start m) (i : ℕ) (y : α) :
    (m.setOut same i y).out.length = m.out.length := by
  rw [h.setOut_out, List.length_set]

variable [Inhabited α]

theorem countVector_spec {v : List α} {n index counter : ℕ} (h : index + n ≤ v.length) :
    countVector compare v n index counter = counter + ((v.drop index).take n).countP compare := by
  induction n generalizing index counter with
  | zero => simp [countVector]
  | succ n ih =>
    have hlt : index < v.length := by omega
    rw [countVector, ih (by omega), List.drop_eq_getElem_cons hlt, List.take_succ_cons,
      List.countP_cons, List.getD_eq_getElem v default hlt]
    split <;> omega

theorem skipLoop_spec {l tail kept : List α} {index : ℕ} {m : Arrays α}
    (h : Filling same (l ++ tail) kept index index m) (skip : ℕ) {n : ℕ} (hn : 0 < n)
    (hroom : index + (dropLaterMatches compare skip n l).length ≤ m.out.length) :
    ∃ a b, l = a ++ b ∧
      (skipLoop compare same l.length index skip index m).1 = index + a.length ∧
      Filling same (b ++ tail) (kept ++ a) (index + a.length) (index + a.length)
        (skipLoop compare same l.length index skip index m).2 ∧
      (skipLoop compare same l.length index skip index m).2.out.length = m.out.length ∧
      dropLaterMatches compare skip n l = a ++ dropMatches compare n b ∧
      matchesReach compare (skip + n) l = a.length + matchesReach compare n b := by
  induction l generalizing index kept skip m with
  | nil =>
    refine ⟨[], [], rfl, rfl, by simpa [skipLoop] using h, rfl, ?_, ?_⟩
    · cases skip <;> simp [dropLaterMatches]
    · obtain ⟨k, rfl⟩ := Nat.exists_eq_add_of_le' hn
      simp [matchesReach]
  | cons x l ih =>
    by_cases hstop : compare x = true ∧ skip = 0
    · obtain ⟨hx, rfl⟩ := hstop
      refine ⟨[], x :: l, rfl, ?_⟩
      have hloop : skipLoop compare same (x :: l).length index ((0 : ℕ) : ℤ) index m =
          (index, m) := by
        rw [List.length_cons, skipLoop, h.getD, if_pos hx, if_pos ⟨hx, by decide⟩]
      rw [hloop]
      exact ⟨rfl, by simpa using h, rfl, rfl, by simp⟩
    · -- the element is passed over
      have hpass : (if compare x = true then (skip : ℤ) - 1 else skip) =
          ((if compare x = true then skip - 1 else skip : ℕ) : ℤ) := by
        split
        · next hx =>
          have hskip : skip ≠ 0 := fun h0 => hstop ⟨hx, h0⟩
          omega
        · rfl
      have hdrop := dropLaterMatches_cons compare hstop n l
      have hreach := matchesReach_cons compare hstop hn l
      generalize (if compare x = true then skip - 1 else skip : ℕ) = skip' at hpass hdrop hreach
      rw [hdrop, List.length_cons] at hroom
      have hlt : index < m.out.length := by omega
      have hnext : Filling same (l ++ tail) (kept ++ [x]) (index + 1) (index + 1)
          (if same = true then m else m.setOut same index x) := by
        cases hs : same with
        | true =>
          rw [if_pos rfl]
          exact (hs ▸ h).stay
        | false =>
          rw [if_neg Bool.false_ne_true]
          exact (hs ▸ h).keep (Nat.le_refl _) hlt
      have hlen : (if same = true then m else m.setOut same index x).out.length =
          m.out.length := by
        split
        · rfl
        · exact setOut_length h index x
      have hgo : ¬ (compare x = true ∧ (skip' : ℤ) < 0) := fun hc => by omega
      obtain ⟨a, b, hl, hstart, hfill, hsize, hdrop', hreach'⟩ := ih hnext skip' (by
        rw [hlen]
        omega)
      refine ⟨x :: a, b, by rw [hl]; rfl, ?_⟩
      have hloop : skipLoop compare same (x :: l).length index skip index m =
          skipLoop compare same l.length (index + 1) skip' (index + 1)
            (if same = true then m else m.setOut same index x) := by
        rw [List.length_cons, skipLoop, h.getD, hpass, if_neg hgo]
      rw [hloop, hdrop, hreach, List.length_cons, hdrop', hreach', hstart, hsize, hlen]
      refine ⟨by omega, ?_, rfl, rfl, by omega⟩
      rw [show index + (a.length + 1) = index + 1 + a.length by omega]
      simpa using hfill

variable (compare) in
theorem restLoop_spec {l tail kept : List α} {index start : ℕ} {m : Arrays α}
    (h : Filling same (l ++ tail) kept index start m) (hle : start ≤ index) {count : ℤ}
    (hcount : 0 < count)
    (hroom : start + (dropMatches compare count.toNat l).length ≤ m.out.length) :
    let r := restLoop compare same l.length index count start (index + l.length) m
    let reach := matchesReach compare count.toNat l
    let left := dropMatches compare count.toNat (l.take reach)
    r.1 = start + left.length ∧ r.2.1 = index + reach ∧
      Filling same (l.drop reach ++ tail) (kept ++ left) (index + reach) (start + left.length)
        r.2.2 ∧ r.2.2.out.length = m.out.length := by
  induction l generalizing index start kept count m with
  | nil =>
    have hreach : matchesReach compare count.toNat ([] : List α) = 0 :=
      Nat.le_zero.mp (matchesReach_le compare _ _)
    simpa [restLoop, hreach] using h
  | cons x l ih =>
    obtain ⟨c, hc⟩ : ∃ c, count.toNat = c + 1 := ⟨count.toNat - 1, by omega⟩
    rw [show index + (x :: l).length = index + 1 + l.length by rw [List.length_cons]; omega]
    by_cases hx : compare x = true
    · simp only [List.length_cons, restLoop, h.getD, if_pos hx, hc, matchesReach,
        List.take_succ_cons, List.drop_succ_cons, dropMatches]
      by_cases hlast : count - 1 = 0
      · -- the last match that goes
        have hzero : c = 0 := by omega
        subst hzero
        simpa [hlast, matchesReach] using h.skip
      · rw [if_neg hlast]
        have hrest := ih h.skip (Nat.le_succ_of_le hle) (show 0 < count - 1 by omega) (by
          rw [hc, dropMatches, if_pos hx] at hroom
          rwa [show (count - 1).toNat = c by omega])
        rw [show (count - 1).toNat = c by omega] at hrest
        rw [show index + (matchesReach compare c l + 1) = index + 1 + matchesReach compare c l by
          omega]
        exact hrest
    · rw [hc, dropMatches_of_not compare hx, List.length_cons] at hroom
      have hrest := ih (h.keep hle (by omega)) (Nat.succ_le_succ hle) hcount (by
        rw [setOut_length h, hc]
        omega)
      simp only [List.length_cons, restLoop, h.getD, if_neg hx, hc, matchesReach,
        List.take_succ_cons, List.drop_succ_cons, dropMatches]
      rw [hc] at hrest
      obtain ⟨hstart, hstop, hfill, hsize⟩ := hrest
      rw [setOut_length h] at hsize
      rw [hstart, hstop]
      refine ⟨by omega, by omega, ?_, hsize⟩
      rw [← Nat.add_assoc, Nat.add_right_comm index, ← Nat.add_assoc, Nat.add_right_comm start]
      simpa using hfill

def Copied (same : Bool) (l : ℕ) (rest kept : List α) (i1 i0 : ℕ) (m m' : Arrays α) : Prop :=
  Filling same (rest.drop l) (kept ++ rest.take l) (i1 + l) (i0 + l) m' ∧
    m'.out.drop (i0 + l) = m.out.drop (i0 + l) ∧ m'.out.length = m.out.length

variable {rest kept : List α} {i0 i1 l : ℕ} {m : Arrays α}

omit [Inhabited α] in
theorem Copied.take {m' : Arrays α} (h : Copied same l rest kept i1 i0 m m')
    (hstart : kept.length = i0) {k : ℕ} (hk : k ≤ l) :
    m'.out.take (i0 + k) = kept ++ rest.take k := by
  have hfilled := congrArg (List.take (i0 + k)) h.1.filled
  rw [List.take_take, Nat.min_eq_left (by omega)] at hfilled
  rw [hfilled, ← hstart, List.take_length_add_append, List.take_take, Nat.min_eq_left hk]

theorem copyUp_spec (h : Filling same rest kept i1 i0 m) (hle : i0 ≤ i1) (hl : l ≤ rest.length)
    (hroom : i0 + l ≤ m.out.length) : Copied same l rest kept i1 i0 m (copyUp same l i0 i1 m) := by
  induction l generalizing rest kept i0 i1 m with
  | zero => exact ⟨by simpa [copyUp] using h, rfl, rfl⟩
  | succ l ih =>
    cases rest with
    | nil => exact absurd hl (by simp)
    | cons x rest =>
      obtain ⟨hfill, hdrop, hsize⟩ := ih (h.keep hle (by omega)) (Nat.succ_le_succ hle)
        (Nat.le_of_succ_le_succ hl) (by rw [setOut_length h]; omega)
      rw [setOut_length h] at hsize
      rw [h.setOut_out, List.drop_set_of_lt (by omega)] at hdrop
      rw [copyUp, h.getD]
      refine ⟨?_, ?_, hsize⟩
      · rw [List.take_succ_cons, List.drop_succ_cons, ← Nat.add_assoc, Nat.add_right_comm i1,
          ← Nat.add_assoc, Nat.add_right_comm i0]
        simpa using hfill
      · rw [← Nat.add_assoc, Nat.add_right_comm i0]
        exact hdrop

omit [Inhabited α] in
theorem memmove_spec (h : Filling same rest kept i1 i0 m) (hle : i0 ≤ i1) (hl : l ≤ rest.length)
    (hroom : i0 + l ≤ m.out.length) : Copied same l rest kept i1 i0 m (memmove same l i0 i1 m) := by
  have hout : (if same = true then m.inp else m.out) = m.out := by
    split
    · next hs => exact h.shared hs
    · rfl
  have hnew : (memmove same l i0 i1 m).out = (kept ++ rest.take l) ++ m.out.drop (i0 + l) := by
    simp only [memmove, hout, h.unread, h.filled]
  have hlen : (kept ++ rest.take l).length = i0 + l := by
    rw [List.length_append, h.start_eq, List.length_take, Nat.min_eq_left hl]
  refine ⟨⟨?_, ?_, hlen, ?_⟩, ?_, ?_⟩
  · cases hs : same with
    | false =>
      rw [← List.drop_drop]
      exact congrArg _ h.unread
    | true =>
      have hinp : (memmove true l i0 i1 m).inp = (memmove true l i0 i1 m).out := rfl
      have hdrop : (memmove true l i0 i1 m).out.drop (i0 + l) = m.out.drop (i0 + l) := by
        rw [← hs, hnew, ← hlen, List.drop_left]
      rw [hinp, show i1 + l = i0 + l + (i1 - i0) by omega, ← List.drop_drop, hdrop, List.drop_drop,
        show i0 + l + (i1 - i0) = i1 + l by omega, ← List.drop_drop, ← h.shared hs, h.unread]
  · rw [hnew, ← hlen, List.take_left]
  · rintro rfl
    rfl
  · rw [hnew, ← hlen, List.drop_left]
  · rw [hnew, List.length_append, hlen, List.length_drop]
    omega

theorem copySubarray_spec (bits : Bool) (h : Filling same rest kept i1 i0 m) (hle : i0 ≤ i1) :
    Copied same (min l (min (m.out.length - i0) rest.length)) rest kept i1 i0 m
      (copySubarray bits same i0 i1 l m) := by
  have hout : (if same = true then m.inp else m.out) = m.out := by
    split
    · next hs => exact h.shared hs
    · rfl
  have hstart := h.start_le
  have hrest : rest.length = m.inp.length - i1 := by rw [← h.unread, List.length_drop]
  have hclip : (if i1 + (if i0 + l > m.out.length then m.out.length - i0 else l) > m.inp.length
      then m.inp.length - i1 else if i0 + l > m.out.length then m.out.length - i0 else l) =
      min l (min (m.out.length - i0) rest.length) := by
    split <;> split <;> omega
  have hdown : ¬ (same = true ∧ i0 > i1) := fun hc => Nat.not_lt.mpr hle hc.2
  simp only [copySubarray, hout, hclip, if_neg hdown]
  split
  · exact copyUp_spec h hle (by omega) (by omega)
  · exact memmove_spec h hle (by omega) (by omega)

theorem loops_spec {pre mid tail : List α} {m : Arrays α}
    (h : Filling same (mid ++ tail) pre pre.length pre.length m) (skip : ℕ) {count : ℤ}
    (hcount : 0 < count)
    (hroom : pre.length + (dropLaterMatches compare skip count.toNat mid).length ≤ m.out.length) :
    let skipped := skipLoop compare same mid.length pre.length skip pre.length m
    let rest := restLoop compare same (pre.length + mid.length - skipped.1) skipped.1 count
      skipped.1 (pre.length + mid.length) skipped.2
    let reach := matchesReach compare (skip + count.toNat) mid
    ∃ kept, dropLaterMatches compare skip count.toNat mid = kept ++ mid.drop reach ∧
      reach ≤ mid.length ∧ kept.length ≤ reach ∧
      rest.1 = pre.length + kept.length ∧ rest.2.1 = pre.length + reach ∧
      Filling same (mid.drop reach ++ tail) (pre ++ kept) (pre.length + reach)
        (pre.length + kept.length) rest.2.2 ∧ rest.2.2.out.length = m.out.length := by
  obtain ⟨a, b, rfl, hskipped, hfill, hsize, hdrop, hreach⟩ :=
    skipLoop_spec h skip (n := count.toNat) (by omega) hroom
  intro skipped rest reach
  have hindex : skipped.1 = pre.length + a.length := hskipped
  have hstop : pre.length + (a ++ b).length = pre.length + a.length + b.length := by
    rw [List.length_append, Nat.add_assoc]
  rw [hdrop, List.length_append, ← Nat.add_assoc] at hroom
  obtain ⟨hstart, hend, hfill', hsize'⟩ := restLoop_spec compare hfill
    (Nat.le_refl _) hcount (hsize ▸ hroom)
  have hrest : rest = restLoop compare same b.length (pre.length + a.length) count
      (pre.length + a.length) (pre.length + a.length + b.length) skipped.2 := by
    simp only [rest, hstop, hindex, Nat.add_sub_cancel_left]
  rw [← hrest] at hstart hend hfill' hsize'
  have hb : (a ++ b).drop reach = b.drop (matchesReach compare count.toNat b) := by
    rw [show reach = _ from hreach, ← List.drop_drop, List.drop_left]
  have hble := matchesReach_le compare count.toNat b
  have hkept := (dropMatches_sublist compare count.toNat
    (b.take (matchesReach compare count.toNat b))).length_le
  rw [List.length_take] at hkept
  refine ⟨a ++ dropMatches compare count.toNat (b.take (matchesReach compare count.toNat b)),
    ?_, ?_, ?_, ?_, ?_, ?_, hsize'.trans hsize⟩
  · rw [hdrop, dropMatches_reach, List.append_assoc, hb]
  · rw [show reach = _ from hreach, List.length_append]
    omega
  · rw [show reach = _ from hreach, List.length_append]
    omega
  · rw [hstart, List.length_append, Nat.add_assoc]
  · rw [hend, show reach = _ from hreach, Nat.add_assoc]
  · rw [hb, List.length_append, show reach = _ from hreach, ← Nat.add_assoc, ← Nat.add_assoc,
      ← List.append_assoc]
    exact hfill'

variable {eql : α → α → Bool} {a : Arguments α} {v : Vector α} {pre mid tail : List α}

def skipped (compare : α → Bool) (a : Arguments α) (mid : List α) : ℕ :=
  if a.fromEnd = true then mid.countP compare - (sequenceCount a.count).toNat else 0

/-- The end of what the loops look at, counted from the start. -/
def reached (compare : α → Bool) (a : Arguments α) (mid : List α) : ℕ :=
  matchesReach compare (skipped compare a mid + (sequenceCount a.count).toNat) mid

omit [Inhabited α] in
theorem dropLaterMatches_skipped :
    dropLaterMatches compare (skipped compare a mid) (sequenceCount a.count).toNat mid =
      if a.fromEnd = true then dropLastMatches compare (sequenceCount a.count).toNat mid
      else dropMatches compare (sequenceCount a.count).toNat mid := by
  unfold skipped
  split
  · exact dropLaterMatches_eq compare _ mid
  · rw [dropLaterMatches]

omit [Inhabited α] in
theorem dropLaterMatches_skipped_length :
    (dropLaterMatches compare (skipped compare a mid) (sequenceCount a.count).toNat mid).length =
      mid.length - min (sequenceCount a.count).toNat (mid.countP compare) := by
  rw [dropLaterMatches_skipped]
  split
  · exact dropLastMatches_length compare _ mid
  · exact dropMatches_length compare _ mid

theorem headed_spec (bits same : Bool) (pre mid tail : List α) {size : ℕ} (hroom : pre.length ≤ size) :
    let out := if same = true then pre ++ mid ++ tail else List.replicate size default
    let m : Arrays α := if same = true then ⟨pre ++ mid ++ tail, out⟩
      else copySubarray bits same 0 0 pre.length ⟨pre ++ mid ++ tail, out⟩
    Filling same (mid ++ tail) pre pre.length pre.length m ∧
      m.out.length = if same = true then (pre ++ mid ++ tail).length else size := by
  cases hs : same with
  | true =>
    refine ⟨⟨?_, ?_, rfl, fun _ => rfl⟩, rfl⟩
    · exact List.append_assoc pre mid tail ▸ List.drop_left
    · exact List.append_assoc pre mid tail ▸ List.take_left
  | false =>
    have hempty : Filling false (pre ++ mid ++ tail) [] 0 0
        (⟨pre ++ mid ++ tail, List.replicate size default⟩ : Arrays α) :=
      ⟨rfl, rfl, rfl, nofun⟩
    have hcopy := copySubarray_spec (l := pre.length) bits hempty (Nat.le_refl 0)
    have hn : min pre.length (min ((List.replicate size (default : α)).length - 0)
        (pre ++ mid ++ tail).length) = pre.length := by
      simp only [List.length_replicate, List.length_append]
      omega
    simp only [hn] at hcopy
    obtain ⟨hfill, -, hlen⟩ := hcopy
    rw [Nat.zero_add, List.nil_append, List.append_assoc, List.drop_left, List.take_left] at hfill
    rw [List.length_replicate] at hlen
    simp only [Bool.false_eq_true, if_false]
    exact ⟨by simpa using hfill, hlen⟩

structure Filtered (compare : α → Bool) (same : Bool) (a : Arguments α) (v : Vector α)
    (pre mid tail kept : List α) (m m' : Arrays α) : Prop where
  kept_length : kept.length + min (sequenceCount a.count).toNat (mid.countP compare) =
    reached compare a mid
  reached_le : reached compare a mid ≤ mid.length
  left : (if a.fromEnd = true then dropLastMatches compare (sequenceCount a.count).toNat mid
    else dropMatches compare (sequenceCount a.count).toNat mid) =
      kept ++ mid.drop (reached compare a mid)
  size : m.out.length = if same = true then v.storage.length
    else v.length - min (sequenceCount a.count).toNat (mid.countP compare)
  filling : Filling same (mid.drop (reached compare a mid) ++ tail) (pre ++ kept)
    (pre.length + reached compare a mid) (pre.length + kept.length) m
  copied : Copied same (min v.length (min (m.out.length - (pre.length + kept.length))
      (mid.drop (reached compare a mid) ++ tail).length))
    (mid.drop (reached compare a mid) ++ tail) (pre ++ kept)
    (pre.length + reached compare a mid) (pre.length + kept.length) m m'

theorem filterVector_spec (bits same : Bool) (htests : withTests eql a = .ok compare)
    (hv : v.WellFormed) (hstorage : v.storage = pre ++ mid ++ tail) (hpre : a.start = pre.length)
    (hmid : a.stop.getD v.length = pre.length + mid.length)
    (hstop : pre.length + mid.length ≤ v.length) (hcount : 0 < sequenceCount a.count)
    (hsome : ¬ (same = false ∧ mid.countP compare = 0)) :
    ∃ kept m m', filterVector eql bits same a v =
        .ok (⟨m'.out, if same = true then v.fillPointer else none⟩,
          some (pre.length + kept.length + (v.length - (pre.length + reached compare a mid)))) ∧
      Filtered compare same a v pre mid tail kept m m' := by
  have hexisting : countVector compare v.storage mid.length pre.length 0 =
      mid.countP compare := by
    rw [countVector_spec (by rw [hstorage]; simp only [List.length_append]; omega), Nat.zero_add,
      hstorage, List.append_assoc, List.drop_left, List.take_left]
  have hdropped : (min (mid.countP compare : ℤ) (sequenceCount a.count)).toNat =
      min (sequenceCount a.count).toNat (mid.countP compare) := by omega
  have hlt := List.countP_le_length (p := compare) (l := mid)
  have hle := hv.length_le
  have hlength : (dropLaterMatches compare (skipped compare a mid) (sequenceCount a.count).toNat
      mid).length = _ := dropLaterMatches_skipped_length
  obtain ⟨hhead, hsize⟩ := headed_spec bits same pre mid tail (show pre.length ≤
    v.length - min (sequenceCount a.count).toNat (mid.countP compare) by omega)
  obtain ⟨kept, hkept, hreach, hshort, hstart, hend, hfill, hout⟩ := loops_spec hhead
    (skipped compare a mid) hcount (by
      rw [hlength, hsize, ← hstorage]
      split <;> omega)
  have hcopy := copySubarray_spec (l := v.length) bits hfill (by omega)
  refine ⟨kept, _, _, ?_, ?_, hreach, ?_, hout.trans (by rw [hsize, hstorage]), hfill, hcopy⟩
  · have hskip : (if a.fromEnd = true then
        (if (mid.countP compare : ℤ) < sequenceCount a.count then (0 : ℤ)
          else mid.countP compare - sequenceCount a.count) else 0) =
        (skipped compare a mid : ℤ) := by
      unfold skipped
      split
      · split <;> omega
      · rfl
    have hbounds : withStartEnd v.length pre.length a.stop =
        .ok (pre.length, pre.length + mid.length) := by
      rw [withStartEnd_eq (by omega) (by omega), hmid]
    simp only [filterVector, htests, hbounds, bind, Except.bind, hpre, if_pos hcount, hexisting,
      hdropped, hskip, if_neg hsome, Nat.add_sub_cancel_left]
    rw [hstorage]
    simp only [← hstart, ← hend, reached]
    rfl
  · have h := congrArg List.length hkept
    rw [hlength, List.length_append, List.length_drop] at h
    simp only [reached] at *
    omega
  · rw [← dropLaterMatches_skipped, hkept]
    rfl

omit [Inhabited α] in
theorem elements_parts (hstorage : v.storage = pre ++ mid ++ tail)
    (hstop : pre.length + mid.length ≤ v.length) :
    v.elements = pre ++ mid ++ tail.take (v.length - (pre.length + mid.length)) := by
  obtain ⟨k, hk⟩ := Nat.exists_eq_add_of_le hstop
  rw [Vector.elements, hstorage, hk, ← List.length_append, List.take_length_add_append,
    Nat.add_sub_cancel_left]

omit [Inhabited α] in
theorem Filtered.elements {kept : List α} {m m' : Arrays α}
    (h : Filtered compare same a v pre mid tail kept m m') (hv : v.WellFormed)
    (hstorage : v.storage = pre ++ mid ++ tail) (hpre : a.start = pre.length)
    (hmid : a.stop.getD v.length = pre.length + mid.length)
    (hstop : pre.length + mid.length ≤ v.length) :
    m'.out.take (pre.length + kept.length + (v.length - (pre.length + reached compare a mid))) =
      removeWithin compare a.fromEnd a.start (a.stop.getD v.length)
        (sequenceCount a.count).toNat v.elements := by
  have hlen := congrArg List.length hstorage
  have hle := hv.length_le
  have hkept := h.kept_length
  have hreach := h.reached_le
  simp only [List.length_append] at hlen
  have hk : v.length - (pre.length + reached compare a mid) ≤
      min v.length (min (m.out.length - (pre.length + kept.length))
        (mid.drop (reached compare a mid) ++ tail).length) := by
    rw [h.size, List.length_append, List.length_drop]
    split <;> omega
  have hrest : v.length - (pre.length + reached compare a mid) =
      (mid.drop (reached compare a mid)).length + (v.length - (pre.length + mid.length)) := by
    rw [List.length_drop]
    omega
  rw [h.copied.take h.filling.start_eq hk, elements_parts hstorage hstop, hpre, hmid,
    removeWithin_append, h.left, hrest, List.take_length_add_append]
  simp only [List.append_assoc]

theorem moved_iff {i l b d e n : ℕ} (hbe : b + d = e) (hen : e ≤ n) :
    i + d < min n (e + l) ↔ i < b + min l (min (n - b) (n - e)) := by
  rw [min_eq_right (show n - e ≤ n - b by omega)]
  omega

omit [Inhabited α] in
/-- Past the old end a place has what the copy moved there, or what it had. -/
theorem Filtered.beyond {kept : List α} {m m' : Arrays α}
    (h : Filtered compare true a v pre mid tail kept m m')
    (hstorage : v.storage = pre ++ mid ++ tail) (hstop : pre.length + mid.length ≤ v.length)
    {i : ℕ} (hi : v.length ≤ i) :
    m'.out[i]? = if i + min (sequenceCount a.count).toNat (mid.countP compare) <
        min v.storage.length (pre.length + reached compare a mid + v.length)
      then v.storage[i + min (sequenceCount a.count).toNat (mid.countP compare)]?
      else v.storage[i]? := by
  have hreach := h.reached_le
  have hlen := congrArg List.length hstorage
  simp only [List.length_append] at hlen
  have hshift : pre.length + kept.length + min (sequenceCount a.count).toNat
      (mid.countP compare) = pre.length + reached compare a mid := by
    rw [Nat.add_assoc, h.kept_length]
  have hread : pre.length + reached compare a mid ≤ i := by omega
  have hwritten : pre.length + kept.length ≤ i := by omega
  have hcond := @moved_iff i v.length _ _ _ v.storage.length hshift (by omega)
  have hsize : m.out.length = v.storage.length := h.size
  have hdrop : v.storage.drop (pre.length + reached compare a mid) =
      mid.drop (reached compare a mid) ++ tail := by
    rw [hstorage, List.append_assoc, ← List.drop_drop, List.drop_left,
      List.drop_append_of_le_length hreach]
  have hrest := congrArg List.length hdrop
  rw [List.length_drop] at hrest
  obtain ⟨hfill, hafter, -⟩ := h.copied
  rw [hsize, ← hrest] at hfill hafter
  rw [← hdrop] at hfill
  by_cases hmoved : i < pre.length + kept.length + min v.length (min (v.storage.length -
      (pre.length + kept.length)) (v.storage.length - (pre.length + reached compare a mid)))
  · have hplace : pre.length + reached compare a mid + (i - (pre.length + kept.length)) =
        i + min (sequenceCount a.count).toNat (mid.countP compare) := by
      rw [← hshift, Nat.add_right_comm, Nat.add_sub_cancel' hwritten]
    rw [if_pos (hcond.mpr hmoved), ← List.getElem?_take_of_lt hmoved, hfill.filled,
      List.getElem?_append_right (by rwa [List.length_append]), List.length_append,
      List.getElem?_take_of_lt (Nat.sub_lt_left_of_lt_add hwritten hmoved), List.getElem?_drop,
      hplace]
  · have hout : m.out.drop i = v.storage.drop i := by
      have hinp := h.filling.unread
      rw [h.filling.shared rfl, ← hdrop] at hinp
      have heq := congrArg (List.drop (i - (pre.length + reached compare a mid))) hinp
      rwa [List.drop_drop, List.drop_drop, Nat.add_sub_cancel' hread] at heq
    have hold := congrArg (List.drop (i - (pre.length + kept.length + min v.length
      (min (v.storage.length - (pre.length + kept.length))
        (v.storage.length - (pre.length + reached compare a mid)))))) hafter
    rw [List.drop_drop, List.drop_drop, Nat.add_sub_cancel' (Nat.le_of_not_lt hmoved), hout]
      at hold
    have hi' := congrArg (·[0]?) hold
    simp only [List.getElem?_drop, Nat.add_zero] at hi'
    rw [if_neg (fun hc => hmoved (hcond.mp hc)), hi']

end VectorRemoval
