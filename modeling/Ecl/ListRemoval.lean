import Ecl.MatchRemoval
import Ecl.SequenceRemoval

/-! # REMOVE and DELETE on lists -/
namespace ListRemoval

open Integers ConsChains MatchRemoval SequenceRemoval

variable {α : Type} {compare : α → Bool}

def requested (count : Option ℤ) (existing : ℕ) : ℕ :=
  count.elim existing fun c => min c.toNat existing

theorem requested_eq (count : Option ℤ) {existing : ℕ} (h : (existing : ℤ) ≤ mostPositiveFixnum) :
    requested count existing = min (sequenceCount count).toNat existing := by
  cases count with
  | none =>
    simp only [requested, Option.elim, sequenceCount]
    omega
  | some c =>
    simp only [requested, Option.elim, sequenceCount]
    by_cases hfits : FitsFixnum c
    · rw [if_pos hfits]
    · rw [if_neg hfits]
      have hc : c < mostNegativeFixnum ∨ mostPositiveFixnum < c := by
        unfold FitsFixnum at hfits
        omega
      have hneg : mostNegativeFixnum < 0 := by decide
      have hpos : (0 : ℤ) < mostPositiveFixnum := by decide
      obtain hc | hc := hc
      · rw [if_pos (by omega)]
        omega
      · rw [if_neg (by omega)]
        omega

theorem removeHead_spec (n : ℕ) (l output : List α) :
    removeHead n l output = (l.drop n, (l.take n).reverse ++ output) := by
  induction n generalizing l output with
  | zero => rfl
  | succ n ih =>
    cases l with
    | nil => rfl
    | cons x l => simp [removeHead, ih]

variable (compare) in
theorem removeLoop_spec {n : ℕ} {count : ℤ} (hcount : 0 < count) (l output : List α) :
    (removeLoop compare n count l output).2.reverse ++ (removeLoop compare n count l output).1 =
      output.reverse ++ dropMatches compare count.toNat (l.take n) ++ l.drop n := by
  induction n generalizing count l output with
  | zero => simp [removeLoop]
  | succ n ih =>
    cases l with
    | nil => simp [removeLoop]
    | cons x l =>
      obtain ⟨c, hc⟩ : ∃ c, count.toNat = c + 1 := ⟨count.toNat - 1, by omega⟩
      rw [List.take_succ_cons, List.drop_succ_cons, hc]
      by_cases hx : compare x = true
      · rw [dropMatches, if_pos hx]
        by_cases hlast : count - 1 = 0
        · rw [removeLoop, if_pos hx, if_pos hlast, show c = 0 by omega, dropMatches_zero,
            List.append_assoc, List.take_append_drop]
        · rw [removeLoop, if_pos hx, if_neg hlast, ih (by omega), show (count - 1).toNat = c by omega]
      · rw [removeLoop, if_neg hx, ih hcount, hc, dropMatches_of_not compare hx]
        simp

variable {eql : α → α → Bool} {a : Arguments α}

theorem removeList_spec (htests : withTests eql a = .ok compare) {l : List α}
    (hstart : a.start ≤ a.stop.getD l.length) (hstop : a.stop.getD l.length ≤ l.length) :
    removeList eql a l = .ok (removeWithin compare false a.start (a.stop.getD l.length)
      (sequenceCount a.count).toNat l) := by
  simp only [removeList, htests, withStartEnd_eq hstart hstop, bind, Except.bind]
  by_cases hcount : 0 < sequenceCount a.count
  · have hloop := removeLoop_spec compare (n := a.stop.getD l.length - a.start) hcount
      (l.drop a.start) (l.take a.start).reverse
    rw [List.reverse_reverse, List.drop_drop, Nat.add_sub_cancel' hstart] at hloop
    rw [if_pos hcount, removeHead_spec, List.append_nil, List.reverseAux_eq, hloop]
    rfl
  · have hzero : (sequenceCount a.count).toNat = 0 := by omega
    rw [if_neg hcount, hzero, removeWithin_zero compare false hstart hstop]
    rfl

variable {m : Memory α}

theorem consReverse_spec (l : List α) {p : Option ℕ} {cells : List ℕ} (h : Chain m p cells) :
    ∃ cells', Chain (consReverse l m p).1 (consReverse l m p).2 cells' ∧
      cells'.map (consReverse l m p).1.car = l.reverse ++ cells.map m.car := by
  induction l generalizing m p cells with
  | nil => exact ⟨cells, h, rfl⟩
  | cons x l ih =>
    obtain ⟨cells', hchain, hcars⟩ := ih (h.cons x)
    refine ⟨cells', hchain, hcars.trans ?_⟩
    rw [List.map_cons, h.cons_map_car, List.reverse_cons, List.append_assoc,
      List.singleton_append]
    exact congrArg (fun y => l.reverse ++ y :: cells.map m.car) (by simp [Memory.car, Memory.cons])

theorem deleteHead_spec {n : ℕ} {o sequence : Option ℕ} (done : List ℕ) {l : List ℕ} (splice : ℕ)
    (hn : n ≤ l.length) (hdone : Segment m o (done ++ [splice]) sequence)
    (hl : Segment m sequence l none) :
    ∃ done', done' ++ [(deleteHead m n sequence splice).2] = done ++ [splice] ++ l.take n ∧
      Segment m o (done' ++ [(deleteHead m n sequence splice).2])
        (deleteHead m n sequence splice).1 ∧
      Segment m (deleteHead m n sequence splice).1 (l.drop n) none := by
  induction n generalizing sequence done l splice with
  | zero => exact ⟨done, by simp [deleteHead], hdone, hl⟩
  | succ n ih =>
    cases l with
    | nil => exact absurd hn (by simp)
    | cons a l =>
      obtain ⟨rfl, hrest⟩ := hl
      have hnext : (m.cdr splice).getD splice = a := by rw [hdone.last_cdr, Option.getD_some]
      rw [deleteHead, hnext]
      obtain ⟨done', heq, hseg, htail⟩ := ih (done ++ [splice]) a
        (Nat.le_of_succ_le_succ hn) (hdone.append ⟨rfl, rfl⟩) hrest
      exact ⟨done', by rw [heq]; simp, hseg, htail⟩

variable (compare) in
theorem deleteLoop_spec {n : ℕ} {count : ℤ} {o sequence : Option ℕ} (done : List ℕ) {l : List ℕ}
    {splice : ℕ} (hcount : 0 < count) (hdone : Segment m o (done ++ [splice]) sequence)
    (hl : Segment m sequence l none) (hnodup : (done ++ splice :: l).Nodup) :
    Segment (deleteLoop compare n count sequence splice m) o
        (done ++ splice ::
          (dropMatches (fun a => compare (m.car a)) count.toNat (l.take n) ++ l.drop n)) none ∧
      (deleteLoop compare n count sequence splice m).car = m.car ∧
      (deleteLoop compare n count sequence splice m).size = m.size := by
  induction n generalizing count sequence done l splice m with
  | zero => exact ⟨by simpa [deleteLoop] using hdone.append hl, rfl, rfl⟩
  | succ n ih =>
    cases l with
    | nil =>
      cases hl
      exact ⟨by simpa [deleteLoop] using hdone, rfl, rfl⟩
    | cons a l =>
      obtain ⟨rfl, hrest⟩ := hl
      obtain ⟨c, hc⟩ : ∃ c, count.toNat = c + 1 := ⟨count.toNat - 1, by omega⟩
      rw [List.take_succ_cons, List.drop_succ_cons, hc]
      by_cases hx : compare (m.car a) = true
      · -- the splice is linked past the cell that goes
        have hsplice : splice ∉ done := fun h =>
          (List.nodup_append.mp hnodup).2.2 splice h splice List.mem_cons_self rfl
        have htail : splice ∉ a :: l :=
          (List.nodup_cons.mp (List.nodup_append.mp hnodup).2.1).1
        have hrelinked := hdone.relink hsplice (m.cdr a)
        have hkept : Segment (m.rplacd splice (m.cdr a)) (m.cdr a) l none :=
          hrest.congr fun b hb => rplacd_cdr_of_ne m (m.cdr a) fun he : b = splice =>
            htail (he ▸ List.mem_cons_of_mem a hb)
        rw [dropMatches, if_pos hx]
        by_cases hlast : count - 1 = 0
        · rw [deleteLoop, if_pos hx, if_pos hlast, show c = 0 by omega, dropMatches_zero,
            List.take_append_drop]
          exact ⟨by simpa using hrelinked.append hkept, rplacd_car m splice _, rfl⟩
        · rw [deleteLoop, if_pos hx, if_neg hlast]
          have hstep := ih done (show 0 < count - 1 by omega) hrelinked hkept
            (hnodup.sublist ((List.Sublist.refl done).append
              ((List.sublist_cons_self a l).cons_cons splice)))
          rw [rplacd_car, show (count - 1).toNat = c by omega] at hstep
          exact ⟨hstep.1, hstep.2.1, hstep.2.2⟩
      · have hnext : (m.cdr splice).getD splice = a := by rw [hdone.last_cdr, Option.getD_some]
        rw [deleteLoop, if_neg hx, hnext, dropMatches_of_not (fun b => compare (m.car b)) hx]
        have hstep := ih (done ++ [splice]) hcount
          (hdone.append ⟨rfl, rfl⟩) hrest (by simpa using hnodup)
        rw [hc, List.append_assoc] at hstep
        exact hstep

variable [Inhabited α]

theorem deleteList_spec (htests : withTests eql a = .ok compare) {p : Option ℕ} {l : List ℕ}
    (hchain : Chain m p l) {start : ℕ} {stop : Option ℕ}
    (hstart : start ≤ stop.getD l.length) (hstop : stop.getD l.length ≤ l.length) :
    ∃ m' p' l', deleteList eql a start stop l.length m p = .ok (m', p') ∧ Chain m' p' l' ∧
      l'.map m'.car = removeWithin compare false start (stop.getD l.length)
        (sequenceCount a.count).toNat (l.map m.car) := by
  simp only [deleteList, htests, withStartEnd_eq hstart hstop, bind, Except.bind]
  by_cases hcount : 0 < sequenceCount a.count
  · have hfront := hchain.cons default
    obtain ⟨done, hdone, hsplice, htail⟩ := deleteHead_spec (m := (m.cons default p).1)
      (o := some m.size) (n := start) [] m.size (by omega)
      ⟨rfl, cons_cdr_self m default p⟩ (cons_cdr_self m default p ▸ hfront.links.2)
    set head := deleteHead (m.cons default p).1 start p m.size with hhead
    have hcells : done ++ head.2 :: l.drop start = m.size :: l := by
      rw [← List.singleton_append, ← List.append_assoc, hdone]
      simp
    obtain ⟨hseg, hcar, hsize⟩ := deleteLoop_spec compare
      (n := stop.getD l.length - start) done hcount hsplice htail (hcells ▸ hfront.nodup)
    have hkept : ∀ r, done ++ head.2 :: r = m.size :: (l.take start ++ r) := fun r => by
      rw [← List.singleton_append, ← List.append_assoc, hdone]
      simp
    rw [hkept] at hseg
    set m' := deleteLoop compare (stop.getD l.length - start) (sequenceCount a.count) head.1 head.2
      (m.cons default p).1
    have hwithin : l.take start ++
        (dropMatches (fun b => compare ((m.cons default p).1.car b)) (sequenceCount a.count).toNat
          ((l.drop start).take (stop.getD l.length - start)) ++
            (l.drop start).drop (stop.getD l.length - start)) =
        removeWithin (fun b => compare ((m.cons default p).1.car b)) false start
          (stop.getD l.length) (sequenceCount a.count).toNat l := by
      rw [List.drop_drop, Nat.add_sub_cancel' hstart, ← List.append_assoc]
      rfl
    rw [hwithin] at hseg
    have hsub := removeWithin_sublist (fun b => compare ((m.cons default p).1.car b))
      (sequenceCount a.count).toNat hstart hstop
    refine ⟨m', m'.cdr m.size, _, by rw [if_pos hcount]; rfl,
      ⟨hseg.2, hchain.nodup.sublist hsub, fun b hb => ?_⟩, ?_⟩
    · rw [hsize]
      exact Nat.lt_succ_of_lt (hchain.used b (hsub.subset hb))
    · rw [hcar, ← removeWithin_map compare (m.cons default p).1.car, hchain.cons_map_car]
  · have hzero : (sequenceCount a.count).toNat = 0 := by omega
    refine ⟨m, p, l, by rw [if_neg hcount]; rfl, hchain, ?_⟩
    rw [hzero, removeWithin_zero compare false hstart (by simpa using hstop)]

/-- DELETE of a list leaves what has to stay, with its cells. -/
theorem deleteSequence_spec (htests : withTests eql a = .ok compare) {p : Option ℕ} {l : List ℕ}
    (hchain : Chain m p l) (hstart : a.start ≤ a.stop.getD l.length)
    (hstop : a.stop.getD l.length ≤ l.length) :
    ∃ m' p' l', deleteSequence eql a l.length m p = .ok (m', p') ∧ Chain m' p' l' ∧
      l'.map m'.car = removeWithin compare a.fromEnd a.start (a.stop.getD l.length)
        (sequenceCount a.count).toNat (l.map m.car) := by
  cases hend : a.fromEnd with
  | false =>
    rw [deleteSequence, hend, if_neg Bool.false_ne_true]
    exact deleteList_spec htests hchain hstart hstop
  | true =>
    have hskip : a.stop.elim 0 (l.length - ·) = l.length - a.stop.getD l.length := by
      cases a.stop <;> simp
    obtain ⟨hreversed, hcar, -⟩ := hchain.reverse
    obtain ⟨m', p', l', hdelete, hchain', hcars⟩ := deleteList_spec htests hreversed
      (show l.length - a.stop.getD l.length ≤ (some (l.length - a.start)).getD _ by
        simp only [Option.getD_some]
        omega)
      (by simp only [Option.getD_some, List.length_reverse]; omega)
    rw [List.length_reverse] at hdelete
    refine ⟨_, _, l'.reverse, ?_, hchain'.reverse.1, ?_⟩
    · simp only [deleteSequence, hend, if_true, hskip, hdelete, bind, Except.bind]
      rfl
    · have hlen : l.length = (l.map m.car).length := (List.length_map _).symm
      rw [hchain'.reverse.2.1, List.map_reverse, hcars, hcar, List.map_reverse, Option.getD_some,
        hlen]
      exact removeWithin_reverse compare _ (by rwa [← hlen]) (by rwa [← hlen])

theorem removeSequence_spec (htests : withTests eql a = .ok compare) {l : List α}
    (hstart : a.start ≤ a.stop.getD l.length) (hstop : a.stop.getD l.length ≤ l.length) :
    removeSequence eql a l = .ok (removeWithin compare a.fromEnd a.start (a.stop.getD l.length)
      (sequenceCount a.count).toNat l) := by
  cases hend : a.fromEnd with
  | false =>
    rw [removeSequence, hend, if_neg Bool.false_ne_true]
    exact removeList_spec htests hstart hstop
  | true =>
    have hskip : a.stop.elim 0 (l.length - ·) = l.length - a.stop.getD l.length := by
      cases a.stop <;> simp
    have hempty : Chain (⟨fun _ => ⟨default, none⟩, 0⟩ : Memory α) none [] :=
      ⟨rfl, List.nodup_nil, by simp⟩
    obtain ⟨cells, hcells, hcars⟩ := consReverse_spec l hempty
    rw [List.map_nil, List.append_nil] at hcars
    have hlen : cells.length = l.length := by
      have h := congrArg List.length hcars
      rwa [List.length_map, List.length_reverse] at h
    obtain ⟨m', p', l', hdelete, hchain', hcars'⟩ := deleteList_spec htests hcells
      (show l.length - a.stop.getD l.length ≤ (some (l.length - a.start)).getD _ by
        simp only [Option.getD_some]
        omega)
      (by simp only [Option.getD_some]; omega)
    rw [hlen] at hdelete
    have hresult := hchain'.reverse
    simp only [removeSequence, hend, if_true, hskip, hdelete, bind, Except.bind, pure, Except.pure]
    rw [contents_spec hresult.1.links hresult.1.length_le, hresult.2.1, List.map_reverse, hcars',
      hcars, Option.getD_some, removeWithin_reverse compare _ hstart hstop]

end ListRemoval
