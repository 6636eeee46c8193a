import Ecl.SequenceSorting
import Ecl.Sorting

/-! # The merge sort of lists

The cells of a list are relinked; their elements stay. -/
namespace ListSorting

open ConsChains SequenceSorting StableSorting

variable {α κ : Type} {predicate : κ → κ → Bool} {key : α → κ}

def precedes (predicate : κ → κ → Bool) (key : α → κ) (x y : α) : Bool :=
  predicate (key x) (key y)

theorem precedes_weakOrder (h : WeakOrder predicate) (key : α → κ) :
    WeakOrder (precedes predicate key) := h.comap key

theorem takesRight_eq (h : WeakOrder predicate) (x y : κ) :
    takesRight predicate x y = predicate y x := by
  by_cases hxy : predicate x y = true
  · rw [takesRight, if_pos hxy, h.asymm hxy]
  · rw [takesRight, if_neg hxy]

def cellOrder (predicate : κ → κ → Bool) (key : α → κ) (m : Memory α) (a b : ℕ) : Bool :=
  precedes predicate key (m.car a) (m.car b)

theorem cellOrder_rplacd (m : Memory α) (a : ℕ) (q : Option ℕ) :
    cellOrder predicate key (m.rplacd a q) = cellOrder predicate key m := by
  funext b c
  rw [cellOrder, cellOrder, rplacd_car]

theorem round_spec {m : Memory α} {o q : Option ℕ} {done cs ds : List ℕ} {l1 c d : ℕ}
    (merged : List ℕ) (next : ℕ → Option (Memory α)) (hdone : Segment m o (done ++ [l1]) q)
    (hc : Segment m (some c) (c :: cs) none) (hd : Segment m (some d) (d :: ds) none)
    (hnodup : (done ++ l1 :: (c :: cs ++ d :: ds)).Nodup) (hnil : cs = [] → merged = d :: ds)
    (hnext : ∀ z cs', cs = z :: cs' →
      Segment (m.rplacd l1 (some c)) o (done ++ [l1] ++ [c]) (some z) →
      Segment (m.rplacd l1 (some c)) (some z) (z :: cs') none →
      Segment (m.rplacd l1 (some c)) (some d) (d :: ds) none →
      ∃ m', next z = some m' ∧ Segment m' o (done ++ [l1] ++ c :: merged) none ∧
        m'.car = (m.rplacd l1 (some c)).car ∧ m'.size = m.size ∧
        ∀ b, b ≠ c → b ∉ cs → b ∉ d :: ds → m'.cdr b = (m.rplacd l1 (some c)).cdr b) :
    ∃ m', ((m.rplacd l1 (some c)).cdr c).elim
        (some ((m.rplacd l1 (some c)).rplacd c (some d))) next = some m' ∧
      Segment m' o (done ++ l1 :: c :: merged) none ∧ m'.car = m.car ∧ m'.size = m.size ∧
      ∀ b, b ≠ l1 → b ∉ c :: cs → b ∉ d :: ds → m'.cdr b = m.cdr b := by
  have hparts := List.nodup_append.mp hnodup
  have htail := List.nodup_cons.mp hparts.2.1
  have hl1 : l1 ∉ done := fun h => hparts.2.2 l1 h l1 List.mem_cons_self rfl
  have hother : ∀ b ∈ c :: cs ++ d :: ds, (m.rplacd l1 (some c)).cdr b = m.cdr b := fun b hb =>
    rplacd_cdr_of_ne m (some c) fun he : b = l1 => htail.1 (he ▸ hb)
  have hlinked : Segment (m.rplacd l1 (some c)) o (done ++ [l1] ++ [c]) (m.cdr c) :=
    (hdone.relink hl1 (some c)).append ⟨rfl, hother c (by simp)⟩
  have hds : Segment (m.rplacd l1 (some c)) (some d) (d :: ds) none :=
    hd.congr fun b hb => hother b (List.mem_append_right _ hb)
  have hcs : Segment (m.rplacd l1 (some c)) (m.cdr c) cs none :=
    hc.2.congr fun b hb => hother b (by simp [hb])
  rw [hother c (by simp)]
  cases cs with
  | nil =>
    have hnone : m.cdr c = none := hc.2
    have hc' : c ∉ done ++ [l1] := by
      intro h
      obtain h | h := List.mem_append.mp h
      · exact hparts.2.2 c h c (by simp) rfl
      · exact htail.1 (by simp [← List.mem_singleton.mp h])
    have hcd : c ∉ d :: ds := fun h =>
      (List.nodup_append.mp htail.2).2.2 c List.mem_cons_self c h rfl
    have hend := (hlinked.relink hc' (some d)).append (hds.congr fun b hb =>
      rplacd_cdr_of_ne (m.rplacd l1 (some c)) (some d) fun he : b = c => hcd (he ▸ hb))
    rw [hnone]
    refine ⟨_, rfl, ?_, by rw [rplacd_car, rplacd_car], rfl, fun b hb hbc _ => ?_⟩
    · rw [hnil rfl]
      simpa using hend
    · rw [rplacd_cdr_of_ne _ _ (List.ne_of_not_mem_cons hbc), rplacd_cdr_of_ne _ _ hb]
  | cons z cs' =>
    have hsome : m.cdr c = some z := hc.2.1
    rw [hsome] at hlinked hcs ⊢
    obtain ⟨m', hm', hseg, hcar, hsize, hframe⟩ := hnext z cs' rfl hlinked hcs hds
    refine ⟨m', hm', by simpa using hseg, hcar.trans (rplacd_car m l1 _), hsize,
      fun b hb hbc hbd => ?_⟩
    rw [hframe b (List.ne_of_not_mem_cons hbc) (List.not_mem_of_not_mem_cons hbc) hbd,
      rplacd_cdr_of_ne _ _ hb]

variable (key) in
theorem mergeLoop_spec (hp : WeakOrder predicate) {n : ℕ} {m : Memory α} {o q : Option ℕ}
    (done : List ℕ) {l1 x y : ℕ} {l r : List ℕ} (hn : l.length + r.length + 2 ≤ n)
    (hdone : Segment m o (done ++ [l1]) q) (hl : Segment m (some x) (x :: l) none)
    (hr : Segment m (some y) (y :: r) none) (hnodup : (done ++ l1 :: (x :: l ++ y :: r)).Nodup) :
    ∃ m', mergeLoop predicate key n m l1 x y = some m' ∧
      Segment m' o (done ++ l1 :: mergeBy (cellOrder predicate key m) (x :: l) (y :: r)) none ∧
      m'.car = m.car ∧ m'.size = m.size ∧
      ∀ b, b ≠ l1 → b ∉ x :: l → b ∉ y :: r → m'.cdr b = m.cdr b := by
  induction n generalizing m o q done l1 x y l r with
  | zero => omega
  | succ n ih =>
    by_cases hright : cellOrder predicate key m y x = true
    · have htake : takesRight predicate (key (m.car x)) (key (m.car y)) = true :=
        (takesRight_eq hp _ _).trans hright
      have hperm : (y :: r ++ x :: l).Perm (x :: l ++ y :: r) := List.perm_append_comm
      have hnodup' := ((hperm.cons l1).append_left done).nodup_iff.mpr hnodup
      simp only [mergeLoop, if_pos htake, rplacd_cdr_self, Option.getD_some]
      rw [mergeBy_cons_right hright]
      have hround := round_spec (mergeBy (cellOrder predicate key m) (x :: l) r)
        (fun right => mergeLoop predicate key n (m.rplacd l1 (some y)) y x right) hdone hr hl hnodup'
        (fun h => by rw [h, mergeBy_nil_right]) ?_
      · obtain ⟨m', hm', hseg, hcar, hsize, hframe⟩ := hround
        exact ⟨m', hm', hseg, hcar, hsize, fun b hb hbl hbr => hframe b hb hbr hbl⟩
      · rintro z r' rfl hlinked hrest hother
        have hperm' : (y :: (x :: l ++ z :: r')).Perm (x :: l ++ y :: z :: r') :=
          List.perm_middle.symm
        obtain ⟨m', hm', hseg, hcar, hsize, hframe⟩ := ih (done ++ [l1]) (by
          simp only [List.length_cons] at hn ⊢
          omega) hlinked hother hrest (by
            rw [List.append_assoc, List.singleton_append]
            exact ((hperm'.cons l1).append_left done).nodup_iff.mpr hnodup)
        refine ⟨m', hm', ?_, hcar, hsize, fun b hb hbr hbl => hframe b hb hbl hbr⟩
        rwa [cellOrder_rplacd] at hseg
    · have htake : ¬ takesRight predicate (key (m.car x)) (key (m.car y)) = true := by
        rw [takesRight_eq hp]
        exact hright
      simp only [mergeLoop, if_neg htake, rplacd_cdr_self, Option.getD_some]
      rw [mergeBy_cons_left hright]
      refine round_spec _ _ hdone hl hr hnodup (fun h => by rw [h, mergeBy_nil_left]) ?_
      rintro z l' rfl hlinked hrest hother
      obtain ⟨m', hm', hseg, hcar, hsize, hframe⟩ := ih (done ++ [l1]) (by
        simp only [List.length_cons] at hn ⊢
        omega) hlinked hrest hother (by simpa using hnodup)
      refine ⟨m', hm', ?_, hcar, hsize, hframe⟩
      rwa [cellOrder_rplacd] at hseg

theorem halfLoop_spec {m : Memory α} {p r : Option ℕ} {l l' : List ℕ} {a : ℕ}
    (h : Segment m p (l ++ a :: l') r) : halfLoop m l.length p = some a := by
  induction l generalizing p with
  | nil => exact h.1
  | cons b l ih =>
    obtain ⟨rfl, hrest⟩ := h
    exact ih hrest

structure Sorted (predicate : κ → κ → Bool) (key : α → κ) (m : Memory α) (l : List ℕ)
    (m' : Memory α) (p' : Option ℕ) (l' : List ℕ) : Prop where
  chain : Chain m' p' l'
  perm : l'.Perm l
  sorts : StablySorts (precedes predicate key) (l.map m.car) (l'.map m.car)
  size : m.size ≤ m'.size
  car : ∀ b < m.size, m'.car b = m.car b
  cdr : ∀ b < m.size, b ∉ l → m'.cdr b = m.cdr b

theorem cut_spec {m : Memory α} {p : Option ℕ} {front right : List ℕ} {z : ℕ}
    (h : Chain m p (front ++ z :: right)) :
    Chain (m.rplacd z none) p (front ++ [z]) ∧ Chain (m.rplacd z none) (m.cdr z) right := by
  have heq : front ++ z :: right = front ++ [z] ++ right := by simp
  have hnodup := List.nodup_append.mp (heq ▸ h.nodup)
  have hz : z ∉ front := fun hm => (List.nodup_append.mp hnodup.1).2.2 z hm z (by simp) rfl
  have hright : z ∉ right := fun hm => hnodup.2.2 z (by simp) z hm rfl
  obtain ⟨q, hleft, htail⟩ := (heq ▸ h.links : Segment m p (front ++ [z] ++ right) none).split
  rw [← hleft.last_cdr] at htail
  refine ⟨⟨hleft.relink hz none, hnodup.1, fun b hb => h.used b ?_⟩,
    ⟨htail.congr fun b hb => rplacd_cdr_of_ne m none fun he : b = z => hright (he ▸ hb),
      hnodup.2.1, fun b hb => h.used b ?_⟩⟩
  · rw [heq]
    exact List.mem_append_left _ hb
  · rw [heq]
    exact List.mem_append_right _ hb

theorem Sorted.keeps {m m' : Memory α} {l l' r : List ℕ} {p' q : Option ℕ}
    (h : Sorted predicate key m l m' p' l') (hr : Chain m q r) (hdisjoint : ∀ b ∈ r, b ∉ l) :
    Chain m' q r where
  links := hr.links.congr fun b hb => h.cdr b (hr.used b hb) (hdisjoint b hb)
  nodup := hr.nodup
  used b hb := Nat.lt_of_lt_of_le (hr.used b hb) h.size

theorem chain_pointer {m : Memory α} {p : Option ℕ} {l : List ℕ} (h : Chain m p l)
    (hne : l ≠ []) : ∃ x l', l = x :: l' ∧ p = some x := by
  obtain ⟨x, l', rfl⟩ := List.exists_cons_of_ne_nil hne
  exact ⟨x, l', rfl, h.links.1⟩

theorem sorted_halves (hp : WeakOrder predicate) {m m2 m3 m' : Memory α} {pl pr p' : Option ℕ}
    {front right l' r' : List ℕ} {z : ℕ} (h : ∀ b ∈ front ++ z :: right, b < m.size)
    (hl : Sorted predicate key (m.rplacd z none) (front ++ [z]) m2 pl l')
    (hr : Sorted predicate key m2 right m3 pr r')
    (hchain : Chain m' p' (mergeBy (cellOrder predicate key m3) l' r'))
    (hcar : ∀ b < m3.size, m'.car b = m3.car b) (hsize : m3.size ≤ m'.size)
    (hcdr : ∀ b < m3.size, b ∉ l' → b ∉ r' → m'.cdr b = m3.cdr b) :
    Sorted predicate key m (front ++ z :: right) m' p'
      (mergeBy (cellOrder predicate key m3) l' r') where
  chain := hchain
  perm := by
    have heq : front ++ z :: right = front ++ [z] ++ right := by simp
    rw [heq]
    exact (mergeBy_perm l' r').trans (hl.perm.append hr.perm)
  sorts := by
    have hmem : ∀ b ∈ l', b < m.size := fun b hb => h b (by
      have := hl.perm.subset hb
      simp only [List.mem_append, List.mem_singleton] at this
      simp only [List.mem_append, List.mem_cons]
      tauto)
    have hmem' : ∀ b ∈ r', b < m.size := fun b hb =>
      h b (List.mem_append_right _ (List.mem_cons_of_mem z (hr.perm.subset hb)))
    have hcar2 : ∀ b < m.size, m2.car b = m.car b := fun b hb => by
      rw [hl.car b hb, rplacd_car]
    have hcar3 : ∀ b < m.size, m3.car b = m.car b := fun b hb =>
      (hr.car b (Nat.lt_of_lt_of_le hb hl.size)).trans (hcar2 b hb)
    have hright : right.map m2.car = right.map m.car :=
      List.map_congr_left fun b hb =>
        hcar2 b (h b (List.mem_append_right _ (List.mem_cons_of_mem z hb)))
    have hright' : r'.map m2.car = r'.map m.car :=
      List.map_congr_left fun b hb => hcar2 b (hmem' b hb)
    have hsorts := hr.sorts
    rw [hright, hright'] at hsorts
    have hleft := hl.sorts
    rw [rplacd_car] at hleft
    have hmap : (mergeBy (cellOrder predicate key m3) l' r').map m.car =
        mergeBy (precedes predicate key) (l'.map m.car) (r'.map m.car) :=
      mergeBy_map m.car fun b hb c hc => by
        rw [cellOrder, hcar3 b (hmem b hb), hcar3 c (hmem' c hc)]
    rw [hmap]
    simpa using hleft.merge (precedes_weakOrder hp key) hsorts
  size := hl.size.trans (hr.size.trans hsize)
  car b hb := by
    have hb2 : b < m2.size := Nat.lt_of_lt_of_le hb hl.size
    rw [hcar b (Nat.lt_of_lt_of_le hb2 hr.size), hr.car b hb2, hl.car b hb, rplacd_car]
  cdr b hb hm := by
    have hb2 : b < m2.size := Nat.lt_of_lt_of_le hb hl.size
    have hfront : b ∉ front ++ [z] := fun hc => hm (by
      simp only [List.mem_append, List.mem_singleton] at hc
      simp only [List.mem_append, List.mem_cons]
      tauto)
    have hright : b ∉ right := fun hc =>
      hm (List.mem_append_right _ (List.mem_cons_of_mem z hc))
    rw [hcdr b (Nat.lt_of_lt_of_le hb2 hr.size) (fun hc => hfront (hl.perm.subset hc))
      (fun hc => hright (hr.perm.subset hc)), hr.cdr b hb2 hright, hl.cdr b hb hfront,
      rplacd_cdr_of_ne m none fun he => hm (by simp [he])]

variable [Inhabited α]

theorem sorted_two (hp : WeakOrder predicate) {m : Memory α} {p : Option ℕ} {a b : ℕ}
    (h : Chain m p [a, b]) :
    ∃ m' p' l', (if takesRight predicate (key (car m p)) (key (car m (cdr m p))) = true then
        some (reverseLoop m.size m p none) else some (m, p)) = some (m', p') ∧
      Sorted predicate key m [a, b] m' p' l' := by
  obtain ⟨rfl, hb, -⟩ := h.links
  have hcdr : cdr m (some a) = some b := hb
  have hmerge := (StablySorts.of_length_le (precedes predicate key)
    (show [m.car a].length ≤ 1 from Nat.le_refl 1)).merge (precedes_weakOrder hp key)
    (StablySorts.of_length_le _ (show [m.car b].length ≤ 1 from Nat.le_refl 1))
  rw [hcdr]
  by_cases hright : precedes predicate key (m.car b) (m.car a) = true
  · rw [mergeBy_cons_right hright, mergeBy_nil_right] at hmerge
    obtain ⟨hchain, hcar, hsize⟩ := h.reverse
    refine ⟨_, _, _, if_pos ((takesRight_eq hp _ _).trans hright), hchain,
      List.reverse_perm _, hmerge, Nat.le_of_eq hsize.symm, fun c _ => by rw [hcar],
      fun c _ hc => reverseLoop_frame h.links h.nodup hc⟩
  · rw [mergeBy_cons_left hright, mergeBy_nil_left] at hmerge
    refine ⟨m, some a, [a, b], if_neg ?_, h, List.Perm.refl _, hmerge, Nat.le_refl _,
      fun _ _ => rfl, fun _ _ _ => rfl⟩
    rw [takesRight_eq hp]
    exact hright

variable (key) in
theorem merge_sorted (hp : WeakOrder predicate) {m : Memory α} {x y : ℕ} {l r : List ℕ}
    (hl : Chain m (some x) (x :: l)) (hr : Chain m (some y) (y :: r))
    (hdisjoint : (x :: l ++ y :: r).Nodup) :
    ∃ m', mergeLoop predicate key (m.cons default none).1.size (m.cons default none).1
        (m.cons default none).2 x y = some m' ∧
      Chain m' (m'.cdr (m.cons default none).2)
        (mergeBy (cellOrder predicate key m) (x :: l) (y :: r)) ∧
      (∀ b < m.size, m'.car b = m.car b) ∧ m.size ≤ m'.size ∧
      ∀ b < m.size, b ∉ x :: l → b ∉ y :: r → m'.cdr b = m.cdr b := by
  have hfresh : m.size ∉ x :: l ++ y :: r := by
    intro h
    obtain h | h := List.mem_append.mp h
    · exact Nat.lt_irrefl _ (hl.used _ h)
    · exact Nat.lt_irrefl _ (hr.used _ h)
  have hlen : (x :: l).length + (y :: r).length ≤ m.size := by
    rw [← List.length_append]
    have hsub : x :: l ++ y :: r ⊆ List.range m.size := by
      intro b hb
      obtain hb | hb := List.mem_append.mp hb
      · exact List.mem_range.mpr (hl.used b hb)
      · exact List.mem_range.mpr (hr.used b hb)
    have hle := (List.subperm_of_subset hdisjoint hsub).length_le
    rwa [List.length_range] at hle
  obtain ⟨m', hm', hseg, hcar, hsize, hframe⟩ := mergeLoop_spec key hp
    (m := (m.cons default none).1) (n := (m.cons default none).1.size) [] (by
      simp only [List.length_cons] at hlen
      exact Nat.le_succ_of_le (by omega))
    (show Segment (m.cons default none).1 (some m.size) ([] ++ [m.size]) none from
      ⟨rfl, cons_cdr_self m default none⟩)
    (hl.links.congr fun b hb => cons_cdr_of_lt m default none (hl.used b hb))
    (hr.links.congr fun b hb => cons_cdr_of_lt m default none (hr.used b hb))
    (List.nodup_cons.mpr ⟨hfresh, hdisjoint⟩)
  have horder : mergeBy (cellOrder predicate key (m.cons default none).1) (x :: l) (y :: r) =
      mergeBy (cellOrder predicate key m) (x :: l) (y :: r) := mergeBy_congr fun a ha b hb => by
    rw [cellOrder, cellOrder, cons_car_of_lt m default none (hl.used a ha),
      cons_car_of_lt m default none (hr.used b hb)]
  rw [horder] at hseg
  have hperm : (mergeBy (cellOrder predicate key m) (x :: l) (y :: r)).Perm (x :: l ++ y :: r) :=
    mergeBy_perm _ _
  have hle : m.size ≤ m'.size := hsize ▸ Nat.le_succ m.size
  refine ⟨m', hm', ⟨hseg.2, hperm.nodup_iff.mpr hdisjoint, fun b hb => ?_⟩, fun b hb => ?_, hle,
    fun b hb hbl hbr => ?_⟩
  · obtain hb | hb := List.mem_append.mp (hperm.subset hb)
    · exact Nat.lt_of_lt_of_le (hl.used b hb) hle
    · exact Nat.lt_of_lt_of_le (hr.used b hb) hle
  · rw [hcar, cons_car_of_lt m default none hb]
  · rw [hframe b (Nat.ne_of_lt hb) hbl hbr, cons_cdr_of_lt m default none hb]

theorem listMergeSort_spec (hp : WeakOrder predicate) {n : ℕ} {m : Memory α} {p : Option ℕ}
    {l : List ℕ} (h : Chain m p l) (hn : l.length < n) :
    ∃ m' p' l', listMergeSort predicate key n m p = some (m', p') ∧
      Sorted predicate key m l m' p' l' := by
  induction n generalizing m p l with
  | zero => omega
  | succ n ih =>
    have hlen : (contents m m.size p).length = l.length := by
      rw [contents_spec h.links h.length_le, List.length_map]
    simp only [listMergeSort, hlen]
    by_cases hshort : l.length < 2
    · refine ⟨m, p, l, if_pos hshort, h, List.Perm.refl l, ?_, Nat.le_refl _, fun _ _ => rfl,
        fun _ _ _ => rfl⟩
      exact StablySorts.of_length_le _ (by rw [List.length_map]; omega)
    rw [if_neg hshort]
    by_cases htwo : l.length = 2
    · rw [if_pos htwo]
      obtain ⟨a, b, rfl⟩ := List.length_eq_two.mp htwo
      exact sorted_two hp h
    rw [if_neg htwo]
    -- the list in front of the last cell of its first half, that cell and the second half
    obtain ⟨front, z, right, rfl, hfront⟩ : ∃ front z right, l = front ++ z :: right ∧
        front.length = l.length / 2 - 1 := by
      have hlt : l.length / 2 - 1 < l.length := by omega
      exact ⟨l.take (l.length / 2 - 1), l[l.length / 2 - 1], l.drop (l.length / 2 - 1 + 1),
        by rw [← List.drop_eq_getElem_cons hlt, List.take_append_drop], by
          rw [List.length_take]
          omega⟩
    have hlast := halfLoop_spec h.links
    rw [hfront] at hlast
    rw [hlast, Option.getD_some]
    obtain ⟨hleft, hright⟩ := cut_spec h
    have hnodup := List.nodup_append.mp h.nodup
    rw [List.length_append, List.length_cons] at hn hshort htwo hfront
    obtain ⟨m2, pl, l', hl', hl⟩ := ih hleft (by
      rw [List.length_append, List.length_singleton]
      omega)
    have hapart : ∀ b ∈ right, b ∉ front ++ [z] := by
      intro b hb hm
      obtain hm | hm := List.mem_append.mp hm
      · exact hnodup.2.2 b hm b (List.mem_cons_of_mem z hb) rfl
      · rw [List.mem_singleton] at hm
        exact (List.nodup_cons.mp hnodup.2.1).1 (hm ▸ hb)
    obtain ⟨m3, pr, r', hr', hr⟩ := ih (hl.keeps hright hapart) (by omega)
    have hkept := hr.keeps hl.chain fun b hb hm => hapart b hm (hl.perm.subset hb)
    obtain ⟨x, xs, rfl, rfl⟩ := chain_pointer hkept fun h0 => by
      have := hl.perm.length_eq
      rw [h0, List.length_append] at this
      simp at this
    obtain ⟨y, ys, rfl, rfl⟩ := chain_pointer hr.chain fun h0 => by
      have := hr.perm.length_eq
      rw [h0, List.length_nil] at this
      omega
    obtain ⟨m', hm', hchain, hcar, hsize, hcdr⟩ := merge_sorted key hp hkept hr.chain (by
      refine List.nodup_append.mpr ⟨hkept.nodup, hr.chain.nodup, fun b hb c hc he => ?_⟩
      exact hapart c (hr.perm.subset hc) (hl.perm.subset (he ▸ hb)))
    refine ⟨m', _, _, ?_, sorted_halves hp h.used hl hr hchain hcar hsize hcdr⟩
    simp only [hl', Option.bind_some, hr', Option.elim_some, hm', Option.map_some]

theorem sortList_spec (hp : WeakOrder predicate) (key : α → κ) {m : Memory α} {p : Option ℕ}
    {l : List ℕ} (h : Chain m p l) :
    ∃ m' p' l', sortList predicate key m p = some (m', p') ∧
      Sorted predicate key m l m' p' l' := by
  have hlen : (contents m m.size p).length = l.length := by
    rw [contents_spec h.links h.length_le, List.length_map]
  rw [sortList, hlen]
  exact listMergeSort_spec hp h (Nat.lt_succ_self _)

end ListSorting
