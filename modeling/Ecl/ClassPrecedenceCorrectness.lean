import Ecl.ClassPrecedence
import Mathlib.Data.Fintype.EquivFin

/-! The walk over the superclasses of a class, and the rounds that take one of them after another. -/
namespace ClassPrecedence

open ListOrders

variable {C : Type} {g : ClassGraph C} {c : C}

structure Walk (g : ClassGraph C) (c : C) (pending classList : List C) (lists : List (List C)) :
    Prop where
  nodup : classList.Nodup
  reached : ∀ x, x ∈ classList ∨ x ∈ pending → Superclass g c x
  closed : ∀ y, y ∈ g.directSuperclasses c ∨ (∃ x ∈ classList, Direct g x y) →
    y ∈ classList ∨ y ∈ pending
  lists : ∀ l, l ∈ lists ↔ l = g.directSuperclasses c ∨
    ∃ x ∈ classList, l = x :: g.directSuperclasses x

theorem Walk.start : Walk g c (g.directSuperclasses c) [] [g.directSuperclasses c] where
  nodup := List.nodup_nil
  reached x hx := Relation.TransGen.single (hx.resolve_left List.not_mem_nil)
  closed y hy := by
    rcases hy with hy | ⟨x, hx, -⟩
    · exact Or.inr hy
    · exact absurd hx List.not_mem_nil
  lists l := by simp

theorem Walk.skip {next : C} {pending classList : List C} {lists : List (List C)}
    (h : Walk g c (next :: pending) classList lists) (hn : next ∈ classList) :
    Walk g c pending classList lists where
  nodup := h.nodup
  reached x hx := h.reached x (hx.imp_right (List.mem_cons_of_mem next))
  closed y hy := by
    rcases h.closed y hy with hy | hy
    · exact Or.inl hy
    rcases List.mem_cons.mp hy with rfl | hy
    · exact Or.inl hn
    · exact Or.inr hy
  lists := h.lists

theorem Walk.visit {next : C} {pending classList : List C} {lists : List (List C)}
    (h : Walk g c (next :: pending) classList lists) (hn : next ∉ classList) :
    Walk g c (g.directSuperclasses next ++ pending) (next :: classList)
      ((next :: g.directSuperclasses next) :: lists) where
  nodup := List.nodup_cons.mpr ⟨hn, h.nodup⟩
  reached x hx := by
    have hnext : Superclass g c next := h.reached next (Or.inr List.mem_cons_self)
    rcases hx with hx | hx
    · rcases List.mem_cons.mp hx with rfl | hx
      · exact hnext
      · exact h.reached x (Or.inl hx)
    · rcases List.mem_append.mp hx with hx | hx
      · exact hnext.tail hx
      · exact h.reached x (Or.inr (List.mem_cons_of_mem next hx))
  closed y hy := by
    have hold : y ∈ classList ∨ y ∈ next :: pending →
        y ∈ next :: classList ∨ y ∈ g.directSuperclasses next ++ pending := by
      rintro (hy | hy)
      · exact Or.inl (List.mem_cons_of_mem next hy)
      rcases List.mem_cons.mp hy with rfl | hy
      · exact Or.inl List.mem_cons_self
      · exact Or.inr (List.mem_append_right _ hy)
    rcases hy with hy | ⟨x, hx, hxy⟩
    · exact hold (h.closed y (Or.inl hy))
    rcases List.mem_cons.mp hx with rfl | hx
    · exact Or.inr (List.mem_append_left _ hxy)
    · exact hold (h.closed y (Or.inr ⟨x, hx, hxy⟩))
  lists l := by
    rw [List.mem_cons, h.lists]
    constructor
    · rintro (rfl | rfl | ⟨x, hx, rfl⟩)
      · exact Or.inr ⟨next, List.mem_cons_self, rfl⟩
      · exact Or.inl rfl
      · exact Or.inr ⟨x, List.mem_cons_of_mem next hx, rfl⟩
    · rintro (rfl | ⟨x, hx, rfl⟩)
      · exact Or.inr (Or.inl rfl)
      · rcases List.mem_cons.mp hx with rfl | hx
        · exact Or.inl rfl
        · exact Or.inr (Or.inr ⟨x, hx, rfl⟩)

theorem Walk.walkSupers [Fintype C] [DecidableEq C] {pending classList : List C} {lists : List (List C)}
    (h : Walk g c pending classList lists) :
    Walk g c [] (walkSupers g pending classList lists).1
      (walkSupers g pending classList lists).2 := by
  induction pending, classList, lists using ClassPrecedence.walkSupers.induct g with
  | case1 classList lists =>
    rw [ClassPrecedence.walkSupers]
    exact h
  | case2 next pending classList lists hn ih =>
    rw [ClassPrecedence.walkSupers, if_pos hn]
    exact ih (h.skip hn)
  | case3 next pending classList lists hn more ih =>
    rw [ClassPrecedence.walkSupers, if_neg hn]
    exact ih (h.visit hn)

theorem Walk.mem {classList : List C} {lists : List (List C)} (h : Walk g c [] classList lists)
    (x : C) : x ∈ classList ↔ Superclass g c x := by
  refine ⟨fun hx => h.reached x (Or.inl hx), fun hx => ?_⟩
  induction hx with
  | single hx => exact (h.closed _ (Or.inl hx)).resolve_right List.not_mem_nil
  | tail _ hxy ih => exact (h.closed _ (Or.inr ⟨_, ih, hxy⟩)).resolve_right List.not_mem_nil

theorem Walk.local_iff {classList : List C} {lists : List (List C)}
    (h : Walk g c [] classList lists) (l : List C) : l ∈ lists ↔ Local g c l := by
  rw [h.lists, Local]
  simp only [h.mem]

theorem mem_deleteClass [DecidableEq C] {next : C} {l : List C} {lists : List (List C)} :
    l ∈ deleteClass next lists ↔
      l ≠ [] ∧ (next :: l ∈ lists ∨ l ∈ lists ∧ l.head? ≠ some next) := by
  simp only [deleteClass, List.mem_filter, List.mem_map, decide_eq_true_eq]
  constructor
  · rintro ⟨⟨l, hl, rfl⟩, hne⟩
    refine ⟨hne, ?_⟩
    by_cases hh : l.head? = some next
    · obtain ⟨t, rfl⟩ := List.head?_eq_some_iff.mp hh
      exact Or.inl (by simpa using hl)
    · rw [if_neg hh]
      exact Or.inr ⟨hl, hh⟩
  · rintro ⟨hne, hl | ⟨hl, hh⟩⟩
    · exact ⟨⟨next :: l, hl, if_pos rfl⟩, hne⟩
    · exact ⟨⟨l, hl, if_neg hh⟩, hne⟩

def LocallyFree (g : ClassGraph C) (c : C) (list : List C) (y : C) : Prop :=
  ∀ l, Local g c l → ∀ a, [a, y].Sublist l → a ∈ list

structure Rounds (g : ClassGraph C) (c : C) (done classList : List C) (lists : List (List C)) :
    Prop where
  nodup : (done ++ classList).Nodup
  mem : ∀ x, x ∈ done ++ classList ↔ Superclass g c x
  left : ∀ l ∈ lists, l ≠ [] ∧ (∀ x ∈ l, x ∉ done) ∧ ∃ p, Local g c (p ++ l)
  kept : ∀ l, Local g c l → ∃ p rest, l = p ++ rest ∧ p.Sublist done ∧ (∀ x ∈ rest, x ∉ done) ∧
    (rest ≠ [] → rest ∈ lists)
  tie : ∀ before x after, done = before ++ x :: after → ∀ y, y ∈ after ∨ y ∈ classList →
    LocallyFree g c before y → SubclassRightmost g (c :: before) x y

theorem Rounds.start {classList : List C} {lists : List (List C)}
    (h : Walk g c [] classList lists) (hne : g.directSuperclasses c ≠ []) :
    Rounds g c [] classList lists where
  nodup := h.nodup
  mem := h.mem
  left l hl := by
    have hlocal := (h.local_iff l).mp hl
    refine ⟨?_, fun _ _ => List.not_mem_nil, [], hlocal⟩
    rcases hlocal with rfl | ⟨x, -, rfl⟩
    · exact hne
    · exact List.cons_ne_nil x _
  kept l hl := ⟨[], l, rfl, List.Sublist.refl [], fun _ _ => List.not_mem_nil,
    fun _ => (h.local_iff l).mpr hl⟩
  tie before x after hd := by simp at hd

section
variable {done classList : List C} {lists : List (List C)} (h : Rounds g c done classList lists)
include h

theorem Rounds.not_done {x : C} (hx : x ∈ classList) : x ∉ done :=
  fun hd => (List.nodup_append.mp h.nodup).2.2 x hd x hx rfl

theorem Rounds.free_iff [DecidableEq C] {y : C} (hy : y ∉ done) :
    hasNoPrecedent y lists = true ↔ LocallyFree g c done y := by
  simp only [hasNoPrecedent, List.all_eq_true, decide_eq_true_eq]
  constructor
  · intro hno l hl a ha
    obtain ⟨p, rest, rfl, hp, -, hrest⟩ := h.kept l hl
    have hyp : y ∉ p := fun hm => hy (hp.subset hm)
    cases rest with
    | nil =>
      rw [List.append_nil] at ha
      exact absurd (ha.subset (List.mem_cons_of_mem a List.mem_cons_self)) hyp
    | cons r t =>
      have hyt : y ∉ t := hno _ (hrest (List.cons_ne_nil r t))
      have hmem : y ∈ p ++ r :: t := ha.subset (List.mem_cons_of_mem a List.mem_cons_self)
      obtain rfl : y = r := by
        refine (List.mem_cons.mp ((List.mem_append.mp hmem).resolve_left hyp)).resolve_right hyt
      exact hp.subset (mem_of_pair_sublist ha hyp hyt)
  · intro hfree l hl hyt
    obtain ⟨-, hout, p, hlocal⟩ := h.left l hl
    cases l with
    | nil => cases hyt
    | cons r t =>
      have hpair : [r, y].Sublist (p ++ r :: t) :=
        ((List.singleton_sublist.mpr hyt).cons_cons r).trans (List.sublist_append_right p _)
      exact hout r List.mem_cons_self (hfree _ hlocal r hpair)

theorem Rounds.next [DecidableEq C] {next : C} (hn : next ∈ classList)
    (hfree : LocallyFree g c done next)
    (htie : ∀ y ∈ classList, y ≠ next → LocallyFree g c done y →
      SubclassRightmost g (c :: done) next y) :
    Rounds g c (done ++ [next]) (classList.filter (· ≠ next)) (deleteClass next lists) := by
  have hnd : next ∉ done := h.not_done hn
  have hno : ∀ l ∈ lists, next ∉ l.tail := by
    simpa [hasNoPrecedent] using (h.free_iff hnd).mpr hfree
  have hmem : ∀ x, x ∈ done ++ [next] ++ classList.filter (· ≠ next) ↔ x ∈ done ++ classList := by
    intro x
    by_cases hx : x = next
    · simp [hx, hn]
    · simp [hx]
  have hlists : ∀ l, l ∈ deleteClass next lists ↔
      l ≠ [] ∧ (next :: l ∈ lists ∨ l ∈ lists ∧ l.head? ≠ some next) :=
    fun l => mem_deleteClass
  refine ⟨?_, fun x => (hmem x).trans (h.mem x), ?_, ?_, ?_⟩
  · obtain ⟨hdone, hclass, hdisjoint⟩ := List.nodup_append.mp h.nodup
    rw [List.append_assoc]
    refine List.nodup_append.mpr ⟨hdone, ?_, ?_⟩
    · exact List.nodup_cons.mpr ⟨by simp, hclass.filter _⟩
    · intro x hx y hy
      rcases List.mem_cons.mp hy with rfl | hy
      · exact hdisjoint x hx y hn
      · exact hdisjoint x hx y (List.mem_of_mem_filter hy)
  · intro l hdel
    obtain ⟨hne, hl | ⟨hl, hhead⟩⟩ := (hlists l).mp hdel
    · obtain ⟨-, hout, p, hlocal⟩ := h.left _ hl
      refine ⟨hne, fun x hx hxd => ?_, p ++ [next], by simpa using hlocal⟩
      rcases List.mem_append.mp hxd with hxd | hxn
      · exact hout x (List.mem_cons_of_mem next hx) hxd
      · exact hno _ hl (List.mem_singleton.mp hxn ▸ hx)
    · obtain ⟨-, hout, p, hlocal⟩ := h.left l hl
      refine ⟨hne, fun x hx hxd => ?_, p, hlocal⟩
      rcases List.mem_append.mp hxd with hxd | hxn
      · exact hout x hx hxd
      · obtain rfl := List.mem_singleton.mp hxn
        cases l with
        | nil => exact hne rfl
        | cons r t =>
          rcases List.mem_cons.mp hx with rfl | hx
          · exact hhead rfl
          · exact hno _ hl hx
  · intro l hl
    obtain ⟨p, rest, rfl, hp, hout, hrest⟩ := h.kept l hl
    cases rest with
    | nil =>
      exact ⟨p, [], rfl, hp.trans (List.sublist_append_left done _),
        fun _ hx => absurd hx List.not_mem_nil, fun hne => absurd rfl hne⟩
    | cons r t =>
      have hin : r :: t ∈ lists := hrest (List.cons_ne_nil r t)
      by_cases hr : r = next
      · subst hr
        refine ⟨p ++ [r], t, by simp, hp.append (List.Sublist.refl [r]), ?_, ?_⟩
        · intro x hx hxd
          rcases List.mem_append.mp hxd with hxd | hxn
          · exact hout x (List.mem_cons_of_mem r hx) hxd
          · exact hno _ hin (List.mem_singleton.mp hxn ▸ hx)
        · exact fun hne => (hlists t).mpr ⟨hne, Or.inl hin⟩
      · refine ⟨p, r :: t, rfl, hp.trans (List.sublist_append_left done _), ?_, ?_⟩
        · intro x hx hxd
          rcases List.mem_append.mp hxd with hxd | hxn
          · exact hout x hx hxd
          · obtain rfl := List.mem_singleton.mp hxn
            rcases List.mem_cons.mp hx with rfl | hx
            · exact hr rfl
            · exact hno _ hin hx
        · exact fun hne => (hlists _).mpr ⟨hne, Or.inr ⟨hin, fun he => hr (Option.some.inj he)⟩⟩
  · intro before x after hd y hy hfreey
    rcases List.eq_nil_or_concat' after with rfl | ⟨after, z, rfl⟩
    · obtain ⟨rfl, hx⟩ := List.append_inj' hd rfl
      obtain ⟨rfl, -⟩ := List.cons.inj hx
      have hyc := List.mem_filter.mp (hy.resolve_left List.not_mem_nil)
      exact htie y hyc.1 (by simpa using hyc.2) hfreey
    · rw [← List.cons_append, ← List.append_assoc] at hd
      obtain ⟨rfl, hz⟩ := List.append_inj' hd rfl
      obtain ⟨rfl, -⟩ := List.cons.inj hz
      refine h.tie before x after rfl y ?_ hfreey
      rcases hy with hy | hy
      · rcases List.mem_append.mp hy with hy | hy
        · exact Or.inl hy
        · exact Or.inr (List.mem_singleton.mp hy ▸ hn)
      · exact Or.inr (List.mem_of_mem_filter hy)

theorem Rounds.local_sublist {l : List C} (hl : Local g c l) (hin : ∀ x ∈ l, x ∈ done) :
    l.Sublist done := by
  obtain ⟨p, rest, rfl, hp, hout, -⟩ := h.kept l hl
  cases rest with
  | nil => simpa using hp
  | cons r t =>
    have hr : r ∈ p ++ r :: t := List.mem_append_right p List.mem_cons_self
    exact absurd (hin r hr) (hout r List.mem_cons_self)

theorem Rounds.exists_subclass {y : C} (hy : y ∈ classList) (hfree : LocallyFree g c done y) :
    ∃ d ∈ done.reverse ++ [c], y ∈ g.directSuperclasses d := by
  have hsuper : Superclass g c y := (h.mem y).mp (List.mem_append_right _ hy)
  obtain ⟨d, hd, hdy⟩ := Relation.TransGen.tail'_iff.mp hsuper
  rcases reflTransGen_iff.mp hd with rfl | hd
  · exact ⟨d, List.mem_append_right _ List.mem_cons_self, hdy⟩
  · have hmem : d ∈ done := hfree _ (Or.inr ⟨d, hd, rfl⟩) d
      ((List.singleton_sublist.mpr hdy).cons_cons d)
    exact ⟨d, List.mem_append_left _ (List.mem_reverse.mpr hmem), hdy⟩

/-- Two classes without predecessors have no direct subclass in common. -/
theorem Rounds.not_common [DecidableEq C] {d x y : C} (hd : d ∈ done.reverse ++ [c])
    (hx : x ∈ classList) (hfreex : LocallyFree g c done x) (hxd : x ∈ g.directSuperclasses d)
    (hy : y ∈ classList) (hfreey : LocallyFree g c done y) (hxy : y ≠ x) :
    y ∉ g.directSuperclasses d := by
  intro hyd
  obtain ⟨l, hl, hsub⟩ : ∃ l, Local g c l ∧ (g.directSuperclasses d).Sublist l := by
    rcases List.mem_append.mp hd with hd | hd
    · have hsuper := (h.mem d).mp (List.mem_append_left _ (List.mem_reverse.mp hd))
      exact ⟨_, Or.inr ⟨d, hsuper, rfl⟩, List.sublist_cons_self d _⟩
    · obtain rfl := List.mem_singleton.mp hd
      exact ⟨_, Or.inl rfl, List.Sublist.refl _⟩
  rcases pair_sublist_total hxd hyd (Ne.symm hxy) with hpair | hpair
  · exact h.not_done hx (hfreey l hl x (hpair.trans hsub))
  · exact h.not_done hy (hfreex l hl y (hpair.trans hsub))

variable [DecidableEq C]

theorem Rounds.mem_freeElements {y : C} :
    y ∈ freeElements classList lists ↔ y ∈ classList ∧ LocallyFree g c done y := by
  rw [freeElements, List.mem_reverse, List.mem_filter]
  exact and_congr_right fun hy => h.free_iff (h.not_done hy)

theorem Rounds.nextElement_none
    (hn : nextElement g (freeElements classList lists) (done.reverse ++ [c]) = none) :
    ∀ y ∈ classList, ¬LocallyFree g c done y := by
  intro y hy hfree
  have hmem := h.mem_freeElements.mpr ⟨hy, hfree⟩
  rw [nextElement] at hn
  split_ifs at hn with hlen
  · rw [List.head?_eq_none_iff.mp hn] at hmem
    cases hmem
  · obtain ⟨d, hd, hyd⟩ := h.exists_subclass hy hfree
    have hfind := List.findSome?_eq_none_iff.mp hn d hd
    have hnot := List.find?_eq_none.mp hfind y hyd
    exact hnot (by simpa using hmem)

theorem Rounds.nextElement_some {next : C}
    (hn : nextElement g (freeElements classList lists) (done.reverse ++ [c]) = some next) :
    (next ∈ classList ∧ LocallyFree g c done next) ∧
      ∀ y ∈ classList, y ≠ next → LocallyFree g c done y →
        SubclassRightmost g (c :: done) next y := by
  rw [nextElement] at hn
  split_ifs at hn with hlen
  · have hlen' : (freeElements classList lists).length ≤ 1 := hlen.resolve_left (by simp)
    refine ⟨h.mem_freeElements.mp (List.mem_of_mem_head? hn), fun y hy hne hfree => ?_⟩
    have hmem := h.mem_freeElements.mpr ⟨hy, hfree⟩
    obtain ⟨rest, hrest⟩ := List.head?_eq_some_iff.mp hn
    rw [hrest] at hlen' hmem
    obtain rfl : rest = [] := List.eq_nil_of_length_eq_zero (by simpa using hlen')
    exact absurd (List.mem_singleton.mp hmem) hne
  · obtain ⟨after, d, before, hcpl, hfind, hafter⟩ := List.findSome?_eq_some_iff.mp hn
    have hd : d ∈ done.reverse ++ [c] := hcpl ▸ List.mem_append_right _ List.mem_cons_self
    have hmem : next ∈ freeElements classList lists := by simpa using List.find?_some hfind
    have hnext := h.mem_freeElements.mp hmem
    have hnd := List.mem_of_find?_eq_some hfind
    refine ⟨hnext, fun y hy hne hfree => ⟨before.reverse, d, after.reverse, ?_, hnd, ?_⟩⟩
    · have hrev := congrArg List.reverse hcpl
      simpa using hrev
    · intro e he
      rcases List.mem_cons.mp he with rfl | he
      · exact h.not_common hd hnext.1 hnext.2 hnd hy hfree hne
      · intro hye
        have hnone := List.find?_eq_none.mp (hafter e (List.mem_reverse.mp he)) y hye
        exact hnone (by simpa using h.mem_freeElements.mpr ⟨hy, hfree⟩)

omit [DecidableEq C] in
theorem Rounds.cyclic [Finite C] (hne : classList ≠ [])
    (hno : ∀ y ∈ classList, ¬LocallyFree g c done y) : Cyclic g c := by
  refine exists_cycle (s := {x | x ∈ classList}) (List.exists_mem_of_ne_nil classList hne) ?_
  intro y hy
  have hstuck := hno y hy
  simp only [LocallyFree, not_forall] at hstuck
  obtain ⟨l, hl, a, ha, had⟩ := hstuck
  have hsuper : Superclass g c a := hl.mem (ha.subset List.mem_cons_self)
  exact ⟨a, (List.mem_append.mp ((h.mem a).mpr hsuper)).resolve_left had, hl.before ha⟩

end

end ClassPrecedence

namespace ClassPrecedence

open ListOrders

variable {C : Type} {g : ClassGraph C} {c : C}

section
variable {done : List C} {lists : List (List C)} (h : Rounds g c done [] lists)
include h

theorem Rounds.mem_done {x : C} : x ∈ done ↔ Superclass g c x := by
  simpa using h.mem x

theorem Rounds.lists_nil : lists = [] := by
  by_contra hne
  obtain ⟨l, hl⟩ := List.exists_mem_of_ne_nil lists hne
  obtain ⟨hl, hout, p, hlocal⟩ := h.left l hl
  obtain ⟨x, hx⟩ := List.exists_mem_of_ne_nil l hl
  exact hout x hx (h.mem_done.mpr (hlocal.mem (List.mem_append_right p hx)))

theorem Rounds.local_done {l : List C} (hl : Local g c l) : l.Sublist done :=
  h.local_sublist hl fun _ hx => h.mem_done.mpr (hl.mem hx)

theorem Rounds.not_self : ¬Superclass g c c := by
  intro hc
  have hstep : ∀ {x y}, Superclass g c x → Direct g x y → ∃ l, Local g c l ∧ [x, y].Sublist l :=
    fun hx hxy => ⟨_, Or.inr ⟨_, hx, rfl⟩, (List.singleton_sublist.mpr hxy).cons_cons _⟩
  have hcycle : ∀ {x}, Superclass g c x →
      Relation.TransGen (fun a b => ∃ l, Local g c l ∧ [a, b].Sublist l) c x := by
    intro x hx
    induction hx with
    | single hx => exact Relation.TransGen.single (hstep hc hx)
    | tail hx hxy ih => exact ih.tail (hstep hx hxy)
  obtain ⟨hnodup, -⟩ := List.nodup_append.mp h.nodup
  refine acyclic_of_list hnodup ?_ c (hcycle hc)
  rintro a b ⟨l, hl, hab⟩
  exact hab.trans (h.local_done hl)

theorem Rounds.prescribed : Prescribed g c (c :: done) where
  first := rfl
  nodup := List.nodup_cons.mpr
    ⟨fun hc => h.not_self (h.mem_done.mp hc), (List.nodup_append.mp h.nodup).1⟩
  mem x := by rw [List.mem_cons, reflTransGen_iff, h.mem_done]
  consistent x hx := by
    rcases List.mem_cons.mp hx with rfl | hx
    · exact (h.local_done (Or.inl rfl)).cons_cons x
    · exact (h.local_done (Or.inr ⟨x, h.mem_done.mp hx, rfl⟩)).cons c
  tie before x after hl hne y hy hfree := by
    cases before with
    | nil => exact absurd rfl hne
    | cons b before =>
      obtain ⟨rfl, rfl⟩ := List.cons.inj hl
      refine h.tie before x after rfl y (Or.inl hy) fun l hl a ha => ?_
      have hne : a ≠ c := by
        rintro rfl
        exact h.not_self (hl.mem (ha.subset List.mem_cons_self))
      exact (List.mem_cons.mp (hfree a (hl.before ha))).resolve_left hne

end

variable [Fintype C] [DecidableEq C]

theorem Rounds.orderLoop {rounds : ℕ} {done classList : List C} {lists : List (List C)}
    (h : Rounds g c done classList lists) (hr : classList.length ≤ rounds) :
    (∃ l, orderLoop g c rounds classList lists (done.reverse ++ [c]) = .ok l ∧ Prescribed g c l) ∨
      orderLoop g c rounds classList lists (done.reverse ++ [c]) = .error (.cycle c) ∧ Cyclic g c := by
  induction rounds generalizing done classList lists with
  | zero =>
    obtain rfl : classList = [] := List.eq_nil_of_length_eq_zero (Nat.le_zero.mp hr)
    refine Or.inl ⟨c :: done, ?_, h.prescribed⟩
    simp [ClassPrecedence.orderLoop, h.lists_nil]
  | succ rounds ih =>
    cases classList with
    | nil =>
      refine Or.inl ⟨c :: done, ?_, h.prescribed⟩
      simp [ClassPrecedence.orderLoop, h.lists_nil]
    | cons x rest =>
      rw [ClassPrecedence.orderLoop]
      cases hn : nextElement g (freeElements (x :: rest) lists) (done.reverse ++ [c]) with
      | none => exact Or.inr ⟨rfl, h.cyclic (List.cons_ne_nil x rest) (h.nextElement_none hn)⟩
      | some next =>
        obtain ⟨⟨hmem, hfree⟩, htie⟩ := h.nextElement_some hn
        have hlen : ((x :: rest).filter (· ≠ next)).length < (x :: rest).length :=
          List.length_filter_lt_length_iff_exists.mpr ⟨next, hmem, by simp⟩
        have hstep := ih (h.next hmem hfree htie) (by omega)
        simpa using hstep

theorem generalPrecedenceList_spec (hne : g.directSuperclasses c ≠ []) :
    (∃ l, generalPrecedenceList g c (g.directSuperclasses c) = .ok l ∧ Prescribed g c l) ∨
      generalPrecedenceList g c (g.directSuperclasses c) = .error (.cycle c) ∧ Cyclic g c := by
  have hwalk := Walk.start.walkSupers (g := g) (c := c)
  exact (Rounds.start hwalk hne).orderLoop (Nat.le_refl _)

def Right (g : ClassGraph C) (c : C) (result : Except (Error C) (List C)) : Prop :=
  (result = .error (.cycle c) ↔ Cyclic g c) ∧ ∀ l, result = .ok l → Prescribed g c l

omit [Fintype C] [DecidableEq C] in
theorem Prescribed.right {l : List C} (h : Prescribed g c l) : Right g c (.ok l) := by
  refine ⟨by simp [h.acyclic], fun l' hl => ?_⟩
  exact Except.ok.inj hl ▸ h

theorem generalPrecedenceList_right (hne : g.directSuperclasses c ≠ []) :
    Right g c (generalPrecedenceList g c (g.directSuperclasses c)) := by
  rcases generalPrecedenceList_spec hne with ⟨l, hl, hpres⟩ | ⟨he, hc⟩
  · rw [hl]
    exact hpres.right
  · rw [he]
    exact ⟨iff_of_true rfl hc, fun l hl => by cases hl⟩

def twoClasses : ClassGraph Bool where
  directSuperclasses c := if c then [false] else []
  precedenceList c := [c]

end ClassPrecedence
