import Mathlib.Data.Fintype.Card
import Mathlib.Order.WellFounded

/-! Orders that lists give: an element stands before another one. -/
namespace ListOrders

variable {α : Type*} {R : α → α → Prop}

section
variable [DecidableEq α] {l : List α} {a b : α}

theorem pair_sublist_of_lt (hb : b ∈ l) (h : l.idxOf a < l.idxOf b) : [a, b].Sublist l := by
  induction l with
  | nil => cases hb
  | cons x l ih =>
    by_cases hx : x = a
    · have hne : b ≠ x := by
        rintro rfl
        simp at h
      have hbl : b ∈ l := (List.mem_cons.mp hb).resolve_left hne
      exact hx ▸ (List.singleton_sublist.mpr hbl).cons_cons x
    · have hne : x ≠ b := by
        rintro rfl
        simp at h
      rw [List.idxOf_cons_ne l hx, List.idxOf_cons_ne l hne] at h
      have hbl : b ∈ l := (List.mem_cons.mp hb).resolve_left (Ne.symm hne)
      exact (ih hbl (Nat.lt_of_succ_lt_succ h)).cons x

theorem lt_of_pair_sublist (hn : l.Nodup) (h : [a, b].Sublist l) : l.idxOf a < l.idxOf b := by
  induction l with
  | nil => cases h
  | cons x l ih =>
    obtain ⟨hx, hl⟩ := List.nodup_cons.mp hn
    cases h with
    | cons _ h =>
      have ha : x ≠ a := fun he => hx (he ▸ h.subset List.mem_cons_self)
      have hb : x ≠ b := fun he => hx (he ▸ h.subset (List.mem_cons_of_mem a List.mem_cons_self))
      rw [List.idxOf_cons_ne l ha, List.idxOf_cons_ne l hb]
      exact Nat.succ_lt_succ (ih hl h)
    | cons_cons _ h =>
      have hb : a ≠ b := fun he => hx (he ▸ List.singleton_sublist.mp h)
      rw [List.idxOf_cons_self, List.idxOf_cons_ne l hb]
      exact Nat.succ_pos _

theorem pair_sublist_total (ha : a ∈ l) (hb : b ∈ l) (hab : a ≠ b) :
    [a, b].Sublist l ∨ [b, a].Sublist l := by
  rcases Nat.lt_trichotomy (l.idxOf a) (l.idxOf b) with hlt | heq | hgt
  · exact Or.inl (pair_sublist_of_lt hb hlt)
  · exact absurd ((List.idxOf_inj ha).mp heq) hab
  · exact Or.inr (pair_sublist_of_lt ha hgt)

end

theorem acyclic_of_list {l : List α} (hn : l.Nodup) (h : ∀ a b, R a b → [a, b].Sublist l) (x : α) :
    ¬Relation.TransGen R x x := by
  classical
  have hlt : ∀ {a b}, Relation.TransGen R a b → l.idxOf a < l.idxOf b := by
    intro a b hab
    induction hab with
    | single hab => exact lt_of_pair_sublist hn (h _ _ hab)
    | tail _ hbc ih => exact Nat.lt_trans ih (lt_of_pair_sublist hn (h _ _ hbc))
  exact fun hx => Nat.lt_irrefl _ (hlt hx)

theorem exists_cycle [Finite α] {s : Set α} (hs : s.Nonempty) (h : ∀ y ∈ s, ∃ x ∈ s, R x y) :
    ∃ x, Relation.TransGen R x x := by
  by_contra hno
  have hirr : Std.Irrefl (Relation.TransGen R) := ⟨fun x hx => hno ⟨x, hx⟩⟩
  have hwf : WellFounded (Relation.TransGen R) := Finite.wellFounded_of_trans_of_irrefl _
  obtain ⟨y, hy, hmin⟩ := hwf.has_min s hs
  obtain ⟨x, hx, hxy⟩ := h y hy
  exact hmin x hx (Relation.TransGen.single hxy)

theorem mem_of_pair_sublist {a y : α} {p t : List α} (h : [a, y].Sublist (p ++ y :: t))
    (hp : y ∉ p) (ht : y ∉ t) : a ∈ p := by
  obtain ⟨l₁, l₂, hl, h₁, h₂⟩ := List.sublist_append_iff.mp h
  cases l₁ with
  | nil =>
    rw [List.nil_append] at hl
    subst hl
    cases h₂ with
    | cons _ h₂ => exact absurd (h₂.subset (List.mem_cons_of_mem a List.mem_cons_self)) ht
    | cons_cons _ h₂ => exact absurd (List.singleton_sublist.mp h₂) ht
  | cons b l₁ =>
    obtain ⟨rfl, -⟩ := List.cons.inj hl
    exact h₁.subset List.mem_cons_self

end ListOrders
