import Ecl.ListOrders

/-! The precedence list of a class, compute-clos-class-precedence-list of src/clos/cpl.lsp, and the
list that CLHS 4.3.5 prescribes. -/
namespace ClassPrecedence

variable {C : Type}

/-- The slots of the classes that are read. -/
structure ClassGraph (C : Type) where
  directSuperclasses : C → List C
  precedenceList : C → List C

/-- A cycle has been detected in the class precedence list for ~A. -/
inductive Error (C : Type) where
  | cycle (class_ : C)
  deriving DecidableEq

section
variable [DecidableEq C] (g : ClassGraph C)

/-- The loop of walk-supers over the superclasses that are pending. -/
def walkSupers [Fintype C] : List C → List C → List (List C) → List C × List (List C)
  | [], classList, precedenceLists => (classList, precedenceLists)
  | nextClass :: superclasses, classList, precedenceLists =>
    if nextClass ∈ classList then walkSupers superclasses classList precedenceLists
    else
      let moreClasses := g.directSuperclasses nextClass
      walkSupers (moreClasses ++ superclasses) (nextClass :: classList)
        ((nextClass :: moreClasses) :: precedenceLists)
termination_by superclasses classList _ =>
  (Fintype.card C - classList.toFinset.card, superclasses.length)
decreasing_by
  · exact Prod.Lex.right _ (Nat.lt_succ_self _)
  · apply Prod.Lex.left
    have hnew : nextClass ∉ classList.toFinset := by simpa
    have hcard : (nextClass :: classList).toFinset.card = classList.toFinset.card + 1 := by
      rw [List.toFinset_cons, Finset.card_insert_of_notMem hnew]
    have hle : (nextClass :: classList).toFinset.card ≤ Fintype.card C := Finset.card_le_univ _
    omega

def hasNoPrecedent (class_ : C) (precedenceLists : List (List C)) : Bool :=
  precedenceLists.all fun partialOrder => class_ ∉ partialOrder.tail

def freeElements (classList : List C) (precedenceLists : List (List C)) : List C :=
  (classList.filter (hasNoPrecedent · precedenceLists)).reverse

/-- The next element for the list, of which cpl has the last element first. -/
def nextElement (freeList cpl : List C) : Option C :=
  if cpl = [] ∨ freeList.length ≤ 1 then freeList.head?
  else cpl.findSome? fun i => (g.directSuperclasses i).find? (· ∈ freeList)

def deleteClass (class_ : C) (precedenceLists : List (List C)) : List (List C) :=
  (precedenceLists.map fun l => if l.head? = some class_ then l.tail else l).filter (· ≠ [])

/-- The loop of the general case; each round takes one class out of the list. -/
def orderLoop (newClass : C) : ℕ → List C → List (List C) → List C → Except (Error C) (List C)
  | _, [], precedenceLists, cpl =>
    if precedenceLists ≠ [] then .error (.cycle newClass) else .ok cpl.reverse
  | 0, _ :: _, _, _ => .error (.cycle newClass)
  | rounds + 1, class_ :: classes, precedenceLists, cpl =>
    let classList := class_ :: classes
    match nextElement g (freeElements classList precedenceLists) cpl with
    | none => .error (.cycle newClass)
    | some next =>
      orderLoop newClass rounds (classList.filter (· ≠ next)) (deleteClass next precedenceLists)
        (next :: cpl)

def generalPrecedenceList [Fintype C] (newClass : C) (superclasses : List C) :
    Except (Error C) (List C) :=
  let (classList, precedenceLists) := walkSupers g superclasses [] [superclasses]
  orderLoop g newClass classList.length classList precedenceLists [newClass]

def computeClosClassPrecedenceList [Fintype C] (newClass : C) :
    List C → Except (Error C) (List C)
  | [] => .ok [newClass]
  | [class_] => .ok (newClass :: g.precedenceList class_)
  | superclasses => generalPrecedenceList g newClass superclasses

end

section
variable (g : ClassGraph C)

def Direct (c d : C) : Prop := d ∈ g.directSuperclasses c

def Before (c a b : C) : Prop :=
  ∃ d, Relation.ReflTransGen (Direct g) c d ∧ [a, b].Sublist (d :: g.directSuperclasses d)

def Cyclic (c : C) : Prop := ∃ x, Relation.TransGen (Before g c) x x

def Free (c : C) (list : List C) (y : C) : Prop := ∀ a, Before g c a y → a ∈ list

def SubclassRightmost (list : List C) (x y : C) : Prop :=
  ∃ before d after, list = before ++ d :: after ∧ x ∈ g.directSuperclasses d ∧
    ∀ e ∈ d :: after, y ∉ g.directSuperclasses e

/-- C first, every superclass once, consistent with each local precedence order; of several classes
without predecessors the one comes next that has a direct subclass rightmost. -/
structure Prescribed (c : C) (l : List C) : Prop where
  first : l.head? = some c
  nodup : l.Nodup
  mem : ∀ x, x ∈ l ↔ Relation.ReflTransGen (Direct g) c x
  consistent : ∀ x ∈ l, (x :: g.directSuperclasses x).Sublist l
  tie : ∀ before x after, l = before ++ x :: after → before ≠ [] → ∀ y ∈ after,
    Free g c before y → SubclassRightmost g before x y

end
end ClassPrecedence

namespace ClassPrecedence

open ListOrders

variable {C : Type} {g : ClassGraph C} {c : C}

def Superclass (g : ClassGraph C) (c x : C) : Prop := Relation.TransGen (Direct g) c x

theorem reflTransGen_iff {x : C} :
    Relation.ReflTransGen (Direct g) c x ↔ x = c ∨ Superclass g c x :=
  Relation.reflTransGen_iff_eq_or_transGen

def Local (g : ClassGraph C) (c : C) (l : List C) : Prop :=
  l = g.directSuperclasses c ∨ ∃ x, Superclass g c x ∧ l = x :: g.directSuperclasses x

theorem Local.mem {l : List C} (h : Local g c l) {x : C} (hx : x ∈ l) : Superclass g c x := by
  rcases h with rfl | ⟨y, hy, rfl⟩
  · exact Relation.TransGen.single hx
  · rcases List.mem_cons.mp hx with rfl | hx
    · exact hy
    · exact hy.tail hx

theorem Local.before {l : List C} (h : Local g c l) {a b : C} (hl : [a, b].Sublist l) :
    Before g c a b := by
  rcases h with rfl | ⟨y, hy, rfl⟩
  · exact ⟨c, Relation.ReflTransGen.refl, hl.cons c⟩
  · exact ⟨y, hy.to_reflTransGen, hl⟩

theorem Prescribed.sublist {l : List C} (h : Prescribed g c l) {a b : C} (hab : Before g c a b) :
    [a, b].Sublist l := by
  obtain ⟨d, hd, hsub⟩ := hab
  exact hsub.trans (h.consistent d ((h.mem d).mpr hd))

theorem Prescribed.acyclic {l : List C} (h : Prescribed g c l) : ¬Cyclic g c := by
  rintro ⟨x, hx⟩
  exact acyclic_of_list h.nodup (fun _ _ hab => h.sublist hab) x hx

theorem Prescribed.free {before after : List C} {x : C}
    (h : Prescribed g c (before ++ x :: after)) : Free g c before x := by
  intro a ha
  obtain ⟨-, hnodup, hdisjoint⟩ := List.nodup_append.mp h.nodup
  have hx : x ∉ before := fun hb => hdisjoint x hb x List.mem_cons_self rfl
  exact mem_of_pair_sublist (h.sublist ha) hx (List.nodup_cons.mp hnodup).1

theorem not_both_rightmost {list : List C} {x y : C} (h : SubclassRightmost g list x y) :
    ¬SubclassRightmost g list y x := by
  rintro ⟨before', d', after', hlist', hy, hx⟩
  obtain ⟨before, d, after, rfl, hxd, hyd⟩ := h
  have hlt : (d :: after).length < (d' :: after').length := by
    by_contra hge
    have hsuffix : d' :: after' <:+ d :: after :=
      List.suffix_of_suffix_length_le ⟨before', hlist'.symm⟩ ⟨before, rfl⟩ (Nat.le_of_not_lt hge)
    exact hyd d' (hsuffix.subset List.mem_cons_self) hy
  have hsuffix : d :: after <:+ d' :: after' :=
    List.suffix_of_suffix_length_le ⟨before, rfl⟩ ⟨before', hlist'.symm⟩ (Nat.le_of_lt hlt)
  exact hx d (hsuffix.subset List.mem_cons_self) hxd

theorem Prescribed.unique {l l' : List C} (h : Prescribed g c l) (h' : Prescribed g c l') :
    l = l' := by
  suffices hrest : ∀ rest rest' before : List C, Prescribed g c (before ++ rest) →
      Prescribed g c (before ++ rest') → rest = rest' from hrest l l' [] h h'
  intro rest
  induction rest with
  | nil =>
    intro rest' before h h'
    cases rest' with
    | nil => rfl
    | cons y after' =>
      have hy := (h.mem y).mpr ((h'.mem y).mp (List.mem_append_right _ List.mem_cons_self))
      rw [List.append_nil] at hy
      exact absurd rfl ((List.nodup_append.mp h'.nodup).2.2 y hy y List.mem_cons_self)
  | cons x after ih =>
    intro rest' before h h'
    cases rest' with
    | nil =>
      have hx := (h'.mem x).mpr ((h.mem x).mp (List.mem_append_right _ List.mem_cons_self))
      rw [List.append_nil] at hx
      exact absurd rfl ((List.nodup_append.mp h.nodup).2.2 x hx x List.mem_cons_self)
    | cons y after' =>
      by_cases hxy : x = y
      · subst hxy
        have he : after = after' := by
          apply ih after' (before ++ [x])
          · simpa using h
          · simpa using h'
        rw [he]
      · have hne : before ≠ [] := by
          rintro rfl
          exact hxy (Option.some.inj (h.first.trans h'.first.symm))
        have hmem : ∀ {u v : C} {s t : List C}, Prescribed g c (before ++ u :: s) →
            Prescribed g c (before ++ v :: t) → u ≠ v → v ∈ s := by
          intro u v s t hu hv huv
          have hv' := (hu.mem v).mpr ((hv.mem v).mp (List.mem_append_right _ List.mem_cons_self))
          rcases List.mem_append.mp hv' with hb | hb
          · exact absurd rfl ((List.nodup_append.mp hv.nodup).2.2 v hb v List.mem_cons_self)
          · exact (List.mem_cons.mp hb).resolve_left (Ne.symm huv)
        have hx := h.tie before x after rfl hne y (hmem h h' hxy) h'.free
        have hy := h'.tie before y after' rfl hne x (hmem h' h (Ne.symm hxy)) h.free
        exact absurd hy (not_both_rightmost hx)

theorem prescribed_of_single {s : C} {l : List C} (hs : g.directSuperclasses c = [s])
    (h : Prescribed g s l) : Prescribed g c (c :: l) := by
  have hsl : s ∈ l := List.mem_of_mem_head? h.first
  have hreach : ∀ {x}, Relation.ReflTransGen (Direct g) s x → Relation.ReflTransGen (Direct g) c x :=
    fun hx => Relation.ReflTransGen.head (by simp [Direct, hs]) hx
  have hc : c ∉ l := by
    intro hc
    obtain ⟨rest, rfl⟩ := List.head?_eq_some_iff.mp h.first
    have hpair := hs ▸ h.consistent c hc
    obtain ⟨hsr, -⟩ := List.nodup_cons.mp h.nodup
    cases hpair with
    | cons _ hpair => exact hsr (hpair.subset (List.mem_cons_of_mem c List.mem_cons_self))
    | cons_cons _ hpair => exact hsr (List.singleton_sublist.mp hpair)
  have hmem : ∀ x, x ∈ c :: l ↔ Relation.ReflTransGen (Direct g) c x := by
    intro x
    rw [List.mem_cons, h.mem]
    constructor
    · rintro (rfl | hx)
      · exact Relation.ReflTransGen.refl
      · exact hreach hx
    · intro hx
      rcases Relation.ReflTransGen.cases_head hx with rfl | ⟨d, hd, hx⟩
      · exact Or.inl rfl
      · obtain rfl : d = s := by simpa [Direct, hs] using hd
        exact Or.inr hx
  refine ⟨rfl, List.nodup_cons.mpr ⟨hc, h.nodup⟩, hmem, ?_, ?_⟩
  · intro x hx
    rcases List.mem_cons.mp hx with rfl | hx
    · rw [hs]
      exact (List.singleton_sublist.mpr hsl).cons_cons x
    · exact (h.consistent x hx).cons c
  · intro before x after hl hne y hy hfree
    cases before with
    | nil => exact absurd rfl hne
    | cons b before =>
      obtain ⟨rfl, rfl⟩ := List.cons.inj hl
      cases before with
      | nil =>
        obtain rfl : x = s := Option.some.inj h.first
        refine ⟨[], c, [], rfl, by simp [hs], ?_⟩
        have hys : y ≠ x := ne_of_mem_of_not_mem hy (List.nodup_cons.mp h.nodup).1
        simpa [hs] using hys
      | cons b before =>
        have hfree' : Free g s (b :: before) y := by
          intro a ha
          have ha' : a ∈ c :: b :: before := by
            obtain ⟨d, hd, hsub⟩ := ha
            exact hfree a ⟨d, hreach hd, hsub⟩
          have hal : a ∈ b :: before ++ x :: after := (h.sublist ha).subset List.mem_cons_self
          exact (List.mem_cons.mp ha').resolve_left (ne_of_mem_of_not_mem hal hc)
        obtain ⟨front, d, back, he, hx, hy'⟩ := h.tie _ x after rfl (List.cons_ne_nil b before) y hy
          hfree'
        exact ⟨c :: front, d, back, congrArg (c :: ·) he, hx, hy'⟩

theorem prescribed_of_none (hs : g.directSuperclasses c = []) : Prescribed g c [c] where
  first := rfl
  nodup := List.nodup_singleton c
  mem x := by
    rw [List.mem_singleton, Relation.ReflTransGen.cases_head_iff]
    simp [Direct, hs, eq_comm]
  consistent x hx := by
    rw [List.mem_singleton.mp hx, hs]
  tie before x after hl hne := by
    cases before with
    | nil => exact absurd rfl hne
    | cons b before => simp at hl

end ClassPrecedence
