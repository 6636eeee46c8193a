import Ecl.InstanceMigration

/-! Instances keep the values of their slots over redefinitions that let them be moved. -/
namespace InstanceMigration

open SlotLayouts

variable {N K V : Type} [DecidableEq N]

theorem position_isSome {slots : List (Slot N)} {name : N} :
    (position name (locals slots)).isSome = true ↔ Local slots name := by
  simp only [position, List.findIdx?_isSome, List.any_eq_true, locals, List.mem_filter, Local,
    decide_eq_true_eq]
  constructor
  · rintro ⟨s, ⟨hs, hl⟩, hn⟩
    exact ⟨s, hs, hn, hl⟩
  · rintro ⟨s, hs, hn, hl⟩
    exact ⟨s, ⟨hs, hl⟩, hn⟩

omit [DecidableEq N] in
theorem mem_names_locals {slots : List (Slot N)} {name : N} :
    name ∈ (locals slots).map Slot.name ↔ Local slots name := by
  simp only [List.mem_map, locals, List.mem_filter, Local]
  constructor
  · rintro ⟨s, ⟨hs, hl⟩, hn⟩
    exact ⟨s, hs, hn, hl⟩
  · rintro ⟨s, hs, hn, hl⟩
    exact ⟨s, ⟨hs, hl⟩, hn⟩

def movedContent (oldValues : List (Option V)) (oldLocals : List (Slot N)) (name : N) : Option V :=
  (position name oldLocals).bind (instanceRef oldValues)

theorem moveSlots_length (oldValues : List (Option V)) (oldLocals : List (Slot N)) (newI : ℕ)
    (slots : List (Slot N)) (values : List (Option V)) (added : List N) :
    (moveSlots oldValues oldLocals newI slots values added).1.length = values.length := by
  induction slots generalizing newI values added with
  | nil => rfl
  | cons s slots ih =>
    rw [moveSlots]
    cases position s.name oldLocals with
    | none => exact ih _ _ _
    | some j => exact (ih _ _ _).trans List.length_set

theorem moveSlots_before {oldValues : List (Option V)} {oldLocals : List (Slot N)} {newI k : ℕ}
    (slots : List (Slot N)) (values : List (Option V)) (added : List N) (hk : k < newI) :
    (moveSlots oldValues oldLocals newI slots values added).1[k]? = values[k]? := by
  induction slots generalizing newI values added with
  | nil => rfl
  | cons s slots ih =>
    rw [moveSlots]
    cases position s.name oldLocals with
    | none => exact ih _ _ (Nat.lt_succ_of_lt hk)
    | some j => exact (ih _ _ (Nat.lt_succ_of_lt hk)).trans (List.getElem?_set_ne (Nat.ne_of_gt hk))

theorem moveSlots_at {oldValues : List (Option V)} {oldLocals : List (Slot N)} {newI k : ℕ}
    {slots : List (Slot N)} {values : List (Option V)} {added : List N} {t : Slot N}
    (ht : slots[k]? = some t) (hv : ∀ i, newI ≤ i → i < newI + slots.length → values[i]? = some none) :
    (moveSlots oldValues oldLocals newI slots values added).1[newI + k]? =
      some (movedContent oldValues oldLocals t.name) := by
  induction slots generalizing newI k values added with
  | nil => cases ht
  | cons s slots ih =>
    have hfirst : values[newI]? = some none := hv newI (Nat.le_refl _) (by simp)
    have hrest : ∀ values' : List (Option V), (∀ i, newI < i → values'[i]? = values[i]?) →
        ∀ i, newI + 1 ≤ i → i < newI + 1 + slots.length → values'[i]? = some none := by
      intro values' hsame i hi hi'
      rw [hsame i hi]
      exact hv i (Nat.le_of_succ_le hi) (by simpa [Nat.add_assoc, Nat.add_comm] using hi')
    rw [moveSlots]
    cases k with
    | zero =>
      obtain rfl : s = t := Option.some.inj ht
      cases hp : position s.name oldLocals with
      | none =>
        simp only [movedContent, hp, Option.bind_none]
        exact (moveSlots_before slots values _ (Nat.lt_succ_self _)).trans hfirst
      | some j =>
        simp only [movedContent, hp, Option.bind_some]
        refine (moveSlots_before slots _ _ (Nat.lt_succ_self newI)).trans ?_
        exact List.getElem?_set_self (List.getElem?_eq_some_iff.mp hfirst).1
    | succ k =>
      have hk : newI + (k + 1) = newI + 1 + k := by omega
      cases position s.name oldLocals with
      | none =>
        simp only
        rw [hk]
        exact ih ht (hrest values fun _ _ => rfl)
      | some j =>
        simp only
        rw [hk]
        exact ih ht (hrest _ fun i hi => List.getElem?_set_ne (Nat.ne_of_lt hi))

theorem mem_added {oldValues : List (Option V)} {oldLocals : List (Slot N)} {newI : ℕ}
    {slots : List (Slot N)} {values : List (Option V)} {added : List N} {name : N} :
    name ∈ (moveSlots oldValues oldLocals newI slots values added).2 ↔
      name ∈ added ∨ name ∈ slots.map Slot.name ∧ position name oldLocals = none := by
  induction slots generalizing newI values added with
  | nil => simp [moveSlots]
  | cons s slots ih =>
    rw [moveSlots]
    cases hp : position s.name oldLocals with
    | none =>
      simp only [ih, List.map_cons, List.mem_cons]
      constructor
      · rintro ((rfl | ha) | ⟨hm, hn⟩)
        · exact Or.inr ⟨Or.inl rfl, hp⟩
        · exact Or.inl ha
        · exact Or.inr ⟨Or.inr hm, hn⟩
      · rintro (ha | ⟨rfl | hm, hn⟩)
        · exact Or.inl (Or.inr ha)
        · exact Or.inl (Or.inl rfl)
        · exact Or.inr ⟨hm, hn⟩
    | some j =>
      simp only [ih, List.map_cons, List.mem_cons]
      constructor
      · rintro (ha | ⟨hm, hn⟩)
        · exact Or.inl ha
        · exact Or.inr ⟨Or.inr hm, hn⟩
      · rintro (ha | ⟨rfl | hm, hn⟩)
        · exact Or.inl ha
        · exact absurd (hp.symm.trans hn) (by simp)
        · exact Or.inr ⟨hm, hn⟩

omit [DecidableEq N] in
theorem mem_foldl_plist {f : N → Option V} {names : List N} {plist : List (N × Option V)} {name : N}
    {content : Option V} :
    (name, content) ∈ names.foldl (fun plist name => (name, f name) :: plist) plist ↔
      (name, content) ∈ plist ∨ name ∈ names ∧ content = f name := by
  induction names generalizing plist with
  | nil => simp
  | cons n names ih =>
    rw [List.foldl_cons, ih, List.mem_cons, List.mem_cons, Prod.mk.injEq]
    constructor
    · rintro ((⟨rfl, rfl⟩ | hp) | ⟨hm, hc⟩)
      · exact Or.inr ⟨Or.inl rfl, rfl⟩
      · exact Or.inl hp
      · exact Or.inr ⟨Or.inr hm, hc⟩
    · rintro (hp | ⟨rfl | hm, hc⟩)
      · exact Or.inl (Or.inr hp)
      · exact Or.inl (Or.inl ⟨rfl, hc⟩)
      · exact Or.inr ⟨hm, hc⟩

theorem updateInstance_right {x : Instance N K V} {r : ClassRecord N} (cells : List (Option V))
    (hlen : x.values.length = computeInstanceSize x.slotds)
    (hm : Movable x.slotds x.values r.slots) : (updateInstance x r cells).Right where
  kept name ho hn := by
    obtain ⟨i, j, t, hi, ht, hj, hp⟩ := hm.common name ho hn
    have hfind : ∃ s, findSlot x.slotds name = some s ∧ s.index = some j :=
      Option.bind_eq_some_iff.mp hj
    obtain ⟨s, hs, hsj⟩ := hfind
    have hjlt : j < x.values.length := hlen ▸ index_lt_size (findSlot_some hs).1 hsj
    have hnew : ∀ k, 0 ≤ k → k < 0 + (locals r.slots).length →
        (List.replicate (computeInstanceSize r.slots) (none : Option V))[k]? = some none := by
      intro k _ hk
      apply List.getElem?_replicate_of_lt
      rw [Nat.zero_add] at hk
      exact Nat.lt_of_lt_of_le hk (locals_le_size r.slots)
    have hat := @moveSlots_at N V _ x.values (locals x.slotds) 0 i (locals r.slots) _ [] t ht hnew
    change (localIndex r.slots name).bind _ = (localIndex x.slotds name).bind _
    rw [hi, hj, Option.bind_some, Option.bind_some, ← Nat.zero_add i]
    apply hat.trans
    change _ = x.values[j]?
    simp [movedContent, hp, instanceRef, List.getElem?_eq_getElem hjlt]
  shared name ho hn := absurd hn (hm.shared name ho)
  added name := by
    have hmem : name ∈ (updateInstance x r cells).added ↔
        Local r.slots name ∧ ¬Local x.slotds name := by
      simp only [updateInstance, mem_added, List.not_mem_nil, false_or, mem_names_locals]
      rw [← @position_isSome N _ x.slotds, Option.not_isSome_iff_eq_none]
    refine hmem.trans ⟨fun h => ⟨h.1, h.2, fun hs => hm.shared name hs h.1⟩, fun h => ⟨h.1, h.2.1⟩⟩
  discarded name := by
    simp only [updateInstance, List.mem_filter, mem_names_locals, decide_eq_true_eq]
  propertyList name content := by
    have hdiscarded : name ∈ (updateInstance x r cells).discarded ↔
        Local x.slotds name ∧ ¬Local r.slots name := by
      simp only [updateInstance, List.mem_filter, mem_names_locals, decide_eq_true_eq]
    have hplist : (name, content) ∈ (updateInstance x r cells).propertyList ↔
        name ∈ (updateInstance x r cells).discarded ∧
          content = movedContent x.values (locals x.slotds) name := by
      simp only [updateInstance, mem_foldl_plist, List.not_mem_nil, false_or, movedContent]
    rw [hplist]
    refine and_congr_right fun hd => ?_
    obtain ⟨ho, hn⟩ := hdiscarded.mp hd
    obtain ⟨hp, v, hv⟩ := hm.discarded name ho hn
    have hmoved : movedContent x.values (locals x.slotds) name = some v := by
      obtain ⟨j, hj, hjv⟩ := Option.bind_eq_some_iff.mp hv
      rw [movedContent, hp, hj, Option.bind_some, instanceRef, hjv]
      rfl
    rw [hmoved]
    change content = some v ↔ content ≠ none ∧ localValue x.slotds x.values name = some content
    rw [hv]
    constructor
    · rintro rfl
      exact ⟨Option.some_ne_none v, rfl⟩
    · exact fun h => (Option.some.inj h.2).symm

def layoutKey (s : Slot N) : N × Bool × Option ℕ := (s.name, s.isLocal, s.index)

def SameLayout (old new : List (Slot N)) : Prop := old.map layoutKey = new.map layoutKey

theorem layoutKey_of_compatible {o n : Slot N} (h : compatible o n = true) :
    layoutKey o = layoutKey n := by
  simp only [compatible, Bool.and_eq_true, Bool.or_eq_true, decide_eq_true_eq,
    Bool.not_eq_true'] at h
  obtain ⟨⟨⟨⟨hl, hn⟩, hi⟩, -⟩, -⟩ := h
  have hindex : o.index = n.index := by
    refine hi.elim (fun hlo => ?_) id
    have hnone : ∀ s : Slot N, s.isLocal = false → s.index = none := by
      rintro ⟨name, place, slotClass⟩ hs
      cases place with
      | index i => cases hs
      | cell i => rfl
    rw [hnone o hlo, hnone n (hl ▸ hlo)]
  simp only [layoutKey, hl, hn, hindex]

theorem sameLayout_of_compatible {old new : List (Slot N)}
    (h : slotDefinitionsCompatibleP old new = true) : SameLayout old new := by
  induction old generalizing new with
  | nil =>
    cases new with
    | nil => rfl
    | cons n new => cases h
  | cons o old ih =>
    cases new with
    | nil => cases h
    | cons n new =>
      obtain ⟨hc, hrest⟩ := Bool.and_eq_true_iff.mp h
      exact List.cons_eq_cons.mpr ⟨layoutKey_of_compatible hc, ih hrest⟩

variable [DecidableEq K]

structure Valid (s : System N K V) : Prop where
  stamps : ∀ c r, s.classes c = some r → r.stamp < s.nextStamp
  cells : ∀ c r, s.classes c = some r → ∀ t ∈ r.slots, ∀ a ∈ t.cell, a < s.cells.length
  names : ∀ c r, s.classes c = some r → (r.slots.map Slot.name).Nodup
  instances : ∀ x ∈ s.instances, x.stamp < s.nextStamp ∧
    x.values.length = computeInstanceSize x.slotds ∧
    ∃ r, s.classes x.cls = some r ∧ (x.stamp = r.stamp → SameLayout x.slotds r.slots)
  migrations : ∀ m ∈ s.migrations, m.Right
  redefinitions : ∀ d ∈ s.redefinitions, d.Kept

omit [DecidableEq K] in
theorem valid_start : Valid (System.start : System N K V) where
  stamps c r h := by cases h
  cells c r h := by cases h
  names c r h := by cases h
  instances x hx := absurd hx List.not_mem_nil
  migrations m hm := absurd hm List.not_mem_nil
  redefinitions d hd := absurd hd List.not_mem_nil

omit [DecidableEq N] in
theorem update_cases {classes : K → Option (ClassRecord N)} {c d : K} {r r' : ClassRecord N}
    (h : Function.update classes c (some r') d = some r) : r' = r ∨ classes d = some r := by
  by_cases hdc : d = c
  · subst hdc
    rw [Function.update_self] at h
    exact Or.inl (Option.some.inj h)
  · rw [Function.update_of_ne hdc] at h
    exact Or.inr h

theorem Valid.setClass {s : System N K V} (h : Valid s) {c : K} {r' : ClassRecord N}
    {cells : List (Option V)} {nextStamp : ℕ} {redefinitions : List (Redefinition N V)}
    (hstamp : r'.stamp < nextStamp) (hle : s.nextStamp ≤ nextStamp) (hcells : s.cells.length ≤ cells.length)
    (hin : ∀ t ∈ r'.slots, ∀ a ∈ t.cell, a < cells.length)
    (hnames : (r'.slots.map Slot.name).Nodup)
    (hlayout : ∀ r, s.classes c = some r → r'.stamp = r.stamp ∧ SameLayout r.slots r'.slots ∨
      s.nextStamp ≤ r'.stamp)
    (hkept : ∀ d ∈ redefinitions, d.Kept) :
    Valid { s with
      classes := Function.update s.classes c (some r')
      cells := cells
      nextStamp := nextStamp
      redefinitions := redefinitions } where
  stamps d r hd := by
    rcases update_cases hd with rfl | hd
    · exact hstamp
    · exact Nat.lt_of_lt_of_le (h.stamps d r hd) hle
  cells d r hd := by
    rcases update_cases hd with rfl | hd
    · exact hin
    · exact fun t ht a ha => Nat.lt_of_lt_of_le (h.cells d r hd t ht a ha) hcells
  names d r hd := by
    rcases update_cases hd with rfl | hd
    · exact hnames
    · exact h.names d r hd
  instances x hx := by
    obtain ⟨hxs, hlen, r, hr, hsame⟩ := h.instances x hx
    refine ⟨Nat.lt_of_lt_of_le hxs hle, hlen, ?_⟩
    by_cases hxc : x.cls = c
    · refine ⟨r', by simp [hxc], fun he => ?_⟩
      rcases hlayout r (hxc ▸ hr) with ⟨hs, hl⟩ | hfresh
      · exact (hsame (he.trans hs)).trans hl
      · exact absurd hxs (by omega)
    · exact ⟨r, by simpa [hxc] using hr, hsame⟩
  migrations := h.migrations
  redefinitions := hkept

omit [DecidableEq K] in
theorem Valid.setInstance {s : System N K V} (h : Valid s) {i : ℕ} {y : Instance N K V}
    {migrations : List (Migration N V)} {cells : List (Option V)}
    (hcells : s.cells.length ≤ cells.length)
    (hy : y.stamp < s.nextStamp ∧ y.values.length = computeInstanceSize y.slotds ∧
      ∃ r, s.classes y.cls = some r ∧ (y.stamp = r.stamp → SameLayout y.slotds r.slots))
    (hm : ∀ m ∈ migrations, m.Right) :
    Valid { s with instances := s.instances.set i y, migrations := migrations, cells := cells } where
  stamps := h.stamps
  cells c r hr t ht a ha := Nat.lt_of_lt_of_le (h.cells c r hr t ht a ha) hcells
  names := h.names
  instances x hx := by
    rcases List.mem_or_eq_of_mem_set hx with hx | rfl
    · exact h.instances x hx
    · exact hy
  migrations := hm
  redefinitions := h.redefinitions

omit [DecidableEq K] in
theorem Valid.ensureUpToDateInstance {s s' : System N K V} {i : ℕ} (h : Valid s)
    (hok : ∀ x r, s.instances[i]? = some x → s.classes x.cls = some r → x.stamp ≠ r.stamp →
      Movable x.slotds x.values r.slots)
    (hs : s.ensureUpToDateInstance i = some s') : Valid s' := by
  simp only [System.ensureUpToDateInstance, Option.bind_eq_bind, Option.bind_eq_some_iff] at hs
  obtain ⟨x, hx, r, hr, hs⟩ := hs
  split_ifs at hs with hstamp
  · exact Option.some.inj hs ▸ h
  · obtain ⟨-, hlen, -⟩ := h.instances x (List.mem_of_getElem? hx)
    have hright := updateInstance_right s.cells hlen (hok x r hx hr hstamp)
    have hnew : (updateInstance x r s.cells).newValues.length = computeInstanceSize r.slots := by
      simp [updateInstance, moveSlots_length]
    rw [← Option.some.inj hs]
    refine h.setInstance (Nat.le_refl _) ⟨h.stamps _ r hr, hnew, r, hr, fun _ => rfl⟩ ?_
    exact List.forall_mem_cons.mpr ⟨hright, h.migrations⟩

omit [DecidableEq K] in
theorem Valid.write {s s' : System N K V} {i : ℕ} {name : N} {content : Option V} (h : Valid s)
    (hok : ∀ x r, s.instances[i]? = some x → s.classes x.cls = some r → x.stamp ≠ r.stamp →
      Movable x.slotds x.values r.slots)
    (hs : s.write i name content = some s') : Valid s' := by
  simp only [System.write, Option.bind_eq_bind, Option.bind_eq_some_iff] at hs
  obtain ⟨u, hu, x, hx, r, hr, hs⟩ := hs
  have hvalid : Valid u := h.ensureUpToDateInstance hok hu
  have hxv := hvalid.instances x (List.mem_of_getElem? hx)
  split at hs
  · rw [← Option.some.inj hs]
    refine hvalid.setInstance (Nat.le_refl _) ⟨hxv.1, ?_, hxv.2.2⟩ hvalid.migrations
    exact List.length_set.trans hxv.2.1
  · rw [← Option.some.inj hs]
    exact {
      hvalid with
      cells := fun c r hr t ht a ha => by
        simpa using hvalid.cells c r hr t ht a ha }
  · cases hs

/-- The slots of a finalized class: their names differ, their cells exist, and what stays shared
holds what it is given. -/
theorem finalized_slots {s : System N K V} (h : Valid s) (c : K) (precedenceList : List K)
    (direct : List N) {slots : EffectiveSlots N} (initial : N → Option V) {located : List (Slot N)}
    (hin : ∀ t ∈ slots.1, ∀ a ∈ t.cell, a < s.cells.length)
    (hlocated : classComputeSlots slots.1 = some located) :
    let result := stdClassComputeSlots direct initial (s.others c precedenceList) s.cells located
    (result.1.map Slot.name).Nodup ∧ (∀ t ∈ result.1, ∀ a ∈ t.cell, a < result.2.length) ∧
      ∀ name, Shared result.1 name → Shared slots.1 name ∧
        sharedValue result.1 result.2 name =
          s.sharedSource c precedenceList direct slots.1 initial name := by
  intro result
  have hkeys : result.1.map (fun s => (s.name, s.isLocal)) =
      slots.1.map fun s => (s.name, s.isLocal) :=
    (stdClassComputeSlots_names direct initial _ s.cells located).trans
      (classComputeSlots_names hlocated)
  have hnames : (result.1.map Slot.name).Nodup := by
    have hfst := congrArg (List.map Prod.fst) hkeys
    rw [List.map_map, List.map_map] at hfst
    exact hfst ▸ slots.2
  have hinherited : ∀ name, ∀ a ∈ inheritedCell (s.others c precedenceList) name,
      a < s.cells.length := by
    intro name a ha
    obtain ⟨other, hother, hcell⟩ := List.exists_of_findSome?_eq_some ha
    obtain ⟨t, ht, hta⟩ := Option.bind_eq_some_iff.mp hcell
    obtain ⟨d, -, rfl⟩ := List.mem_map.mp hother
    cases hd : s.classes d with
    | none => simp [hd, findSlot] at ht
    | some r =>
      rw [hd] at ht
      exact h.cells d r hd t (findSlot_some ht).1 a hta
  have hlcells : ∀ t ∈ located, ∀ a ∈ t.cell, a < s.cells.length := fun t ht a ha =>
    hin t ((mem_classComputeSlots hlocated (isLocal_of_cell ha)).mp ht) a ha
  refine ⟨hnames, stdClassComputeSlots_cells hinherited hlcells, ?_⟩
  rintro name ⟨t, ht, rfl, hl⟩
  have hmem : (t.name, false) ∈ slots.1.map fun s => (s.name, s.isLocal) :=
    hkeys ▸ List.mem_map.mpr ⟨t, ht, by rw [hl]⟩
  obtain ⟨u, hu, he⟩ := List.mem_map.mp hmem
  obtain ⟨hun, hul⟩ := Prod.mk.inj he
  refine ⟨⟨u, hu, hun, hul⟩, ?_⟩
  obtain ⟨v, hv, hvn, hcell⟩ := @stdClassComputeSlots_shared N V _ direct initial
    (s.others c precedenceList) s.cells located u
    ((mem_classComputeSlots hlocated hul).mpr hu) hul
  have hfind : findSlot result.1 t.name = some v := by
    rw [← hun, ← hvn]
    exact findSlot_eq hnames hv
  have hfindu : findSlot slots.1 t.name = some u := hun ▸ findSlot_eq slots.2 hu
  rw [hun] at hcell
  simp only [sharedValue, sharedCell, System.sharedSource, hfind, hfindu, Option.bind_some]
  by_cases hd : t.name ∈ direct
  · rw [if_pos hd] at hcell ⊢
    obtain ⟨a, ha, hav⟩ := hcell
    rw [ha, Option.bind_some]
    exact hav
  · rw [if_neg hd] at hcell ⊢
    rw [hcell]
    cases ha : (inheritedCell (s.others c precedenceList) t.name).or u.cell with
    | none => rfl
    | some a =>
      have halt : a < s.cells.length := by
        rcases Option.or_eq_some_iff.mp ha with hi | ⟨-, hi⟩
        · exact hinherited t.name a hi
        · exact hin u hu a hi
      exact getElem?_of_extends (stdClassComputeSlots_extends direct initial _ s.cells located) halt

theorem Valid.finalizeInheritance {s s' : System N K V} (h : Valid s) {c : K}
    {precedenceList : List K} {direct : List N} {slots : EffectiveSlots N} {initial : N → Option V}
    (hok : ∀ r, s.classes c = some r → ∀ name, Shared r.slots name → Shared slots.1 name →
      s.sharedSource c precedenceList direct slots.1 initial name = sharedValue r.slots s.cells name)
    (hs : s.finalizeInheritance c precedenceList direct slots initial = some s') : Valid s' := by
  rw [System.finalizeInheritance, Option.bind_eq_bind, Option.bind_eq_some_iff] at hs
  obtain ⟨_, hguard, hs⟩ := hs
  have hin : ∀ t ∈ slots.1, ∀ a ∈ t.cell, a < s.cells.length := by simpa [guard] using hguard
  simp only [Option.bind_eq_bind, Option.bind_eq_some_iff] at hs
  obtain ⟨located, hlocated, hs⟩ := hs
  obtain ⟨hnames, hcells, hshared⟩ :=
    finalized_slots h c precedenceList direct initial hin hlocated
  have hle := (stdClassComputeSlots_extends direct initial (s.others c precedenceList) s.cells
    located).length_le
  cases hc : s.classes c with
  | none =>
    rw [hc] at hs
    rw [← Option.some.inj hs]
    exact h.setClass (Nat.lt_succ_self _) (Nat.le_succ _) hle hcells hnames
      (fun r hr => by rw [hc] at hr; cases hr) h.redefinitions
  | some r =>
    rw [hc] at hs
    have hkept : Redefinition.Kept ⟨r.slots, s.cells,
        (stdClassComputeSlots direct initial (s.others c precedenceList) s.cells located).1,
        (stdClassComputeSlots direct initial (s.others c precedenceList) s.cells located).2⟩ := by
      intro name hbefore hafter
      obtain ⟨hslots, hvalue⟩ := hshared name hafter
      exact hvalue.trans (hok r hc name hbefore hslots)
    have hall := List.forall_mem_cons.mpr ⟨hkept, h.redefinitions⟩
    simp only at hs
    split_ifs at hs with hcompat
    · rw [← Option.some.inj hs]
      refine h.setClass (h.stamps c r hc) (Nat.le_refl _) hle hcells hnames ?_ hall
      intro r' hr'
      obtain rfl : r = r' := Option.some.inj (hc.symm.trans hr')
      exact Or.inl ⟨rfl, sameLayout_of_compatible hcompat⟩
    · rw [← Option.some.inj hs]
      exact h.setClass (Nat.lt_succ_self _) (Nat.le_succ _) hle hcells hnames
        (fun _ _ => Or.inr (Nat.le_refl _)) hall

theorem Valid.next {s s' : System N K V} {e : Event N K V} (h : Valid s) (hok : s.Ok e)
    (hs : s.next e = some s') : Valid s' := by
  cases e with
  | finalizeInheritance c precedenceList direct slots initial =>
    exact h.finalizeInheritance hok hs
  | makeInstancesObsolete c =>
    simp only [System.next, Option.bind_eq_bind, Option.bind_eq_some_iff] at hs
    obtain ⟨r, hr, hs⟩ := hs
    rw [← Option.some.inj hs]
    exact h.setClass (Nat.lt_succ_self _) (Nat.le_succ _) (Nat.le_refl _) (h.cells c r hr)
      (h.names c r hr) (fun _ _ => Or.inr (Nat.le_refl _)) h.redefinitions
  | allocate c =>
    simp only [System.next, Option.bind_eq_bind, Option.bind_eq_some_iff] at hs
    obtain ⟨r, hr, hs⟩ := hs
    rw [← Option.some.inj hs]
    refine { h with instances := fun x hx => ?_ }
    rcases List.mem_append.mp hx with hx | hx
    · exact h.instances x hx
    · rw [List.mem_singleton.mp hx]
      exact ⟨h.stamps c r hr, List.length_replicate, r, hr, fun _ => rfl⟩
  | access i => exact h.ensureUpToDateInstance hok hs
  | write i name content => exact h.write hok hs

/-- In every run in which slots that stay shared are given their values again and instances that are
updated are movable, every migration is right, slots that stay shared keep their values, and an
instance that is not obsolete has the layout of its class. -/
theorem instances_keep_their_values {s : System N K V}
    (h : ConditionalRuns.Reached System.next System.Ok (· = System.start) s) :
    (∀ m ∈ s.migrations, m.Right) ∧ (∀ d ∈ s.redefinitions, d.Kept) ∧
      ∀ x ∈ s.instances, ∀ r, s.classes x.cls = some r → x.stamp = r.stamp →
        SameLayout x.slotds r.slots := by
  have hvalid : Valid s := by
    refine h.invariant ?_ fun s e s' hv hok hs => hv.next hok hs
    rintro s rfl
    exact valid_start
  refine ⟨hvalid.migrations, hvalid.redefinitions, fun x hx r hr hstamp => ?_⟩
  obtain ⟨-, -, r', hr', hsame⟩ := hvalid.instances x hx
  obtain rfl : r = r' := Option.some.inj (hr.symm.trans hr')
  exact hsame hstamp

/-- Slots with names that are true or false; locations that are given are fixed. -/
def slotsOf (slots : List (Bool × Place)) (h : (slots.map Prod.fst).Nodup) : EffectiveSlots Bool :=
  ⟨slots.map fun p => ⟨p.1, p.2, .standardEffective⟩, by
    rw [List.map_map]
    exact h⟩

def redefine (slots : List (Bool × Place)) (h : (slots.map Prod.fst).Nodup) : Event Bool Unit ℕ :=
  .finalizeInheritance () [()] [] (slotsOf slots h) fun _ => none

omit [DecidableEq N] [DecidableEq K] in
theorem not_shared {slots : List (Slot N)} (h : slots.all Slot.isLocal = true) (name : N) :
    ¬Shared slots name := by
  rintro ⟨s, hs, -, hl⟩
  rw [List.all_eq_true.mp h s hs] at hl
  cases hl

/-- Two slots change their places. -/
theorem reordered_slots_keep_their_values : ∃ s : System Bool Unit ℕ, s.migrations.length = 1 ∧
    ∀ m ∈ s.migrations, m.Right := by
  have h₀ : ConditionalRuns.Reached (@System.next Bool Unit ℕ _ _) System.Ok (· = System.start)
      System.start := .start rfl
  have h₁ := h₀.step (a := redefine [(true, .index none), (false, .index none)] (by decide))
    (fun r hr => by cases hr) rfl
  have h₂ := h₁.step (a := (.allocate () : Event Bool Unit ℕ)) trivial rfl
  have h₃ := h₂.step (a := (.write 0 true (some 7) : Event Bool Unit ℕ)) (fun x r hx hr hne => by
    cases hx
    cases hr
    exact absurd rfl hne) rfl
  have h₄ := h₃.step (a := redefine [(false, .index none), (true, .index none)] (by decide))
    (fun r hr name hbefore => by
      cases hr
      exact absurd hbefore (not_shared rfl name)) rfl
  have h₅ := h₄.step (a := (.access 0 : Event Bool Unit ℕ)) (fun x r hx hr _ => by
    cases hx
    cases hr
    constructor
    · exact fun name h => absurd h (not_shared rfl name)
    · intro name _ hn
      cases name with
      | false => exact absurd ⟨_, List.mem_cons_self, rfl, rfl⟩ hn
      | true => exact absurd ⟨_, List.mem_cons_of_mem _ List.mem_cons_self, rfl, rfl⟩ hn
    · intro name _ _
      cases name with
      | false => exact ⟨0, 1, _, rfl, rfl, rfl, rfl⟩
      | true => exact ⟨1, 0, _, rfl, rfl, rfl, rfl⟩) rfl
  exact ⟨_, rfl, (instances_keep_their_values h₅).1⟩

def System.run : System N K V → List (Event N K V) → Option (System N K V)
  | s, [] => some s
  | s, e :: events => (s.next e).bind fun s => s.run events

theorem reached_of_run {s s' : System N K V} {events : List (Event N K V)}
    (h : s.run events = some s') :
    ConditionalRuns.Reached System.next (fun _ _ => True) (· = s) s' := by
  induction events generalizing s with
  | nil => exact .start (Option.some.inj h).symm
  | cons e events ih =>
    obtain ⟨u, hu, hrun⟩ := Option.bind_eq_some_iff.mp h
    have hstart : ConditionalRuns.Reached System.next (fun _ _ => True) (· = s) s := .start rfl
    exact (hstart.step trivial hu).trans (ih hrun)

/-- The slot false has the location 0 fixed and stands after the slot true, which the second
definition lacks. -/
def fixedLocation : List (Event Bool Unit ℕ) :=
  [redefine [(true, .index none), (false, .index (some 0))] (by decide), .allocate (),
    .write 0 false (some 7), redefine [(false, .index (some 0))] (by decide), .access 0]

theorem value_goes_to_the_discarded_slot : ∃ s : System Bool Unit ℕ,
    ConditionalRuns.Reached System.next (fun _ _ => True) (· = System.start) s ∧
      ∃ m ∈ s.migrations, ¬m.Right := by
  obtain ⟨s, hs⟩ : ∃ s, System.start.run fixedLocation = some s := ⟨_, rfl⟩
  have hm : ((System.start.run fixedLocation).map System.migrations) = some
      [⟨[⟨true, .index (some 1), .standardEffective⟩, ⟨false, .index (some 0), .standardEffective⟩],
        [some 7, none], [⟨false, .index (some 0), .standardEffective⟩], [none], [], [], [true],
        [(true, some 7)]⟩] := rfl
  rw [hs, Option.map_some, Option.some.injEq] at hm
  refine ⟨s, reached_of_run hs, _, hm ▸ List.mem_cons_self, fun h => ?_⟩
  have hkept := h.kept false ⟨_, List.mem_cons_of_mem _ List.mem_cons_self, rfl, rfl⟩
    ⟨_, List.mem_cons_self, rfl, rfl⟩
  exact absurd hkept (by decide)

end InstanceMigration
