import Mathlib.Data.List.Nodup

/-! The slots of classes and where they are kept: compute-instance-size, class-compute-slots and
std-class-compute-slots of src/clos/standard.lsp and slot-definitions-compatible-p of
src/clos/change.lsp. Contents that are none are unbound. -/
namespace SlotLayouts

variable {N V : Type}

/-- The allocation with the location, which is an index into instances or, for a shared slot, a cell
that holds the value. -/
inductive Place where
  | index (location : Option ℕ)
  | cell (location : Option ℕ)
  deriving DecidableEq

inductive SlotClass where
  | standardDirect
  | standardEffective
  | other (c : ℕ)
  deriving DecidableEq

structure Slot (N : Type) where
  name : N
  place : Place
  slotClass : SlotClass
  deriving DecidableEq

def Slot.isLocal (s : Slot N) : Bool :=
  match s.place with
  | .index _ => true
  | .cell _ => false

def Slot.index (s : Slot N) : Option ℕ :=
  match s.place with
  | .index location => location
  | .cell _ => none

def Slot.cell (s : Slot N) : Option ℕ :=
  match s.place with
  | .index _ => none
  | .cell location => location

/-- The slots with allocation :INSTANCE. -/
def locals (slots : List (Slot N)) : List (Slot N) := slots.filter Slot.isLocal

/-- One more than the last location that is given. -/
def lastLocation (slots : List (Slot N)) : ℕ :=
  slots.foldl (fun last s => max last ((s.index.map (· + 1)).getD 0)) 0

def computeInstanceSize (slots : List (Slot N)) : ℕ :=
  max (locals slots).length (lastLocation slots)

def numbered (slots : List (Slot N)) : List ℕ := slots.filterMap Slot.index

def nextFree (taken : List ℕ) : ℕ → ℕ → ℕ
  | 0, index => index
  | size + 1, index => if index ∈ taken then nextFree taken size (index + 1) else index

/-- The second loop of class-compute-slots. -/
def assignLocations (size : ℕ) : List ℕ → ℕ → List (Slot N) → List (Slot N)
  | _, _, [] => []
  | taken, index, s :: slots =>
    match s.place with
    | .index none =>
      let index := nextFree taken size index
      { s with place := .index (some index) } :: assignLocations size (index :: taken) index slots
    | _ => s :: assignLocations size taken index slots

/-- none is the error Slots ~A and ~A are said to have the same location in class ~A. -/
def classComputeSlots (slots : List (Slot N)) : Option (List (Slot N)) :=
  if (numbered slots).Nodup then
    some (assignLocations (computeInstanceSize slots) (numbered slots) 0 slots)
  else none

section
variable [DecidableEq N]

def findSlot (slots : List (Slot N)) (name : N) : Option (Slot N) :=
  slots.find? fun s => s.name = name

def inheritedCell (others : List (List (Slot N))) (name : N) : Option ℕ :=
  others.findSome? fun slots => (findSlot slots name).bind Slot.cell

/-- std-class-compute-slots: others are the slots of the other classes of the precedence list, and
initial is what the initfunctions return. -/
def stdClassComputeSlots (direct : List N) (initial : N → Option V)
    (others : List (List (Slot N))) :
    List (Option V) → List (Slot N) → List (Slot N) × List (Option V)
  | cells, [] => ([], cells)
  | cells, s :: slots =>
    match s.place with
    | .index _ =>
      let (rest, cells) := stdClassComputeSlots direct initial others cells slots
      (s :: rest, cells)
    | .cell location =>
      if s.name ∈ direct then
        let (rest, cells') :=
          stdClassComputeSlots direct initial others (cells ++ [initial s.name]) slots
        ({ s with place := .cell (some cells.length) } :: rest, cells')
      else
        let (rest, cells) := stdClassComputeSlots direct initial others cells slots
        ({ s with place := .cell ((inheritedCell others s.name).or location) } :: rest, cells)

def SlotClass.isStandard : SlotClass → Bool
  | .other _ => false
  | _ => true

def compatible (o n : Slot N) : Bool :=
  o.isLocal = n.isLocal && o.name = n.name && (!o.isLocal || o.index = n.index) &&
    o.slotClass = n.slotClass && n.slotClass.isStandard

def slotDefinitionsCompatibleP : List (Slot N) → List (Slot N) → Bool
  | [], [] => true
  | o :: old, n :: new => compatible o n && slotDefinitionsCompatibleP old new
  | _, _ => false

end

section
variable [DecidableEq N]

def localIndex (slots : List (Slot N)) (name : N) : Option ℕ :=
  (findSlot slots name).bind Slot.index

def sharedCell (slots : List (Slot N)) (name : N) : Option ℕ :=
  (findSlot slots name).bind Slot.cell

def localValue (slots : List (Slot N)) (values : List (Option V)) (name : N) : Option (Option V) :=
  (localIndex slots name).bind (values[·]?)

def sharedValue (slots : List (Slot N)) (cells : List (Option V)) (name : N) : Option (Option V) :=
  (sharedCell slots name).bind (cells[·]?)

end

def Local (slots : List (Slot N)) (name : N) : Prop := ∃ s ∈ slots, s.name = name ∧ s.isLocal = true

def Shared (slots : List (Slot N)) (name : N) : Prop := ∃ s ∈ slots, s.name = name ∧ s.isLocal = false

theorem index_lt_foldl {slots : List (Slot N)} {s : Slot N} {i last : ℕ}
    (h : i < last ∨ s ∈ slots ∧ s.index = some i) :
    i < slots.foldl (fun last s => max last ((s.index.map (· + 1)).getD 0)) last := by
  induction slots generalizing last with
  | nil => exact h.resolve_right fun h => absurd h.1 List.not_mem_nil
  | cons t slots ih =>
    apply ih
    rcases h with h | ⟨hs, hi⟩
    · exact Or.inl (Nat.lt_of_lt_of_le h (Nat.le_max_left _ _))
    rcases List.mem_cons.mp hs with rfl | hs
    · apply Or.inl
      simp only [hi, Option.map_some, Option.getD_some]
      exact Nat.lt_of_lt_of_le (Nat.lt_succ_self i) (Nat.le_max_right _ _)
    · exact Or.inr ⟨hs, hi⟩

theorem index_lt_size {slots : List (Slot N)} {s : Slot N} {i : ℕ} (hs : s ∈ slots)
    (hi : s.index = some i) : i < computeInstanceSize slots :=
  Nat.lt_of_lt_of_le (index_lt_foldl (Or.inr ⟨hs, hi⟩)) (Nat.le_max_right _ _)

theorem locals_le_size (slots : List (Slot N)) : (locals slots).length ≤ computeInstanceSize slots :=
  Nat.le_max_left _ _

theorem assignLocations_names (size : ℕ) (taken : List ℕ) (index : ℕ) (slots : List (Slot N)) :
    (assignLocations size taken index slots).map (fun s => (s.name, s.isLocal)) =
      slots.map fun s => (s.name, s.isLocal) := by
  induction slots generalizing taken index with
  | nil => rfl
  | cons s slots ih =>
    obtain ⟨name, place, slotClass⟩ := s
    rcases place with (_ | i) | cell
    · simpa [assignLocations, Slot.isLocal] using ih _ _
    · simpa [assignLocations, Slot.isLocal] using ih _ _
    · simpa [assignLocations, Slot.isLocal] using ih _ _

theorem stdClassComputeSlots_names [DecidableEq N] (direct : List N) (initial : N → Option V)
    (others : List (List (Slot N))) (cells : List (Option V)) (slots : List (Slot N)) :
    (stdClassComputeSlots direct initial others cells slots).1.map (fun s => (s.name, s.isLocal)) =
      slots.map fun s => (s.name, s.isLocal) := by
  induction slots generalizing cells with
  | nil => rfl
  | cons s slots ih =>
    obtain ⟨name, place, slotClass⟩ := s
    cases place with
    | index i => simpa [stdClassComputeSlots, Slot.isLocal] using ih cells
    | cell i =>
      by_cases hd : name ∈ direct
      · simpa [stdClassComputeSlots, Slot.isLocal, hd] using ih _
      · simpa [stdClassComputeSlots, Slot.isLocal, hd] using ih _

variable [DecidableEq N]

theorem findSlot_eq {slots : List (Slot N)} {s : Slot N} (hn : (slots.map Slot.name).Nodup)
    (hs : s ∈ slots) : findSlot slots s.name = some s := by
  unfold findSlot
  induction slots with
  | nil => cases hs
  | cons t slots ih =>
    obtain ⟨ht, hrest⟩ := List.nodup_cons.mp hn
    rcases List.mem_cons.mp hs with rfl | hs
    · exact List.find?_cons_of_pos (by simp)
    · have hne : t.name ≠ s.name := fun he => ht (he ▸ List.mem_map_of_mem hs)
      rw [List.find?_cons_of_neg (by simpa using hne)]
      exact ih hrest hs

theorem findSlot_some {slots : List (Slot N)} {name : N} {s : Slot N}
    (h : findSlot slots name = some s) : s ∈ slots ∧ s.name = name :=
  ⟨List.mem_of_find?_eq_some h, by simpa using List.find?_some h⟩

theorem stdClassComputeSlots_extends (direct : List N) (initial : N → Option V)
    (others : List (List (Slot N))) (cells : List (Option V)) (slots : List (Slot N)) :
    cells <+: (stdClassComputeSlots direct initial others cells slots).2 := by
  induction slots generalizing cells with
  | nil => exact List.prefix_refl cells
  | cons s slots ih =>
    obtain ⟨name, place, slotClass⟩ := s
    cases place with
    | index i => exact ih cells
    | cell i =>
      by_cases hd : name ∈ direct
      · simp only [stdClassComputeSlots, if_pos hd]
        exact (List.prefix_append cells _).trans (ih _)
      · simp only [stdClassComputeSlots, if_neg hd]
        exact ih cells

theorem getElem?_of_extends {l l' : List V} (h : l <+: l') {a : ℕ} (ha : a < l.length) :
    l'[a]? = l[a]? := by
  obtain ⟨rest, rfl⟩ := h
  exact List.getElem?_append_left ha

theorem stdClassComputeSlots_shared {direct : List N} {initial : N → Option V}
    {others : List (List (Slot N))} {cells : List (Option V)} {slots : List (Slot N)} {s : Slot N}
    (hs : s ∈ slots) (hl : s.isLocal = false) :
    ∃ t ∈ (stdClassComputeSlots direct initial others cells slots).1, t.name = s.name ∧
      if s.name ∈ direct then
        ∃ a, t.cell = some a ∧
          (stdClassComputeSlots direct initial others cells slots).2[a]? = some (initial s.name)
      else t.cell = (inheritedCell others s.name).or s.cell := by
  induction slots generalizing cells with
  | nil => cases hs
  | cons r slots ih =>
    rcases List.mem_cons.mp hs with rfl | hin
    · obtain ⟨name, place, slotClass⟩ := s
      cases place with
      | index i => cases hl
      | cell i =>
        by_cases hd : name ∈ direct
        · simp only [stdClassComputeSlots, if_pos hd]
          refine ⟨_, List.mem_cons_self, rfl, cells.length, rfl, ?_⟩
          have hprefix := stdClassComputeSlots_extends direct initial others
            (cells ++ [initial name]) slots
          rw [getElem?_of_extends hprefix (by simp)]
          simp
        · simp only [stdClassComputeSlots, if_neg hd]
          exact ⟨_, List.mem_cons_self, rfl, rfl⟩
    · obtain ⟨name, place, slotClass⟩ := r
      cases place with
      | index i =>
        obtain ⟨t, ht, hrest⟩ := @ih cells hin
        exact ⟨t, List.mem_cons_of_mem _ ht, hrest⟩
      | cell i =>
        by_cases hd : name ∈ direct
        · obtain ⟨t, ht, hrest⟩ := @ih (cells ++ [initial name]) hin
          simp only [stdClassComputeSlots, if_pos hd]
          exact ⟨t, List.mem_cons_of_mem _ ht, hrest⟩
        · obtain ⟨t, ht, hrest⟩ := @ih cells hin
          simp only [stdClassComputeSlots, if_neg hd]
          exact ⟨t, List.mem_cons_of_mem _ ht, hrest⟩

theorem stdClassComputeSlots_cells {direct : List N} {initial : N → Option V}
    {others : List (List (Slot N))} {cells : List (Option V)} {slots : List (Slot N)}
    (ho : ∀ name, ∀ a ∈ inheritedCell others name, a < cells.length)
    (hs : ∀ s ∈ slots, ∀ a ∈ s.cell, a < cells.length) :
    ∀ t ∈ (stdClassComputeSlots direct initial others cells slots).1, ∀ a ∈ t.cell,
      a < (stdClassComputeSlots direct initial others cells slots).2.length := by
  induction slots generalizing cells with
  | nil => exact fun t ht => absurd ht List.not_mem_nil
  | cons s slots ih =>
    obtain ⟨name, place, slotClass⟩ := s
    have hrest : ∀ {cells' : List (Option V)}, cells <+: cells' →
        ∀ t ∈ (stdClassComputeSlots direct initial others cells' slots).1, ∀ a ∈ t.cell,
          a < (stdClassComputeSlots direct initial others cells' slots).2.length := by
      intro cells' hp
      apply ih
      · exact fun name a ha => Nat.lt_of_lt_of_le (ho name a ha) hp.length_le
      · exact fun t ht a ha =>
          Nat.lt_of_lt_of_le (hs t (List.mem_cons_of_mem _ ht) a ha) hp.length_le
    have hout : ∀ cells' : List (Option V), cells'.length ≤
        (stdClassComputeSlots direct initial others cells' slots).2.length :=
      fun cells' => (stdClassComputeSlots_extends direct initial others cells' slots).length_le
    intro t ht a ha
    cases place with
    | index i =>
      rcases List.mem_cons.mp ht with rfl | ht
      · cases ha
      · exact hrest (List.prefix_refl cells) t ht a ha
    | cell i =>
      by_cases hd : name ∈ direct
      · simp only [stdClassComputeSlots, if_pos hd] at ht ⊢
        rcases List.mem_cons.mp ht with rfl | ht
        · obtain rfl : cells.length = a := Option.some.inj ha
          exact Nat.lt_of_lt_of_le (by simp) (hout _)
        · exact hrest (List.prefix_append cells _) t ht a ha
      · simp only [stdClassComputeSlots, if_neg hd] at ht ⊢
        rcases List.mem_cons.mp ht with rfl | ht
        · refine Nat.lt_of_lt_of_le ?_ (hout cells)
          rcases Option.or_eq_some_iff.mp ha with hin | ⟨-, hin⟩
          · exact ho name a hin
          · exact hs _ List.mem_cons_self a hin
        · exact hrest (List.prefix_refl cells) t ht a ha

omit [DecidableEq N] in
theorem mem_assignLocations {size index : ℕ} {taken : List ℕ} {slots : List (Slot N)} {s : Slot N}
    (hl : s.isLocal = false) : s ∈ assignLocations size taken index slots ↔ s ∈ slots := by
  induction slots generalizing taken index with
  | nil => rfl
  | cons r slots ih =>
    obtain ⟨name, place, slotClass⟩ := r
    have hne : ∀ i, s ≠ ⟨name, .index i, slotClass⟩ := by
      rintro i rfl
      cases hl
    rcases place with (_ | i) | cell
    · simp [assignLocations, ih, hne]
    · simp [assignLocations, ih]
    · simp [assignLocations, ih]

omit [DecidableEq N] in
theorem classComputeSlots_names {slots located : List (Slot N)}
    (h : classComputeSlots slots = some located) :
    located.map (fun s => (s.name, s.isLocal)) = slots.map fun s => (s.name, s.isLocal) := by
  unfold classComputeSlots at h
  split_ifs at h
  exact Option.some.inj h ▸ assignLocations_names _ _ _ slots

omit [DecidableEq N] in
theorem mem_classComputeSlots {slots located : List (Slot N)} {s : Slot N}
    (h : classComputeSlots slots = some located) (hl : s.isLocal = false) :
    s ∈ located ↔ s ∈ slots := by
  unfold classComputeSlots at h
  split_ifs at h
  exact Option.some.inj h ▸ mem_assignLocations hl

omit [DecidableEq N] in
theorem isLocal_of_cell {s : Slot N} {a : ℕ} (h : s.cell = some a) : s.isLocal = false := by
  obtain ⟨name, place, slotClass⟩ := s
  cases place with
  | index i => cases h
  | cell i => rfl

end SlotLayouts
