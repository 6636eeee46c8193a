import Ecl.SlotLayouts
import Ecl.Runs

/-! Instances of classes that are redefined: finalize-inheritance of src/clos/standard.lsp and
update-instance of src/clos/change.lsp. -/
namespace InstanceMigration

open SlotLayouts

variable {N K V : Type}

structure ClassRecord (N : Type) where
  slots : List (Slot N)
  stamp : ℕ
  deriving DecidableEq

structure Instance (N K V : Type) where
  cls : K
  stamp : ℕ
  slotds : List (Slot N)
  values : List (Option V)
  deriving DecidableEq

/-- An instance before and after update-instance, the cells at that time, and what
update-instance-for-redefined-class receives. -/
structure Migration (N V : Type) where
  old : List (Slot N)
  oldValues : List (Option V)
  new : List (Slot N)
  newValues : List (Option V)
  cells : List (Option V)
  added : List N
  discarded : List N
  propertyList : List (N × Option V)
  deriving DecidableEq

structure Redefinition (N V : Type) where
  before : List (Slot N)
  cellsBefore : List (Option V)
  after : List (Slot N)
  cellsAfter : List (Option V)
  deriving DecidableEq

/-- What the primary method of COMPUTE-SLOTS makes of the direct slots: a location is one that a
sealed class has fixed. -/
abbrev EffectiveSlots (N : Type) := { slots : List (Slot N) // (slots.map Slot.name).Nodup }

inductive Event (N K V : Type) where
  | finalizeInheritance (c : K) (precedenceList : List K) (direct : List N)
      (slots : EffectiveSlots N) (initial : N → Option V)
  | makeInstancesObsolete (c : K)
  | allocate (c : K)
  | access (x : ℕ)
  | write (x : ℕ) (name : N) (content : Option V)

structure System (N K V : Type) where
  classes : K → Option (ClassRecord N)
  instances : List (Instance N K V)
  cells : List (Option V)
  nextStamp : ℕ
  migrations : List (Migration N V)
  redefinitions : List (Redefinition N V)

def System.start : System N K V := ⟨fun _ => none, [], [], 0, [], []⟩

section
variable [DecidableEq N]

def position (name : N) (slots : List (Slot N)) : Option ℕ := slots.findIdx? fun s => s.name = name

def instanceRef (values : List (Option V)) (i : ℕ) : Option V := values[i]?.join

/-- The loop over the new local slots, from a place in the new instance. -/
def moveSlots (oldValues : List (Option V)) (oldLocals : List (Slot N)) :
    ℕ → List (Slot N) → List (Option V) → List N → List (Option V) × List N
  | _, [], values, added => (values, added)
  | newI, s :: slots, values, added =>
    match position s.name oldLocals with
    | some oldI =>
      moveSlots oldValues oldLocals (newI + 1) slots (values.set newI (instanceRef oldValues oldI))
        added
    | none => moveSlots oldValues oldLocals (newI + 1) slots values (s.name :: added)

def updateInstance (x : Instance N K V) (r : ClassRecord N) (cells : List (Option V)) :
    Migration N V :=
  let oldLocals := locals x.slotds
  let newLocals := locals r.slots
  let discarded := (oldLocals.map Slot.name).filter (· ∉ newLocals.map Slot.name)
  let propertyList := discarded.foldl (fun plist name =>
    (name, (position name oldLocals).bind (instanceRef x.values)) :: plist) []
  let (values, added) := moveSlots x.values oldLocals 0 newLocals
    (List.replicate (computeInstanceSize r.slots) none) []
  ⟨x.slotds, x.values, r.slots, values, cells, added, discarded, propertyList⟩

variable [DecidableEq K]

def System.ensureUpToDateInstance (s : System N K V) (i : ℕ) : Option (System N K V) := do
  let x ← s.instances[i]?
  let r ← s.classes x.cls
  if x.stamp = r.stamp then return s
  else
    let m := updateInstance x r s.cells
    return { s with
      instances := s.instances.set i ⟨x.cls, r.stamp, r.slots, m.newValues⟩
      migrations := m :: s.migrations }

/-- slot-value-set and slot-makunbound. -/
def System.write (s : System N K V) (i : ℕ) (name : N) (content : Option V) :
    Option (System N K V) := do
  let s ← s.ensureUpToDateInstance i
  let x ← s.instances[i]?
  let r ← s.classes x.cls
  match (findSlot r.slots name).map Slot.place with
  | some (.index (some j)) =>
    return { s with instances := s.instances.set i { x with values := x.values.set j content } }
  | some (.cell (some a)) => return { s with cells := s.cells.set a content }
  | _ => none

/-- The slots of the other classes of a precedence list. -/
def System.others (s : System N K V) (c : K) (precedenceList : List K) : List (List (Slot N)) :=
  (precedenceList.filter (· ≠ c)).map fun d => ((s.classes d).map ClassRecord.slots).getD []

/-- The part of finalize-inheritance that computes the slots of a class. Cells that are given exist. -/
def System.finalizeInheritance (s : System N K V) (c : K) (precedenceList : List K)
    (direct : List N) (slots : EffectiveSlots N) (initial : N → Option V) :
    Option (System N K V) := do
  guard (∀ t ∈ slots.1, ∀ a ∈ t.cell, a < s.cells.length)
  let located ← classComputeSlots slots.1
  let (nslotds, cells) :=
    stdClassComputeSlots direct initial (s.others c precedenceList) s.cells located
  match s.classes c with
  | none =>
    return { s with
      classes := Function.update s.classes c (some ⟨nslotds, s.nextStamp⟩)
      cells := cells
      nextStamp := s.nextStamp + 1 }
  | some r =>
    let redefinitions := ⟨r.slots, s.cells, nslotds, cells⟩ :: s.redefinitions
    if slotDefinitionsCompatibleP r.slots nslotds then
      return { s with
        classes := Function.update s.classes c (some ⟨nslotds, r.stamp⟩)
        cells := cells
        redefinitions := redefinitions }
    else
      return { s with
        classes := Function.update s.classes c (some ⟨nslotds, s.nextStamp⟩)
        cells := cells
        nextStamp := s.nextStamp + 1
        redefinitions := redefinitions }

def System.next (s : System N K V) : Event N K V → Option (System N K V)
  | .finalizeInheritance c precedenceList direct slots initial =>
    s.finalizeInheritance c precedenceList direct slots initial
  | .makeInstancesObsolete c => do
    let r ← s.classes c
    return { s with
      classes := Function.update s.classes c (some ⟨r.slots, s.nextStamp⟩)
      nextStamp := s.nextStamp + 1 }
  | .allocate c => do
    let r ← s.classes c
    let values := List.replicate (computeInstanceSize r.slots) none
    return { s with instances := s.instances ++ [⟨c, r.stamp, r.slots, values⟩] }
  | .access i => s.ensureUpToDateInstance i
  | .write i name content => s.write i name content

end

section
variable [DecidableEq N]

structure Migration.Right (m : Migration N V) : Prop where
  kept : ∀ name, Local m.old name → Local m.new name →
    localValue m.new m.newValues name = localValue m.old m.oldValues name
  shared : ∀ name, Shared m.old name → Local m.new name →
    localValue m.new m.newValues name = sharedValue m.old m.cells name
  added : ∀ name, name ∈ m.added ↔ Local m.new name ∧ ¬Local m.old name ∧ ¬Shared m.old name
  discarded : ∀ name, name ∈ m.discarded ↔ Local m.old name ∧ ¬Local m.new name
  propertyList : ∀ name content, (name, content) ∈ m.propertyList ↔ name ∈ m.discarded ∧
    content ≠ none ∧ localValue m.old m.oldValues name = some content

def Redefinition.Kept (d : Redefinition N V) : Prop := ∀ name, Shared d.before name →
  Shared d.after name →
    sharedValue d.after d.cellsAfter name = sharedValue d.before d.cellsBefore name

/-- The slots of an instance can be moved by their places in the lists: none becomes local that was
shared; one that is discarded is bound, and its place is its location; the new slot at the place
that is the new location of a slot had the old location of that slot for its place. -/
structure Movable (old : List (Slot N)) (values : List (Option V)) (new : List (Slot N)) : Prop where
  shared : ∀ name, Shared old name → ¬Local new name
  discarded : ∀ name, Local old name → ¬Local new name →
    position name (locals old) = localIndex old name ∧
      ∃ v, localValue old values name = some (some v)
  common : ∀ name, Local old name → Local new name → ∃ i j t, localIndex new name = some i ∧
    (locals new)[i]? = some t ∧ localIndex old name = some j ∧ position t.name (locals old) = some j

variable [DecidableEq K]

def System.sharedSource (s : System N K V) (c : K) (precedenceList : List K) (direct : List N)
    (slots : List (Slot N)) (initial : N → Option V) (name : N) : Option (Option V) :=
  if name ∈ direct then some (initial name)
  else ((inheritedCell (s.others c precedenceList) name).or (sharedCell slots name)).bind
    (s.cells[·]?)

def System.Ok (s : System N K V) : Event N K V → Prop
  | .finalizeInheritance c precedenceList direct slots initial =>
    ∀ r, s.classes c = some r → ∀ name, Shared r.slots name → Shared slots.1 name →
      s.sharedSource c precedenceList direct slots.1 initial name = sharedValue r.slots s.cells name
  | .access i | .write i _ _ => ∀ x r, s.instances[i]? = some x → s.classes x.cls = some r →
      x.stamp ≠ r.stamp → Movable x.slotds x.values r.slots
  | _ => True

end

end InstanceMigration
