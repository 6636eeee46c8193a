import Ecl.CacheSoundness
import Ecl.DispatchKeys
import Ecl.SlotLayouts

/-! Calls of generic functions and slot accessors while classes are redefined:
_ecl_standard_dispatch of src/c/clos/gfun.d, the dispatchers of src/c/clos/accessor.d,
set-generic-function-dispatch of src/clos/kernel.lsp, and what reinitialize-instance and
finalize-inheritance of src/clos/change.lsp and src/clos/standard.lsp do to classes and methods. -/
namespace DispatchCaches

open GenericFunctions DispatchKeys
open MethodCache (Cache Value makeCache)
open SlotLayouts (Place findSlot slotDefinitionsCompatibleP)

variable {O C G N S M : Type}

/-- The class of a method, with the slot of a standard-optimized-reader-method or a
standard-optimized-writer-method. -/
inductive MethodClass (N : Type) where
  | reader (slot : N)
  | writer (slot : N)
  | other
  deriving DecidableEq

def MethodClass.slot : MethodClass N → Option N
  | .reader slot | .writer slot => some slot
  | .other => none

def MethodClass.isReader : MethodClass N → Bool
  | .reader _ => true
  | _ => false

def MethodClass.isWriter : MethodClass N → Bool
  | .writer _ => true
  | _ => false

structure Image (O C N M : Type) where
  classOf : O → C
  t : C
  methodClass : M → MethodClass N
  qualified : M → Bool

variable {im : Image O C N M}

structure Hierarchy (im : Image O C N M) extends ClassSystem O C where
  classOf_eq : classOf = im.classOf
  t_eq : t = im.t
  t_mem : ∀ c, im.t ∈ precedenceList c

section
variable [DecidableEq C]

def MethodClass.fits (t : C) : MethodClass N → List (Specializer O C) → Bool
  | .reader _, [.cls _] => true
  | .writer _, [.cls d, .cls _] => d = t
  | .other, _ => true
  | _, _ => false

/-- standardClass tells that the class is STANDARD-GENERIC-FUNCTION itself; for others the user has
no methods on COMPUTE-APPLICABLE-METHODS and COMPUTE-APPLICABLE-METHODS-USING-CLASSES. -/
structure Function (im : Image O C N M) (S : Type) where
  gf : GenericFunction O C S M
  standardClass : Bool
  accessors : ∀ m ∈ gf.methods, (im.methodClass m).fits im.t (gf.specializers m) = true

/-- What set-generic-function-dispatch chooses. -/
inductive Dispatch where
  | computed
  | generic
  | reader
  | writer
  | restricted
  deriving DecidableEq

def Function.dispatch (sys : ClassSystem O C) (f : Function im S) : Dispatch :=
  if 63 < (computeSpecList sys f.gf).length then .computed
  else if !f.standardClass then .generic
  else if f.gf.methods ≠ [] ∧ ∀ m ∈ f.gf.methods, (im.methodClass m).isReader then .reader
  else if f.gf.methods ≠ [] ∧ ∀ m ∈ f.gf.methods, (im.methodClass m).isWriter then .writer
  else .restricted

def accessedInstance : Dispatch → List O → Option O
  | .reader, [self] => some self
  | .writer, [_, self] => some self
  | _, _ => none

end

/-- A word of a key: the generic function, or what stands for an argument. -/
abbrev Word (G C : Type) := G ⊕ Key C

def word (g : G) : Key C → Word G C
  | .gf => .inl g
  | key => .inr key

/-- What the slot cache holds: a location, or the name of a slot of a class without a table. -/
inductive Index (N : Type) where
  | location (place : Place)
  | name (name : N)
  deriving DecidableEq

structure ClassRecord (G N : Type) where
  slots : List (SlotLayouts.Slot N)
  locationTable : Bool
  readers : List G
  writers : List G
  stamp : ℕ
  deriving DecidableEq

/-- A class after COMPUTE-SLOTS, with the accessor methods made for its direct slots. -/
structure Finalization (C G N M : Type) where
  cls : C
  slots : List (SlotLayouts.Slot N)
  locationTable : Bool
  readers : List G
  writers : List G
  directReaders : List (G × M)
  directWriters : List (G × M)
  deriving DecidableEq

/-- An accessor call that updates its instance, with the record that it has found. -/
structure Frame (O G : Type) where
  gf : G
  args : List O
  self : O
  record : ℕ
  deriving DecidableEq

/-- What a dispatcher does: it calls the effective method, which is known by the list of the
methods it was computed from and is no-applicable-method for NIL, or accesses a slot; or it updates
an obsolete instance first. -/
inductive Answer (O C N M : Type) where
  | fillError (e : FillError)
  | error (e : Error O C)
  | method (func : Value (List M))
  | noApplicableMethod
  | slot (index : Value (Index N))
  | updateInstance
  deriving DecidableEq

/-- A call with its answer, the answer to the same call with empty caches, and where SLOT-VALUE
finds the slot of the accessor. -/
structure Ran (O C G N M : Type) where
  gf : G
  args : List O
  used : Answer O C N M
  fresh : Option (Answer O C N M)
  slotValue : Option (Index N)
  deriving DecidableEq

structure Ran.Right (r : Ran O C G N M) : Prop where
  fresh : r.fresh = some r.used
  slotValue : ∀ value, r.used = .slot value → ∃ index, value = .object index ∧ r.slotValue = some index

section
variable [DecidableEq C]

/-- changeMethods is an ADD-METHOD or REMOVE-METHOD. A redefinition of c comes with the precedence
lists and the classes that are finalized, c and its subclasses in the order of their accessors.
resume ends the update of an instance by an accessor call, abandon leaves it. -/
inductive Event (im : Image O C N M) (G S : Type) where
  | call (g : G) (args : List O)
  | resume
  | abandon
  | allocate (self : O)
  | makeInstancesObsolete (c : C)
  | changeMethods (g : G) (f : Function im S)
  | redefine (c : C) (hierarchy : Hierarchy im) (finalized : List (Finalization C G N M))

structure System (im : Image O C N M) (G S : Type) where
  hierarchy : Hierarchy im
  classes : C → Option (ClassRecord G N)
  functions : G → Function im S
  stamps : O → Option ℕ
  nextStamp : ℕ
  methodCache : Cache (Word G C) (List M)
  slotCache : Cache (Word G C) (Index N)
  frames : List (Frame O G)
  ran : List (Ran O C G N M)

end

def System.sys [DecidableEq C] (s : System im G S) : ClassSystem O C := s.hierarchy.toClassSystem

def System.emptied [DecidableEq C] (s : System im G S) : System im G S :=
  { s with
    methodCache := makeCache s.methodCache.size
    slotCache := makeCache s.slotCache.size }

section
variable [DecidableEq O] [DecidableEq C] [DecidableEq G] [DecidableEq N] [DecidableEq S]
  [DecidableEq M]

/-- NIL is not stored. -/
def orNil (methods : List M) : Option (List M) := if methods = [] then none else some methods

/-- The lists of methods of restricted_compute_applicable_method and
generic_compute_applicable_method; none is a second value NIL. -/
def System.computeApplicableMethod (s : System im G S) (g : G) (args : List O) :
    Except (Error O C) (Option (List M)) :=
  let f := s.functions g
  let std := (stdComputeApplicableMethods s.sys f.gf args).map orNil
  if f.standardClass then std
  else
    match stdComputeApplicableMethodsUsingClasses s.sys f.gf (args.map s.sys.classOf) with
    | some methods => methods.map some
    | none => std

def methodAnswer : Except (Error O C) (Option (List M)) → Answer O C N M
  | .error e => .error e
  | .ok none => .method .nil
  | .ok (some methods) => .method (.object methods)

def System.discriminate (s : System im G S) (g : G) (args : List O) : Answer O C N M :=
  let f := s.functions g
  let methods :=
    if f.standardClass then stdComputeApplicableMethods s.sys f.gf args
    else genericComputeApplicableMethods s.sys f.gf args
  methodAnswer (methods.map orNil)

/-- _ecl_standard_dispatch. -/
def System.standardDispatch (hash : List (Word G C) → ℕ) (s : System im G S) (g : G)
    (args : List O) : Option (System im G S × Answer O C N M) :=
  match fillSpecVector s.sys (s.functions g).gf 64 args with
  | .error e => some (s, .fillError e)
  | .ok vector => do
    let keys := vector.map (word g)
    let (e, cache) ← s.methodCache.search hash keys
    if (cache.table e).key = none then
      let func := s.computeApplicableMethod g args
      match func with
      | .ok (some methods) =>
        return ({ s with methodCache := cache.store e keys methods }, methodAnswer func)
      | _ => return ({ s with methodCache := cache }, methodAnswer func)
    else return ({ s with methodCache := cache }, .method (cache.table e).value)

/-- What the table of the locations gives for a slot, as SLOT-VALUE finds it; without a table the
slot is accessed by its name. -/
def System.slotLocation (s : System im G S) (c : C) (name : N) : Option (Index N) :=
  (s.classes c).bind fun r =>
    if r.locationTable then (findSlot r.slots name).map fun slotd => .location slotd.place
    else some (.name name)

def System.slotMethodName (s : System im G S) (g : G) (args : List O) :
    Except (Error O C) (Option N) := do
  let methods ← stdComputeApplicableMethods s.sys (s.functions g).gf args
  return methods.head?.bind fun m => (im.methodClass m).slot

/-- none is OBJNULL. -/
def System.slotMethodIndex (s : System im G S) (g : G) (self : O) (args : List O) :
    Except (Error O C) (Option (Index N)) :=
  (s.slotMethodName g args).map fun name => name.bind (s.slotLocation (im.classOf self))

def System.obsolete (s : System im G S) (self : O) : Bool :=
  match s.stamps self, s.classes (im.classOf self) with
  | some stamp, some r => stamp ≠ r.stamp
  | _, _ => false

def System.readIndex (s : System im G S) (e : ℕ) : Answer O C N M := .slot (s.slotCache.table e).value

/-- ensure_up_to_date_instance, and the access by the value of the record. -/
def System.access (s : System im G S) (g : G) (self : O) (args : List O) (e : ℕ) :
    System im G S × Answer O C N M :=
  if s.obsolete self then
    ({ s with
      stamps := Function.update s.stamps self ((s.classes (im.classOf self)).map ClassRecord.stamp)
      frames := ⟨g, args, self, e⟩ :: s.frames }, .updateInstance)
  else (s, s.readIndex e)

def accessorKeys (im : Image O C N M) (g : G) (self : O) : List (Word G C) :=
  [.inl g, .inr (.cls (im.classOf self))]

/-- ecl_slot_reader_dispatch and ecl_slot_writer_dispatch. -/
def System.accessorDispatch (hash : List (Word G C) → ℕ) (s : System im G S) (g : G) (self : O)
    (args : List O) : Option (System im G S × Answer O C N M) :=
  if s.stamps self = none then some (s, .noApplicableMethod)
  else do
    let keys := accessorKeys im g self
    let (e, cache) ← s.slotCache.search hash keys
    let s := { s with slotCache := cache }
    if (cache.table e).key = none then
      match s.slotMethodIndex g self args with
      | .error err => return (s, .error err)
      | .ok none => return (s, .noApplicableMethod)
      | .ok (some index) => do
        -- add_new_index searches again
        let (e, cache) ← cache.search hash keys
        return { s with slotCache := cache.store e keys index }.access g self args e
    else return s.access g self args e

def System.call (hash : List (Word G C) → ℕ) (s : System im G S) (g : G) (args : List O) :
    Option (System im G S × Answer O C N M) :=
  match (s.functions g).dispatch s.sys with
  | .computed => some (s, s.discriminate g args)
  | .generic | .restricted => s.standardDispatch hash g args
  | dispatch =>
    match accessedInstance dispatch args with
    | some self => s.accessorDispatch hash g self args
    | none => some (s, .fillError .wrongNumArguments)

/-- Where SLOT-VALUE finds the slot of an accessor that is called. -/
def System.slotValue (s : System im G S) (g : G) (args : List O) : Option (Index N) := do
  let self ← accessedInstance ((s.functions g).dispatch s.sys) args
  let name ← (s.slotMethodName g args).toOption.join
  s.slotLocation (im.classOf self) name

def System.log (hash : List (Word G C) → ℕ) (s : System im G S) (g : G) (args : List O)
    (used : Answer O C N M) : Ran O C G N M :=
  ⟨g, args, used, (s.emptied.call hash g args).map Prod.snd, s.slotValue g args⟩

/-- FIND-METHOD for a method without qualifiers. -/
def Function.findMethod (f : Function im S) (specializers : List (Specializer O C)) : Option M :=
  f.gf.methods.find? fun m => !im.qualified m && f.gf.specializers m = specializers

def Function.removeMethod (f : Function im S) (m : M) : Function im S where
  gf := { f.gf with
    methods := f.gf.methods.erase m
    methods_nodup := f.gf.methods_nodup.erase m
    congruent := fun m' hm => f.gf.congruent m' (List.mem_of_mem_erase hm) }
  standardClass := f.standardClass
  accessors m' hm := f.accessors m' (List.mem_of_mem_erase hm)

/-- ADD-METHOD of a method that is new; none is an error. -/
def Function.addMethod (f : Function im S) (m : M) (specializers : List (Specializer O C)) :
    Option (Function im S) :=
  let f := (f.findMethod specializers).elim f f.removeMethod
  if h : m ∉ f.gf.methods ∧ (f.gf.specializers m).length = f.gf.required.length ∧
      (im.methodClass m).fits im.t (f.gf.specializers m) = true ∧
      f.gf.specializers m = specializers then
    some {
      gf := { f.gf with
        methods := m :: f.gf.methods
        methods_nodup := List.nodup_cons.mpr ⟨h.1, f.gf.methods_nodup⟩
        congruent := List.forall_mem_cons.mpr ⟨h.2.1, f.gf.congruent⟩ }
      standardClass := f.standardClass
      accessors := List.forall_mem_cons.mpr ⟨h.2.2.1, f.accessors⟩ }
  else none

/-- The methods change, and si_clear_gfun_hash queues the invalidation. -/
def System.change (s : System im G S) (g : G) (f : Function im S) : System im G S :=
  { s with
    functions := Function.update s.functions g f
    methodCache := s.methodCache.removeOne (.inl g)
    slotCache := s.slotCache.removeOne (.inl g) }

def readerSpecializers (c : C) : List (Specializer O C) := [.cls c]

def writerSpecializers (im : Image O C N M) (c : C) : List (Specializer O C) := [.cls im.t, .cls c]

def System.removeAccessor (specializers : List (Specializer O C)) (s : System im G S) (g : G) :
    System im G S :=
  match (s.functions g).findMethod specializers with
  | some m => s.change g ((s.functions g).removeMethod m)
  | none => s

/-- remove-optional-slot-accessors of a class that has been finalized. -/
def System.removeOptionalSlotAccessors (s : System im G S) (c : C) : System im G S :=
  match s.classes c with
  | none => s
  | some r =>
    r.writers.foldl (System.removeAccessor (writerSpecializers im c))
      (r.readers.foldl (System.removeAccessor (readerSpecializers c)) s)

/-- The slots, and a new stamp for a class that had none or whose slots are not compatible. -/
def System.finalizeInheritance (s : System im G S) (f : Finalization C G N M) : System im G S :=
  let record stamp := some ⟨f.slots, f.locationTable, f.readers, f.writers, stamp⟩
  let fresh : System im G S := { s with
    classes := Function.update s.classes f.cls (record s.nextStamp)
    nextStamp := s.nextStamp + 1 }
  match s.classes f.cls with
  | none => fresh
  | some r =>
    if slotDefinitionsCompatibleP r.slots f.slots then
      { s with classes := Function.update s.classes f.cls (record r.stamp) }
    else fresh

def System.addAccessor (specializers : List (Specializer O C)) (s : System im G S) (p : G × M) :
    Option (System im G S) :=
  ((s.functions p.1).addMethod p.2 specializers).map (s.change p.1)

/-- std-class-generate-accessors. -/
def System.generateAccessors (s : System im G S) (f : Finalization C G N M) :
    Option (System im G S) := do
  let s ← f.directReaders.foldlM (System.addAccessor (readerSpecializers f.cls)) s
  f.directWriters.foldlM (System.addAccessor (writerSpecializers im f.cls)) s

def System.redefine (s : System im G S) (c : C) (hierarchy : Hierarchy im)
    (finalized : List (Finalization C G N M)) : Option (System im G S) :=
  let s := { s.removeOptionalSlotAccessors c with hierarchy := hierarchy }
  finalized.foldlM System.generateAccessors (finalized.foldl System.finalizeInheritance s)

def System.next (hash : List (Word G C) → ℕ) (s : System im G S) :
    Event im G S → Option (System im G S)
  | .call g args => do
    let (s', answer) ← s.call hash g args
    if answer = .updateInstance then return s'
    else return { s' with ran := s.log hash g args answer :: s.ran }
  | .resume =>
    match s.frames with
    | [] => none
    | f :: frames =>
      some { s with
        frames := frames
        ran := s.log hash f.gf f.args (s.readIndex f.record) :: s.ran }
  | .abandon =>
    match s.frames with
    | [] => none
    | _ :: frames => some { s with frames := frames }
  | .allocate self => do
    let r ← s.classes (im.classOf self)
    return { s with stamps := Function.update s.stamps self (some r.stamp) }
  | .makeInstancesObsolete c => do
    let r ← s.classes c
    return { s with
      classes := Function.update s.classes c (some { r with stamp := s.nextStamp })
      nextStamp := s.nextStamp + 1 }
  | .changeMethods g f => some (s.change g f)
  | .redefine c hierarchy finalized => s.redefine c hierarchy finalized

def Live {V : Type} (c : Cache (Word G C) V) (keys : List (Word G C)) : Prop :=
  ∃ i, (c.table i).key = some keys ∧ ∀ k ∈ keys.head?, k ∉ c.clearList

structure System.Unaffected (s s' : System im G S) : Prop where
  methods : ∀ g args vector, fillSpecVector s.sys (s.functions g).gf 64 args = .ok vector →
    Live s'.methodCache (vector.map (word g)) →
    s'.computeApplicableMethod g args = s.computeApplicableMethod g args
  slots : ∀ g args self, accessedInstance ((s.functions g).dispatch s.sys) args = some self →
    Live s'.slotCache (accessorKeys im g self) →
    s'.slotMethodIndex g self args = s.slotMethodIndex g self args

/-- A function of another class than STANDARD-GENERIC-FUNCTION that has no methods is called with
its required arguments, unless these are in argument precedence order. -/
def System.Suits (s : System im G S) (g : G) (args : List O) : Prop :=
  (s.functions g).standardClass = false → (s.functions g).gf.methods = [] →
    (s.functions g).gf.argumentPrecedenceOrder = (s.functions g).gf.required ∨
      (s.functions g).gf.required.length ≤ args.length

/-- A redefinition leaves what the caches keep unaffected. When an accessor call resumes, the record
that it has found still has its keys and is not about to be forgotten, and the function has not
become an accessor of another kind nor the instance obsolete again. -/
def System.Ok (s : System im G S) : Event im G S → Prop
  | .call g args => s.Suits g args
  | .redefine c hierarchy finalized =>
    ∀ s', s.redefine c hierarchy finalized = some s' → s.Unaffected s'
  | .resume => ∀ f ∈ s.frames.head?,
    (s.slotCache.table f.record).key = some (accessorKeys im f.gf f.self) ∧
      .inl f.gf ∉ s.slotCache.clearList ∧
      accessedInstance ((s.functions f.gf).dispatch s.sys) f.args = some f.self ∧
      s.obsolete f.self = false
  | _ => True

structure System.Starts (s : System im G S) : Prop where
  methodCache : s.methodCache = makeCache s.methodCache.size
  slotCache : s.slotCache = makeCache s.slotCache.size
  frames : s.frames = []
  ran : s.ran = []

end

end DispatchCaches

namespace DispatchCaches

open GenericFunctions DispatchKeys

variable {O C G N S M : Type} {im : Image O C N M}

section
variable [DecidableEq C] {sys sys' : ClassSystem O C}

theorem computeSpecList_congr (ht : sys.t = sys'.t) (gf : GenericFunction O C S M) :
    computeSpecList sys gf = computeSpecList sys' gf := by
  have hmake : ArgProfile.make sys = ArgProfile.make sys' := by
    funext spec
    cases spec with
    | eql object => rfl
    | cls c => simp only [ArgProfile.make, ht]
  have hupdate : ArgProfile.update sys = ArgProfile.update sys' := by
    funext p spec
    cases spec with
    | eql object => rfl
    | cls c => simp only [ArgProfile.update, ht]
  have heach : ∀ (profile : List (ArgProfile O)) (specs : List (Specializer O C)),
      updateEach sys profile specs = updateEach sys' profile specs := by
    intro profile
    induction profile with
    | nil => exact fun specs => by cases specs <;> rfl
    | cons p profile ih =>
      intro specs
      cases specs with
      | nil => rfl
      | cons spec specs => simp only [updateEach, hupdate, ih]
  simp only [computeSpecList, nupdateProfile, hmake, heach]

theorem fillSpecVector_congr [DecidableEq O] (hc : sys.classOf = sys'.classOf) (ht : sys.t = sys'.t)
    (gf : GenericFunction O C S M) (dim : ℕ) (args : List O) :
    fillSpecVector sys gf dim args = fillSpecVector sys' gf dim args := by
  have hfill : ∀ (profile : List (ArgProfile O)) (args : List O) (specNo : ℕ),
      fillSpecs sys dim specNo profile args = fillSpecs sys' dim specNo profile args := by
    intro profile
    induction profile with
    | nil => exact fun args specNo => by cases args <;> rfl
    | cons p profile ih =>
      intro args specNo
      cases args with
      | nil => rfl
      | cons arg args => simp only [fillSpecs, hc, ih]
  simp only [fillSpecVector, hfill, computeSpecList_congr ht]

theorem Hierarchy.fill_congr [DecidableEq O] (h h' : Hierarchy im) (gf : GenericFunction O C S M) (dim : ℕ)
    (args : List O) :
    fillSpecVector h.toClassSystem gf dim args = fillSpecVector h'.toClassSystem gf dim args :=
  fillSpecVector_congr (h.classOf_eq.trans h'.classOf_eq.symm) (h.t_eq.trans h'.t_eq.symm) gf dim args

theorem Hierarchy.dispatch_congr (h h' : Hierarchy im) (f : Function im S) :
    f.dispatch h.toClassSystem = f.dispatch h'.toClassSystem := by
  simp only [Function.dispatch, computeSpecList_congr (h.t_eq.trans h'.t_eq.symm)]

end

section
variable [DecidableEq C]

structure Changed (s s' : System im G S) : Prop where
  methodTable : s'.methodCache.table = s.methodCache.table
  slotTable : s'.slotCache.table = s.slotCache.table
  methodList : ∀ k ∈ s.methodCache.clearList, k ∈ s'.methodCache.clearList
  slotList : ∀ k ∈ s.slotCache.clearList, k ∈ s'.slotCache.clearList
  functions : ∀ g, .inl g ∉ s'.methodCache.clearList ∨ .inl g ∉ s'.slotCache.clearList →
    s'.functions g = s.functions g
  stamps : s'.stamps = s.stamps
  frames : s'.frames = s.frames
  ran : s'.ran = s.ran

theorem Changed.refl (s : System im G S) : Changed s s :=
  ⟨rfl, rfl, fun _ hk => hk, fun _ hk => hk, fun _ _ => rfl, rfl, rfl, rfl⟩

theorem Changed.trans {s s' s'' : System im G S} (h : Changed s s') (h' : Changed s' s'') :
    Changed s s'' where
  methodTable := h'.methodTable.trans h.methodTable
  slotTable := h'.slotTable.trans h.slotTable
  methodList k hk := h'.methodList k (h.methodList k hk)
  slotList k hk := h'.slotList k (h.slotList k hk)
  functions g hg := by
    apply (h'.functions g hg).trans
    apply h.functions g
    exact hg.imp (fun hm hin => hm (h'.methodList _ hin)) fun hm hin => hm (h'.slotList _ hin)
  stamps := h'.stamps.trans h.stamps
  frames := h'.frames.trans h.frames
  ran := h'.ran.trans h.ran

theorem changed_change [DecidableEq G] (s : System im G S) (g : G) (f : Function im S) : Changed s (s.change g f) where
  methodTable := rfl
  slotTable := rfl
  methodList _ hk := List.mem_cons_of_mem _ hk
  slotList _ hk := List.mem_cons_of_mem _ hk
  functions g' hg := by
    apply Function.update_of_ne
    rintro rfl
    exact hg.elim (fun hm => hm List.mem_cons_self) fun hm => hm List.mem_cons_self
  stamps := rfl
  frames := rfl
  ran := rfl

theorem foldl_changed {α : Type} {f : System im G S → α → System im G S}
    (hf : ∀ s a, Changed s (f s a)) (l : List α) (s : System im G S) : Changed s (l.foldl f s) := by
  induction l generalizing s with
  | nil => exact Changed.refl s
  | cons a l ih => exact (hf s a).trans (ih (f s a))

theorem foldlM_changed {α : Type} {f : System im G S → α → Option (System im G S)}
    (hf : ∀ s a s', f s a = some s' → Changed s s') {l : List α} {s s' : System im G S}
    (h : l.foldlM f s = some s') : Changed s s' := by
  induction l generalizing s with
  | nil => exact Option.some.inj h ▸ Changed.refl s
  | cons a l ih =>
    obtain ⟨u, hu, hrest⟩ := Option.bind_eq_some_iff.mp h
    exact (hf s a u hu).trans (ih hrest)

end

variable [DecidableEq O] [DecidableEq C] [DecidableEq G] [DecidableEq N] [DecidableEq S]
  [DecidableEq M]

omit [DecidableEq N] [DecidableEq S] in
theorem removeOptionalSlotAccessors_changed (s : System im G S) (c : C) :
    Changed s (s.removeOptionalSlotAccessors c) := by
  have hremove : ∀ specs (s : System im G S) g, Changed s (System.removeAccessor specs s g) := by
    intro specs s g
    unfold System.removeAccessor
    cases (s.functions g).findMethod specs with
    | none => exact Changed.refl s
    | some m => exact changed_change s g _
  unfold System.removeOptionalSlotAccessors
  cases s.classes c with
  | none => exact Changed.refl s
  | some r => exact (foldl_changed (hremove _) r.readers s).trans (foldl_changed (hremove _) r.writers _)

omit [DecidableEq N] [DecidableEq S] in
theorem generateAccessors_changed {s s' : System im G S} {f : Finalization C G N M}
    (h : s.generateAccessors f = some s') : Changed s s' := by
  have hadd : ∀ specs (s : System im G S) p s', System.addAccessor specs s p = some s' →
      Changed s s' := by
    intro specs s p s' h
    obtain ⟨g, -, rfl⟩ := Option.map_eq_some_iff.mp h
    exact changed_change s p.1 g
  obtain ⟨u, hu, hrest⟩ := Option.bind_eq_some_iff.mp h
  exact (foldlM_changed (hadd _) hu).trans (foldlM_changed (hadd _) hrest)

omit [DecidableEq O] [DecidableEq G] [DecidableEq S] [DecidableEq M] in
theorem finalizeInheritance_changed (s : System im G S) (f : Finalization C G N M) :
    Changed s (s.finalizeInheritance f) := by
  unfold System.finalizeInheritance
  cases s.classes f.cls with
  | none => exact { Changed.refl s with }
  | some r =>
    simp only
    split
    · exact { Changed.refl s with }
    · exact { Changed.refl s with }

omit [DecidableEq S] in
theorem redefine_changed {s s' : System im G S} {c : C} {hierarchy : Hierarchy im}
    {finalized : List (Finalization C G N M)} (h : s.redefine c hierarchy finalized = some s') :
    Changed s s' := by
  have hremove : Changed s { s.removeOptionalSlotAccessors c with hierarchy := hierarchy } :=
    { removeOptionalSlotAccessors_changed s c with }
  apply hremove.trans
  apply (foldl_changed finalizeInheritance_changed finalized _).trans
  exact foldlM_changed (fun _ _ _ => generateAccessors_changed) h

end DispatchCaches
