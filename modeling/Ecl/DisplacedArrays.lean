import Ecl.ArrayBounds

/-! Displaced arrays of src/c/array.d: ecl_displace, cl_array_displacement and
si_replace_array on a heap of arrays. Foreign data to displace to is left out. -/
namespace DisplacedArrays

open ArrayBounds (ElementType)

inductive ArrayType where
  | array | vector | bitvector | string | baseString
  deriving DecidableEq

/-- A place in the storage that was allocated for one of the arrays, counted in elements. For
a bit array it is the pointer together with the offset field. -/
structure Pointer where
  block : ℕ
  index : ℕ
  deriving DecidableEq

/-- What the arguments of make-array say about an array. -/
structure Shape where
  type : ArrayType
  elttype : ElementType
  rank : ℕ
  dims : List ℕ
  dim : ℕ
  fillp : ℕ
  hasFillPointer : Bool
  adjustable : Bool
  deriving DecidableEq

structure ArrayObject extends Shape where
  displaced : Option ℕ
  self : Pointer
  deriving DecidableEq

/-- The cons in a displaced field: the array displaced to, and the arrays displaced to this
one. Only its cdr is ever replaced. -/
structure Cell where
  car : Option ℕ
  cdr : List ℕ
  deriving DecidableEq

/-- Arrays and conses are numbered in the order in which they are made. -/
structure Heap (V : Type) where
  arrays : ℕ → ArrayObject
  made : ℕ
  cells : ℕ → Cell
  cellsMade : ℕ
  storage : ℕ → ℕ → V

inductive ArrayError where
  | displacedIndexOffset (offset : ℤ)
  | displacedElementType
  | displacedTotalSize
  | cannotReplace (olda newa : ℕ)
  | notAdjustable
  | fillPointer (fillp : ℕ)
  | outOfBounds (index : ℕ) (a : ℕ)
  | elementType
  deriving DecidableEq

variable {V : Type}

/-- The first element of the pair in the displaced field. -/
def target (h : Heap V) (a : ℕ) : Option ℕ :=
  (h.arrays a).displaced.bind fun c => (h.cells c).car

/-- CDR of the displaced field. -/
def dependents (h : Heap V) (a : ℕ) : List ℕ :=
  match (h.arrays a).displaced with
  | none => []
  | some c => (h.cells c).cdr

/-- The difference of two pointers; apart says how the blocks lie in memory. -/
def pointerDifference (apart : ℕ → ℕ → ℤ) (p q : Pointer) : ℤ :=
  (if p.block = q.block then 0 else apart p.block q.block) + p.index - q.index

def clArrayDisplacement (apart : ℕ → ℕ → ℤ) (h : Heap V) (a : ℕ) : Option ℕ × ℤ :=
  match target h a with
  | none => (none, 0)
  | some t => (some t, pointerDifference apart (h.arrays a).self (h.arrays t).self)

/-- A new cons in the displaced field of an array. -/
def consDisplaced (h : Heap V) (a : ℕ) (car : Option ℕ) : Heap V :=
  { h with
    arrays := Function.update h.arrays a { h.arrays a with displaced := some h.cellsMade }
    cells := Function.update h.cells h.cellsMade ⟨car, []⟩
    cellsMade := h.cellsMade + 1 }

def track (h : Heap V) (a other : ℕ) : Heap V :=
  if (h.arrays a).adjustable then
    let h := if (h.arrays a).displaced = none then consDisplaced h a none else h
    match (h.arrays a).displaced with
    | none => h
    | some c => { h with
        cells := Function.update h.cells c ⟨(h.cells c).car, other :: (h.cells c).cdr⟩ }
  else h

def setSelf (h : Heap V) (a : ℕ) (p : Pointer) : Heap V :=
  { h with arrays := Function.update h.arrays a { h.arrays a with self := p } }

/-- ecl_displace; an offset that is no fixnum is as wrong as a negative one. -/
def eclDisplace (h : Heap V) (fromArray toArray : ℕ) (offset : ℤ) :
    Except ArrayError (Heap V) :=
  let maxdim : ℤ := (h.arrays toArray).dim - (h.arrays fromArray).dim
  if offset < 0 then .error (.displacedIndexOffset offset)
  else if (h.arrays toArray).elttype ≠ (h.arrays fromArray).elttype then
    .error .displacedElementType
  else if maxdim < 0 then .error .displacedTotalSize
  else if maxdim < offset then .error (.displacedIndexOffset offset)
  else
    let h := track (consDisplaced h fromArray (some toArray)) toArray fromArray
    let base := (h.arrays toArray).self
    .ok (setSelf h fromArray ⟨base.block, base.index + offset.toNat⟩)

/-- The loop of si_replace_array; an error leaves what it has done. -/
def redisplace (apart : ℕ → ℕ → ℤ) (newa : ℕ) :
    List ℕ → Heap V → Except ArrayError Unit × Heap V
  | [], h => (.ok (), h)
  | other :: dlist, h =>
    match eclDisplace h other newa (clArrayDisplacement apart h other).2 with
    | .error e => (.error e, h)
    | .ok h => redisplace apart newa dlist h

def siReplaceArray (apart : ℕ → ℕ → ℤ) (h : Heap V) (olda newa : ℕ) :
    Except ArrayError ℕ × Heap V :=
  if (h.arrays olda).type ≠ (h.arrays newa).type ∨
      (h.arrays olda).type = .array ∧ (h.arrays olda).rank ≠ (h.arrays newa).rank then
    (.error (.cannotReplace olda newa), h)
  else if (h.arrays olda).adjustable = false then (.ok newa, h)
  else match redisplace apart newa (dependents h olda) h with
    | (.error e, h) => (.error e, h)
    | (.ok _, h) => (.ok olda, { h with
        arrays := Function.update h.arrays olda (h.arrays newa) })

/-- si_make_vector and si_make_pure_array, for arguments that they accept. New storage has
the contents that the allocator, or the caller, gives it. -/
def siMakeArray (h : Heap V) (shape : Shape) (displaced : Option (ℕ × ℤ)) (contents : ℕ → V) :
    Except ArrayError ℕ × Heap V :=
  let x := h.made
  let h₁ := { h with
    arrays := Function.update h.arrays x ⟨shape, none, ⟨x, 0⟩⟩
    made := x + 1 }
  match displaced with
  | none => (.ok x, { h₁ with storage := Function.update h.storage x contents })
  | some (to_, offset) =>
    match eclDisplace h₁ x to_ offset with
    | .error e => (.error e, h)
    | .ok h => (.ok x, h)

/-- adjust-array: the new array is made adjustable, with the contents of the old one. -/
def adjustArray (apart : ℕ → ℕ → ℤ) (h : Heap V) (array : ℕ) (shape : Shape)
    (displaced : Option (ℕ × ℤ)) (contents : ℕ → V) : Except ArrayError ℕ × Heap V :=
  match siMakeArray h { shape with adjustable := true } displaced contents with
  | (.error e, h) => (.error e, h)
  | (.ok x, h) => siReplaceArray apart h array x

def siAdjustVector (apart : ℕ → ℕ → ℤ) (h : Heap V) (vector newDim : ℕ) (contents : ℕ → V) :
    Except ArrayError ℕ × Heap V :=
  let v := h.arrays vector
  if v.adjustable = false then (.error .notAdjustable, h)
  else if newDim < v.fillp then (.error (.fillPointer v.fillp), h)
  else
    let copied := fun i =>
      if i < newDim ∧ i < v.dim then h.storage v.self.block (v.self.index + i) else contents i
    adjustArray apart h vector
      { v.toShape with dims := [newDim], dim := newDim, hasFillPointer := true } none copied

/-- ecl_aref of the element with row-major index i. -/
def aref (h : Heap V) (a i : ℕ) : Except ArrayError V :=
  let x := h.arrays a
  if x.dim ≤ i then .error (.outOfBounds i a)
  else .ok (h.storage x.self.block (x.self.index + i))

/-- ecl_aset; toElement is what ecl_aset_unsafe makes of a value for an element type. -/
def aset (toElement : ElementType → V → Option V) (h : Heap V) (a i : ℕ) (value : V) :
    Except ArrayError (Heap V) :=
  let x := h.arrays a
  if x.dim ≤ i then .error (.outOfBounds i a)
  else match toElement x.elttype value with
    | none => .error .elementType
    | some v =>
      let block := Function.update (h.storage x.self.block) (x.self.index + i) v
      .ok { h with storage := Function.update h.storage x.self.block block }

inductive Op (V : Type) where
  | make (shape : Shape) (displaced : Option (ℕ × ℤ)) (contents : ℕ → V)
  | replace (olda newa : ℕ)
  | aset (a i : ℕ) (value : V)

def step (apart : ℕ → ℕ → ℤ) (toElement : ElementType → V → Option V) (h : Heap V) :
    Op V → Heap V
  | .make shape displaced contents => (siMakeArray h shape displaced contents).2
  | .replace olda newa => (siReplaceArray apart h olda newa).2
  | .aset a i value => match aset toElement h a i value with
    | .error _ => h
    | .ok h => h

def Op.Names (h : Heap V) : Op V → Prop
  | .make _ none _ => True
  | .make _ (some p) _ => p.1 < h.made
  | .replace olda newa => olda < h.made ∧ newa < h.made
  | .aset a _ _ => a < h.made

instance (h : Heap V) (op : Op V) : Decidable (op.Names h) :=
  match op with
  | .make _ none _ => inferInstanceAs (Decidable True)
  | .make _ (some p) _ => inferInstanceAs (Decidable (p.1 < h.made))
  | .replace olda newa => inferInstanceAs (Decidable (olda < h.made ∧ newa < h.made))
  | .aset a _ _ => inferInstanceAs (Decidable (a < h.made))

def emptyHeap (contents : ℕ → ℕ → V) : Heap V where
  arrays _ := ⟨⟨.vector, .object, 1, [0], 0, 0, false, false⟩, none, ⟨0, 0⟩⟩
  made := 0
  cells _ := ⟨none, []⟩
  cellsMade := 0
  storage := contents

/-- The heaps that operations lead to, each meeting a condition on the heap before it. -/
inductive Reached (apart : ℕ → ℕ → ℤ) (toElement : ElementType → V → Option V)
    (meets : Heap V → Op V → Prop) : Heap V → Prop where
  | start (contents : ℕ → ℕ → V) : Reached apart toElement meets (emptyHeap contents)
  | step {h : Heap V} {op : Op V} : Reached apart toElement meets h → op.Names h → meets h op →
      Reached apart toElement meets (step apart toElement h op)

end DisplacedArrays
