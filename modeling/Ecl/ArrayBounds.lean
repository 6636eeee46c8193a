import Ecl.Integers
import Ecl.MixedRadix
import Mathlib.Data.BitVec

/-! The size of the arrays made by si_make_pure_array and the subscripts taken by aref and
si_aset in src/c/array.d. A cl_index has 64 bits. -/
namespace ArrayBounds

open Integers MixedRadix

/-- ecl_aet_object and so on. -/
inductive ElementType where
  | object | sf | df | lf | csf | cdf | clf | bit | fix | index | b8 | i8 | b16 | i16 | b32 | i32
  | b64 | i64 | ch | bc
  deriving DecidableEq

def aetSize : ElementType → ℕ
  | .object => 8
  | .sf => 4
  | .df => 8
  | .lf => 16
  | .csf => 8
  | .cdf => 16
  | .clf => 32
  | .bit => 0
  | .fix => 8
  | .index => 8
  | .b8 | .i8 => 1
  | .b16 | .i16 => 2
  | .b32 | .i32 => 4
  | .b64 | .i64 => 8
  | .ch => 4
  | .bc => 1

def arrayRankLimit : ℕ := 64
def arrayDimensionLimit : ℕ := 2 ^ 61 - 1
def arrayTotalLimit : ℕ := 2 ^ 61 - 1

inductive Index where
  | fixnum (n : Fixnum)
  | other
  deriving DecidableEq

inductive Dimensions where
  | fixnum (n : Fixnum)
  | list (dims : List Index)
  | other
  deriving DecidableEq

inductive FillPointer where
  | nil
  | t
  | index (i : Index)
  deriving DecidableEq

/-- The array, with its total size, or the foreign data that the elements are taken from. -/
inductive DisplacedTo where
  | array (elttype : ElementType) (dim : ℕ)
  | foreign
  deriving DecidableEq

inductive Accessor where
  | aref
  | siAset
  deriving DecidableEq

inductive ArrayError where
  | dimensions
  | rank (r : ℕ)
  | fillPointerOfRank (r : ℕ)
  | dimension (d : Index)
  | totalSize (s : ℕ)
  | fillPointer (f : Index)
  | displacedIndexOffset (offset : Index)
  | displacedElementType
  | displacedTotalSize
  | displacedForeign
  | storageExhausted
  | numberOfIndices
  | index (f : Accessor) (which : ℤ) (i : Index) (nonincLimit : ℕ)
  deriving DecidableEq

/-- Where the elements are: in memory of their own, or from an offset on in something else. -/
inductive Storage where
  | self (bytes : ℕ)
  | displaced (offset dim : ℕ)
  | foreign (offset : ℕ)
  deriving DecidableEq

/-- A t_array, or one of the vector types, whose single dimension is its total size. -/
structure LispArray where
  elttype : ElementType
  isVector : Bool
  dims : List ℕ
  dim : ℕ
  adjustable : Bool
  fillp : Option ℕ
  self : Storage
  deriving DecidableEq

/-- The bytes ecl_array_allocself asks for, which wrap around. -/
def selfBytes (t : ElementType) (d : ℕ) : ℕ :=
  match t with
  | .bc => (d + 1) % 2 ^ 64
  | .bit => (d + 7) % 2 ^ 64 / 8
  | t => d * aetSize t % 2 ^ 64

def arrayAllocself (heap : ℕ) (t : ElementType) (d : ℕ) : Except ArrayError Storage :=
  if selfBytes t d ≤ heap then .ok (.self (selfBytes t d)) else .error .storageExhausted

def displace (fromtype : ElementType) (dim : ℕ) (displ : DisplacedTo) (offset : Index) :
    Except ArrayError Storage :=
  match offset with
  | .other => .error (.displacedIndexOffset .other)
  | .fixnum j =>
    if j.toInt < 0 then .error (.displacedIndexOffset (.fixnum j))
    else match displ with
      | .foreign =>
        if fromtype = .bit ∨ fromtype = .object then .error .displacedForeign
        else .ok (.foreign j.toInt.toNat)
      | .array totype todim =>
        if totype ≠ fromtype then .error .displacedElementType
        else if (todim : ℤ) - dim < 0 then .error .displacedTotalSize
        else if j.toInt > todim - dim then .error (.displacedIndexOffset (.fixnum j))
        else .ok (.displaced j.toInt.toNat todim)

def makeSelf (heap : ℕ) (t : ElementType) (d : ℕ) (displ : Option DisplacedTo) (disploff : Index) :
    Except ArrayError Storage :=
  match displ with
  | none => arrayAllocself heap t d
  | some displ => displace t d displ disploff

def vectorFillPointer (d : ℕ) : FillPointer → Except ArrayError (Option ℕ)
  | .nil => .ok none
  | .t => .ok (some d)
  | .index (.fixnum f) =>
    if 0 ≤ f.toInt ∧ f.toInt ≤ d then .ok (some f.toInt.toNat)
    else .error (.fillPointer (.fixnum f))
  | .index .other => .error (.fillPointer .other)

/-- The dimension, a fixnum with two tag bits, is compared with the limit itself. -/
def siMakeVector (heap : ℕ) (etype : ElementType) (dim : Index) (adj : Bool) (fillp : FillPointer)
    (displ : Option DisplacedTo) (disploff : Index) : Except ArrayError LispArray :=
  match dim with
  | .other => .error (.dimension .other)
  | .fixnum n =>
    if n.toInt < 0 ∨ 4 * n.toInt + 3 > arrayDimensionLimit then .error (.dimension (.fixnum n))
    else do
      let d := n.toInt.toNat
      let f ← vectorFillPointer d fillp
      let self ← makeSelf heap etype d displ disploff
      return ⟨etype, true, [d], d, adj, f, self⟩

/-- The loop over the dimensions: the dimensions and their product, which wraps around. -/
def dimsLoop : List Index → ℕ → Except ArrayError (List ℕ × ℕ)
  | [], s => .ok ([], s)
  | .other :: _, _ => .error (.dimension .other)
  | .fixnum n :: dims, s =>
    if n.toInt < 0 ∨ n.toInt > arrayDimensionLimit then .error (.dimension (.fixnum n))
    else if s * n.toInt.toNat % 2 ^ 64 > arrayTotalLimit then
      .error (.totalSize (s * n.toInt.toNat % 2 ^ 64))
    else do
      let (rest, total) ← dimsLoop dims (s * n.toInt.toNat % 2 ^ 64)
      return (n.toInt.toNat :: rest, total)

def siMakePureArray (heap : ℕ) (etype : ElementType) (dims : Dimensions) (adj : Bool)
    (fillp : FillPointer) (displ : Option DisplacedTo) (disploff : Index) : Except ArrayError LispArray :=
  match dims with
  | .fixnum n => siMakeVector heap etype (.fixnum n) adj fillp displ disploff
  | .other => .error .dimensions
  | .list [d] => siMakeVector heap etype d adj fillp displ disploff
  | .list ds =>
    if ds.length ≥ arrayRankLimit then .error (.rank ds.length)
    else if fillp ≠ .nil then .error (.fillPointerOfRank ds.length)
    else do
      let (dims, s) ← dimsLoop ds 1
      let self ← makeSelf heap etype s displ disploff
      return ⟨etype, false, dims, s, adj, none, self⟩

def checkedIndex (f : Accessor) (which : ℤ) (index : Index) (nonincLimit : ℕ) : Except ArrayError ℕ :=
  match index with
  | .other => .error (.index f which .other nonincLimit)
  | .fixnum n =>
    if n.toInt < 0 ∨ n.toInt.toNat ≥ nonincLimit then .error (.index f which (.fixnum n) nonincLimit)
    else .ok n.toInt.toNat

def indexLoop (f : Accessor) : ℤ → List ℕ → List Index → ℕ → Except ArrayError ℕ
  | i, d :: dims, index :: rest, j => do
    let s ← checkedIndex f i index d
    indexLoop f (i + 1) dims rest ((j * d + s) % 2 ^ 64)
  | _, _, _, j => .ok j

/-- The row-major index that aref and si_aset make of the subscripts. -/
def subscriptsIndex (f : Accessor) (x : LispArray) (indx : List Index) : Except ArrayError ℕ :=
  if x.isVector then
    match indx with
    | [i] => checkedIndex f (-1) i x.dim
    | _ => .error .numberOfIndices
  else if indx.length ≠ x.dims.length then .error .numberOfIndices
  else indexLoop f 0 x.dims indx 0

def Index.nat : Index → ℕ
  | .fixnum n => n.toInt.toNat
  | .other => 0

def Index.Valid (i : Index) : Prop := ∃ n, i = .fixnum n ∧ 0 ≤ n.toInt

def Dimensions.bases : Dimensions → List ℕ
  | .fixnum n => [n.toInt.toNat]
  | .list dims => dims.map Index.nat
  | .other => []

/-- The element lies in the memory that was allocated, or in the array that it is taken from.
Foreign data has no known end. -/
def Storage.Holds (t : ElementType) : Storage → ℕ → Prop
  | .self bytes, j => if t = .bit then j < 8 * bytes else (j + 1) * aetSize t ≤ bytes
  | .displaced offset dim, j => offset + j < dim
  | .foreign _, _ => True

structure WithinBounds (x : LispArray) (bases : List ℕ) : Prop where
  dims : x.dims = bases
  dim : x.dim = bases.prod
  index : ∀ f indx j, subscriptsIndex f x indx = .ok j →
    j = evaluate bases (indx.map Index.nat) 0 ∧ j < x.dim
  distinct : ∀ f f' indx indx' j, subscriptsIndex f x indx = .ok j →
    subscriptsIndex f' x indx' = .ok j → indx = indx'
  stored : ∀ f indx j, subscriptsIndex f x indx = .ok j → x.self.Holds x.elttype j

theorem Index.Valid.nat_inj {i i' : Index} (h : i.Valid) (h' : i'.Valid) (heq : i.nat = i'.nat) :
    i = i' := by
  obtain ⟨n, rfl, hn⟩ := h
  obtain ⟨n', rfl, hn'⟩ := h'
  simp only [Index.nat] at heq
  rw [BitVec.eq_of_toInt_eq (show n.toInt = n'.toInt by omega)]

theorem map_nat_inj {l l' : List Index} (h : ∀ i ∈ l, i.Valid) (h' : ∀ i ∈ l', i.Valid)
    (heq : l.map Index.nat = l'.map Index.nat) : l = l' := by
  induction l generalizing l' with
  | nil => exact (List.map_eq_nil_iff.mp heq.symm).symm
  | cons i l ih =>
    cases l' with
    | nil => exact absurd heq (by simp)
    | cons i' l' =>
      rw [List.map_cons, List.map_cons, List.cons.injEq] at heq
      rw [List.forall_mem_cons] at h h'
      rw [h.1.nat_inj h'.1 heq.1, ih h.2 h'.2 heq.2]

theorem checkedIndex_iff {f : Accessor} {which : ℤ} {i : Index} {limit s : ℕ} :
    checkedIndex f which i limit = .ok s ↔ i.Valid ∧ i.nat < limit ∧ s = i.nat := by
  cases i with
  | other => simp [checkedIndex, Index.Valid]
  | fixnum n =>
    simp only [checkedIndex, Index.nat]
    split
    · next h =>
      constructor
      · intro h'
        exact absurd h' (by simp)
      · rintro ⟨⟨n', hn', hpos⟩, hlt, -⟩
        obtain rfl := Index.fixnum.inj hn'
        omega
    · next h =>
      rw [Except.ok.injEq]
      exact ⟨fun h' => ⟨⟨n, rfl, by omega⟩, by omega, h'.symm⟩, fun h' => h'.2.2.symm⟩

/-- The loop takes the digits of a number and computes it modulo the size of a word. -/
theorem indexLoop_iff {f : Accessor} {which : ℤ} {dims : List ℕ} {indx : List Index} {j r : ℕ}
    (hlen : indx.length = dims.length) (hj : j < 2 ^ 64) :
    indexLoop f which dims indx j = .ok r ↔ (∀ i ∈ indx, i.Valid) ∧
      Digits (indx.map Index.nat) dims ∧ r = evaluate dims (indx.map Index.nat) j % 2 ^ 64 := by
  induction dims generalizing which indx j with
  | nil =>
    obtain rfl := List.length_eq_zero_iff.mp hlen
    simp only [indexLoop, Except.ok.injEq, List.map_nil, evaluate, Nat.mod_eq_of_lt hj]
    exact ⟨fun h => ⟨by simp, List.Forall₂.nil, h.symm⟩, fun h => h.2.2.symm⟩
  | cons d dims ih =>
    obtain ⟨i, rest, rfl⟩ := List.exists_cons_of_length_eq_add_one hlen
    have hrest : rest.length = dims.length := by simpa using hlen
    have hmod (h : Digits (rest.map Index.nat) dims) (s : ℕ) :
        evaluate dims (rest.map Index.nat) ((j * d + s) % 2 ^ 64) % 2 ^ 64 =
          evaluate dims (rest.map Index.nat) (j * d + s) % 2 ^ 64 := by
      rw [evaluate_add h, evaluate_add h (j * d + s)]
      exact ((Nat.mod_modEq _ _).mul_right _).add_right _
    rw [indexLoop, List.map_cons, evaluate, List.forall_mem_cons, Digits, List.forall₂_cons]
    constructor
    · intro h
      cases hs : checkedIndex f which i d with
      | error e =>
        rw [hs] at h
        cases h
      | ok s =>
        obtain ⟨hvalid, hlt, rfl⟩ := checkedIndex_iff.mp hs
        rw [hs] at h
        obtain ⟨hall, hdigits, hr⟩ := (ih hrest (Nat.mod_lt _ (by decide))).mp h
        exact ⟨⟨hvalid, hall⟩, ⟨hlt, hdigits⟩, by rw [hr, hmod hdigits]⟩
    · rintro ⟨⟨hvalid, hall⟩, ⟨hlt, hdigits⟩, hr⟩
      have hs : checkedIndex f which i d = .ok i.nat := checkedIndex_iff.mpr ⟨hvalid, hlt, rfl⟩
      rw [hs]
      exact (ih hrest (Nat.mod_lt _ (by decide))).mpr ⟨hall, hdigits, by rw [hr, hmod hdigits]⟩

structure Shaped (x : LispArray) : Prop where
  vector : x.isVector = true → x.dims = [x.dim] ∧ x.dim < 2 ^ 64
  wrapped : x.dim = x.dims.prod % 2 ^ 64

theorem subscriptsIndex_iff {f : Accessor} {x : LispArray} {indx : List Index} {r : ℕ} (hx : Shaped x) :
    subscriptsIndex f x indx = .ok r ↔ (∀ i ∈ indx, i.Valid) ∧
      Digits (indx.map Index.nat) x.dims ∧ r = evaluate x.dims (indx.map Index.nat) 0 % 2 ^ 64 := by
  unfold subscriptsIndex
  split
  · next hv =>
    obtain ⟨hdims, hdim⟩ := hx.vector hv
    rw [hdims]
    split
    · next i =>
      rw [checkedIndex_iff]
      simp only [List.mem_singleton, forall_eq, List.map_cons, List.map_nil, Digits,
        List.forall₂_cons, List.Forall₂.nil, and_true, evaluate, zero_mul, zero_add]
      constructor
      · rintro ⟨hvalid, hlt, rfl⟩
        exact ⟨hvalid, hlt, (Nat.mod_eq_of_lt (hlt.trans hdim)).symm⟩
      · rintro ⟨hvalid, hlt, hr⟩
        exact ⟨hvalid, hlt, hr.trans (Nat.mod_eq_of_lt (hlt.trans hdim))⟩
    · next hne =>
      constructor
      · intro h
        exact absurd h (by simp)
      · rintro ⟨-, hdigits, -⟩
        have hlen := hdigits.length_eq
        rw [List.length_map, List.length_singleton] at hlen
        obtain ⟨i, rfl⟩ := List.length_eq_one_iff.mp hlen
        exact absurd rfl (hne i)
  · split
    · next hlen =>
      constructor
      · intro h
        exact absurd h (by simp)
      · rintro ⟨-, hdigits, -⟩
        have := hdigits.length_eq
        rw [List.length_map] at this
        exact absurd this hlen
    · next hlen => exact indexLoop_iff (not_not.mp hlen) (by decide)

/-- The loop stores the dimensions and multiplies them modulo the size of a word. -/
theorem dimsLoop_spec {ds : List Index} {s total : ℕ} {dims : List ℕ} (hs : s ≤ arrayTotalLimit)
    (h : dimsLoop ds s = .ok (dims, total)) :
    dims = ds.map Index.nat ∧ total = s * dims.prod % 2 ^ 64 ∧ total ≤ arrayTotalLimit ∧
      ∀ d ∈ dims, d ≤ arrayDimensionLimit := by
  induction ds generalizing s dims with
  | nil =>
    obtain ⟨rfl, rfl⟩ := Prod.mk.inj (Except.ok.inj h)
    refine ⟨rfl, ?_, hs, by simp⟩
    rw [List.prod_nil, mul_one, Nat.mod_eq_of_lt]
    exact lt_of_le_of_lt hs (by decide)
  | cons d ds ih =>
    cases d with
    | other => exact absurd h (by simp [dimsLoop])
    | fixnum n =>
      rw [dimsLoop] at h
      split at h
      · exact absurd h (by simp)
      · next hn =>
        split at h
        · exact absurd h (by simp)
        · next hlimit =>
          cases hrec : dimsLoop ds (s * n.toInt.toNat % 2 ^ 64) with
          | error e =>
            rw [hrec] at h
            cases h
          | ok p =>
            rw [hrec] at h
            obtain ⟨rfl, rfl⟩ := Prod.mk.inj (Except.ok.inj h)
            obtain ⟨hdims, htotal, hle, hall⟩ := ih (by omega) hrec
            refine ⟨by rw [hdims]; rfl, ?_, hle, ?_⟩
            · rw [htotal, List.prod_cons, ← mul_assoc, Nat.mod_mul_mod]
            · rw [List.forall_mem_cons]
              exact ⟨by omega, hall⟩

section
variable {heap : ℕ} {etype : ElementType} {dims : Dimensions} {adj : Bool} {fillp : FillPointer}
  {displ : Option DisplacedTo} {disploff : Index} {x : LispArray}

structure Made (heap : ℕ) (etype : ElementType) (bases : List ℕ) (displ : Option DisplacedTo)
    (disploff : Index) (x : LispArray) : Prop where
  elttype : x.elttype = etype
  dims : x.dims = bases
  shaped : Shaped x
  dimensions : ∀ d ∈ bases, d ≤ arrayDimensionLimit
  size : x.dim ≤ arrayTotalLimit
  vector : x.isVector = true → x.dim < 2 ^ 59
  self : makeSelf heap etype x.dim displ disploff = .ok x.self

theorem siMakeVector_spec {d : Index} (h : siMakeVector heap etype d adj fillp displ disploff = .ok x) :
    Made heap etype [d.nat] displ disploff x := by
  cases d with
  | other => cases h
  | fixnum n =>
    simp only [siMakeVector] at h
    split at h
    · cases h
    · next hn =>
      cases hf : vectorFillPointer n.toInt.toNat fillp with
      | error e =>
        rw [hf] at h
        cases h
      | ok f =>
        cases hself : makeSelf heap etype n.toInt.toNat displ disploff with
        | error e =>
          rw [hf, hself] at h
          cases h
        | ok self =>
          rw [hf, hself] at h
          obtain rfl := Except.ok.inj h
          have hsmall : n.toInt.toNat < 2 ^ 59 := by
            simp only [arrayDimensionLimit] at hn
            omega
          exact {
            elttype := rfl
            dims := rfl
            shaped := ⟨fun _ => ⟨rfl, by dsimp only; omega⟩, by
              rw [List.prod_singleton, Nat.mod_eq_of_lt (by omega)]⟩
            dimensions := by
              simp only [List.mem_singleton, forall_eq, Index.nat, arrayDimensionLimit]
              omega
            size := by
              simp only [arrayTotalLimit]
              omega
            vector := fun _ => hsmall
            self := hself }

theorem siMakePureArray_spec (h : siMakePureArray heap etype dims adj fillp displ disploff = .ok x) :
    Made heap etype dims.bases displ disploff x := by
  unfold siMakePureArray at h
  split at h
  · exact siMakeVector_spec h
  · cases h
  · exact siMakeVector_spec h
  · next ds hds =>
    split at h
    · cases h
    · split at h
      · cases h
      · cases hloop : dimsLoop ds 1 with
        | error e =>
          rw [hloop] at h
          cases h
        | ok p =>
          obtain ⟨dims, s⟩ := p
          obtain ⟨hdims, htotal, hle, hall⟩ := dimsLoop_spec (by decide) hloop
          cases hself : makeSelf heap etype s displ disploff with
          | error e =>
            rw [hloop] at h
            dsimp only [bind, Except.bind] at h
            rw [hself] at h
            cases h
          | ok self =>
            rw [hloop] at h
            dsimp only [bind, Except.bind] at h
            rw [hself] at h
            obtain rfl := Except.ok.inj h
            exact {
              elttype := rfl
              dims := hdims
              shaped := ⟨fun hv => absurd hv (by simp), by rw [htotal, one_mul]⟩
              dimensions := by rwa [hdims] at hall
              size := hle
              vector := fun hv => absurd hv (by simp)
              self := hself }

theorem Made.wrapped {bases : List ℕ} (hx : Made heap etype bases displ disploff x) :
    x.dim = bases.prod % 2 ^ 64 := by
  rw [← hx.dims]
  exact hx.shaped.wrapped

theorem selfBytes_holds {t : ElementType} {d j : ℕ} (hd : d ≤ arrayTotalLimit)
    (hsize : d * aetSize t < 2 ^ 64) (hj : j < d) : (Storage.self (selfBytes t d)).Holds t j := by
  simp only [arrayTotalLimit] at hd
  have hle : (j + 1) * aetSize t ≤ d * aetSize t := Nat.mul_le_mul_right _ hj
  cases t with
  | bit =>
    simp only [Storage.Holds, selfBytes, if_true]
    omega
  | bc =>
    simp only [Storage.Holds, selfBytes, aetSize, reduceCtorEq, if_false]
    omega
  | _ =>
    simp only [Storage.Holds, selfBytes, reduceCtorEq, if_false]
    rwa [Nat.mod_eq_of_lt hsize]

theorem not_selfBytes_holds {t : ElementType} {d : ℕ} (hd : d ≤ arrayTotalLimit)
    (hsize : ¬ d * aetSize t < 2 ^ 64) : ¬ (Storage.self (selfBytes t d)).Holds t (d - 1) := by
  simp only [arrayTotalLimit] at hd
  have hpos : 0 < d := by
    rcases Nat.eq_zero_or_pos d with rfl | h
    · simp at hsize
    · exact h
  have hlast : (d - 1 + 1) * aetSize t = d * aetSize t := by rw [Nat.sub_add_cancel hpos]
  cases t with
  | bit => exact absurd (by simp [aetSize]) hsize
  | bc =>
    simp only [aetSize] at hsize
    omega
  | _ =>
    simp only [Storage.Holds, selfBytes, reduceCtorEq, if_false, hlast, not_le]
    exact lt_of_lt_of_le (Nat.mod_lt _ (by decide)) (not_lt.mp hsize)

theorem displace_holds {t : ElementType} {d j : ℕ} {target : DisplacedTo} {self : Storage}
    (h : displace t d target disploff = .ok self) (hj : j < d) : self.Holds t j := by
  unfold displace at h
  split at h
  · cases h
  · next n =>
    split at h
    · cases h
    · split at h
      · split at h
        · cases h
        · obtain rfl := Except.ok.inj h
          trivial
      · split at h
        · cases h
        · split at h
          · cases h
          · split at h
            · cases h
            · next hn _ _ hle =>
              obtain rfl := Except.ok.inj h
              simp only [Storage.Holds]
              omega

theorem Made.self_eq {bases : List ℕ} (hx : Made heap etype bases none disploff x) :
    x.self = .self (selfBytes etype x.dim) := by
  have h := hx.self
  simp only [makeSelf, arrayAllocself] at h
  split at h
  · exact (Except.ok.inj h).symm
  · cases h

theorem Made.last {bases : List ℕ} (hx : Made heap etype bases displ disploff x)
    (hpos : 0 < bases.prod) (hle : bases.prod ≤ arrayTotalLimit) (f : Accessor) :
    ∃ indx, subscriptsIndex f x indx = .ok (bases.prod - 1) := by
  obtain ⟨hdigits, heval⟩ := evaluate_pred hpos
  have hfix (d : ℕ) (hd : d ≤ arrayDimensionLimit) :
      (BitVec.ofInt 62 ((d - 1 : ℕ) : ℤ)).toInt = ((d - 1 : ℕ) : ℤ) := by
    simp only [arrayDimensionLimit] at hd
    apply BitVec.toInt_ofInt_eq_self (by decide) <;> omega
  have hmap : (bases.map fun d => Index.fixnum (BitVec.ofInt 62 ((d - 1 : ℕ) : ℤ))).map Index.nat =
      bases.map (· - 1) := by
    rw [List.map_map]
    apply List.map_congr_left
    intro d hd
    simp only [Function.comp_apply, Index.nat, hfix d (hx.dimensions d hd), Int.toNat_natCast]
  refine ⟨bases.map fun d => Index.fixnum (BitVec.ofInt 62 ((d - 1 : ℕ) : ℤ)),
    (subscriptsIndex_iff hx.shaped).mpr ⟨?_, ?_, ?_⟩⟩
  · intro i hi
    obtain ⟨d, hd, rfl⟩ := List.mem_map.mp hi
    exact ⟨_, rfl, by rw [hfix d (hx.dimensions d hd)]; exact Int.natCast_nonneg _⟩
  · rwa [hmap, hx.dims]
  · simp only [arrayTotalLimit] at hle
    rw [hmap, hx.dims, Nat.mod_eq_of_lt (by omega)]
    omega

/-- An accepted array is within its bounds exactly when the product of its dimensions is a
fixnum and its bytes can be counted in a word. -/
theorem siMakePureArray_bounds
    (h : siMakePureArray heap etype dims adj fillp displ disploff = .ok x) :
    WithinBounds x dims.bases ↔ dims.bases.prod ≤ arrayTotalLimit ∧
      (displ = none → dims.bases.prod * aetSize etype < 2 ^ 64) := by
  have hx := siMakePureArray_spec h
  constructor
  · intro hb
    have hle : dims.bases.prod ≤ arrayTotalLimit := hb.dim ▸ hx.size
    refine ⟨hle, ?_⟩
    rintro rfl
    by_contra hsize
    have hpos : 0 < dims.bases.prod := by
      rcases Nat.eq_zero_or_pos dims.bases.prod with h0 | h0
      · rw [h0] at hsize
        simp at hsize
      · exact h0
    obtain ⟨indx, hindx⟩ := hx.last hpos hle .aref
    have hstored := hb.stored .aref indx _ hindx
    rw [hx.self_eq, hx.elttype, hb.dim] at hstored
    exact not_selfBytes_holds hle hsize hstored
  · rintro ⟨hle, hsize⟩
    have hdim : x.dim = dims.bases.prod := by
      rw [hx.wrapped, Nat.mod_eq_of_lt (lt_of_le_of_lt hle (by decide))]
    have hindex (f : Accessor) (indx : List Index) (j : ℕ) (hj : subscriptsIndex f x indx = .ok j) :
        (∀ i ∈ indx, i.Valid) ∧ Digits (indx.map Index.nat) dims.bases ∧
          j = evaluate dims.bases (indx.map Index.nat) 0 ∧ j < x.dim := by
      obtain ⟨hvalid, hdigits, hr⟩ := (subscriptsIndex_iff hx.shaped).mp hj
      rw [hx.dims] at hdigits hr
      have hlt := evaluate_lt hdigits
      rw [Nat.mod_eq_of_lt (lt_of_lt_of_le hlt (hle.trans (by decide)))] at hr
      exact ⟨hvalid, hdigits, hr, by rwa [hr, hdim]⟩
    refine ⟨hx.dims, hdim, fun f indx j hj => (hindex f indx j hj).2.2, ?_, ?_⟩
    · intro f f' indx indx' j hj hj'
      obtain ⟨hvalid, hdigits, hr, -⟩ := hindex f indx j hj
      obtain ⟨hvalid', hdigits', hr', -⟩ := hindex f' indx' j hj'
      exact map_nat_inj hvalid hvalid' (evaluate_inj hdigits hdigits' (hr.symm.trans hr'))
    · intro f indx j hj
      have hlt := (hindex f indx j hj).2.2.2
      have hself := hx.self
      rw [hx.elttype]
      cases displ with
      | none =>
        rw [hx.self_eq]
        exact selfBytes_holds hx.size (hdim ▸ hsize rfl) hlt
      | some target => exact displace_holds hself hlt

end

theorem siMakePureArray_bounds_three_by_four :
    siMakePureArray 1000 .df (.list [.fixnum 3, .fixnum 4]) false .nil none (.fixnum 0) =
        .ok ⟨.df, false, [3, 4], 12, false, none, .self 96⟩ ∧
      WithinBounds ⟨.df, false, [3, 4], 12, false, none, .self 96⟩ [3, 4] := by
  have h : siMakePureArray 1000 .df (.list [.fixnum 3, .fixnum 4]) false .nil none (.fixnum 0) =
      .ok ⟨.df, false, [3, 4], 12, false, none, .self 96⟩ := by decide +kernel
  exact ⟨h, (siMakePureArray_bounds h).mpr ⟨by decide, fun _ => by decide⟩⟩

/-- An array of 2^32 rows and columns is made with no elements, and its second row is taken
to begin at the element 2^32. -/
theorem square_of_two_pow_32 :
    siMakePureArray 0 .object (.list [.fixnum (2 ^ 32), .fixnum (2 ^ 32)]) false .nil none (.fixnum 0) =
        .ok ⟨.object, false, [2 ^ 32, 2 ^ 32], 0, false, none, .self 0⟩ ∧
      subscriptsIndex .aref ⟨.object, false, [2 ^ 32, 2 ^ 32], 0, false, none, .self 0⟩
        [.fixnum 1, .fixnum 0] = .ok (2 ^ 32) ∧
      ¬ WithinBounds ⟨.object, false, [2 ^ 32, 2 ^ 32], 0, false, none, .self 0⟩
        (Dimensions.bases (.list [.fixnum (2 ^ 32), .fixnum (2 ^ 32)])) := by
  refine ⟨by decide +kernel, by decide +kernel, fun h => ?_⟩
  exact absurd h.dim (by decide +kernel)

end ArrayBounds
