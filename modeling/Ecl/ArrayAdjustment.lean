import Ecl.ArraySubscripts
import Ecl.DisplacementCoherence
import Ecl.SequentialMoves

/-! adjust-array of src/lsp/arraylib.lsp with ecl_copy_subarray of src/c/array.d, on the heap of
arrays. Row-major positions in the Lisp code are numbers without a bound. -/
namespace ArrayAdjustment

open ArrayBounds (ElementType LispArray Index Dimensions FillPointer Shaped siMakePureArray
  siMakePureArray_spec subscriptsIndex subscriptsIndex_iff arrayTotalLimit)
open ArraySubscripts (Subscripts)
open DisplacedArrays hiding Inside
open MixedRadix (Digits evaluate evaluate_add evaluate_lt)
open SequentialMoves

variable {V : Type}

abbrev Cells (V : Type) := Pointer → V

def cell (x : ArrayObject) (i : ℕ) : Pointer := ⟨x.self.block, x.self.index + i⟩

/-- What becomes of an element on its way into an array; toElement is ecl_aset_unsafe's. -/
def convert (toElement : ElementType → V → Option V) (dest orig : ElementType) (v : V) : Option V :=
  if dest = orig then some v else toElement dest v

/-- The length l shortened to the end of an array, in the arithmetic of words. -/
def shorten (i l dim : ℕ) : ℕ :=
  if (i + l) % 2 ^ 64 > dim then (dim + (2 ^ 64 - i)) % 2 ^ 64 else l

def memmove (dest orig : Pointer) (l : ℕ) (m : Cells V) : Cells V := fun p =>
  if p.block = dest.block ∧ dest.index ≤ p.index ∧ p.index < dest.index + l then
    m ⟨orig.block, orig.index + (p.index - dest.index)⟩
  else m p

/-- same says whether the two arrays are one object. None is an element that dest cannot hold. -/
def copySubarray (toElement : ElementType → V → Option V) (same : Bool) (dest : ArrayObject)
    (i0 : ℕ) (orig : ArrayObject) (i1 l : ℕ) (m : Cells V) : Option (Cells V) :=
  let l := shorten i1 (shorten i0 l dest.dim) orig.dim
  if dest.elttype ≠ orig.elttype ∨ dest.elttype = .bit then
    if same ∧ i0 > i1 then
      run (convert toElement dest.elttype orig.elttype)
        (moves (fun k => cell dest (i0 + (l - 1 - k))) (fun k => cell orig (i1 + (l - 1 - k))) l) m
    else
      run (convert toElement dest.elttype orig.elttype)
        (moves (fun k => cell dest (i0 + k)) (fun k => cell orig (i1 + k)) l) m
  else some (memmove (cell dest i0) (cell orig i1) l m)

/-- DOTIMES over the rows of both arrays. -/
def dotimes (body : ℕ → ℕ → Cells V → Option (Cells V)) (step1 step2 : ℕ) :
    ℕ → ℕ → ℕ → Cells V → Option (Cells V)
  | 0, _, _, m => some m
  | l + 1, i1, i2, m =>
    (body i1 i2 m).bind (dotimes body step1 step2 l (i1 + step1) (i2 + step2))

/-- Positions that are no fixnums cannot be passed on. Arrays of different rank, which
si_replace_array refuses in the end, are not copied. -/
def doCopy (toElement : ElementType → V → Option V) (dest orig : ArrayObject) :
    List ℕ → List ℕ → ℕ → ℕ → Cells V → Option (Cells V)
  | d1 :: dims1, d2 :: dims2, start1, start2, m =>
    let l := min d1 d2
    if dims1 = [] then
      if start1 ≤ arrayTotalLimit ∧ start2 ≤ arrayTotalLimit then
        copySubarray toElement false dest start1 orig start2 l m
      else none
    else
      dotimes (doCopy toElement dest orig dims1 dims2) dims1.prod dims2.prod l start1 start2 m
  | _, _, _, _, m => some m

def orOne (dims : List ℕ) : List ℕ := if dims = [] then [1] else dims

def copyArrayContents (toElement : ElementType → V → Option V) (dest orig : ArrayObject)
    (m : Cells V) : Option (Cells V) :=
  doCopy toElement dest orig (orOne dest.dims) (orOne orig.dims) 0 0 m

inductive AdjustError where
  | fillPointer
  | make (e : ArrayBounds.ArrayError)
  | element
  | replace (e : DisplacedArrays.ArrayError)
  deriving DecidableEq

def arrayType (x : LispArray) : ArrayType :=
  if x.isVector = false then .array
  else if x.elttype = .bc then .baseString
  else if x.elttype = .bit then .bitvector
  else if x.elttype = .ch then .string
  else .vector

/-- The object that si_make_pure_array and si_make_vector fill in. -/
def shapeOf (x : LispArray) : Shape where
  type := arrayType x
  elttype := x.elttype
  rank := ArraySubscripts.arrayRank x
  dims := x.dims
  dim := x.dim
  fillp := x.fillp.getD x.dim
  hasFillPointer := x.fillp.isSome
  adjustable := x.adjustable

def asLisp (x : Shape) : LispArray :=
  ⟨x.elttype, x.type ≠ .array, x.dims, x.dim, x.adjustable,
    if x.hasFillPointer then some x.fillp else none, .self 0⟩

def cells (h : Heap V) : Cells V := fun p => h.storage p.block p.index

def withCells (h : Heap V) (m : Cells V) : Heap V := { h with storage := fun b i => m ⟨b, i⟩ }

/-- A fill pointer that is not given is the old one. -/
def newFillPointer (old : Shape) (fillPointer : FillPointer) : FillPointer :=
  if old.hasFillPointer ∧ fillPointer = .nil then .index (.fixnum (BitVec.ofNat 62 old.fillp))
  else fillPointer

/-- Without displaced-to and initial-contents; contents is what new storage holds at first. -/
def adjustArray (apart : ℕ → ℕ → ℤ) (toElement : ElementType → V → Option V) (memory : ℕ)
    (h : Heap V) (array : ℕ) (newDimensions : Dimensions) (elementType : ElementType)
    (fillPointer : FillPointer) (contents : ℕ → V) : Except AdjustError ℕ × Heap V :=
  let old := (h.arrays array).toShape
  if old.hasFillPointer = false ∧ fillPointer ≠ .nil then (.error .fillPointer, h)
  else
    match siMakePureArray memory elementType newDimensions true (newFillPointer old fillPointer)
      none (.fixnum 0) with
    | .error e => (.error (.make e), h)
    | .ok x =>
      let x' := h.made
      let h' := (siMakeArray h (shapeOf x) none contents).2
      match copyArrayContents toElement (h'.arrays x') (h'.arrays array) (cells h') with
      | none => (.error .element, h')
      | some m =>
        match siReplaceArray apart (withCells h' m) array x' with
        | (.error e, h'') => (.error (.replace e), h'')
        | (.ok r, h'') => (.ok r, h'')

section
variable {toElement : ElementType → V → Option V} {dest orig : ArrayObject} {i0 i1 l dim : ℕ}
  {m m' : Cells V}

theorem shorten_of_le (h : i0 + l ≤ dim) (hdim : dim < 2 ^ 64) : shorten i0 l dim = l := by
  rw [shorten, Nat.mod_eq_of_lt (by omega), if_neg (by omega)]

theorem cell_inj {i j : ℕ} : cell dest i = cell dest j ↔ i = j := by
  simp [cell]

theorem cell_apart (hblocks : dest.self.block ≠ orig.self.block) (i j : ℕ) :
    cell orig i ≠ cell dest j := by
  intro heq
  exact hblocks (congrArg Pointer.block heq).symm

theorem copySubarray_spec (hblocks : dest.self.block ≠ orig.self.block) (h0 : i0 + l ≤ dest.dim)
    (h1 : i1 + l ≤ orig.dim) (hdest : dest.dim < 2 ^ 64) (horig : orig.dim < 2 ^ 64)
    (h : copySubarray toElement false dest i0 orig i1 l m = some m') :
    (∀ k < l, convert toElement dest.elttype orig.elttype (m (cell orig (i1 + k))) =
        some (m' (cell dest (i0 + k)))) ∧
      ∀ p, (∀ k < l, p ≠ cell dest (i0 + k)) → m' p = m p := by
  unfold copySubarray at h
  rw [shorten_of_le h0 hdest, shorten_of_le h1 horig] at h
  dsimp only at h
  split at h
  · rw [if_neg (by simp)] at h
    constructor
    · intro k hk
      refine (run_value ?_ h hk).1 fun j _ => cell_apart hblocks _ _
      intro i _ j _ heq
      exact Nat.add_left_cancel (cell_inj.mp heq)
    · intro p hp
      exact run_frame h hp
  · next htype =>
    cases h
    have hsame : dest.elttype = orig.elttype := by
      by_contra hne
      exact htype (Or.inl hne)
    constructor
    · intro k hk
      have hplace : orig.self.index + (i1 + k) =
          orig.self.index + i1 + (dest.self.index + (i0 + k) - (dest.self.index + i0)) := by omega
      rw [convert, if_pos hsame, memmove, if_pos]
      · simp only [cell, hplace]
      · simp only [cell, true_and]
        omega
    · rintro ⟨b, j⟩ hp
      rw [memmove, if_neg]
      rintro ⟨hblock, hlow, hhigh⟩
      simp only [cell] at hblock hlow hhigh
      apply hp (j - (dest.self.index + i0)) (by omega)
      simp only [cell, Pointer.mk.injEq, hblock, true_and]
      omega

end

section
variable {toElement : ElementType → V → Option V} {dest orig : ArrayObject}

def Common (dims1 dims2 subs : List ℕ) : Prop := Digits subs dims1 ∧ Digits subs dims2

structure Copied (toElement : ElementType → V → Option V) (dest orig : ArrayObject)
    (common : List ℕ → Prop) (place1 place2 : List ℕ → ℕ) (start1 start2 size : ℕ)
    (m m' : Cells V) : Prop where
  elements : ∀ subs, common subs →
    convert toElement dest.elttype orig.elttype (m (cell orig (start2 + place2 subs))) =
      some (m' (cell dest (start1 + place1 subs)))
  others : ∀ p, (∀ k < size, p ≠ cell dest (start1 + k)) → m' p = m p

theorem dotimes_spec (hblocks : dest.self.block ≠ orig.self.block) {common : List ℕ → Prop}
    {place1 place2 : List ℕ → ℕ} {step1 step2 : ℕ} {body : ℕ → ℕ → Cells V → Option (Cells V)}
    (hplace : ∀ subs, common subs → place1 subs < step1) {l start1 start2 : ℕ} {m m' : Cells V}
    (hbody : ∀ i < l, ∀ m m', body (start1 + i * step1) (start2 + i * step2) m = some m' →
      Copied toElement dest orig common place1 place2 (start1 + i * step1) (start2 + i * step2)
        step1 m m')
    (h : dotimes body step1 step2 l start1 start2 m = some m') :
    (∀ i < l, ∀ subs, common subs →
        convert toElement dest.elttype orig.elttype
            (m (cell orig (start2 + i * step2 + place2 subs))) =
          some (m' (cell dest (start1 + i * step1 + place1 subs)))) ∧
      ∀ p, (∀ k < l * step1, p ≠ cell dest (start1 + k)) → m' p = m p := by
  induction l generalizing start1 start2 m with
  | zero =>
    cases h
    exact ⟨fun i hi => absurd hi (Nat.not_lt_zero i), fun _ _ => rfl⟩
  | succ l ih =>
    rw [dotimes] at h
    obtain ⟨m₁, hm₁, hrest⟩ := Option.bind_eq_some_iff.mp h
    have hfirst := hbody 0 (Nat.succ_pos l) m m₁ (by simpa using hm₁)
    simp only [Nat.zero_mul, Nat.add_zero] at hfirst
    have hshift (start step i : ℕ) : start + step + i * step = start + (i + 1) * step := by
      rw [Nat.succ_mul]
      omega
    obtain ⟨helements, hothers⟩ := @ih (start1 + step1) (start2 + step2) m₁
      (by
        intro i hi m m' hm
        rw [hshift, hshift] at hm ⊢
        exact hbody (i + 1) (by omega) m m' hm) hrest
    constructor
    · intro i hi subs hsubs
      cases i with
      | zero =>
        simp only [Nat.zero_mul, Nat.add_zero]
        rw [hfirst.elements subs hsubs, hothers]
        intro k _ heq
        have := cell_inj.mp heq
        have := hplace subs hsubs
        omega
      | succ i =>
        have helement := helements i (by omega) subs hsubs
        rwa [hshift, hshift, hfirst.others _ fun k _ => cell_apart hblocks _ _] at helement
    · intro p hp
      rw [hothers, hfirst.others]
      · intro k hk
        apply hp k
        rw [Nat.succ_mul]
        omega
      · intro k hk heq
        apply hp (step1 + k)
        · rw [Nat.succ_mul]
          omega
        · rw [heq, Nat.add_assoc]

theorem dotimes_rows {body : ℕ → ℕ → Cells V → Option (Cells V)} {step1 step2 l start1 start2 : ℕ}
    {m m' : Cells V} (h : dotimes body step1 step2 l start1 start2 m = some m') {i : ℕ} (hi : i < l) :
    ∃ m₁ m₂, body (start1 + i * step1) (start2 + i * step2) m₁ = some m₂ := by
  induction l generalizing start1 start2 m i with
  | zero => exact absurd hi (Nat.not_lt_zero i)
  | succ l ih =>
    rw [dotimes] at h
    obtain ⟨m₁, hm₁, hrest⟩ := Option.bind_eq_some_iff.mp h
    cases i with
    | zero => exact ⟨m, m₁, by simpa using hm₁⟩
    | succ i =>
      obtain ⟨m₂, m₃, hrow⟩ := ih hrest (i := i) (by omega)
      refine ⟨m₂, m₃, ?_⟩
      rwa [Nat.succ_mul, Nat.succ_mul, Nat.add_comm _ step1, Nat.add_comm _ step2, ← Nat.add_assoc,
        ← Nat.add_assoc]

theorem common_cons {d1 d2 i : ℕ} {dims1 dims2 subs : List ℕ} :
    Common (d1 :: dims1) (d2 :: dims2) (i :: subs) ↔ i < min d1 d2 ∧ Common dims1 dims2 subs := by
  rw [Common, Common, Digits, Digits, List.forall₂_cons, List.forall₂_cons, Nat.lt_min]
  exact and_and_and_comm

structure Contained (dest orig : ArrayObject) (dims1 dims2 : List ℕ) (start1 start2 : ℕ) : Prop where
  some : ∃ subs, Common dims1 dims2 subs
  dest : ∀ subs, Common dims1 dims2 subs → start1 + evaluate dims1 subs 0 < dest.dim
  orig : ∀ subs, Common dims1 dims2 subs → start2 + evaluate dims2 subs 0 < orig.dim

theorem evaluate_cons {d i : ℕ} {dims subs : List ℕ} (h : Digits subs dims) :
    evaluate (d :: dims) (i :: subs) 0 = i * dims.prod + evaluate dims subs 0 := by
  rw [evaluate, evaluate_add h, Nat.zero_mul, Nat.zero_add]

theorem Contained.row {d1 d2 start1 start2 i : ℕ} {dims1 dims2 : List ℕ}
    (h : Contained dest orig (d1 :: dims1) (d2 :: dims2) start1 start2) (hi : i < min d1 d2) :
    Contained dest orig dims1 dims2 (start1 + i * dims1.prod) (start2 + i * dims2.prod) := by
  have hrow (subs : List ℕ) (hsubs : Common dims1 dims2 subs) := common_cons.mpr ⟨hi, hsubs⟩
  obtain ⟨subs, hsubs⟩ := h.some
  refine ⟨?_, ?_, ?_⟩
  · cases hsubs.1 with
    | cons _ _ => exact ⟨_, (common_cons.mp hsubs).2⟩
  · intro subs hsubs
    have hlt := h.dest _ (hrow subs hsubs)
    rwa [evaluate_cons hsubs.1, ← Nat.add_assoc] at hlt
  · intro subs hsubs
    have hlt := h.orig _ (hrow subs hsubs)
    rwa [evaluate_cons hsubs.2, ← Nat.add_assoc] at hlt

theorem doCopy_spec (hblocks : dest.self.block ≠ orig.self.block) (hdest : dest.dim < 2 ^ 64)
    (horig : orig.dim < 2 ^ 64) {dims1 dims2 : List ℕ} {start1 start2 : ℕ} {m m' : Cells V}
    (hne : dims1 ≠ []) (hcontained : Contained dest orig dims1 dims2 start1 start2)
    (h : doCopy toElement dest orig dims1 dims2 start1 start2 m = some m') :
    Copied toElement dest orig (Common dims1 dims2) (evaluate dims1 · 0) (evaluate dims2 · 0)
      start1 start2 dims1.prod m m' := by
  induction dims1 generalizing dims2 start1 start2 m m' with
  | nil => exact absurd rfl hne
  | cons d1 dims1 ih =>
    obtain ⟨subs, hsubs⟩ := hcontained.some
    cases dims2 with
    | nil => cases hsubs.2.length_eq.symm.trans hsubs.1.length_eq
    | cons d2 dims2 =>
      obtain ⟨i, subs, rfl⟩ := List.exists_cons_of_length_eq_add_one hsubs.1.length_eq
      obtain ⟨hi, hsubs⟩ := common_cons.mp hsubs
      rw [doCopy] at h
      split at h
      · next hnil =>
        subst hnil
        obtain rfl : dims2 = [] := by
          have := hsubs.2.length_eq.symm.trans hsubs.1.length_eq
          exact List.length_eq_zero_iff.mp this
        split at h
        · have hcommon (k : ℕ) (hk : k < min d1 d2) : Common [d1] [d2] [k] :=
            common_cons.mpr ⟨hk, List.Forall₂.nil, List.Forall₂.nil⟩
          have hlast := hcommon (min d1 d2 - 1) (by omega)
          have hone (d k : ℕ) : evaluate [d] [k] 0 = k := by simp [evaluate]
          have hd := hcontained.dest _ hlast
          have ho := hcontained.orig _ hlast
          rw [hone] at hd ho
          obtain ⟨helements, hothers⟩ := copySubarray_spec hblocks (by omega) (by omega) hdest horig h
          constructor
          · intro subs hsubs
            obtain ⟨k, rest, rfl⟩ := List.exists_cons_of_length_eq_add_one hsubs.1.length_eq
            obtain ⟨hk, hrest⟩ := common_cons.mp hsubs
            obtain rfl : rest = [] := List.length_eq_zero_iff.mp hrest.1.length_eq
            simp only [hone]
            exact helements k hk
          · intro p hp
            apply hothers
            intro k hk
            apply hp
            rw [List.prod_singleton]
            omega
        · cases h
      · next hdims =>
        have hrows : ∀ i < min d1 d2, ∀ m m', doCopy toElement dest orig dims1 dims2
            (start1 + i * dims1.prod) (start2 + i * dims2.prod) m = some m' →
            Copied toElement dest orig (Common dims1 dims2) (evaluate dims1 · 0)
              (evaluate dims2 · 0) (start1 + i * dims1.prod) (start2 + i * dims2.prod)
              dims1.prod m m' :=
          fun i hi m m' hm => ih hdims (hcontained.row hi) hm
        obtain ⟨helements, hothers⟩ := dotimes_spec hblocks (fun subs hsubs => evaluate_lt hsubs.1)
          hrows h
        constructor
        · intro subs hsubs
          obtain ⟨i, subs, rfl⟩ := List.exists_cons_of_length_eq_add_one hsubs.1.length_eq
          obtain ⟨hi, hsubs⟩ := common_cons.mp hsubs
          rw [evaluate_cons hsubs.1, evaluate_cons hsubs.2, ← Nat.add_assoc, ← Nat.add_assoc]
          exact helements i hi subs hsubs
        · intro p hp
          apply hothers
          intro k hk
          apply hp
          rw [List.prod_cons]
          exact lt_of_lt_of_le hk (Nat.mul_le_mul_right _ (Nat.min_le_left d1 d2))

/-- The positions of a copy that was not refused are numbers of a word. -/
theorem doCopy_small {dims1 dims2 subs : List ℕ} {start1 start2 : ℕ} {m m' : Cells V}
    (hlimit : ∀ d ∈ dims1, d ≤ ArrayBounds.arrayDimensionLimit) (hne : dims1 ≠ [])
    (hsubs : Common dims1 dims2 subs)
    (h : doCopy toElement dest orig dims1 dims2 start1 start2 m = some m') :
    start1 + evaluate dims1 subs 0 < 2 ^ 64 ∧ start2 + evaluate dims2 subs 0 < 2 ^ 64 := by
  induction dims1 generalizing dims2 subs start1 start2 m m' with
  | nil => exact absurd rfl hne
  | cons d1 dims1 ih =>
    cases dims2 with
    | nil => cases hsubs.2.length_eq.symm.trans hsubs.1.length_eq
    | cons d2 dims2 =>
      obtain ⟨i, subs, rfl⟩ := List.exists_cons_of_length_eq_add_one hsubs.1.length_eq
      obtain ⟨hi, hsubs⟩ := common_cons.mp hsubs
      rw [List.forall_mem_cons] at hlimit
      rw [evaluate_cons hsubs.1, evaluate_cons hsubs.2, ← Nat.add_assoc, ← Nat.add_assoc]
      rw [doCopy] at h
      split at h
      · next hnil =>
        subst hnil
        obtain rfl : subs = [] := List.length_eq_zero_iff.mp hsubs.1.length_eq
        obtain rfl : dims2 = [] := List.length_eq_zero_iff.mp hsubs.2.length_eq.symm
        split at h
        · next hstart =>
          simp only [arrayTotalLimit] at hstart
          simp only [ArrayBounds.arrayDimensionLimit] at hlimit
          simp only [List.prod_nil, evaluate]
          omega
        · cases h
      · next hdims =>
        obtain ⟨m₁, m₂, hrow⟩ := dotimes_rows h hi
        exact ih hlimit.2 hdims hsubs hrow

theorem orOne_cases {dims1 dims2 : List ℕ} (hrank : dims1.length = dims2.length) :
    (dims1 = [] ∧ dims2 = []) ∨ (orOne dims1 = dims1 ∧ orOne dims2 = dims2) := by
  by_cases hnil : dims1 = []
  · subst hnil
    exact Or.inl ⟨rfl, List.length_eq_zero_iff.mp hrank.symm⟩
  · have hnil2 : dims2 ≠ [] := by
      rintro rfl
      exact hnil (List.length_eq_zero_iff.mp hrank)
    exact Or.inr ⟨if_neg hnil, if_neg hnil2⟩

theorem common_orOne {dims1 dims2 subs : List ℕ} (hrank : dims1.length = dims2.length)
    (hsubs : Common dims1 dims2 subs) :
    ∃ subs', Common (orOne dims1) (orOne dims2) subs' ∧
      evaluate (orOne dims1) subs' 0 = evaluate dims1 subs 0 ∧
      evaluate (orOne dims2) subs' 0 = evaluate dims2 subs 0 := by
  rcases orOne_cases hrank with ⟨rfl, rfl⟩ | ⟨h1, h2⟩
  · obtain rfl : subs = [] := List.length_eq_zero_iff.mp hsubs.1.length_eq
    exact ⟨[0], common_cons.mpr ⟨Nat.one_pos, hsubs⟩, rfl, rfl⟩
  · rw [h1, h2]
    exact ⟨subs, hsubs, rfl, rfl⟩

theorem orOne_common {dims1 dims2 subs : List ℕ} (hrank : dims1.length = dims2.length)
    (hsubs : Common (orOne dims1) (orOne dims2) subs) :
    ∃ subs', Common dims1 dims2 subs' ∧ evaluate (orOne dims1) subs 0 = evaluate dims1 subs' 0 ∧
      evaluate (orOne dims2) subs 0 = evaluate dims2 subs' 0 := by
  rcases orOne_cases hrank with ⟨rfl, rfl⟩ | ⟨h1, h2⟩
  · obtain ⟨k, rest, rfl⟩ := List.exists_cons_of_length_eq_add_one hsubs.1.length_eq
    obtain ⟨hk, hrest⟩ := common_cons.mp hsubs
    obtain rfl : rest = [] := List.length_eq_zero_iff.mp hrest.1.length_eq
    obtain rfl : k = 0 := by omega
    exact ⟨[], hrest, rfl, rfl⟩
  · rw [h1, h2] at hsubs ⊢
    exact ⟨subs, hsubs, rfl, rfl⟩

theorem orOne_ne_nil (dims : List ℕ) : orOne dims ≠ [] := by
  unfold orOne
  split
  · exact List.cons_ne_nil _ _
  · assumption

theorem copyArrayContents_spec (hblocks : dest.self.block ≠ orig.self.block)
    (hdest : dest.dim < 2 ^ 64) (horig : orig.dim < 2 ^ 64)
    (hrank : dest.dims.length = orig.dims.length)
    (hlimit : ∀ d ∈ dest.dims, d ≤ ArrayBounds.arrayDimensionLimit) {m m' : Cells V}
    (h : copyArrayContents toElement dest orig m = some m') :
    (∀ subs, Common dest.dims orig.dims subs →
        evaluate dest.dims subs 0 < 2 ^ 64 ∧ evaluate orig.dims subs 0 < 2 ^ 64) ∧
      ((∀ subs, Common dest.dims orig.dims subs →
          evaluate dest.dims subs 0 < dest.dim ∧ evaluate orig.dims subs 0 < orig.dim) →
        ∀ subs, Common dest.dims orig.dims subs →
          convert toElement dest.elttype orig.elttype
              (m (cell orig (evaluate orig.dims subs 0))) =
            some (m' (cell dest (evaluate dest.dims subs 0)))) := by
  have hone : ∀ d ∈ orOne dest.dims, d ≤ ArrayBounds.arrayDimensionLimit := by
    unfold orOne
    split
    · simp [ArrayBounds.arrayDimensionLimit]
    · exact hlimit
  constructor
  · intro subs hsubs
    obtain ⟨subs', hsubs', hplace1, hplace2⟩ := common_orOne hrank hsubs
    have hsmall := doCopy_small hone (orOne_ne_nil _) hsubs' h
    rwa [hplace1, hplace2, Nat.zero_add, Nat.zero_add] at hsmall
  · intro hin subs hsubs
    obtain ⟨subs', hsubs', hplace1, hplace2⟩ := common_orOne hrank hsubs
    have hcontained : Contained dest orig (orOne dest.dims) (orOne orig.dims) 0 0 := by
      refine ⟨⟨subs', hsubs'⟩, ?_, ?_⟩
      · intro t ht
        obtain ⟨t', ht', hp1, -⟩ := orOne_common hrank ht
        rw [hp1, Nat.zero_add]
        exact (hin t' ht').1
      · intro t ht
        obtain ⟨t', ht', -, hp2⟩ := orOne_common hrank ht
        rw [hp2, Nat.zero_add]
        exact (hin t' ht').2
    have helement := (doCopy_spec hblocks hdest horig (orOne_ne_nil _) hcontained h).elements subs' hsubs'
    rwa [hplace1, hplace2, Nat.zero_add, Nat.zero_add] at helement

end

section
variable {apart : ℕ → ℕ → ℤ} {toElement : ElementType → V → Option V} {h h' : Heap V}

def Declared (_ : Heap V) : Op V → Prop
  | .make shape _ _ => ∃ memory etype dims adj fillp displ disploff x,
      siMakePureArray memory etype dims adj fillp displ disploff = .ok x ∧ shape = shapeOf x
  | _ => True

structure Ready (h : Heap V) : Prop where
  cell_lt : ∀ a c, (h.arrays a).displaced = some c → c < h.cellsMade
  listed : ∀ c, ∀ d ∈ (h.cells c).cdr, d < h.made
  block_lt : ∀ a < h.made, (h.arrays a).self.block < h.made
  shaped : ∀ a < h.made, Shaped (asLisp (h.arrays a).toShape)
  dim_le : ∀ a < h.made, (h.arrays a).dim ≤ arrayTotalLimit

theorem asLisp_shapeOf_shaped {x : LispArray} (hx : Shaped x) : Shaped (asLisp (shapeOf x)) := by
  refine ⟨fun hv => hx.vector ?_, hx.wrapped⟩
  by_contra hne
  simp only [Bool.not_eq_true] at hne
  simp [asLisp, shapeOf, arrayType, hne] at hv

theorem mem_cdr_consDisplaced {a : ℕ} {car : Option ℕ} {c d : ℕ}
    (hd : d ∈ ((consDisplaced h a car).cells c).cdr) : d ∈ (h.cells c).cdr := by
  simp only [consDisplaced] at hd
  by_cases hc : c = h.cellsMade
  · subst hc
    rw [Function.update_self] at hd
    cases hd
  · rwa [Function.update_of_ne hc] at hd

theorem mem_cdr_track {a other c d : ℕ} (hd : d ∈ ((track h a other).cells c).cdr) :
    d = other ∨ d ∈ (h.cells c).cdr := by
  unfold track at hd
  split at hd
  · have hfirst : d ∈ ((if (h.arrays a).displaced = none then consDisplaced h a none else h).cells
        c).cdr → d ∈ (h.cells c).cdr := by
      split
      · exact mem_cdr_consDisplaced
      · exact id
    dsimp only at hd
    generalize (if (h.arrays a).displaced = none then consDisplaced h a none else h) = h₁ at hd hfirst
    split at hd
    · exact Or.inr (hfirst hd)
    · next c' _ =>
      dsimp only at hd
      by_cases hc : c = c'
      · subst hc
        rw [Function.update_self, List.mem_cons] at hd
        exact hd.imp_right hfirst
      · rw [Function.update_of_ne hc] at hd
        exact Or.inr (hfirst hd)
  · exact Or.inr hd

theorem eclDisplace_listed {f t c d : ℕ} {j : ℤ} (hok : eclDisplace h f t j = .ok h')
    (hd : d ∈ (h'.cells c).cdr) : d = f ∨ d ∈ (h.cells c).cdr := by
  unfold eclDisplace at hok
  dsimp only at hok
  split_ifs at hok
  cases hok
  exact (mem_cdr_track hd).imp_right mem_cdr_consDisplaced

theorem Ready.displaced (hr : Ready h) {f t : ℕ} {j : ℤ} (hf : f < h.made) (ht : t < h.made)
    (hok : eclDisplace h f t j = .ok h') : Ready h' := by
  have hdisp := eclDisplace_displaces hr.cell_lt hok
  refine ⟨hdisp.cell_lt, ?_, ?_, ?_, ?_⟩
  · intro c d hd
    rw [hdisp.made]
    rcases eclDisplace_listed hok hd with rfl | hd
    · exact hf
    · exact hr.listed c d hd
  · intro a ha
    rw [hdisp.made] at ha ⊢
    by_cases haf : a = f
    · subst haf
      rw [hdisp.place]
      exact hr.block_lt t ht
    · have hself : (h'.arrays a).self = (h.arrays a).self := congrArg Prod.snd (hdisp.places a haf)
      rw [hself]
      exact hr.block_lt a ha
  · intro a ha
    rw [hdisp.made] at ha
    rw [hdisp.shapes]
    exact hr.shaped a ha
  · intro a ha
    rw [hdisp.made] at ha
    have hdim : (h'.arrays a).dim = (h.arrays a).dim := congrArg Shape.dim (hdisp.shapes a)
    rw [hdim]
    exact hr.dim_le a ha

variable (apart) in
theorem redisplace_ready {newa : ℕ} {dlist : List ℕ} (hr : Ready h) (hnew : newa < h.made)
    (hlist : ∀ d ∈ dlist, d < h.made) :
    Ready (redisplace apart newa dlist h).2 ∧
      (redisplace apart newa dlist h).2.made = h.made ∧
      (redisplace apart newa dlist h).2.storage = h.storage ∧
      (newa ∉ dlist → geometry (redisplace apart newa dlist h).2 newa = geometry h newa) := by
  induction dlist generalizing h with
  | nil => exact ⟨hr, rfl, rfl, fun _ => rfl⟩
  | cons other dlist ih =>
    rw [redisplace]
    cases hok : eclDisplace h other newa (clArrayDisplacement apart h other).2 with
    | error e => exact ⟨hr, rfl, rfl, fun _ => rfl⟩
    | ok h₁ =>
      have hother := hlist other List.mem_cons_self
      have hdisp := eclDisplace_displaces hr.cell_lt hok
      obtain ⟨hready, hmade, hstorage, hgeo⟩ := ih (hr.displaced hother hnew hok)
        (by rwa [hdisp.made]) (by
          intro d hd
          rw [hdisp.made]
          exact hlist d (List.mem_cons_of_mem _ hd))
      refine ⟨hready, hmade.trans hdisp.made, hstorage.trans hdisp.storage, fun hnot => ?_⟩
      rw [List.mem_cons, not_or] at hnot
      exact (hgeo hnot.2).trans (hdisp.places newa hnot.1)

theorem Ready.overwrite (hr : Ready h) {olda newa : ℕ} (hnew : newa < h.made) :
    Ready { h with arrays := Function.update h.arrays olda (h.arrays newa) } := by
  have hcases (a : ℕ) (P : ArrayObject → Prop) (hnew : P (h.arrays newa)) (ha : P (h.arrays a)) :
      P (Function.update h.arrays olda (h.arrays newa) a) := by
    by_cases hao : a = olda
    · subst hao
      rwa [Function.update_self]
    · rwa [Function.update_of_ne hao]
  refine ⟨?_, hr.listed, ?_, ?_, ?_⟩
  · intro a
    exact hcases a (fun x => ∀ c, x.displaced = some c → c < h.cellsMade) (hr.cell_lt newa)
      (hr.cell_lt a)
  · intro a ha
    exact hcases a (fun x => x.self.block < h.made) (hr.block_lt newa hnew) (hr.block_lt a ha)
  · intro a ha
    exact hcases a (fun x => Shaped (asLisp x.toShape)) (hr.shaped newa hnew) (hr.shaped a ha)
  · intro a ha
    exact hcases a (fun x => x.dim ≤ arrayTotalLimit) (hr.dim_le newa hnew) (hr.dim_le a ha)

theorem mem_dependents {a d : ℕ} (hd : d ∈ dependents h a) : ∃ c, d ∈ (h.cells c).cdr := by
  unfold dependents at hd
  split at hd
  · cases hd
  · exact ⟨_, hd⟩

theorem Ready.replaced (hr : Ready h) {olda newa : ℕ} (hnew : newa < h.made) :
    Ready (siReplaceArray apart h olda newa).2 := by
  unfold siReplaceArray
  split
  · exact hr
  · split
    · exact hr
    · have hlist : ∀ d ∈ dependents h olda, d < h.made := by
        intro d hd
        obtain ⟨c, hc⟩ := mem_dependents hd
        exact hr.listed c d hc
      obtain ⟨hready, hmade, -, -⟩ := redisplace_ready apart hr hnew hlist
      split
      · next h₁ heq =>
        rw [heq] at hready
        exact hready
      · next h₁ heq =>
        rw [heq] at hready hmade
        exact hready.overwrite (by rwa [hmade])

theorem Ready.newArray (hr : Ready h) {shape : Shape} (hshape : Shaped (asLisp shape))
    (hdim : shape.dim ≤ arrayTotalLimit) :
    Ready { h with
      arrays := Function.update h.arrays h.made ⟨shape, none, ⟨h.made, 0⟩⟩
      made := h.made + 1 } := by
  have hcases (a : ℕ) (P : ArrayObject → Prop) (hnew : P ⟨shape, none, ⟨h.made, 0⟩⟩)
      (hold : a < h.made → P (h.arrays a)) (ha : a < h.made + 1) :
      P (Function.update h.arrays h.made ⟨shape, none, ⟨h.made, 0⟩⟩ a) := by
    by_cases ham : a = h.made
    · subst ham
      rwa [Function.update_self]
    · rw [Function.update_of_ne ham]
      exact hold (by omega)
  refine ⟨?_, ?_, ?_, ?_, ?_⟩
  · intro a c hc
    by_cases ham : a = h.made
    · simp [ham] at hc
    · exact hr.cell_lt a c (by simpa [ham] using hc)
  · intro c d hd
    exact (hr.listed c d hd).trans (Nat.lt_succ_self _)
  · intro a
    exact hcases a (fun x => x.self.block < h.made + 1) (Nat.lt_succ_self _)
      fun ha => (hr.block_lt a ha).trans (Nat.lt_succ_self _)
  · intro a
    exact hcases a (fun x => Shaped (asLisp x.toShape)) hshape (hr.shaped a)
  · intro a
    exact hcases a (fun x => x.dim ≤ arrayTotalLimit) hdim (hr.dim_le a)

theorem Ready.withStorage (hr : Ready h) (s : ℕ → ℕ → V) : Ready { h with storage := s } :=
  ⟨hr.cell_lt, hr.listed, hr.block_lt, hr.shaped, hr.dim_le⟩

theorem step_ready (hr : Ready h) {op : Op V} (hnames : op.Names h) (hop : Declared h op) :
    Ready (step apart toElement h op) := by
  cases op with
  | make shape displaced contents =>
    obtain ⟨memory, etype, dims, adj, fillp, displ, disploff, x, hx, rfl⟩ := hop
    have hmade := siMakePureArray_spec hx
    have hnew := hr.newArray (asLisp_shapeOf_shaped hmade.shaped) hmade.size
    unfold step siMakeArray
    cases displaced with
    | none => exact hnew.withStorage _
    | some p =>
      dsimp only
      split
      · exact hr
      · next h₁ hok =>
        refine hnew.displaced (Nat.lt_succ_self _) ?_ hok
        exact lt_of_lt_of_le (show p.1 < h.made from hnames) (Nat.le_succ _)
  | replace olda newa => exact hr.replaced hnames.2
  | aset a i value =>
    unfold step aset
    dsimp only
    split_ifs
    · exact hr
    · cases toElement (h.arrays a).elttype value with
      | none => exact hr
      | some v => exact hr.withStorage _

theorem reached_ready (hr : Reached apart toElement Declared h) : Ready h := by
  induction hr with
  | start contents =>
    exact ⟨fun a c hc => by simp [emptyHeap] at hc, fun c d hd => by simp [emptyHeap] at hd,
      fun a ha => absurd ha (Nat.not_lt_zero a), fun a ha => absurd ha (Nat.not_lt_zero a),
      fun a ha => absurd ha (Nat.not_lt_zero a)⟩
  | step _ hnames hop ih => exact step_ready ih hnames hop

theorem siReplaceArray_ok (hr : Ready h) {olda newa r : ℕ} (hnew : newa < h.made)
    (hadj : (h.arrays olda).adjustable = true) (hnot : newa ∉ dependents h olda)
    (hok : siReplaceArray apart h olda newa = (.ok r, h')) :
    r = olda ∧ h'.storage = h.storage ∧ geometry h' olda = geometry h newa := by
  have hlist : ∀ d ∈ dependents h olda, d < h.made := by
    intro d hd
    obtain ⟨c, hc⟩ := mem_dependents hd
    exact hr.listed c d hc
  obtain ⟨-, -, hstorage, hgeo⟩ := redisplace_ready apart hr hnew hlist
  unfold siReplaceArray at hok
  split at hok
  · cases hok
  · rw [if_neg (by simp [hadj])] at hok
    split at hok
    · cases hok
    · next h₁ heq =>
      cases hok
      rw [heq] at hstorage hgeo
      refine ⟨rfl, hstorage, ?_⟩
      rw [← hgeo hnot]
      simp [geometry]

structure KeepsElements (h h' : Heap V) (array : ℕ) (dims : List ℕ) : Prop where
  dims : (h'.arrays array).dims = dims
  elements : ∀ indx j j',
    subscriptsIndex .aref (asLisp (h.arrays array).toShape) indx = .ok j →
    subscriptsIndex .aref (asLisp (h'.arrays array).toShape) indx = .ok j' →
    ∃ v, aref h array j = .ok v ∧ aref h' array j' = .ok v

structure Fits (toElement : ElementType → V → Option V) (h : Heap V) (array : ℕ)
    (elementType : ElementType) (dims : List ℕ) (indx : List Index) : Prop where
  old : evaluate (h.arrays array).dims (indx.map Index.nat) 0 < (h.arrays array).dim
  new : evaluate dims (indx.map Index.nat) 0 < dims.prod % 2 ^ 64
  element : ∀ v, v = cells h (cell (h.arrays array)
      (evaluate (h.arrays array).dims (indx.map Index.nat) 0)) →
    convert toElement elementType (h.arrays array).elttype v = some v

theorem exists_subscripts {dims1 dims2 subs : List ℕ}
    (hlimit : ∀ d ∈ dims1, d ≤ ArrayBounds.arrayDimensionLimit) (hsubs : Common dims1 dims2 subs) :
    ∃ indx, Subscripts dims1 indx ∧ Subscripts dims2 indx ∧ indx.map Index.nat = subs := by
  have hfix (k : ℕ) (hk : k ∈ subs) : (BitVec.ofInt 62 (k : ℤ)).toInt = k := by
    obtain ⟨d, hd, hkd⟩ : ∃ d ∈ dims1, k < d := by
      obtain ⟨i, hi, rfl⟩ := List.mem_iff_getElem.mp hk
      have hi' : i < dims1.length := by rwa [← hsubs.1.length_eq]
      exact ⟨dims1[i], List.getElem_mem hi', (List.forall₂_iff_get.mp hsubs.1).2 i hi hi'⟩
    have hdl := hlimit d hd
    simp only [ArrayBounds.arrayDimensionLimit] at hdl
    apply BitVec.toInt_ofInt_eq_self (by decide) <;> omega
  have hmap : (subs.map fun k : ℕ => Index.fixnum (BitVec.ofInt 62 (k : ℤ))).map Index.nat = subs := by
    rw [List.map_map]
    calc subs.map (Index.nat ∘ fun k : ℕ => Index.fixnum (BitVec.ofInt 62 (k : ℤ)))
        = subs.map id := by
          apply List.map_congr_left
          intro k hk
          rw [Function.comp_apply, Index.nat, hfix k hk, Int.toNat_natCast]
          rfl
      _ = subs := List.map_id subs
  have hvalid : ∀ i ∈ subs.map fun k : ℕ => Index.fixnum (BitVec.ofInt 62 (k : ℤ)), i.Valid := by
    intro i hi
    obtain ⟨k, hk, rfl⟩ := List.mem_map.mp hi
    refine ⟨_, rfl, ?_⟩
    rw [hfix k hk]
    exact Int.natCast_nonneg k
  refine ⟨_, ⟨hvalid, ?_⟩, ⟨hvalid, ?_⟩, hmap⟩
  · rw [hmap]
    exact hsubs.1
  · rw [hmap]
    exact hsubs.2

/-- What adjust-array leaves: the old object with the shape and the storage of a new one, into which
the elements have been copied. -/
theorem adjustArray_ok (hr : Ready h) {memory array r : ℕ} {newDimensions : Dimensions}
    {elementType : ElementType} {fillPointer : FillPointer} {contents : ℕ → V}
    (harray : array < h.made) (hadj : (h.arrays array).adjustable = true)
    (hok : adjustArray apart toElement memory h array newDimensions elementType fillPointer contents =
      (.ok r, h')) :
    r = array ∧ ∃ x m m', ArrayBounds.Made memory elementType newDimensions.bases none (.fixnum 0) x ∧
      copyArrayContents toElement ⟨shapeOf x, none, ⟨h.made, 0⟩⟩ (h.arrays array) m = some m' ∧
      (∀ i, m (cell (h.arrays array) i) = cells h (cell (h.arrays array) i)) ∧
      cells h' = m' ∧ geometry h' array = (shapeOf x, ⟨h.made, 0⟩) := by
  unfold adjustArray at hok
  dsimp only at hok
  split at hok
  · cases hok
  · split at hok
    · cases hok
    · next x hx =>
      have hmade := siMakePureArray_spec hx
      have hnew := hr.newArray (asLisp_shapeOf_shaped hmade.shaped) hmade.size
      have hne : array ≠ h.made := harray.ne
      simp only [siMakeArray, Function.update_self, Function.update_of_ne hne] at hok
      split at hok
      · cases hok
      · next m' hcopy =>
        split at hok
        · cases hok
        · next hreplace =>
          cases hok
          have hlisted : h.made ∉ dependents h array := by
            intro hd
            obtain ⟨c, hc⟩ := mem_dependents hd
            exact lt_irrefl _ (hr.listed c _ hc)
          obtain ⟨hresult, hstorage, hgeo⟩ := siReplaceArray_ok
            ((hnew.withStorage _).withStorage _) (Nat.lt_succ_self _)
            (by simpa [withCells, hne] using hadj)
            (by simpa [withCells, dependents, hne] using hlisted) hreplace
          refine ⟨hresult, x, _, m', hmade, hcopy, ?_, ?_, ?_⟩
          · intro i
            have hblock := (hr.block_lt array harray).ne
            simp [cells, cell, hblock]
          · funext p
            rw [cells, hstorage]
          · rw [hgeo]
            simp [geometry]

theorem aref_eq_ok {a i : ℕ} {v : V} :
    aref h a i = .ok v ↔ i < (h.arrays a).dim ∧ v = cells h (cell (h.arrays a) i) := by
  unfold aref
  dsimp only
  split
  · next hle =>
    constructor
    · intro hv
      cases hv
    · rintro ⟨hlt, -⟩
      omega
  · next hlt =>
    rw [Except.ok.injEq]
    exact ⟨fun hv => ⟨by omega, hv.symm⟩, fun hv => hv.2.symm⟩

/-- Adjusting an array keeps the elements in place exactly when no subscripts that are valid before
and after leave the total size of an array, which make-array lets wrap around, and the new element
type has the elements. -/
theorem adjustArray_keeps_iff (hr : Reached apart toElement Declared h) {memory array r : ℕ}
    {newDimensions : Dimensions} {elementType : ElementType} {fillPointer : FillPointer}
    {contents : ℕ → V} (harray : array < h.made) (hadj : (h.arrays array).adjustable = true)
    (hrank : newDimensions.bases.length = (h.arrays array).dims.length)
    (hok : adjustArray apart toElement memory h array newDimensions elementType fillPointer contents =
      (.ok r, h')) :
    r = array ∧ (KeepsElements h h' array newDimensions.bases ↔
      ∀ indx, Subscripts (h.arrays array).dims indx → Subscripts newDimensions.bases indx →
        Fits toElement h array elementType newDimensions.bases indx) := by
  have hr := reached_ready hr
  obtain ⟨rfl, x, m, m', hmade, hcopy, hm, hcells, hgeo⟩ := adjustArray_ok hr harray hadj hok
  refine ⟨rfl, ?_⟩
  have hshape : (h'.arrays r).toShape = shapeOf x := congrArg Prod.fst hgeo
  have hself : (h'.arrays r).self = ⟨h.made, 0⟩ := congrArg Prod.snd hgeo
  have hdims : (h'.arrays r).dims = newDimensions.bases := by
    rw [hshape]
    exact hmade.dims
  have hdim : (h'.arrays r).dim = newDimensions.bases.prod % 2 ^ 64 := by
    rw [hshape]
    exact hmade.wrapped
  have hsize : x.dim < 2 ^ 64 := lt_of_le_of_lt hmade.size (by decide)
  have hold : (h.arrays r).dim < 2 ^ 64 := lt_of_le_of_lt (hr.dim_le r harray) (by decide)
  have hxdims : (shapeOf x).dims = newDimensions.bases := hmade.dims
  have hxtype : (shapeOf x).elttype = elementType := hmade.elttype
  have hlimit : ∀ d ∈ newDimensions.bases, d ≤ ArrayBounds.arrayDimensionLimit := hmade.dimensions
  obtain ⟨hsmall, hspec⟩ := copyArrayContents_spec (hr.block_lt r harray).ne' hsize hold
    (by rwa [hxdims]) (by rwa [hxdims]) hcopy
  dsimp only at hsmall hspec
  rw [hxdims] at hsmall hspec
  rw [hxtype] at hspec
  have hshaped := hr.shaped r harray
  have hshaped' : Shaped (asLisp (h'.arrays r).toShape) := by
    rw [hshape]
    exact asLisp_shapeOf_shaped hmade.shaped
  have hindex {indx : List Index} (hsub : Subscripts (h.arrays r).dims indx)
      (hsub' : Subscripts newDimensions.bases indx) :
      subscriptsIndex .aref (asLisp (h.arrays r).toShape) indx =
          .ok (evaluate (h.arrays r).dims (indx.map Index.nat) 0) ∧
        subscriptsIndex .aref (asLisp (h'.arrays r).toShape) indx =
          .ok (evaluate newDimensions.bases (indx.map Index.nat) 0) := by
    obtain ⟨hnew, hold⟩ := hsmall _ ⟨hsub'.2, hsub.2⟩
    constructor
    · exact (subscriptsIndex_iff hshaped).mpr ⟨hsub.1, hsub.2, (Nat.mod_eq_of_lt hold).symm⟩
    · apply (subscriptsIndex_iff hshaped').mpr
      have hlisp : (asLisp (h'.arrays r).toShape).dims = newDimensions.bases := hdims
      rw [hlisp]
      exact ⟨hsub'.1, hsub'.2, (Nat.mod_eq_of_lt hnew).symm⟩
  have hplace (j : ℕ) : cells h' (cell (h'.arrays r) j) = m' (cell ⟨shapeOf x, none, ⟨h.made, 0⟩⟩ j) := by
    rw [hcells, cell, hself, cell]
  constructor
  · intro hkeep
    have hin {indx : List Index} (hsub : Subscripts (h.arrays r).dims indx)
        (hsub' : Subscripts newDimensions.bases indx) :
        evaluate newDimensions.bases (indx.map Index.nat) 0 < newDimensions.bases.prod % 2 ^ 64 ∧
          evaluate (h.arrays r).dims (indx.map Index.nat) 0 < (h.arrays r).dim ∧
          cells h' (cell (h'.arrays r) (evaluate newDimensions.bases (indx.map Index.nat) 0)) =
            cells h (cell (h.arrays r) (evaluate (h.arrays r).dims (indx.map Index.nat) 0)) := by
      obtain ⟨hj, hj'⟩ := hindex hsub hsub'
      obtain ⟨v, hv, hv'⟩ := hkeep.elements _ _ _ hj hj'
      obtain ⟨hlt, rfl⟩ := aref_eq_ok.mp hv
      obtain ⟨hlt', heq⟩ := aref_eq_ok.mp hv'
      exact ⟨hdim ▸ hlt', hlt, heq.symm⟩
    intro indx hsub hsub'
    obtain ⟨hnew, hold, heq⟩ := hin hsub hsub'
    refine ⟨hold, hnew, ?_⟩
    rintro v rfl
    have hcopied := hspec (by
      intro subs hsubs
      obtain ⟨indx, hs', hs, rfl⟩ := exists_subscripts hlimit hsubs
      obtain ⟨h1, h2, -⟩ := hin hs hs'
      exact ⟨lt_of_lt_of_eq h1 hmade.wrapped.symm, h2⟩) _ ⟨hsub'.2, hsub.2⟩
    rwa [hm, ← hplace, heq] at hcopied
  · intro hfits
    refine ⟨hdims, ?_⟩
    intro indx j j' hj hj'
    obtain ⟨hvalid, hdigits, -⟩ := (subscriptsIndex_iff hshaped).mp hj
    obtain ⟨-, hdigits', -⟩ := (subscriptsIndex_iff hshaped').mp hj'
    have hsub : Subscripts (h.arrays r).dims indx := ⟨hvalid, hdigits⟩
    have hsub' : Subscripts newDimensions.bases indx := ⟨hvalid, hdims ▸ hdigits'⟩
    obtain ⟨hi, hi'⟩ := hindex hsub hsub'
    cases hj.symm.trans hi
    cases hj'.symm.trans hi'
    have hfit := hfits indx hsub hsub'
    have hcopied := hspec (by
      intro subs hsubs
      obtain ⟨indx, hs', hs, rfl⟩ := exists_subscripts hlimit hsubs
      have hf := hfits indx hs hs'
      exact ⟨lt_of_lt_of_eq hf.new hmade.wrapped.symm, hf.old⟩) _ ⟨hsub'.2, hsub.2⟩
    rw [hm, hfit.element _ rfl, Option.some.injEq] at hcopied
    refine ⟨_, aref_eq_ok.mpr ⟨hfit.old, rfl⟩, aref_eq_ok.mpr ⟨?_, ?_⟩⟩
    · rw [hdim]
      exact hfit.new
    · rw [hplace]
      exact hcopied

end

def withArray (x : LispArray) : Heap ℕ :=
  step inOrder anyElement (emptyHeap fun _ _ => 0) (.make (shapeOf x) none (10 + ·))

def adjusted (x : LispArray) (newDimensions : List Index) : Except AdjustError ℕ × Heap ℕ :=
  adjustArray inOrder anyElement 1000 (withArray x) 0 (.list newDimensions) .object .nil fun _ => 0

def twoByThree : LispArray := ⟨.object, false, [2, 3], 6, true, none, .self 48⟩

theorem adjustArray_keeps_two_by_three :
    adjusted twoByThree [.fixnum 3, .fixnum 2] =
        (.ok 0, (adjusted twoByThree [.fixnum 3, .fixnum 2]).2) ∧
      KeepsElements (withArray twoByThree) (adjusted twoByThree [.fixnum 3, .fixnum 2]).2 0 [3, 2] := by
  have hmade : siMakePureArray 1000 .object (.list [.fixnum 2, .fixnum 3]) true .nil none (.fixnum 0) =
      .ok twoByThree := by decide +kernel
  have hreached : Reached inOrder anyElement Declared (withArray twoByThree) :=
    .step (.start _) trivial ⟨_, _, _, _, _, _, _, _, hmade, rfl⟩
  have hok : adjusted twoByThree [.fixnum 3, .fixnum 2] =
      (.ok 0, (adjusted twoByThree [.fixnum 3, .fixnum 2]).2) := by
    refine Prod.ext ?_ rfl
    decide +kernel
  refine ⟨hok, ?_⟩
  apply (adjustArray_keeps_iff hreached (by decide) rfl rfl hok).2.mpr
  intro indx hsub hsub'
  refine ⟨evaluate_lt hsub.2, evaluate_lt hsub'.2, ?_⟩
  intro v _
  rfl

def oneByOne : LispArray := ⟨.object, false, [1, 1], 1, true, none, .self 8⟩

/-- An array of one element is adjusted to 2^32 rows and columns, for which make-array allocates no
elements at all. -/
theorem adjustArray_loses_element :
    (adjusted oneByOne [.fixnum (2 ^ 32), .fixnum (2 ^ 32)]).1 = .ok 0 ∧
      aref (withArray oneByOne) 0 0 = .ok 10 ∧
      ¬ KeepsElements (withArray oneByOne) (adjusted oneByOne [.fixnum (2 ^ 32), .fixnum (2 ^ 32)]).2 0
        [2 ^ 32, 2 ^ 32] := by
  refine ⟨by decide +kernel, by decide +kernel, fun hkeep => ?_⟩
  obtain ⟨v, -, hv⟩ := hkeep.elements [.fixnum 0, .fixnum 0] 0 0 (by decide +kernel)
    (by decide +kernel)
  have hnone : aref (adjusted oneByOne [.fixnum (2 ^ 32), .fixnum (2 ^ 32)]).2 0 0 =
      .error (.outOfBounds 0 0) := by decide +kernel
  cases hnone.symm.trans hv

end ArrayAdjustment
