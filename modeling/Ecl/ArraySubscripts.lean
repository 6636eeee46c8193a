import Ecl.ElementStores

/-! array-row-major-index of src/lsp/arraylib.lsp and row-major-aref beside aref of src/c/array.d.
The numbers of the Lisp loop are not bounded. -/
namespace ArraySubscripts

open Integers ElementStores
open ArrayBounds (ElementType LispArray Index Shaped Dimensions FillPointer DisplacedTo
  subscriptsIndex subscriptsIndex_iff siMakePureArray siMakePureArray_spec)
open MixedRadix (Digits evaluate)

inductive SubscriptError where
  | wrongDimensions (rank : ℕ)
  | notValid (indices : List Index)
  | size (index : ℤ)
  | wrongIndex (index nonincLimit : ℕ)
  deriving DecidableEq

structure Answer where
  reads : List ℕ
  result : Except SubscriptError ℤ
  deriving DecidableEq

def arrayRank (x : LispArray) : ℕ := if x.isVector then 1 else x.dims.length

/-- beyond is the word behind the dimensions of a t_array. -/
def arrayDimension (beyond : ℤ) (x : LispArray) (index : ℕ) : Except SubscriptError ℤ :=
  if x.isVector then
    if index ≠ 0 then .error (.wrongDimensions (index + 1)) else .ok x.dim
  else if index > x.dims.length then .error (.wrongDimensions (index + 1))
  else match x.dims[index]? with
    | some d => .ok d
    | none => .ok beyond

/-- The loop of row-major-index-inner. -/
def indexLoop (beyond : ℤ) (array : LispArray) (indices : List Index) :
    ℕ → ℤ → List Index → Answer
  | i, j, [] => ⟨[], if i < arrayRank array then .error (.notValid indices) else .ok j⟩
  | i, j, o :: s =>
    match arrayDimension beyond array i with
    | .error e => ⟨[], .error e⟩
    | .ok d =>
      match o with
      | .other => ⟨[i], .error (.notValid indices)⟩
      | .fixnum ndx =>
        if 0 ≤ ndx.toInt ∧ ndx.toInt < d then
          let rest := indexLoop beyond array indices (i + 1) (j * d + ndx.toInt) s
          ⟨i :: rest.reads, rest.result⟩
        else ⟨[i], .error (.notValid indices)⟩

def arrayRowMajorIndex (beyond : ℤ) (array : LispArray) (indices : List Index) : Answer :=
  indexLoop beyond array indices 0 0 indices

def toSize (indx : ℤ) : Except SubscriptError ℕ :=
  if 0 ≤ indx ∧ indx ≤ mostPositiveFixnum then .ok indx.toNat else .error (.size indx)

def rowMajorAref (x : ElementArray) (indx : ℤ) : Except SubscriptError Object :=
  match toSize indx with
  | .error e => .error e
  | .ok j =>
    if j ≥ x.dim then .error (.wrongIndex j x.dim) else .ok (arefUnsafe x.elttype x.offset x.cells j)

def Subscripts (dims : List ℕ) (indx : List Index) : Prop :=
  (∀ i ∈ indx, i.Valid) ∧ Digits (indx.map Index.nat) dims

structure OneRule (beyond : ℤ) (x : ElementArray) (indx : List Index) : Prop where
  aref : (∃ v, aref x indx = .ok v) ↔ Subscripts x.dims indx
  accepts : (∃ j, (arrayRowMajorIndex beyond x.toLispArray indx).result = .ok j) ↔
    Subscripts x.dims indx
  element : ∀ j, (arrayRowMajorIndex beyond x.toLispArray indx).result = .ok j →
    ∃ v, rowMajorAref x j = .ok v ∧ ElementStores.aref x indx = .ok v
  reads : ∀ i ∈ (arrayRowMajorIndex beyond x.toLispArray indx).reads, i < arrayRank x.toLispArray

/-- Subscripts for all dimensions of a t_array, and more of them. -/
def Overruns (isVector : Bool) (dims : List ℕ) (indx : List Index) : Prop :=
  isVector = false ∧ dims.length < indx.length ∧ Subscripts dims (indx.take dims.length)

section
variable {beyond : ℤ} {array : LispArray} {indices : List Index}

theorem subscripts_cons {d : ℕ} {dims : List ℕ} {o : Index} {s : List Index} :
    Subscripts (d :: dims) (o :: s) ↔ (o.Valid ∧ o.nat < d) ∧ Subscripts dims s := by
  rw [Subscripts, Subscripts, List.forall_mem_cons, List.map_cons, Digits, List.forall₂_cons]
  exact and_and_and_comm

theorem subscripts_nil_left {s : List Index} : Subscripts [] s ↔ s = [] := by
  constructor
  · rintro ⟨-, h⟩
    exact List.map_eq_nil_iff.mp (List.forall₂_nil_right_iff.mp h)
  · rintro rfl
    exact ⟨by simp, List.Forall₂.nil⟩

theorem subscripts_nil_right {dims : List ℕ} : Subscripts dims [] ↔ dims = [] := by
  constructor
  · rintro ⟨-, h⟩
    exact List.forall₂_nil_left_iff.mp h
  · rintro rfl
    exact ⟨by simp, List.Forall₂.nil⟩

theorem overruns_cons {v : Bool} {d : ℕ} {dims : List ℕ} {o : Index} {s : List Index} :
    Overruns v (d :: dims) (o :: s) ↔ (o.Valid ∧ o.nat < d) ∧ Overruns v dims s := by
  rw [Overruns, Overruns, List.length_cons, List.length_cons, List.take_succ_cons, subscripts_cons,
    Nat.add_lt_add_iff_right]
  constructor
  · rintro ⟨hv, hlen, ho, hs⟩
    exact ⟨ho, hv, hlen, hs⟩
  · rintro ⟨ho, hv, hlen, hs⟩
    exact ⟨hv, hlen, ho, hs⟩

theorem overruns_nil {v : Bool} {o : Index} {s : List Index} : Overruns v [] (o :: s) ↔ v = false := by
  rw [Overruns, List.length_nil, List.take_zero, subscripts_nil_left]
  exact ⟨fun h => h.1, fun h => ⟨h, Nat.succ_pos _, rfl⟩⟩

theorem valid_fixnum {n : Fixnum} : (Index.fixnum n).Valid ↔ 0 ≤ n.toInt := by
  constructor
  · rintro ⟨n', h, hn⟩
    rwa [Index.fixnum.inj h]
  · intro hn
    exact ⟨n, rfl, hn⟩

theorem not_valid_other : ¬ Index.other.Valid := by
  rintro ⟨n, h, -⟩
  cases h

theorem arrayRank_eq (hx : Shaped array) : arrayRank array = array.dims.length := by
  rw [arrayRank]
  split
  · next hv => rw [(hx.vector hv).1, List.length_singleton]
  · rfl

theorem arrayDimension_get (hx : Shaped array) {i d : ℕ} (h : array.dims[i]? = some d) :
    arrayDimension beyond array i = .ok d := by
  have hi : i < array.dims.length := (List.getElem?_eq_some_iff.mp h).1
  rw [arrayDimension]
  split
  · next hv =>
    obtain ⟨hdims, -⟩ := hx.vector hv
    rw [hdims, List.length_singleton] at hi
    obtain rfl : i = 0 := by omega
    rw [hdims] at h
    rw [if_neg (by simp), Option.some.inj h]
  · rw [if_neg (by omega), h]

theorem arrayDimension_end (hx : Shaped array) :
    arrayDimension beyond array array.dims.length =
      if array.isVector then .error (.wrongDimensions 2) else .ok beyond := by
  rw [arrayDimension]
  split
  · next hv => rw [(hx.vector hv).1, List.length_singleton, if_pos Nat.one_ne_zero]
  · rw [if_neg (lt_irrefl _), List.getElem?_eq_none le_rfl]

variable (beyond indices) in
theorem indexLoop_spec (hx : Shaped array) {i : ℕ} {j : ℕ} {s : List Index}
    (hi : i ≤ array.dims.length) (hs : ¬ Overruns array.isVector (array.dims.drop i) s) :
    (∀ k ∈ (indexLoop beyond array indices i j s).reads, k < array.dims.length) ∧
      ((∃ r, (indexLoop beyond array indices i j s).result = .ok r) ↔
        Subscripts (array.dims.drop i) s) ∧
      ∀ r, (indexLoop beyond array indices i j s).result = .ok r →
        r = evaluate (array.dims.drop i) (s.map Index.nat) j := by
  induction s generalizing i j with
  | nil =>
    rw [indexLoop, arrayRank_eq hx, subscripts_nil_right, List.drop_eq_nil_iff]
    refine ⟨by simp, ?_, ?_⟩
    · split
      · next hlt => simpa using hlt
      · next hle => simpa using hle
    · intro r hr
      split at hr
      · cases hr
      · cases hr
        rw [List.drop_eq_nil_of_le (by omega)]
        rfl
  | cons o s ih =>
    rcases Nat.lt_or_ge i array.dims.length with hlt | hge
    · obtain ⟨d, hd⟩ : ∃ d, array.dims[i]? = some d := ⟨_, List.getElem?_eq_getElem hlt⟩
      have hdrop : array.dims.drop i = d :: array.dims.drop (i + 1) := by
        rw [List.drop_eq_getElem_cons hlt, (List.getElem?_eq_some_iff.mp hd).2]
      rw [hdrop, overruns_cons] at hs
      rw [hdrop, subscripts_cons, indexLoop, arrayDimension_get hx hd]
      cases o with
      | other => simpa [not_valid_other] using hlt
      | fixnum n =>
        rw [valid_fixnum, Index.nat] at hs ⊢
        dsimp only
        split
        · next hn =>
          have hlow : 0 ≤ n.toInt ∧ n.toInt.toNat < d := ⟨hn.1, by omega⟩
          have hnext : (j : ℤ) * d + n.toInt = ((j * d + n.toInt.toNat : ℕ) : ℤ) := by
            rw [Nat.cast_add, Nat.cast_mul, Int.toNat_of_nonneg hn.1]
          rw [hnext]
          obtain ⟨hreads, hiff, hvalue⟩ := ih (i := i + 1) (j := j * d + n.toInt.toNat) hlt
            fun h => hs ⟨hlow, h⟩
          refine ⟨?_, ?_, ?_⟩
          · rw [List.forall_mem_cons]
            exact ⟨hlt, hreads⟩
          · rw [hiff, and_iff_right hlow]
          · exact hvalue
        · next hn =>
          refine ⟨by simpa using hlt, ?_, ?_⟩
          · constructor
            · rintro ⟨r, hr⟩
              cases hr
            · rintro ⟨hlow, -⟩
              exact absurd ⟨hlow.1, by omega⟩ hn
          · intro r hr
            cases hr
    · obtain rfl : i = array.dims.length := by omega
      rw [List.drop_length, overruns_nil, Bool.not_eq_false] at hs
      rw [List.drop_length, indexLoop, arrayDimension_end hx, if_pos hs, subscripts_nil_left]
      simp

/-- The loop that runs over the end reads the word there. -/
theorem indexLoop_overruns (hx : Shaped array) {i : ℕ} {j : ℤ} {s : List Index}
    (hi : i ≤ array.dims.length) (hs : Overruns array.isVector (array.dims.drop i) s) :
    array.dims.length ∈ (indexLoop beyond array indices i j s).reads := by
  induction s generalizing i j with
  | nil => exact absurd hs.2.1 (Nat.not_lt_zero _)
  | cons o s ih =>
    rcases Nat.lt_or_ge i array.dims.length with hlt | hge
    · obtain ⟨d, hd⟩ : ∃ d, array.dims[i]? = some d := ⟨_, List.getElem?_eq_getElem hlt⟩
      have hdrop : array.dims.drop i = d :: array.dims.drop (i + 1) := by
        rw [List.drop_eq_getElem_cons hlt, (List.getElem?_eq_some_iff.mp hd).2]
      rw [hdrop, overruns_cons] at hs
      obtain ⟨⟨hvalid, hlow⟩, hrest⟩ := hs
      obtain ⟨n, rfl, hn⟩ := hvalid
      rw [Index.nat] at hlow
      rw [indexLoop, arrayDimension_get hx hd]
      dsimp only
      rw [if_pos ⟨hn, by omega⟩]
      exact List.mem_cons_of_mem _ (ih hlt hrest)
    · obtain rfl : i = array.dims.length := by omega
      rw [List.drop_length, overruns_nil] at hs
      rw [indexLoop, arrayDimension_end hx, hs, if_neg Bool.false_ne_true]
      cases o with
      | other => exact List.mem_singleton_self _
      | fixnum n =>
        dsimp only
        split
        · exact List.mem_cons_self
        · exact List.mem_singleton_self _

end

theorem toSize_natCast {j : ℕ} (hj : j ≤ ArrayBounds.arrayTotalLimit) : toSize j = .ok j := by
  rw [toSize, if_pos, Int.toNat_natCast]
  simp only [ArrayBounds.arrayTotalLimit] at hj
  simp only [mostPositiveFixnum]
  omega

theorem aref_iff {x : ElementArray} (hx : Shaped x.toLispArray) {indx : List Index} :
    (∃ v, aref x indx = .ok v) ↔ Subscripts x.dims indx := by
  rw [aref]
  cases h : subscriptsIndex .aref x.toLispArray indx with
  | error e =>
    simp only [reduceCtorEq, exists_false, false_iff]
    rintro ⟨hvalid, hdigits⟩
    have hok := (subscriptsIndex_iff (f := .aref) hx).mpr ⟨hvalid, hdigits, rfl⟩
    cases h.symm.trans hok
  | ok j =>
    obtain ⟨hvalid, hdigits, -⟩ := (subscriptsIndex_iff hx).mp h
    exact ⟨fun _ => ⟨hvalid, hdigits⟩, fun _ => ⟨_, rfl⟩⟩

/-- array-row-major-index and aref keep one rule for a list of subscripts unless the list runs over
the dimensions of a t_array, or the total size of the array, which make-array lets wrap around, is
too small for its dimensions. -/
theorem subscript_rule_iff {heap : ℕ} {etype : ElementType} {dims : Dimensions} {adj : Bool}
    {fillp : FillPointer} {displ : Option DisplacedTo} {disploff : Index} {x : ElementArray}
    (hmade : siMakePureArray heap etype dims adj fillp displ disploff = .ok x.toLispArray)
    (beyond : ℤ) (indx : List Index) :
    OneRule beyond x indx ↔ ¬ Overruns x.isVector x.dims indx ∧
      (Subscripts x.dims indx → evaluate x.dims (indx.map Index.nat) 0 < x.dim) := by
  have hmade := siMakePureArray_spec hmade
  have hx := hmade.shaped
  have hspec := indexLoop_spec beyond indx hx (j := 0) (s := indx) (Nat.zero_le _)
  rw [List.drop_zero] at hspec
  constructor
  · intro h
    have hover : ¬ Overruns x.isVector x.dims indx := by
      intro hover
      have hread := h.reads _ (indexLoop_overruns hx (Nat.zero_le _) hover)
      rw [arrayRank_eq hx] at hread
      exact lt_irrefl _ hread
    refine ⟨hover, fun hsub => ?_⟩
    obtain ⟨-, hiff, hvalue⟩ := hspec hover
    obtain ⟨j, hj⟩ := hiff.mpr hsub
    obtain ⟨v, hv, -⟩ := h.element j hj
    obtain rfl := hvalue j hj
    rw [rowMajorAref, toSize] at hv
    split at hv
    · cases hv
    · next k hk =>
      split at hk
      · cases hk
        rw [Int.toNat_natCast] at hv
        split at hv
        · cases hv
        · next hlt => exact Nat.lt_of_not_le hlt
      · cases hk
  · rintro ⟨hover, hsize⟩
    obtain ⟨hreads, hiff, hvalue⟩ := hspec hover
    refine ⟨aref_iff hx, hiff, ?_, ?_⟩
    · intro j hj
      obtain rfl := hvalue j hj
      have hsub := hiff.mp ⟨_, hj⟩
      have hlt := hsize hsub
      have hlimit := hmade.size
      have hindex := (subscriptsIndex_iff (f := .aref) hx).mpr ⟨hsub.1, hsub.2, rfl⟩
      rw [Nat.mod_eq_of_lt] at hindex
      · refine ⟨arefUnsafe x.elttype x.offset x.cells (evaluate x.dims (indx.map Index.nat) 0), ?_, ?_⟩
        · rw [rowMajorAref, toSize_natCast (by omega)]
          exact if_neg (by omega)
        · rw [aref, hindex]
      · simp only [ArrayBounds.arrayTotalLimit] at hlimit
        omega
    · rw [arrayRank_eq hx]
      exact hreads

def twoByTwo : ElementArray :=
  ⟨⟨.object, false, [2, 2], 4, false, none, .self 32⟩, 0, fun _ => fixnum 0⟩

theorem twoByTwo_made :
    siMakePureArray 100 .object (.list [.fixnum 2, .fixnum 2]) false .nil none (.fixnum 0) =
      .ok twoByTwo.toLispArray := by
  decide +kernel

theorem subscript_rule_two_by_two : OneRule 5 twoByTwo [.fixnum 1, .fixnum 1] := by
  apply (subscript_rule_iff twoByTwo_made 5 _).mpr
  constructor
  · intro h
    exact absurd h.2.1 (by decide)
  · intro _
    decide +kernel

/-- With a third subscript the word behind the two dimensions decides. -/
theorem third_subscript_accepted :
    arrayRowMajorIndex 5 twoByTwo.toLispArray [.fixnum 0, .fixnum 0, .fixnum 0] = ⟨[0, 1, 2], .ok 0⟩ ∧
      ¬ OneRule 5 twoByTwo [.fixnum 0, .fixnum 0, .fixnum 0] := by
  have hanswer : arrayRowMajorIndex 5 twoByTwo.toLispArray [.fixnum 0, .fixnum 0, .fixnum 0] =
      ⟨[0, 1, 2], .ok 0⟩ := by decide +kernel
  refine ⟨hanswer, fun h => ?_⟩
  have hread := h.reads 2 (by rw [hanswer]; decide)
  exact absurd hread (by decide)

end ArraySubscripts
