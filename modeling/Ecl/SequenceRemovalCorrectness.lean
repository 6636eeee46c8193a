import Ecl.VectorRemoval

/-! # What REMOVE and DELETE leave of a sequence

The abstract sequence is a list without the requested number of matches between the bounds.
A vector with a fill pointer is compacted in place, with a final copy that is longer than the
active part. -/
namespace SequenceRemovalCorrectness

open Integers ConsChains MatchRemoval SequenceRemoval ListRemoval VectorRemoval

variable {α : Type}

def stopOf (a : Arguments α) (length : ℕ) : ℕ := a.stop.getD length

def InBounds (a : Arguments α) (length : ℕ) : Prop :=
  a.start ≤ stopOf a length ∧ stopOf a length ≤ length

def bounded (a : Arguments α) (length : ℕ) (l : List α) : List α :=
  (l.drop a.start).take (stopOf a length - a.start)

def withoutMatches (compare : α → Bool) (a : Arguments α) (l : List α) : List α :=
  removeWithin compare a.fromEnd a.start (stopOf a l.length)
    (requested a.count ((bounded a l.length l).countP compare)) l

/-- The final copy finds in the storage past the end what it writes there. -/
def CopyHarmless (compare : α → Bool) (a : Arguments α) (v : Vector α) : Prop :=
  let mid := bounded a v.length v.storage
  ∀ i, v.length ≤ i →
    i + requested a.count (mid.countP compare) <
      min v.storage.length (a.start + reached compare a mid + v.length) →
    v.storage[i + requested a.count (mid.countP compare)]? = v.storage[i]?

variable {compare : α → Bool} {a : Arguments α}

theorem bounded_length_le (length : ℕ) (l : List α) :
    (bounded a length l).length ≤ l.length := by
  rw [bounded, List.length_take, List.length_drop]
  omega

theorem withoutMatches_eq {l : List α} (h : (l.length : ℤ) ≤ mostPositiveFixnum) :
    withoutMatches compare a l = removeWithin compare a.fromEnd a.start (stopOf a l.length)
      (sequenceCount a.count).toNat l := by
  have hcount := List.countP_le_length (p := compare) (l := bounded a l.length l)
  have hlen := bounded_length_le (a := a) l.length l
  rw [withoutMatches, requested_eq a.count (by omega)]
  exact removeWithin_min compare a.fromEnd a.start _ _ l

theorem sequenceCount_pos (count : Option ℤ) : 0 < sequenceCount count ↔ ∀ c ∈ count, 0 < c := by
  cases count with
  | none => exact ⟨fun _ => nofun, fun _ => by decide⟩
  | some c =>
    have hpos : (0 : ℤ) < mostPositiveFixnum := by decide
    simp only [sequenceCount, Option.mem_def, Option.some.injEq, forall_eq']
    split
    · exact Iff.rfl
    · split
      · constructor <;> intro h <;> omega
      · next hfits hneg =>
        refine ⟨fun _ => ?_, fun _ => hpos⟩
        have hzero : c ≠ 0 := fun h => hfits (h ▸ by decide)
        omega

theorem elements_length {v : Vector α} (hv : v.WellFormed) : v.elements.length = v.length := by
  rw [Vector.elements, List.length_take, Nat.min_eq_left hv.length_le]

theorem storage_parts {v : Vector α} (hv : v.WellFormed) (hbounds : InBounds a v.length) :
    ∃ pre mid tail, v.storage = pre ++ mid ++ tail ∧ a.start = pre.length ∧
      a.stop.getD v.length = pre.length + mid.length ∧ bounded a v.length v.storage = mid ∧
      bounded a v.length v.elements = mid := by
  obtain ⟨pre, mid, tail, hstorage, hpre, hmid⟩ :=
    three_parts hbounds.1 (hbounds.2.trans hv.length_le)
  have hstop : pre.length + mid.length ≤ v.length := hmid ▸ hbounds.2
  refine ⟨pre, mid, tail, hstorage, hpre.symm, hmid.symm, ?_, ?_⟩
  · rw [bounded, ← hmid, ← hpre, Nat.add_sub_cancel_left, hstorage, List.append_assoc,
      List.drop_left, List.take_left]
  · rw [bounded, ← hmid, ← hpre, Nat.add_sub_cancel_left, elements_parts hstorage hstop,
      List.append_assoc, List.drop_left, List.take_left]

theorem withoutMatches_elements {v : Vector α} (hv : v.WellFormed) :
    withoutMatches compare a v.elements = removeWithin compare a.fromEnd a.start
      (a.stop.getD v.length) (sequenceCount a.count).toNat v.elements := by
  have hdim := hv.dimension
  have hle := hv.length_le
  rw [withoutMatches_eq (by rw [elements_length hv]; omega), elements_length hv]
  rfl

theorem withoutMatches_nothing {v : Vector α} (hv : v.WellFormed) (hbounds : InBounds a v.length)
    (h : min (sequenceCount a.count).toNat ((bounded a v.length v.elements).countP compare) = 0) :
    withoutMatches compare a v.elements = v.elements := by
  rw [withoutMatches_elements hv, ← removeWithin_min]
  rw [bounded, stopOf] at h
  rw [h]
  exact removeWithin_zero compare a.fromEnd hbounds.1 (by rw [elements_length hv]; exact hbounds.2)

theorem copyHarmless_iff {v : Vector α} (hv : v.WellFormed) {mid : List α}
    (hmid : bounded a v.length v.storage = mid) :
    CopyHarmless compare a v ↔ ∀ i, v.length ≤ i →
      i + min (sequenceCount a.count).toNat (mid.countP compare) <
        min v.storage.length (a.start + reached compare a mid + v.length) →
      v.storage[i + min (sequenceCount a.count).toNat (mid.countP compare)]? = v.storage[i]? := by
  have hcount := List.countP_le_length (p := compare) (l := bounded a v.length v.storage)
  have hlen := bounded_length_le (a := a) v.length v.storage
  have hdim := hv.dimension
  have hrequested := requested_eq a.count
    (show ((bounded a v.length v.storage).countP compare : ℤ) ≤ mostPositiveFixnum by omega)
  rw [hmid] at hrequested
  simp only [CopyHarmless, hmid, hrequested]

variable [Inhabited α] {eql : α → α → Bool}

theorem filterVector_nothing {same : Bool} (bits : Bool) {v : Vector α}
    (htests : withTests eql a = .ok compare) (hbounds : InBounds a v.length)
    (hcount : ¬ 0 < sequenceCount a.count) :
    filterVector eql bits same a v = .ok (v, none) := by
  simp only [filterVector, htests, withStartEnd_eq hbounds.1 hbounds.2, bind, Except.bind,
    if_neg hcount]
  rfl

theorem filterVector_fresh (bits : Bool) {v : Vector α} (htests : withTests eql a = .ok compare)
    (hv : v.WellFormed) (hbounds : InBounds a v.length) :
    ∃ v' l, filterVector eql bits false a v = .ok (v', l) ∧
      v'.elements = withoutMatches compare a v.elements := by
  obtain ⟨pre, mid, tail, hstorage, hpre, hmid, -, hactive⟩ := storage_parts hv hbounds
  have hstop : pre.length + mid.length ≤ v.length := hmid ▸ hbounds.2
  by_cases hcount : 0 < sequenceCount a.count
  · by_cases hnone : mid.countP compare = 0
    · have hzero : min (sequenceCount a.count).toNat
          ((bounded a v.length v.elements).countP compare) = 0 := by
        rw [hactive, hnone, Nat.min_zero]
      have hexisting : countVector compare v.storage (a.stop.getD v.length - a.start) a.start 0 =
          0 := by
        rw [hmid, hpre, Nat.add_sub_cancel_left, countVector_spec (by
          rw [hstorage]
          simp only [List.length_append]
          omega), hstorage, List.append_assoc, List.drop_left, List.take_left, hnone]
      refine ⟨v, some v.length, ?_, (withoutMatches_nothing hv hbounds hzero).symm⟩
      simp only [filterVector, htests, withStartEnd_eq hbounds.1 hbounds.2, bind, Except.bind,
        if_pos hcount, hexisting, and_self, if_true]
      rfl
    · obtain ⟨kept, m, m', hfilter, h⟩ := filterVector_spec bits false htests hv
        hstorage hpre hmid hstop hcount (fun hc => hnone hc.2)
      refine ⟨_, _, hfilter, ?_⟩
      have hkept := h.kept_length
      have hreach := h.reached_le
      have hsize := h.size
      have hlen : m'.out.length = m.out.length := h.copied.2.2
      rw [if_neg Bool.false_ne_true] at hsize
      have helements := h.elements hv hstorage hpre hmid hstop
      have hall : pre.length + kept.length + (v.length - (pre.length + reached compare a mid)) =
          m'.out.length := by omega
      rw [withoutMatches_elements hv, ← helements, hall, Vector.elements]
      rfl
  · have hzero : min (sequenceCount a.count).toNat
        ((bounded a v.length v.elements).countP compare) = 0 := by omega
    exact ⟨v, none, filterVector_nothing bits htests hbounds hcount,
      (withoutMatches_nothing hv hbounds hzero).symm⟩

/-- DELETE in place leaves the right elements, and the storage past the old end if the final copy
does no harm there. -/
theorem deleteVector_inPlace (bits : Bool) {v : Vector α} (htests : withTests eql a = .ok compare)
    (hv : v.WellFormed) (hbounds : InBounds a v.length) (hfill : v.fillPointer.isSome = true)
    (hcount : 0 < sequenceCount a.count) :
    ∃ v', deleteVector eql bits a v = .ok v' ∧
      v'.elements = withoutMatches compare a v.elements ∧
      (v'.storage.drop v.length = v.storage.drop v.length ↔ CopyHarmless compare a v) := by
  obtain ⟨pre, mid, tail, hstorage, hpre, hmid, hbounded, -⟩ := storage_parts hv hbounds
  have hstop : pre.length + mid.length ≤ v.length := hmid ▸ hbounds.2
  obtain ⟨kept, m, m', hfilter, h⟩ := filterVector_spec bits true htests hv
    hstorage hpre hmid hstop hcount (fun hc => Bool.noConfusion hc.1)
  have hkept := h.kept_length
  have hreach := h.reached_le
  have hle := hv.length_le
  have hlen : m'.out.length = v.storage.length := h.copied.2.2.trans h.size
  have hpointer : ¬ pre.length + kept.length + (v.length - (pre.length + reached compare a mid)) >
      m'.out.length := by omega
  have hdelete : deleteVector eql bits a v = .ok ⟨m'.out,
      some (pre.length + kept.length + (v.length - (pre.length + reached compare a mid)))⟩ := by
    simp only [deleteVector, if_pos hfill, hfilter, bind, Except.bind, fillPointerSet,
      if_neg hpointer]
  refine ⟨_, hdelete, ?_, ?_⟩
  · rw [withoutMatches_elements hv, ← h.elements hv hstorage hpre hmid hstop]
    rfl
  · rw [copyHarmless_iff hv hbounded, hpre]
    constructor
    · intro hdrop i hi hlt
      have hsame := congrArg (·[i - v.length]?) hdrop
      simp only [List.getElem?_drop, Nat.add_sub_cancel' hi] at hsame
      rw [h.beyond hstorage hstop hi, if_pos hlt] at hsame
      exact hsame
    · intro hharmless
      apply List.ext_getElem?
      intro i
      rw [List.getElem?_drop, List.getElem?_drop, h.beyond hstorage hstop (Nat.le_add_right _ i)]
      split
      · next hlt => exact hharmless _ (Nat.le_add_right _ i) hlt
      · rfl

/-- REMOVE and DELETE do as defined, but for DELETE of a vector with a fill pointer when the
count is not positive or when the final copy changes the storage past the end. -/
theorem removal_agrees_iff (eql : α → α → Bool) (a : Arguments α) (compare : α → Bool)
    (htests : withTests eql a = .ok compare) :
    (∀ l : List α, (l.length : ℤ) ≤ mostPositiveFixnum → InBounds a l.length →
      removeSequence eql a l = .ok (withoutMatches compare a l)) ∧
    (∀ (m : Memory α) (p : Option ℕ) (cells : List ℕ),
      (cells.length : ℤ) ≤ mostPositiveFixnum → Chain m p cells → InBounds a cells.length →
      ∃ m' p' cells', deleteSequence eql a cells.length m p = .ok (m', p') ∧
        Chain m' p' cells' ∧ cells'.map m'.car = withoutMatches compare a (cells.map m.car)) ∧
    (∀ (bits : Bool) (v : Vector α), v.WellFormed → InBounds a v.length →
      ∃ v', removeVector eql bits a v = .ok v' ∧
        v'.elements = withoutMatches compare a v.elements) ∧
    ∀ (bits : Bool) (v : Vector α), v.WellFormed → InBounds a v.length →
      ((∃ v', deleteVector eql bits a v = .ok v' ∧
          v'.elements = withoutMatches compare a v.elements ∧
          (v.fillPointer.isSome = true →
            v'.storage.drop v.length = v.storage.drop v.length)) ↔
        (v.fillPointer.isSome = true →
          (∀ count ∈ a.count, 0 < count) ∧ CopyHarmless compare a v)) := by
  refine ⟨fun l hl hbounds => ?_, fun m p cells hl hchain hbounds => ?_,
    fun bits v hv hbounds => ?_, fun bits v hv hbounds => ?_⟩
  · rw [withoutMatches_eq hl]
    exact removeSequence_spec htests hbounds.1 hbounds.2
  · obtain ⟨m', p', cells', hdelete, hchain', hcars⟩ :=
      deleteSequence_spec htests hchain hbounds.1 hbounds.2
    refine ⟨m', p', cells', hdelete, hchain', hcars.trans ?_⟩
    rw [withoutMatches_eq (by rwa [List.length_map]), List.length_map]
    rfl
  · obtain ⟨v', l, hfilter, helements⟩ := filterVector_fresh bits htests hv hbounds
    exact ⟨v', by simp only [removeVector, hfilter, bind, Except.bind]; rfl, helements⟩
  · by_cases hfill : v.fillPointer.isSome = true
    · rw [← sequenceCount_pos]
      by_cases hcount : 0 < sequenceCount a.count
      · obtain ⟨v', hdelete, helements, hiff⟩ :=
          deleteVector_inPlace bits htests hv hbounds hfill hcount
        constructor
        · rintro ⟨v'', hdelete', -, hstorage⟩ -
          cases hdelete.symm.trans hdelete'
          exact ⟨hcount, hiff.mp (hstorage hfill)⟩
        · intro h
          exact ⟨v', hdelete, helements, fun _ => hiff.mpr (h hfill).2⟩
      · -- the second value is missing
        have hdelete : deleteVector eql bits a v = .error .badFillPointer := by
          simp only [deleteVector, if_pos hfill, filterVector_nothing bits htests hbounds hcount,
            bind, Except.bind, fillPointerSet]
        constructor
        · rintro ⟨v', hdelete', -⟩
          cases hdelete.symm.trans hdelete'
        · exact fun h => absurd (h hfill).1 hcount
    · obtain ⟨v', l, hfilter, helements⟩ := filterVector_fresh bits htests hv hbounds
      refine ⟨fun _ h => absurd h hfill, fun _ => ⟨v', ?_, helements, fun h => absurd h hfill⟩⟩
      simp only [deleteVector, if_neg hfill, hfilter, bind, Except.bind]
      rfl

def ones (count : Option ℤ) : Arguments ℕ := ⟨1, none, none, none, 0, none, false, count⟩

theorem removal_agrees_iff_one :
    removeSequence (· == ·) (ones none) [1, 2, 1] =
        .ok (withoutMatches (fun elt => 1 == elt) (ones none) [1, 2, 1]) ∧
      ((∃ v', deleteVector (· == ·) false (ones none) ⟨[1, 2, 3], some 3⟩ = .ok v' ∧
          v'.elements = withoutMatches (fun elt => 1 == elt) (ones none) [1, 2, 3] ∧
          (true = true → v'.storage.drop 3 = [])) ↔
        (true = true → (∀ count ∈ (none : Option ℤ), 0 < count) ∧
          CopyHarmless (fun elt => 1 == elt) (ones none) ⟨[1, 2, 3], some 3⟩)) :=
  have h := removal_agrees_iff (fun x y : ℕ => x == y) (ones none) (fun elt => 1 == elt) rfl
  ⟨h.1 [1, 2, 1] (by decide) ⟨by decide, by decide⟩,
    h.2.2.2 false ⟨[1, 2, 3], some 3⟩ ⟨by decide, by decide⟩ ⟨by decide, by decide⟩⟩

/-- A zero count is an error, and elements past the fill pointer are overwritten. -/
theorem delete_fill_pointer_fails :
    deleteVector (fun x y : ℕ => x == y) false (ones (some 0)) ⟨[1, 2], some 2⟩ =
        .error .badFillPointer ∧
      deleteVector (fun x y : ℕ => x == y) false (ones none) ⟨[1, 2, 3, 4], some 2⟩ =
        .ok ⟨[2, 3, 4, 4], some 1⟩ :=
  ⟨rfl, rfl⟩

end SequenceRemovalCorrectness
