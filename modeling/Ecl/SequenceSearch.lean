import Ecl.Runs
import Ecl.SequenceReplacement

/-! SEARCH of src/lsp/seqlib.lsp, for vectors and with iterators. Tests and keys are functions
without side effects. -/
namespace SequenceSearch

open ArrayAdjustment (cell)
open FailingRuns (bind_ok)
open SequenceRemoval (SequenceError withStartEnd withStartEnd_ok)
open SequenceReplacement (Store Sequence Iterator Proper elements length locations makeSeqIterator
  seqIteratorRef seqIteratorNext cursor cursor_next cursor_place cursor_eq_none makeSeqIterator_eq
  nth getElem?_nth getElem?_elements)

variable {V : Type}

/-- The keyword arguments; :start1 and :start2 are 0 when absent. -/
structure Arguments (V : Type) where
  test : Option (V → V → Bool)
  testNot : Option (V → V → Bool)
  key : Option (V → V)
  start1 : ℕ
  end1 : Option ℕ
  start2 : ℕ
  end2 : Option ℕ
  fromEnd : Bool

/-- COMPARE of WITH-TESTS. -/
def withTests (eql : V → V → Bool) (test testNot : Option (V → V → Bool)) :
    Except SequenceError (V → V → Bool) :=
  match test, testNot with
  | some _, some _ => .error .bothTests
  | some test, none => .ok test
  | none, some testNot => .ok fun v1 v2 => !testNot v1 v2
  | none, none => .ok eql

def aref (st : Store V) (v i : ℕ) : V := st.mem (.element (cell (st.arrays v) i))

/-- The inner loop of SEARCH-VECTOR; compare takes the elements with their keys. -/
def matchVector (compare : V → V → Bool) (elt1 elt2 : ℕ → V) (end1 end2 i1 i2 : ℕ) : Bool :=
  if i1 + 1 ≥ end1 ∨ i2 + 1 ≥ end2 then true
  else if compare (elt1 (i1 + 1)) (elt2 (i2 + 1)) then
    matchVector compare elt1 elt2 end1 end2 (i1 + 1) (i2 + 1)
  else false
termination_by end1 - i1

def vectorLoop (compare : V → V → Bool) (elt1 elt2 : ℕ → V) (start1 end1 end2 : ℕ) (last : ℤ)
    (fromEnd : Bool) (start2 : ℕ) (lastIndex : ℤ) : Option ℕ :=
  if start2 ≥ last then if lastIndex < 0 then none else some lastIndex.toNat
  else if compare (elt1 start1) (elt2 start2) ∧
      matchVector compare elt1 elt2 end1 end2 start1 start2 then
    if fromEnd then
      vectorLoop compare elt1 elt2 start1 end1 end2 last fromEnd (start2 + 1) start2
    else some start2
  else vectorLoop compare elt1 elt2 start1 end1 end2 last fromEnd (start2 + 1) lastIndex
termination_by (last - start2).toNat

def searchVector (eql : V → V → Bool) (a : Arguments V) (st : Store V) (v1 v2 : ℕ) :
    Except SequenceError (Option ℕ) := do
  let test ← withTests eql a.test a.testNot
  let key := a.key.getD id
  let (start1, end1) ← withStartEnd (length st (.vector v1)) a.start1 a.end1
  let (start2, end2) ← withStartEnd (length st (.vector v2)) a.start2 a.end2
  let l : ℤ := end1 - start1
  if ¬ 0 < l then return some (if a.fromEnd then end2 else 0)
  return vectorLoop (fun x y => test (key x) (key y)) (aref st v1) (aref st v2) start1 end1 end2
    (end2 - l + 1) a.fromEnd start2 (-1)

/-- Where both iterators point to an element, as those of the loops do. -/
def compareRefs (compare : V → V → Bool) : Option V → Option V → Bool
  | some x, some y => compare x y
  | _, _ => false

def matchGeneric (compare : V → V → Bool) (st : Store V) (sequence1 sequence2 : Sequence)
    (end1 end2 : ℕ) (it1 it2 : Iterator) (i1 i2 : ℕ) : Bool :=
  match seqIteratorNext st sequence1 it1, seqIteratorNext st sequence2 it2 with
  | some it1, some it2 =>
    if i1 + 1 ≥ end1 ∨ i2 + 1 ≥ end2 then true
    else if compareRefs compare (seqIteratorRef st sequence1 it1) (seqIteratorRef st sequence2 it2) then
      matchGeneric compare st sequence1 sequence2 end1 end2 it1 it2 (i1 + 1) (i2 + 1)
    else false
  | _, _ => true
termination_by end1 - i1

def genericLoop (compare : V → V → Bool) (st : Store V) (sequence1 sequence2 : Sequence)
    (start1 end1 end2 : ℕ) (last : ℤ) (fromEnd : Bool) (it1 : Iterator) (start2 : ℕ)
    (it2 : Option Iterator) (lastIndex : ℤ) : Option ℕ :=
  match it2 with
  | none => if lastIndex < 0 then none else some lastIndex.toNat
  | some it2 =>
    if start2 ≥ last then if lastIndex < 0 then none else some lastIndex.toNat
    else if compareRefs compare (seqIteratorRef st sequence1 it1) (seqIteratorRef st sequence2 it2) ∧
        matchGeneric compare st sequence1 sequence2 end1 end2 it1 it2 start1 start2 then
      if fromEnd then
        genericLoop compare st sequence1 sequence2 start1 end1 end2 last fromEnd it1 (start2 + 1)
          (seqIteratorNext st sequence2 it2) start2
      else some start2
    else
      genericLoop compare st sequence1 sequence2 start1 end1 end2 last fromEnd it1 (start2 + 1)
        (seqIteratorNext st sequence2 it2) lastIndex
termination_by (last - start2).toNat

def searchGeneric (eql : V → V → Bool) (a : Arguments V) (st : Store V)
    (sequence1 sequence2 : Sequence) : Except SequenceError (Option ℕ) := do
  let test ← withTests eql a.test a.testNot
  let key := a.key.getD id
  let (start1, end1) ← withStartEnd (length st sequence1) a.start1 a.end1
  let (start2, end2) ← withStartEnd (length st sequence2) a.start2 a.end2
  let l : ℤ := end1 - start1
  if ¬ 0 < l then return some (if a.fromEnd then end2 else 0)
  match makeSeqIterator st sequence1 start1 with
  | none => return none
  | some it1 =>
    return genericLoop (fun x y => test (key x) (key y)) st sequence1 sequence2 start1 end1 end2
      (end2 - l + 1) a.fromEnd it1 start2 (makeSeqIterator st sequence2 start2) (-1)

def search (eql : V → V → Bool) (a : Arguments V) (st : Store V) (sequence1 sequence2 : Sequence) :
    Except SequenceError (Option ℕ) :=
  match sequence1, sequence2 with
  | .vector v1, .vector v2 => searchVector eql a st v1 v2
  | sequence1, sequence2 => searchGeneric eql a st sequence1 sequence2

def OccursAt (compare : V → V → Bool) (elts1 elts2 : List V) (start1 l k : ℕ) : Prop :=
  ∀ i < l, ∀ x ∈ elts1[start1 + i]?, ∀ y ∈ elts2[k + i]?, compare x y = true

def Found (fromEnd : Bool) (p : ℕ → Prop) : Option ℕ → Prop
  | none => ∀ k, ¬ p k
  | some k => p k ∧ ∀ k', p k' → if fromEnd then k' ≤ k else k ≤ k'

def Occurrence (compare : V → V → Bool) (st : Store V) (s1 s2 : Sequence) (start1 end1 start2 end2 : ℕ)
    (k : ℕ) : Prop :=
  start2 ≤ k ∧ k + (end1 - start1) ≤ end2 ∧
    OccursAt compare (elements st s1) (elements st s2) start1 (end1 - start1) k

section
variable {compare : V → V → Bool} {elt1 elt2 : ℕ → V} {st : Store V} {s1 s2 : Sequence}
  {start1 end1 start2 end2 : ℕ} {last : ℤ} {fromEnd : Bool}

/-- A position at which the inner loop gets to its end. -/
def Matches (compare : V → V → Bool) (elt1 elt2 : ℕ → V) (start1 end1 end2 k : ℕ) : Prop :=
  compare (elt1 start1) (elt2 k) = true ∧
    matchVector compare elt1 elt2 end1 end2 start1 k = true

variable (compare) in
theorem vectorLoop_spec (lastIndex : ℤ) :
    let r := vectorLoop compare elt1 elt2 start1 end1 end2 last fromEnd start2 lastIndex
    ((∀ k, start2 ≤ k → (k : ℤ) < last → ¬ Matches compare elt1 elt2 start1 end1 end2 k) ∧
        r = if lastIndex < 0 then none else some lastIndex.toNat) ∨
      ∃ k, r = some k ∧ start2 ≤ k ∧ (k : ℤ) < last ∧ Matches compare elt1 elt2 start1 end1 end2 k ∧
        ∀ k', start2 ≤ k' → (k' : ℤ) < last → Matches compare elt1 elt2 start1 end1 end2 k' →
          if fromEnd then k' ≤ k else k ≤ k' := by
  intro r
  generalize hn : (last - start2).toNat = n
  induction n using Nat.strongRecOn generalizing start2 lastIndex with
  | ind n ih =>
    have hr : r = vectorLoop compare elt1 elt2 start1 end1 end2 last fromEnd start2 lastIndex := rfl
    clear_value r
    rw [vectorLoop] at hr
    split at hr
    · next hend =>
      left
      refine ⟨fun k hk hlt => ?_, hr⟩
      omega
    · next hend =>
      have hnext := @ih ((last - (start2 + 1 : ℕ)).toNat) (by omega) (start2 + 1)
      split at hr
      · next hmatch =>
        right
        split at hr
        · next hfrom =>
          rcases hnext start2 rfl with ⟨hnone, hstay⟩ | ⟨k, hk, hle, hlt, hkm, hmost⟩
          · rw [if_neg (by omega)] at hstay
            refine ⟨start2, hr.trans hstay, le_rfl, by omega, hmatch, ?_⟩
            intro k' hk' hlt' hm'
            rw [if_pos hfrom]
            by_contra hgt
            exact hnone k' (by omega) hlt' hm'
          · refine ⟨k, hr.trans hk, by omega, hlt, hkm, ?_⟩
            intro k' hk' hlt' hm'
            rcases Nat.eq_or_lt_of_le hk' with rfl | hlater
            · rw [if_pos hfrom]
              omega
            · exact hmost k' hlater hlt' hm'
        · next hfrom =>
          refine ⟨start2, hr, le_rfl, by omega, hmatch, ?_⟩
          intro k' hk' _ _
          rwa [if_neg hfrom]
      · next hmatch =>
        rcases hnext lastIndex rfl with ⟨hnone, hstay⟩ | ⟨k, hk, hle, hlt, hkm, hmost⟩
        · left
          refine ⟨fun k hk hlt hm => ?_, hr.trans hstay⟩
          rcases Nat.eq_or_lt_of_le hk with rfl | hlater
          · exact hmatch hm
          · exact hnone k hlater hlt hm
        · right
          refine ⟨k, hr.trans hk, by omega, hlt, hkm, ?_⟩
          intro k' hk' hlt' hm'
          rcases Nat.eq_or_lt_of_le hk' with rfl | hlater
          · exact absurd hm' hmatch
          · exact hmost k' hlater hlt' hm'

theorem matchVector_iff {i1 i2 : ℕ} (h : i2 + (end1 - i1) ≤ end2) :
    matchVector compare elt1 elt2 end1 end2 i1 i2 = true ↔
      ∀ i, 0 < i → i1 + i < end1 → compare (elt1 (i1 + i)) (elt2 (i2 + i)) = true := by
  generalize hn : end1 - i1 = n
  induction n generalizing i1 i2 with
  | zero =>
    rw [matchVector, if_pos (Or.inl (by omega))]
    refine ⟨fun _ i _ hi => ?_, fun _ => rfl⟩
    omega
  | succ n ih =>
    rw [matchVector]
    split
    · next hend =>
      refine ⟨fun _ i _ hi => ?_, fun _ => rfl⟩
      omega
    · next hend =>
      have hrest := @ih (i1 + 1) (i2 + 1) (by omega) (by omega)
      split
      · next hone =>
        rw [hrest]
        constructor
        · intro hall i hpos hi
          rcases Nat.eq_or_lt_of_le hpos with rfl | hlater
          · exact hone
          · have hi' := hall (i - 1) (by omega) (by omega)
            have h1 : i1 + 1 + (i - 1) = i1 + i := by omega
            have h2 : i2 + 1 + (i - 1) = i2 + i := by omega
            rwa [h1, h2] at hi'
        · intro hall i hpos hi
          have hi' := hall (i + 1) (by omega) (by omega)
          rwa [Nat.add_comm i 1, ← Nat.add_assoc, ← Nat.add_assoc] at hi'
      · next hone =>
        constructor
        · intro h
          cases h
        · intro hall
          exact absurd (hall 1 Nat.one_pos (by omega)) hone

def elementAt (st : Store V) : Sequence → ℕ → V
  | .list p, i => st.mem (nth (locations st (.list p)) i)
  | .vector v, i => aref st v i

theorem elementAt_get {s : Sequence} {i : ℕ} (hi : i < length st s) :
    (elements st s)[i]? = some (elementAt st s i) := by
  rw [getElem?_elements hi]
  cases s with
  | list p => rfl
  | vector v =>
    rw [SequenceReplacement.nth_vector]
    · rfl
    · rwa [SequenceReplacement.length_vector] at hi

theorem cursor_lt {s : Sequence} {i : ℕ} {it : Iterator} (h : cursor st s i = some it) :
    i < length st s := by
  by_contra hle
  cases h.symm.trans (cursor_eq_none.mpr (not_lt.mp hle))

theorem cursor_ref {s : Sequence} {i : ℕ} {it : Iterator} (h : cursor st s i = some it) :
    seqIteratorRef st s it = some (elementAt st s i) := by
  have hi := cursor_lt h
  rw [← elementAt_get hi, getElem?_elements hi, seqIteratorRef, cursor_place h, getElem?_nth hi]
  rfl

theorem matchGeneric_eq (hs1 : Proper st s1) (hs2 : Proper st s2) (h1 : end1 ≤ length st s1)
    (h2 : end2 ≤ length st s2) {it1 it2 : Iterator} {i1 i2 : ℕ} (hc1 : cursor st s1 i1 = some it1)
    (hc2 : cursor st s2 i2 = some it2) :
    matchGeneric compare st s1 s2 end1 end2 it1 it2 i1 i2 =
      matchVector compare (elementAt st s1) (elementAt st s2) end1 end2 i1 i2 := by
  generalize hn : end1 - i1 = n
  induction n using Nat.strongRecOn generalizing it1 it2 i1 i2 with
  | ind n ih =>
    rw [matchGeneric, matchVector, cursor_next hs1 hc1, cursor_next hs2 hc2]
    cases hn1 : cursor st s1 (i1 + 1) with
    | none =>
      have hend : i1 + 1 ≥ end1 := h1.trans (cursor_eq_none.mp hn1)
      rw [if_pos (Or.inl hend)]
    | some it1' =>
      cases hn2 : cursor st s2 (i2 + 1) with
      | none =>
        have hend : i2 + 1 ≥ end2 := h2.trans (cursor_eq_none.mp hn2)
        rw [if_pos (Or.inr hend)]
      | some it2' =>
        dsimp only
        split
        · rfl
        · next hend =>
          rw [cursor_ref hn1, cursor_ref hn2, compareRefs, ih (end1 - (i1 + 1)) (by omega) hn1 hn2 rfl]

theorem genericLoop_eq (hs1 : Proper st s1) (hs2 : Proper st s2) (h1 : end1 ≤ length st s1)
    (h2 : end2 ≤ length st s2) (hlast : last ≤ length st s2) {it1 : Iterator}
    (hc1 : cursor st s1 start1 = some it1) (start2 : ℕ) (lastIndex : ℤ) :
    genericLoop compare st s1 s2 start1 end1 end2 last fromEnd it1 start2 (cursor st s2 start2)
        lastIndex =
      vectorLoop compare (elementAt st s1) (elementAt st s2) start1 end1 end2 last fromEnd start2
        lastIndex := by
  generalize hn : (last - start2).toNat = n
  induction n using Nat.strongRecOn generalizing start2 lastIndex with
  | ind n ih =>
    rw [genericLoop.eq_def, vectorLoop]
    cases hc2 : cursor st s2 start2 with
    | none =>
      have hnone := cursor_eq_none.mp hc2
      have hend : (start2 : ℤ) ≥ last := by omega
      rw [if_pos hend]
    | some it2 =>
      dsimp only
      split
      · rfl
      · next hend =>
        rw [cursor_ref hc1, cursor_ref hc2, compareRefs, matchGeneric_eq hs1 hs2 h1 h2 hc1 hc2,
          cursor_next hs2 hc2, ih _ (by omega) (start2 + 1) start2 rfl,
          ih _ (by omega) (start2 + 1) lastIndex rfl]

def indexSearch (compare : V → V → Bool) (st : Store V) (s1 s2 : Sequence)
    (start1 end1 start2 end2 : ℕ) (fromEnd : Bool) : Option ℕ :=
  let l : ℤ := end1 - start1
  if ¬ 0 < l then some (if fromEnd then end2 else 0)
  else vectorLoop compare (elementAt st s1) (elementAt st s2) start1 end1 end2 (end2 - l + 1) fromEnd
    start2 (-1)

variable {eql : V → V → Bool} {a : Arguments V} {test : V → V → Bool}

theorem searchGeneric_eq (hs1 : Proper st s1) (hs2 : Proper st s2)
    (htests : withTests eql a.test a.testNot = .ok test)
    (h1 : withStartEnd (length st s1) a.start1 a.end1 = .ok (start1, end1))
    (h2 : withStartEnd (length st s2) a.start2 a.end2 = .ok (start2, end2)) :
    searchGeneric eql a st s1 s2 = .ok (indexSearch (fun x y => test (a.key.getD id x)
      (a.key.getD id y)) st s1 s2 start1 end1 start2 end2 a.fromEnd) := by
  obtain ⟨hb1, hle1, hend1⟩ := withStartEnd_ok h1
  obtain ⟨hb2, hle2, hend2⟩ := withStartEnd_ok h2
  obtain ⟨-, rfl⟩ := Prod.mk.inj hb1
  obtain ⟨-, rfl⟩ := Prod.mk.inj hb2
  rw [searchGeneric, htests, h1, h2]
  simp only [bind, Except.bind, indexSearch]
  split
  · rfl
  · next hl =>
    rw [makeSeqIterator_eq hs1, makeSeqIterator_eq hs2]
    cases hc1 : cursor st s1 start1 with
    | none =>
      have := cursor_eq_none.mp hc1
      omega
    | some it1 =>
      apply congrArg Except.ok
      exact genericLoop_eq hs1 hs2 hend1 hend2 (by omega) hc1 start2 (-1)

theorem searchVector_eq {v1 v2 : ℕ} (htests : withTests eql a.test a.testNot = .ok test)
    (h1 : withStartEnd (length st (.vector v1)) a.start1 a.end1 = .ok (start1, end1))
    (h2 : withStartEnd (length st (.vector v2)) a.start2 a.end2 = .ok (start2, end2)) :
    searchVector eql a st v1 v2 = .ok (indexSearch (fun x y => test (a.key.getD id x)
      (a.key.getD id y)) st (.vector v1) (.vector v2) start1 end1 start2 end2 a.fromEnd) := by
  rw [searchVector, htests, h1, h2]
  simp only [bind, Except.bind, indexSearch]
  split <;> rfl

theorem matches_iff {k : ℕ} (h1 : end1 ≤ length st s1) (h2 : end2 ≤ length st s2)
    (hl : start1 < end1) (hk : k + (end1 - start1) ≤ end2) :
    Matches compare (elementAt st s1) (elementAt st s2) start1 end1 end2 k ↔
      OccursAt compare (elements st s1) (elements st s2) start1 (end1 - start1) k := by
  have hvalue {i : ℕ} (hi : i < end1 - start1) : (elements st s1)[start1 + i]? =
      some (elementAt st s1 (start1 + i)) ∧ (elements st s2)[k + i]? = some (elementAt st s2 (k + i)) :=
    ⟨elementAt_get (by omega), elementAt_get (by omega)⟩
  rw [Matches, matchVector_iff hk]
  constructor
  · rintro ⟨hfirst, hrest⟩ i hi
    rw [(hvalue hi).1, (hvalue hi).2]
    intro x hx y hy
    cases hx
    cases hy
    rcases Nat.eq_zero_or_pos i with rfl | hpos
    · exact hfirst
    · exact hrest i hpos (by omega)
  · intro h
    have hat (i : ℕ) (hi : i < end1 - start1) :
        compare (elementAt st s1 (start1 + i)) (elementAt st s2 (k + i)) = true :=
      h i hi _ (hvalue hi).1 _ (hvalue hi).2
    exact ⟨hat 0 (by omega), fun i _ hi => hat i (by omega)⟩

theorem indexSearch_found (h1 : end1 ≤ length st s1) (h2 : end2 ≤ length st s2) (hle : start2 ≤ end2) :
    Found fromEnd (Occurrence compare st s1 s2 start1 end1 start2 end2)
        (indexSearch compare st s1 s2 start1 end1 start2 end2 fromEnd) ↔
      start1 < end1 ∨ fromEnd = true ∨ start2 = 0 := by
  by_cases hl : start1 < end1
  · refine ⟨fun _ => Or.inl hl, fun _ => ?_⟩
    have hoccurs (k : ℕ) : Occurrence compare st s1 s2 start1 end1 start2 end2 k ↔
        start2 ≤ k ∧ (k : ℤ) < end2 - (end1 - start1) + 1 ∧
          Matches compare (elementAt st s1) (elementAt st s2) start1 end1 end2 k := by
      apply and_congr_right
      intro _
      constructor
      · rintro ⟨hk, hocc⟩
        exact ⟨by omega, (matches_iff h1 h2 hl hk).mpr hocc⟩
      · rintro ⟨hk, hm⟩
        have hk : k + (end1 - start1) ≤ end2 := by omega
        exact ⟨hk, (matches_iff h1 h2 hl hk).mp hm⟩
    rw [indexSearch, if_neg (by omega)]
    rcases vectorLoop_spec compare (-1) with ⟨hnone, hr⟩ | ⟨k, hr, hle, hlt, hm, hmost⟩
    · rw [hr, if_pos (by omega)]
      intro k hk
      obtain ⟨hle, hlt, hm⟩ := (hoccurs k).mp hk
      exact hnone k hle hlt hm
    · rw [hr]
      refine ⟨(hoccurs k).mpr ⟨hle, hlt, hm⟩, ?_⟩
      intro k' hk'
      obtain ⟨hle', hlt', hm'⟩ := (hoccurs k').mp hk'
      exact hmost k' hle' hlt' hm'
  · have hempty : end1 - start1 = 0 := by omega
    have hoccurs (k : ℕ) : Occurrence compare st s1 s2 start1 end1 start2 end2 k ↔
        start2 ≤ k ∧ k ≤ end2 := by
      rw [Occurrence, hempty, Nat.add_zero]
      refine ⟨fun h => ⟨h.1, h.2.1⟩, fun h => ⟨h.1, h.2, fun i hi => ?_⟩⟩
      omega
    rw [indexSearch, if_pos (by omega), or_iff_right hl]
    cases fromEnd with
    | true =>
      refine ⟨fun _ => Or.inl rfl, fun _ => ⟨(hoccurs end2).mpr ⟨hle, le_rfl⟩, ?_⟩⟩
      intro k hk
      exact ((hoccurs k).mp hk).2
    | false =>
      constructor
      · intro h
        have := ((hoccurs 0).mp h.1).1
        exact Or.inr (by omega)
      · rintro (h | rfl)
        · cases h
        · refine ⟨(hoccurs 0).mpr ⟨le_rfl, Nat.zero_le _⟩, fun k _ => Nat.zero_le k⟩

theorem searchGeneric_bounds {r : Option ℕ} (h : searchGeneric eql a st s1 s2 = .ok r) :
    ∃ b1 b2, withStartEnd (length st s1) a.start1 a.end1 = .ok b1 ∧
      withStartEnd (length st s2) a.start2 a.end2 = .ok b2 := by
  obtain ⟨test, _, h⟩ := bind_ok h
  obtain ⟨b1, h1, h⟩ := bind_ok h
  obtain ⟨b2, h2, _⟩ := bind_ok h
  exact ⟨b1, b2, h1, h2⟩

theorem searchVector_bounds {v1 v2 : ℕ} {r : Option ℕ} (h : searchVector eql a st v1 v2 = .ok r) :
    ∃ b1 b2, withStartEnd (length st (.vector v1)) a.start1 a.end1 = .ok b1 ∧
      withStartEnd (length st (.vector v2)) a.start2 a.end2 = .ok b2 := by
  obtain ⟨test, _, h⟩ := bind_ok h
  obtain ⟨b1, h1, h⟩ := bind_ok h
  obtain ⟨b2, h2, _⟩ := bind_ok h
  exact ⟨b1, b2, h1, h2⟩

theorem search_bounds {r : Option ℕ} (h : search eql a st s1 s2 = .ok r) :
    ∃ b1 b2, withStartEnd (length st s1) a.start1 a.end1 = .ok b1 ∧
      withStartEnd (length st s2) a.start2 a.end2 = .ok b2 := by
  cases s1 with
  | list p => exact searchGeneric_bounds h
  | vector v1 =>
    cases s2 with
    | list p => exact searchGeneric_bounds h
    | vector v2 => exact searchVector_bounds h

theorem search_eq (hs1 : Proper st s1) (hs2 : Proper st s2)
    (htests : withTests eql a.test a.testNot = .ok test)
    (h1 : withStartEnd (length st s1) a.start1 a.end1 = .ok (start1, end1))
    (h2 : withStartEnd (length st s2) a.start2 a.end2 = .ok (start2, end2)) :
    search eql a st s1 s2 = .ok (indexSearch (fun x y => test (a.key.getD id x)
      (a.key.getD id y)) st s1 s2 start1 end1 start2 end2 a.fromEnd) := by
  cases s1 with
  | list p => exact searchGeneric_eq hs1 hs2 htests h1 h2
  | vector v1 =>
    cases s2 with
    | list p => exact searchGeneric_eq hs1 hs2 htests h1 h2
    | vector v2 => exact searchVector_eq htests h1 h2

/-- SEARCH finds the right occurrence, with both versions, exactly when the pattern is not empty, the
search goes from the end, or it starts at the beginning. -/
theorem search_iff (hs1 : Proper st s1) (hs2 : Proper st s2)
    (htests : withTests eql a.test a.testNot = .ok test) {r : Option ℕ}
    (h : search eql a st s1 s2 = .ok r) :
    (Found a.fromEnd (Occurrence (fun x y => test (a.key.getD id x) (a.key.getD id y)) st s1 s2
        a.start1 (a.end1.getD (length st s1)) a.start2 (a.end2.getD (length st s2))) r ∧
      searchGeneric eql a st s1 s2 = .ok r) ↔
    a.start1 < a.end1.getD (length st s1) ∨ a.fromEnd = true ∨ a.start2 = 0 := by
  obtain ⟨b1, b2, h1, h2⟩ := search_bounds h
  obtain ⟨rfl, hle1, hend1⟩ := withStartEnd_ok h1
  obtain ⟨rfl, hle2, hend2⟩ := withStartEnd_ok h2
  have hr := h.symm.trans (search_eq hs1 hs2 htests h1 h2)
  rw [searchGeneric_eq hs1 hs2 htests h1 h2, ← hr, and_iff_left rfl, Except.ok.inj hr]
  exact indexSearch_found hend1 hend2 hle2

end

/-- No keyword arguments but :start2. -/
def startingAt (start2 : ℕ) : Arguments ℕ := ⟨none, none, none, 0, none, start2, none, false⟩

/-- The pattern (13 14) is a tail of the list. -/
theorem search_iff_digits :
    ∃ r, search (· == ·) (startingAt 1) SequenceReplacement.digits (.list (some 3)) (.list (some 0)) =
        .ok r ∧
      Found false (Occurrence (· == ·) SequenceReplacement.digits (.list (some 3)) (.list (some 0))
        0 2 1 5) r := by
  have htail : Proper SequenceReplacement.digits (.list (some 3)) :=
    ⟨[3, 4], ⟨rfl, rfl, rfl⟩, by decide, by decide⟩
  have hlist := SequenceReplacement.digits_proper
  have hr : search (· == ·) (startingAt 1) SequenceReplacement.digits (.list (some 3))
      (.list (some 0)) = .ok _ := search_eq htail hlist rfl rfl rfl
  exact ⟨_, hr, ((search_iff htail hlist rfl hr).mpr (Or.inl (by decide))).1⟩

/-- (search nil l :start2 2) is 0. -/
theorem empty_pattern_before_start :
    search (· == ·) (startingAt 2) SequenceReplacement.digits (.list none) (.list (some 0)) =
        .ok (some 0) ∧
      ¬ Found false (Occurrence (· == ·) SequenceReplacement.digits (.list none) (.list (some 0))
        0 0 2 5) (some 0) := by
  refine ⟨rfl, fun h => ?_⟩
  exact absurd h.1.1 (by decide)

end SequenceSearch
