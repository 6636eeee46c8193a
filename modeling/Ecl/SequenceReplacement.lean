import Ecl.ArrayAdjustment
import Ecl.SequenceRemoval

/-! REPLACE of src/lsp/seqlib.lsp with the iterators of src/lsp/seq.lsp, on a store of conses and
arrays. -/
namespace SequenceReplacement

open ArrayAdjustment (cell convert copySubarray shorten_of_le cell_inj)
open ArrayBounds (ElementType)
open ConsChains (Memory Chain Segment)
open DisplacedArrays (ArrayObject Pointer)
open SequenceRemoval (SequenceError withStartEnd withStartEnd_ok)
open SequentialMoves

inductive Location where
  | cons (a : ℕ)
  | element (p : Pointer)
  deriving DecidableEq

inductive Sequence where
  | list (p : Option ℕ)
  | vector (v : ℕ)
  deriving DecidableEq

/-- Conses are numbered in the order in which they are made. -/
structure Store (V : Type) where
  mem : Location → V
  cdr : ℕ → Option ℕ
  size : ℕ
  arrays : ℕ → ArrayObject

inductive ReplaceError where
  | bounds (e : SequenceError)
  | element
  deriving DecidableEq

variable {V : Type} {toElement : ElementType → V → Option V}

def chain (cdr : ℕ → Option ℕ) : ℕ → Option ℕ → List ℕ
  | 0, _ => []
  | _ + 1, none => []
  | n + 1, some a => a :: chain cdr n (cdr a)

def locations (st : Store V) : Sequence → List Location
  | .list p => (chain st.cdr st.size p).map .cons
  | .vector v =>
    (List.range (st.arrays v).fillp).map fun i => .element (cell (st.arrays v) i)

def length (st : Store V) (s : Sequence) : ℕ := (locations st s).length

def elements (st : Store V) (s : Sequence) : List V := (locations st s).map st.mem

def Store.cons (st : Store V) (v : V) (q : Option ℕ) : Store V × Option ℕ :=
  ({ st with
    mem := Function.update st.mem (.cons st.size) v
    cdr := Function.update st.cdr st.size q
    size := st.size + 1 }, some st.size)

def makeList : List V → Store V → Store V × Option ℕ
  | [], st => (st, none)
  | v :: vs, st =>
    let (st, q) := makeList vs st
    st.cons v q

/-- SUBSEQ of a list. -/
def subseq (st : Store V) (p : Option ℕ) (start stop : ℕ) : Store V × Option ℕ :=
  makeList (((elements st (.list p)).drop start).take (stop - start)) st

inductive Iterator where
  | cons (a : ℕ)
  | index (i : ℕ)
  deriving DecidableEq

def nthcdr (cdr : ℕ → Option ℕ) : ℕ → Option ℕ → Option ℕ
  | 0, p => p
  | _ + 1, none => none
  | n + 1, some a => nthcdr cdr n (cdr a)

def makeSeqIterator (st : Store V) (s : Sequence) (start : ℕ) : Option Iterator :=
  match s with
  | .list p => (nthcdr st.cdr start p).map .cons
  | .vector v => if start < (st.arrays v).fillp then some (.index start) else none

def place (st : Store V) (s : Sequence) : Iterator → Option Location
  | .cons a => some (.cons a)
  | .index i =>
    match s with
    | .vector v => some (.element (cell (st.arrays v) i))
    | .list _ => none

def seqIteratorRef (st : Store V) (s : Sequence) (it : Iterator) : Option V :=
  (place st s it).map st.mem

/-- What SETF makes of a value that is to be an element. -/
def stored (toElement : ElementType → V → Option V) (st : Store V) : Sequence → V → Option V
  | .list _, value => some value
  | .vector v, value => toElement (st.arrays v).elttype value

def seqIteratorSet (toElement : ElementType → V → Option V) (st : Store V) (s : Sequence)
    (it : Iterator) (value : V) : Option (Store V) := do
  let l ← place st s it
  let value ← stored toElement st s value
  return { st with mem := Function.update st.mem l value }

def seqIteratorNext (st : Store V) (s : Sequence) : Iterator → Option Iterator
  | .cons a => (st.cdr a).map .cons
  | .index i =>
    match s with
    | .vector v => if i + 1 < (st.arrays v).fillp then some (.index (i + 1)) else none
    | .list _ => none

/-- The loop of REPLACE; the iterator of the second sequence runs over data. -/
def replaceLoop (toElement : ElementType → V → Option V) (s1 s2 data : Sequence) :
    ℕ → Option Iterator → Option Iterator → Store V → Option (Store V)
  | 0, _, _, st => some st
  | n + 1, some it1, some it2, st => do
    let value ← seqIteratorRef st s2 it2
    let st ← seqIteratorSet toElement st s1 it1 value
    replaceLoop toElement s1 s2 data n (seqIteratorNext st s1 it1) (seqIteratorNext st data it2) st
  | _ + 1, _, _, st => some st

def withCells (st : Store V) (cells : Pointer → V) : Location → V
  | .cons a => st.mem (.cons a)
  | .element p => cells p

def copyVector (toElement : ElementType → V → Option V) (st : Store V) (v1 start1 v2 start2 l : ℕ) :
    Option (Store V) := do
  let cells ← copySubarray toElement (v1 = v2) (st.arrays v1) start1 (st.arrays v2) start2 l
    fun p => st.mem (.element p)
  return { st with mem := withCells st cells }

def replaceElements (toElement : ElementType → V → Option V) (st : Store V) (s1 s2 : Sequence)
    (start1 start2 stop2 l : ℕ) : Option (Store V) :=
  match s1, s2 with
  | .vector v1, .vector v2 => copyVector toElement st v1 start1 v2 start2 l
  | .list p, s2 =>
    if s2 = .list p ∧ start1 > start2 then
      let (st, data) := subseq st p start2 stop2
      replaceLoop toElement (.list p) s2 (.list data) l (makeSeqIterator st (.list p) start1)
        (makeSeqIterator st (.list data) start2) st
    else
      replaceLoop toElement (.list p) s2 s2 l (makeSeqIterator st (.list p) start1)
        (makeSeqIterator st s2 start2) st
  | .vector v, s2 =>
    replaceLoop toElement (.vector v) s2 s2 l (makeSeqIterator st (.vector v) start1)
      (makeSeqIterator st s2 start2) st

def replace (toElement : ElementType → V → Option V) (st : Store V) (s1 s2 : Sequence)
    (start1 : ℕ) (end1 : Option ℕ) (start2 : ℕ) (end2 : Option ℕ) :
    Except ReplaceError (Store V) :=
  match withStartEnd (length st s1) start1 end1, withStartEnd (length st s2) start2 end2 with
  | .error e, _ => .error (.bounds e)
  | _, .error e => .error (.bounds e)
  | .ok bounds1, .ok bounds2 =>
    match replaceElements toElement st s1 s2 bounds1.1 bounds2.1 bounds2.2
      (min (bounds2.2 - bounds2.1) (bounds1.2 - bounds1.1)) with
    | none => .error .element
    | some st => .ok st

def conses (st : Store V) : Memory V := ⟨fun a => ⟨st.mem (.cons a), st.cdr a⟩, st.size⟩

/-- Proper lists, and vectors that have all elements in front of the fill pointer. -/
def Proper (st : Store V) : Sequence → Prop
  | .list p => ∃ l, Chain (conses st) p l
  | .vector v => (st.arrays v).fillp ≤ (st.arrays v).dim ∧ (st.arrays v).dim < 2 ^ 64

/-- Element start1 + i of s1 is the element start2 + i that s2 had, for every i < l, and the other
elements are what they were. -/
def Replaced (st st' : Store V) (s1 s2 : Sequence) (start1 start2 l : ℕ) : Prop :=
  ∀ i, (elements st' s1)[i]? =
    if start1 ≤ i ∧ i < start1 + l then (elements st s2)[start2 + (i - start1)]?
    else (elements st s1)[i]?

/-- Values that are read before they are overwritten are stored as they are; one that is
overwritten before is replaced by an equal one. -/
def Undisturbed (conversion : V → Option V) (st : Store V) (s1 s2 : Sequence)
    (start1 start2 l : ℕ) : Prop :=
  ∀ i < l, ∀ value ∈ (elements st s2)[start2 + i]?,
    ((∀ j < i, (locations st s2)[start2 + i]? ≠ (locations st s1)[start1 + j]?) →
        conversion value = some value) ∧
      ∀ j < i, (locations st s2)[start2 + i]? = (locations st s1)[start1 + j]? →
        ∀ first ∈ (elements st s2)[start2 + j]?, conversion first = some value

/-- The copy of the elements begins at start2, but is read from start2 on: its elements, as far as it
goes, happen to be the right ones, and the others to be there already. -/
def Coincident (st : Store V) (s : Sequence) (start1 start2 stop2 l : ℕ) : Prop :=
  ∀ i < l, (elements st s)[start2 + i]? =
    if start2 + (start2 + i) < stop2 then (elements st s)[start2 + (start2 + i)]?
    else (elements st s)[start1 + i]?

def Safe (toElement : ElementType → V → Option V) (st : Store V) (s1 s2 : Sequence)
    (start1 start2 stop2 l : ℕ) : Prop :=
  match s1, s2 with
  | .vector v1, .vector v2 =>
    ((st.arrays v1).elttype ≠ (st.arrays v2).elttype ∨ (st.arrays v1).elttype = .bit) →
      ¬ (v1 = v2 ∧ start1 > start2) →
      Undisturbed (convert toElement (st.arrays v1).elttype (st.arrays v2).elttype) st (.vector v1)
        (.vector v2) start1 start2 l
  | s1, s2 =>
    if s1 = s2 ∧ start1 > start2 then Coincident st s1 start1 start2 stop2 l
    else Undisturbed (stored toElement st s1) st s1 s2 start1 start2 l

section
variable {st st' : Store V} {s s1 s2 data : Sequence} {m : Location → V}

theorem chain_eq {m : Memory V} {n : ℕ} {p : Option ℕ} {l : List ℕ} (h : Segment m p l none)
    (hn : l.length ≤ n) : chain m.cdr n p = l := by
  induction l generalizing n p with
  | nil =>
    cases h
    cases n <;> rfl
  | cons a l ih =>
    obtain ⟨rfl, hrest⟩ := h
    cases n with
    | zero => exact absurd hn (by simp)
    | succ n => rw [chain, ih hrest (Nat.le_of_succ_le_succ hn)]

theorem nthcdr_eq {m : Memory V} {p : Option ℕ} {l : List ℕ} (h : Segment m p l none) (i : ℕ) :
    nthcdr m.cdr i p = l[i]? := by
  induction l generalizing i p with
  | nil =>
    cases h
    cases i <;> rfl
  | cons a l ih =>
    obtain ⟨rfl, hrest⟩ := h
    cases i with
    | zero => rfl
    | succ i => exact ih hrest i

theorem getElem?_cdr {m : Memory V} {p : Option ℕ} {l : List ℕ} (h : Segment m p l none) {i a : ℕ}
    (hi : l[i]? = some a) : m.cdr a = l[i + 1]? := by
  induction l generalizing i p with
  | nil => cases hi
  | cons b l ih =>
    obtain ⟨rfl, hrest⟩ := h
    cases i with
    | zero =>
      cases hi
      cases l with
      | nil => exact hrest
      | cons c l => exact hrest.1
    | succ i => exact ih hrest hi

theorem Proper.chain {p : Option ℕ} (h : Proper st (.list p)) :
    Chain (conses st) p (chain st.cdr st.size p) := by
  obtain ⟨l, hl⟩ := h
  have heq : SequenceReplacement.chain st.cdr st.size p = l := chain_eq hl.links hl.length_le
  rwa [heq]

theorem Proper.withMem (h : Proper st s) (m : Location → V) : Proper { st with mem := m } s := by
  cases s with
  | list p =>
    obtain ⟨l, hl⟩ := h
    exact ⟨l, hl.links.congr fun _ _ => rfl, hl.nodup, hl.used⟩
  | vector v => exact h

@[simp] theorem locations_withMem : locations { st with mem := m } s = locations st s := by
  cases s <;> rfl

@[simp] theorem length_withMem : length { st with mem := m } s = length st s := by
  rw [length, locations_withMem, length]

@[simp] theorem stored_withMem :
    stored toElement { st with mem := m } s = stored toElement st s := by
  cases s <;> rfl

@[simp] theorem place_withMem (it : Iterator) : place { st with mem := m } s it = place st s it := by
  cases it <;> cases s <;> rfl

@[simp] theorem seqIteratorNext_withMem (it : Iterator) :
    seqIteratorNext { st with mem := m } s it = seqIteratorNext st s it := by
  cases it <;> cases s <;> rfl

@[simp] theorem length_elements : (elements st s).length = length st s := List.length_map ..

def cursor (st : Store V) (s : Sequence) (i : ℕ) : Option Iterator :=
  match s with
  | .list p => ((chain st.cdr st.size p)[i]?).map .cons
  | .vector v => if i < (st.arrays v).fillp then some (.index i) else none

@[simp] theorem cursor_withMem (i : ℕ) : cursor { st with mem := m } s i = cursor st s i := by
  cases s <;> rfl

theorem makeSeqIterator_eq (hs : Proper st s) (i : ℕ) : makeSeqIterator st s i = cursor st s i := by
  cases s with
  | list p => exact congrArg (Option.map Iterator.cons) (nthcdr_eq hs.chain.links i)
  | vector v => rfl

theorem cursor_eq_none {i : ℕ} : cursor st s i = none ↔ length st s ≤ i := by
  cases s with
  | list p =>
    rw [cursor, Option.map_eq_none_iff, List.getElem?_eq_none_iff, length, locations, List.length_map]
  | vector v =>
    rw [cursor, length, locations, List.length_map, List.length_range]
    split
    · next h =>
      constructor
      · intro h'
        cases h'
      · intro h'
        omega
    · next h => exact ⟨fun _ => by omega, fun _ => rfl⟩

theorem cursor_next (hs : Proper st s) {i : ℕ} {it : Iterator} (h : cursor st s i = some it) :
    seqIteratorNext st s it = cursor st s (i + 1) := by
  cases s with
  | list p =>
    obtain ⟨a, ha, rfl⟩ := Option.map_eq_some_iff.mp h
    exact congrArg (Option.map Iterator.cons) (getElem?_cdr hs.chain.links ha)
  | vector v =>
    rw [cursor] at h
    split at h
    · cases h
      rfl
    · cases h

theorem cursor_place {i : ℕ} {it : Iterator} (h : cursor st s i = some it) :
    place st s it = (locations st s)[i]? := by
  cases s with
  | list p =>
    obtain ⟨a, ha, rfl⟩ := Option.map_eq_some_iff.mp h
    rw [locations, List.getElem?_map, ha]
    rfl
  | vector v =>
    rw [cursor] at h
    split at h
    · next hi =>
      cases h
      rw [locations, List.getElem?_map, List.getElem?_range hi]
      rfl
    · cases h

def nth (l : List Location) (i : ℕ) : Location := l.getD i (.cons 0)

theorem nth_eq {l : List Location} {i : ℕ} {a : Location} (h : l[i]? = some a) : nth l i = a := by
  rw [nth, List.getD_eq_getElem?_getD, h, Option.getD_some]

theorem getElem?_nth {l : List Location} {i : ℕ} (h : i < l.length) : l[i]? = some (nth l i) := by
  rw [nth, List.getD_eq_getElem?_getD, List.getElem?_eq_getElem h, Option.getD_some]

theorem replaceLoop_spec {n i j : ℕ} (h1 : Proper st s1) (hd : Proper st data)
    (hplace : ∀ k it, cursor st data k = some it → place st s2 it = (locations st data)[k]?)
    (h : replaceLoop toElement s1 s2 data n (cursor st s1 i) (cursor st data j) st = some st') :
    ∃ m', run (stored toElement st s1)
        (moves (fun k => nth (locations st s1) (i + k)) (fun k => nth (locations st data) (j + k))
          (min n (min (length st s1 - i) (length st data - j)))) st.mem = some m' ∧
      st' = { st with mem := m' } := by
  induction n generalizing i j st with
  | zero =>
    refine ⟨st.mem, ?_, (Option.some.inj h).symm⟩
    rw [Nat.zero_min]
    rfl
  | succ n ih =>
    have hstop (hz : min (length st s1 - i) (length st data - j) = 0) (heq : st' = st) :
        ∃ m', run (stored toElement st s1)
            (moves (fun k => nth (locations st s1) (i + k)) (fun k => nth (locations st data) (j + k))
              (min (n + 1) (min (length st s1 - i) (length st data - j)))) st.mem = some m' ∧
          st' = { st with mem := m' } := by
      refine ⟨st.mem, ?_, heq⟩
      rw [hz, Nat.min_zero]
      rfl
    cases hc1 : cursor st s1 i with
    | none =>
      have hend := cursor_eq_none.mp hc1
      rw [hc1] at h
      cases h
      exact hstop (by omega) rfl
    | some it1 =>
      cases hc2 : cursor st data j with
      | none =>
        have hend := cursor_eq_none.mp hc2
        rw [hc1, hc2] at h
        cases h
        exact hstop (by omega) rfl
      | some it2 =>
        have hi : i < length st s1 := by
          by_contra hle
          cases hc1.symm.trans (cursor_eq_none.mpr (by omega))
        have hj : j < length st data := by
          by_contra hle
          cases hc2.symm.trans (cursor_eq_none.mpr (by omega))
        have hp1 := (cursor_place hc1).trans (getElem?_nth hi)
        have hp2 := (hplace j it2 hc2).trans (getElem?_nth hj)
        rw [hc1, hc2, replaceLoop, seqIteratorRef, hp2] at h
        obtain ⟨value, hvalue, h⟩ := Option.bind_eq_some_iff.mp h
        cases hvalue
        obtain ⟨st₁, hset, hrest⟩ := Option.bind_eq_some_iff.mp h
        rw [seqIteratorSet, hp1] at hset
        obtain ⟨l, hl, hset⟩ := Option.bind_eq_some_iff.mp hset
        cases hl
        obtain ⟨v, hv, hst₁⟩ := Option.bind_eq_some_iff.mp hset
        cases hst₁
        rw [seqIteratorNext_withMem (s := s1), seqIteratorNext_withMem (s := data), cursor_next h1 hc1, cursor_next hd hc2,
          ← cursor_withMem (s := s1), ← cursor_withMem (s := data)] at hrest
        obtain ⟨m', hrun, rfl⟩ := ih (h1.withMem _) (hd.withMem _) (by simpa using hplace) hrest
        refine ⟨m', ?_, rfl⟩
        have hcount : min (n + 1) (min (length st s1 - i) (length st data - j)) =
            min n (min (length st s1 - (i + 1)) (length st data - (j + 1))) + 1 := by omega
        rw [hcount, moves_succ_left, run, Option.bind_eq_some_iff]
        simp only [locations_withMem, length_withMem, stored_withMem] at hrun
        refine ⟨v, hv, ?_⟩
        simpa only [Nat.add_comm _ 1, ← Nat.add_assoc, Nat.add_zero] using hrun

theorem Proper.nodup (hs : Proper st s) : (locations st s).Nodup := by
  cases s with
  | list p =>
    refine hs.chain.nodup.map ?_
    intro a b hab
    exact Location.cons.inj hab
  | vector v =>
    refine List.nodup_range.map ?_
    intro i j hij
    exact cell_inj.mp (Location.element.inj hij)

theorem nth_inj (hs : Proper st s) {i j : ℕ} (hi : i < length st s) (hj : j < length st s)
    (h : nth (locations st s) i = nth (locations st s) j) : i = j := by
  apply (List.getElem?_inj hi hs.nodup).mp
  rw [getElem?_nth hi, getElem?_nth hj, h]

theorem getElem?_elements {i : ℕ} (hi : i < length st s) :
    (elements st s)[i]? = some (st.mem (nth (locations st s) i)) := by
  rw [elements, List.getElem?_map, getElem?_nth hi]
  rfl

/-- Only the elements in bounds have to be looked at when the others were left alone. -/
theorem replaced_iff {start1 start2 l : ℕ} (h1 : start1 + l ≤ length st s1)
    (h2 : start2 + l ≤ length st s2) (hloc : locations st' s1 = locations st s1)
    (hframe : ∀ i < length st s1, (∀ k < l, i ≠ start1 + k) →
      st'.mem (nth (locations st s1) i) = st.mem (nth (locations st s1) i)) :
    Replaced st st' s1 s2 start1 start2 l ↔ ∀ k < l,
      st'.mem (nth (locations st s1) (start1 + k)) = st.mem (nth (locations st s2) (start2 + k)) := by
  have hlen : length st' s1 = length st s1 := congrArg List.length hloc
  have hget {i : ℕ} (hi : i < length st s1) :
      (elements st' s1)[i]? = some (st'.mem (nth (locations st s1) i)) := by
    rw [getElem?_elements (hlen ▸ hi), hloc]
  constructor
  · intro h k hk
    have hk' := h (start1 + k)
    rw [if_pos ⟨Nat.le_add_right _ _, by omega⟩, Nat.add_sub_cancel_left, hget (by omega),
      getElem?_elements (by omega)] at hk'
    exact Option.some.inj hk'
  · intro h i
    by_cases hi : start1 ≤ i ∧ i < start1 + l
    · obtain ⟨k, rfl⟩ := Nat.exists_eq_add_of_le hi.1
      rw [if_pos hi, Nat.add_sub_cancel_left, hget (by omega), getElem?_elements (by omega)]
      exact congrArg some (h k (by omega))
    · rw [if_neg hi]
      by_cases hlt : i < length st s1
      · rw [hget hlt, getElem?_elements hlt]
        apply congrArg some
        apply hframe i hlt
        intro k hk heq
        exact hi ⟨by omega, by omega⟩
      · have hout (st : Store V) (hl : length st s1 ≤ i) : (elements st s1)[i]? = none := by
          apply List.getElem?_eq_none
          rwa [length_elements]
        rw [hout st' (by omega), hout st (by omega)]

theorem undisturbed_iff {conversion : V → Option V} {start1 start2 l : ℕ}
    (h1 : start1 + l ≤ length st s1) (h2 : start2 + l ≤ length st s2) :
    Undisturbed conversion st s1 s2 start1 start2 l ↔ ∀ i < l,
      ((∀ j < i, nth (locations st s2) (start2 + i) ≠ nth (locations st s1) (start1 + j)) →
          conversion (st.mem (nth (locations st s2) (start2 + i))) =
            some (st.mem (nth (locations st s2) (start2 + i)))) ∧
        ∀ j < i, nth (locations st s2) (start2 + i) = nth (locations st s1) (start1 + j) →
          conversion (st.mem (nth (locations st s2) (start2 + j))) =
            some (st.mem (nth (locations st s2) (start2 + i))) := by
  have hsame {i j : ℕ} (hi : i < l) (hj : j < l) :
      (locations st s2)[start2 + i]? = (locations st s1)[start1 + j]? ↔
        nth (locations st s2) (start2 + i) = nth (locations st s1) (start1 + j) := by
    have hi' : start2 + i < (locations st s2).length := lt_of_lt_of_le (by omega) h2
    have hj' : start1 + j < (locations st s1).length := lt_of_lt_of_le (by omega) h1
    rw [getElem?_nth hi', getElem?_nth hj', Option.some.injEq]
  have hvalue {i : ℕ} (hi : i < l) : (elements st s2)[start2 + i]? =
      some (st.mem (nth (locations st s2) (start2 + i))) := getElem?_elements (by omega)
  apply forall₂_congr
  intro i hi
  rw [hvalue hi]
  simp only [Option.mem_def, Option.some.injEq, forall_eq']
  apply and_congr
  · apply imp_congr_left
    apply forall₂_congr
    intro j hj
    rw [Ne, Ne, hsame hi (by omega)]
  · apply forall₂_congr
    intro j hj
    rw [hsame hi (by omega), hvalue (by omega : j < l)]
    simp only [Option.some.injEq, forall_eq']

theorem replaced_of_run (hs : Proper st s1) {conversion : V → Option V} {start1 start2 l : ℕ}
    {m' : Location → V} (h1 : start1 + l ≤ length st s1) (h2 : start2 + l ≤ length st s2)
    (hrun : run conversion (moves (fun k => nth (locations st s1) (start1 + k))
      (fun k => nth (locations st s2) (start2 + k)) l) st.mem = some m') :
    Replaced st { st with mem := m' } s1 s2 start1 start2 l ↔
      Undisturbed conversion st s1 s2 start1 start2 l := by
  have hinj : ∀ i < l, ∀ j < l,
      nth (locations st s1) (start1 + i) = nth (locations st s1) (start1 + j) → i = j := by
    intro i hi j hj heq
    have := nth_inj hs (by omega) (by omega) heq
    omega
  rw [undisturbed_iff h1 h2, ← run_agrees_iff hinj hrun]
  apply replaced_iff h1 h2 locations_withMem
  intro i hi hout
  apply run_frame hrun
  intro k hk heq
  exact hout k hk (nth_inj hs hi (by omega) heq)

structure Grown (st st' : Store V) : Prop where
  size : st.size ≤ st'.size
  car : ∀ a < st.size, st'.mem (.cons a) = st.mem (.cons a)
  cdr : ∀ a < st.size, st'.cdr a = st.cdr a
  element : ∀ p, st'.mem (.element p) = st.mem (.element p)
  arrays : st'.arrays = st.arrays

theorem Grown.proper (h : Grown st st') (hs : Proper st s) : Proper st' s := by
  cases s with
  | list p =>
    obtain ⟨l, hl⟩ := hs
    refine ⟨l, hl.links.congr fun a ha => h.cdr a (hl.used a ha), hl.nodup, ?_⟩
    intro a ha
    exact lt_of_lt_of_le (hl.used a ha) h.size
  | vector v =>
    rw [Proper, h.arrays]
    exact hs

theorem Grown.locations (h : Grown st st') (hs : Proper st s) : locations st' s = locations st s := by
  cases s with
  | list p =>
    have hchain := hs.chain
    have hlinks : Segment (conses st') p (chain st.cdr st.size p) none :=
      hchain.links.congr fun a ha => h.cdr a (hchain.used a ha)
    apply congrArg (List.map Location.cons)
    exact chain_eq hlinks (hchain.length_le.trans h.size)
  | vector v => rw [SequenceReplacement.locations, SequenceReplacement.locations, h.arrays]

theorem Grown.elements (h : Grown st st') (hs : Proper st s) : elements st' s = elements st s := by
  rw [SequenceReplacement.elements, h.locations hs]
  apply List.map_congr_left
  intro l hl
  cases l with
  | cons a =>
    cases s with
    | list p =>
      obtain ⟨b, hb, hab⟩ := List.mem_map.mp hl
      cases hab
      exact h.car a (hs.chain.used a hb)
    | vector v =>
      obtain ⟨i, -, hi⟩ := List.mem_map.mp hl
      cases hi
  | element p => exact h.element p

theorem conses_cons (v : V) (q : Option ℕ) :
    conses (st.cons v q).1 = ((conses st).cons v q).1 := by
  apply congrArg (Memory.mk · (st.size + 1))
  funext a
  by_cases ha : a = st.size
  · subst ha
    simp [conses, Store.cons]
  · simp [conses, Store.cons, ha]

theorem makeList_spec (vs : List V) (st : Store V) :
    Grown st (makeList vs st).1 ∧ ∃ l, Chain (conses (makeList vs st).1) (makeList vs st).2 l ∧
      (∀ a ∈ l, st.size ≤ a) ∧ l.map (fun a => (makeList vs st).1.mem (.cons a)) = vs := by
  induction vs with
  | nil =>
    refine ⟨⟨le_rfl, fun _ _ => rfl, fun _ _ => rfl, fun _ => rfl, rfl⟩, [], ?_, by simp, rfl⟩
    exact ⟨rfl, List.nodup_nil, by simp⟩
  | cons v vs ih =>
    obtain ⟨hgrown, l, hl, hnew, hvalues⟩ := ih
    have hsize := hgrown.size
    refine ⟨⟨?_, ?_, ?_, ?_, ?_⟩, (makeList vs st).1.size :: l, ?_, ?_, ?_⟩
    · exact hsize.trans (Nat.le_succ _)
    · intro a ha
      have hne : Location.cons a ≠ .cons (makeList vs st).1.size := by
        intro heq
        cases heq
        omega
      exact (Function.update_of_ne hne _ _).trans (hgrown.car a ha)
    · intro a ha
      have hne : a ≠ (makeList vs st).1.size := by omega
      exact (Function.update_of_ne hne _ _).trans (hgrown.cdr a ha)
    · intro p
      have hne : Location.element p ≠ .cons (makeList vs st).1.size := by
        intro heq
        cases heq
      exact (Function.update_of_ne hne v (makeList vs st).1.mem).trans (hgrown.element p)
    · exact hgrown.arrays
    · rw [makeList, conses_cons]
      exact hl.cons v
    · intro a ha
      rcases List.mem_cons.mp ha with rfl | ha
      · exact hsize
      · exact hnew a ha
    · rw [List.map_cons]
      congr 1
      · exact Function.update_self ..
      · calc l.map (fun a => (makeList (v :: vs) st).1.mem (.cons a))
            = l.map (fun a => (makeList vs st).1.mem (.cons a)) := by
              apply List.map_congr_left
              intro a ha
              apply Function.update_of_ne
              intro heq
              cases heq
              exact lt_irrefl _ (hl.used _ ha)
          _ = vs := hvalues

/-- The loop that reads a copy of the elements from start2 to stop2 from its element start2 on. -/
theorem replaced_of_copy {st₁ : Store V} {p q : Option ℕ} {cells : List ℕ} {start1 start2 stop2 l : ℕ}
    (hs : Proper st (.list p)) (hgrown : Grown st st₁) (hchain : Chain (conses st₁) q cells)
    (hnew : ∀ a ∈ cells, st.size ≤ a)
    (hvalues : cells.map (fun a => st₁.mem (.cons a)) =
      ((elements st (.list p)).drop start2).take (stop2 - start2))
    (h1 : start1 + l ≤ length st (.list p)) (h2 : start2 + l ≤ stop2)
    (hstop : stop2 ≤ length st (.list p))
    (h : replaceLoop toElement (.list p) (.list p) (.list q) l (makeSeqIterator st₁ (.list p) start1)
      (makeSeqIterator st₁ (.list q) start2) st₁ = some st') :
    Replaced st st' (.list p) (.list p) start1 start2 l ↔
      Coincident st (.list p) start1 start2 stop2 l := by
  have hs₁ := hgrown.proper hs
  have hq : Proper st₁ (.list q) := ⟨cells, hchain⟩
  rw [makeSeqIterator_eq hs₁, makeSeqIterator_eq hq] at h
  have hplace (k : ℕ) (it : Iterator) (hit : cursor st₁ (.list q) k = some it) :
      place st₁ (.list p) it = (locations st₁ (.list q))[k]? := by
    obtain ⟨a, ha, rfl⟩ := Option.map_eq_some_iff.mp hit
    rw [locations, List.getElem?_map, ha]
    rfl
  obtain ⟨m', hrun, rfl⟩ := replaceLoop_spec hs₁ hq hplace h
  have hloc := hgrown.locations hs
  have hcells : locations st₁ (.list q) = cells.map .cons :=
    congrArg (List.map Location.cons) (chain_eq hchain.links hchain.length_le)
  have hlen₁ : length st₁ (.list p) = length st (.list p) := congrArg List.length hloc
  have hlenq : length st₁ (.list q) = stop2 - start2 := by
    have hlength := congrArg List.length hvalues
    rw [List.length_map, List.length_take, List.length_drop, length_elements] at hlength
    rw [length, hcells, List.length_map, hlength]
    omega
  rw [hloc, hlen₁, hlenq] at hrun
  -- the copy shares no cons with the list
  have hapart {i j : ℕ} (hi : i < length st (.list p)) (hj : j < stop2 - start2) :
      nth (locations st₁ (.list q)) j ≠ nth (locations st (.list p)) i := by
    intro heq
    have hi' := List.mem_of_getElem? (getElem?_nth hi)
    have hj' := List.mem_of_getElem? (getElem?_nth (lt_of_lt_of_eq hj hlenq.symm))
    rw [heq, hcells] at hj'
    obtain ⟨a, ha, hax⟩ := List.mem_map.mp hi'
    obtain ⟨b, hb, hbx⟩ := List.mem_map.mp hj'
    cases hax.trans hbx.symm
    exact absurd (hs.chain.used a ha) (not_lt.mpr (hnew a hb))
  have hkept {i : ℕ} (hi : i < length st (.list p)) :
      st₁.mem (nth (locations st (.list p)) i) = st.mem (nth (locations st (.list p)) i) := by
    have helement := @getElem?_elements _ st₁ (.list p) i (lt_of_lt_of_eq hi hlen₁.symm)
    rw [hgrown.elements hs, getElem?_elements hi, hloc] at helement
    exact (Option.some.inj helement).symm
  have hcopied {j : ℕ} (hj : j < stop2 - start2) :
      st₁.mem (nth (locations st₁ (.list q)) j) = st.mem (nth (locations st (.list p)) (start2 + j)) := by
    have helement := @getElem?_elements _ st₁ (.list q) j (lt_of_lt_of_eq hj hlenq.symm)
    have hmap : elements st₁ (.list q) = cells.map fun a => st₁.mem (.cons a) := by
      rw [elements, hcells, List.map_map]
      rfl
    rw [hmap, hvalues, List.getElem?_take, if_pos hj, List.getElem?_drop,
      getElem?_elements (by omega)] at helement
    exact (Option.some.inj helement).symm
  have hinj : ∀ i < min l (min (length st (.list p) - start1) (stop2 - start2 - start2)),
      ∀ j < min l (min (length st (.list p) - start1) (stop2 - start2 - start2)),
      nth (locations st (.list p)) (start1 + i) = nth (locations st (.list p)) (start1 + j) →
        i = j := by
    intro i hi j hj heq
    have := nth_inj hs (by omega) (by omega) heq
    omega
  have hresult {k : ℕ} (hk : k < l) : m' (nth (locations st (.list p)) (start1 + k)) =
      if start2 + (start2 + k) < stop2 then
        st.mem (nth (locations st (.list p)) (start2 + (start2 + k)))
      else st.mem (nth (locations st (.list p)) (start1 + k)) := by
    split
    · next hlt =>
      have hvalue := (run_value hinj hrun (i := k) (by omega)).1 fun j hj =>
        hapart (by omega) (by omega)
      exact (Option.some.inj hvalue).symm.trans (hcopied (by omega))
    · next hge =>
      rw [run_frame hrun, hkept (by omega)]
      intro j hj heq
      have := nth_inj hs (by omega) (by omega) heq
      omega
  rw [replaced_iff h1 (by omega) (locations_withMem.trans hloc)]
  · apply forall₂_congr
    intro k hk
    dsimp only
    rw [hresult hk, getElem?_elements (by omega), getElem?_elements (by omega : start1 + k < _)]
    split
    · rw [getElem?_elements (by omega), Option.some.injEq]
      exact eq_comm
    · rw [Option.some.injEq]
      exact eq_comm
  · intro i hi hout
    dsimp only
    rw [run_frame hrun, hkept hi]
    intro k hk heq
    exact hout k (by omega) (nth_inj hs hi (by omega) heq)

theorem nth_vector {v i : ℕ} (hi : i < (st.arrays v).fillp) :
    nth (locations st (.vector v)) i = .element (cell (st.arrays v) i) := by
  apply nth_eq
  rw [locations, List.getElem?_map, List.getElem?_range hi]
  rfl

theorem length_vector (v : ℕ) : length st (.vector v) = (st.arrays v).fillp := by
  rw [length, locations, List.length_map, List.length_range]

theorem run_withCells {conversion : V → Option V} {dest orig : ℕ → Pointer} {l : ℕ}
    {cells : Pointer → V}
    (h : run conversion (moves dest orig l) (fun p => st.mem (.element p)) = some cells) :
    run conversion (moves (fun k => .element (dest k)) (fun k => .element (orig k)) l) st.mem =
      some (withCells st cells) := by
  induction l generalizing cells with
  | zero =>
    cases h
    apply congrArg some
    funext x
    cases x <;> rfl
  | succ l ih =>
    obtain ⟨m₁, v, hm₁, hv, rfl⟩ := run_moves_succ h
    rw [moves_succ, run_append, ih hm₁]
    change (conversion (m₁ (orig l))).bind _ = _
    rw [hv]
    apply congrArg some
    funext x
    cases x with
    | cons a => rfl
    | element p =>
      by_cases hp : p = dest l
      · subst hp
        simp [withCells]
      · simp [withCells, hp]

theorem replaced_of_copyVector {v1 v2 start1 start2 l : ℕ} (stop2 : ℕ)
    (hs1 : Proper st (.vector v1)) (hs2 : Proper st (.vector v2))
    (h1 : start1 + l ≤ length st (.vector v1)) (h2 : start2 + l ≤ length st (.vector v2))
    (h : copyVector toElement st v1 start1 v2 start2 l = some st') :
    Replaced st st' (.vector v1) (.vector v2) start1 start2 l ↔
      Safe toElement st (.vector v1) (.vector v2) start1 start2 stop2 l := by
  obtain ⟨cells, hcopy, hst⟩ := Option.bind_eq_some_iff.mp h
  cases hst
  have hlen1 : length st (.vector v1) = (st.arrays v1).fillp := length_vector v1
  have hlen2 : length st (.vector v2) = (st.arrays v2).fillp := length_vector v2
  have hfill1 := hs1.1
  have hfill2 := hs2.1
  rw [copySubarray, shorten_of_le (by omega) hs1.2, shorten_of_le (by omega) hs2.2] at hcopy
  have hplaces (k : ℕ) (hk : k < l) :
      Location.element (cell (st.arrays v1) (start1 + k)) = nth (locations st (.vector v1)) (start1 + k) ∧
        Location.element (cell (st.arrays v2) (start2 + k)) =
          nth (locations st (.vector v2)) (start2 + k) :=
    ⟨(nth_vector (by omega)).symm, (nth_vector (by omega)).symm⟩
  -- what is left of the claim for the copies that always work
  have hreduce (hvalues : ∀ k < l, cells (cell (st.arrays v1) (start1 + k)) =
      st.mem (.element (cell (st.arrays v2) (start2 + k))))
      (hframe : ∀ i, (∀ k < l, i ≠ start1 + k) → cells (cell (st.arrays v1) i) =
        st.mem (.element (cell (st.arrays v1) i))) :
      Replaced st { st with mem := withCells st cells } (.vector v1) (.vector v2) start1 start2 l := by
    apply (replaced_iff h1 h2 locations_withMem ?_).mpr
    · intro k hk
      rw [nth_vector (by omega), nth_vector (by omega)]
      exact hvalues k hk
    · intro i hi hout
      rw [nth_vector (by omega)]
      exact hframe i hout
  rw [Safe]
  split at hcopy
  · next hseq =>
    split at hcopy
    · next hback =>
      obtain ⟨hsame, hlt⟩ := hback
      have hsame : v1 = v2 := of_decide_eq_true hsame
      subst hsame
      have hinj : ∀ i < l, ∀ j < l, cell (st.arrays v1) (start1 + (l - 1 - i)) =
          cell (st.arrays v1) (start1 + (l - 1 - j)) → i = j := by
        intro i hi j hj heq
        have := cell_inj.mp heq
        omega
      constructor
      · intro _ _ hnot
        exact absurd ⟨rfl, hlt⟩ hnot
      · intro _
        apply hreduce
        · intro k hk
          have hvalue := (run_value hinj hcopy (i := l - 1 - k) (by omega)).1 (by
            intro j hj heq
            have := cell_inj.mp heq
            omega)
          have hk' : l - 1 - (l - 1 - k) = k := by omega
          rw [hk', convert, if_pos rfl] at hvalue
          exact (Option.some.inj hvalue).symm
        · intro i hout
          apply run_frame hcopy
          intro k hk heq
          have := cell_inj.mp heq
          exact hout (l - 1 - k) (by omega) this
    · next hforward =>
      have hnot : ¬ (v1 = v2 ∧ start1 > start2) := by
        rintro ⟨hv, hlt⟩
        exact hforward ⟨decide_eq_true hv, hlt⟩
      have hrun := run_withCells hcopy
      rw [moves_congr hplaces] at hrun
      rw [replaced_of_run hs1 h1 h2 hrun]
      exact ⟨fun h _ _ => h, fun h => h hseq hnot⟩
  · next hmove =>
    have htype : (st.arrays v1).elttype = (st.arrays v2).elttype := by
      by_contra hne
      exact hmove (Or.inl hne)
    cases hcopy
    constructor
    · intro _ hseq
      exact absurd hseq hmove
    · intro _
      apply hreduce
      · intro k hk
        have hplace : (cell (st.arrays v1) (start1 + k)).index - (cell (st.arrays v1) start1).index = k := by
          simp only [cell]
          omega
        rw [ArrayAdjustment.memmove, if_pos, hplace]
        · simp only [cell, Nat.add_assoc]
        · simp only [cell, true_and]
          omega
      · intro i hout
        rw [ArrayAdjustment.memmove, if_neg]
        rintro ⟨-, hlow, hhigh⟩
        simp only [cell] at hlow hhigh
        exact hout (i - start1) (by omega) (by omega)

theorem replaced_of_loop (hs1 : Proper st s1) (hs2 : Proper st s2) {start1 start2 l : ℕ}
    (h1 : start1 + l ≤ length st s1) (h2 : start2 + l ≤ length st s2)
    (h : replaceLoop toElement s1 s2 s2 l (makeSeqIterator st s1 start1)
      (makeSeqIterator st s2 start2) st = some st') :
    Replaced st st' s1 s2 start1 start2 l ↔
      Undisturbed (stored toElement st s1) st s1 s2 start1 start2 l := by
  rw [makeSeqIterator_eq hs1, makeSeqIterator_eq hs2] at h
  obtain ⟨m', hrun, rfl⟩ := replaceLoop_spec hs1 hs2 (fun _ _ hit => cursor_place hit) h
  have hcount : min l (min (length st s1 - start1) (length st s2 - start2)) = l := by omega
  rw [hcount] at hrun
  exact replaced_of_run hs1 h1 h2 hrun

theorem replaced_of_elements (hs1 : Proper st s1) (hs2 : Proper st s2) {start1 start2 stop2 l : ℕ}
    (h1 : start1 + l ≤ length st s1) (h2 : start2 + l ≤ stop2) (hstop : stop2 ≤ length st s2)
    (h : replaceElements toElement st s1 s2 start1 start2 stop2 l = some st') :
    Replaced st st' s1 s2 start1 start2 l ↔ Safe toElement st s1 s2 start1 start2 stop2 l := by
  have h2' : start2 + l ≤ length st s2 := h2.trans hstop
  cases s1 with
  | list p =>
    have hsafe : Safe toElement st (.list p) s2 start1 start2 stop2 l ↔
        if Sequence.list p = s2 ∧ start1 > start2 then
          Coincident st (.list p) start1 start2 stop2 l
        else Undisturbed (stored toElement st (.list p)) st (.list p) s2 start1 start2 l := Iff.rfl
    rw [hsafe]
    unfold replaceElements at h
    dsimp only at h
    split at h
    · next hsame =>
      obtain ⟨rfl, hlt⟩ := hsame
      obtain ⟨hgrown, cells, hchain, hnew, hvalues⟩ :=
        makeList_spec (((elements st (.list p)).drop start2).take (stop2 - start2)) st
      rw [if_pos ⟨rfl, hlt⟩]
      exact replaced_of_copy hs1 hgrown hchain hnew hvalues h1 h2 hstop h
    · next hne =>
      rw [if_neg fun hsame => hne ⟨hsame.1.symm, hsame.2⟩]
      exact replaced_of_loop hs1 hs2 h1 h2' h
  | vector v =>
    cases s2 with
    | list p =>
      have hsafe : Safe toElement st (.vector v) (.list p) start1 start2 stop2 l ↔
          if Sequence.vector v = .list p ∧ start1 > start2 then
            Coincident st (.vector v) start1 start2 stop2 l
          else Undisturbed (stored toElement st (.vector v)) st (.vector v) (.list p) start1 start2 l :=
        Iff.rfl
      rw [hsafe, if_neg (by simp)]
      exact replaced_of_loop hs1 hs2 h1 h2' h
    | vector w => exact replaced_of_copyVector stop2 hs1 hs2 h1 h2' h

/-- REPLACE replaces the elements in bounds by those that the second sequence had, and nothing else,
exactly when the call is safe. -/
theorem replace_iff (hs1 : Proper st s1) (hs2 : Proper st s2) {start1 start2 : ℕ}
    {end1 end2 : Option ℕ}
    (h : replace toElement st s1 s2 start1 end1 start2 end2 = .ok st') :
    Replaced st st' s1 s2 start1 start2
        (min (end1.getD (length st s1) - start1) (end2.getD (length st s2) - start2)) ↔
      Safe toElement st s1 s2 start1 start2 (end2.getD (length st s2))
        (min (end1.getD (length st s1) - start1) (end2.getD (length st s2) - start2)) := by
  unfold replace at h
  split at h
  · cases h
  · cases h
  · next b1 b2 hb1 hb2 =>
    obtain ⟨rfl, hle1, hend1⟩ := withStartEnd_ok hb1
    obtain ⟨rfl, hle2, hend2⟩ := withStartEnd_ok hb2
    rw [Nat.min_comm]
    split at h
    · cases h
    · next hok =>
      cases h
      exact replaced_of_elements hs1 hs2 (by omega) (by omega) hend2 hok

end

def digits : Store ℕ where
  mem
    | .cons a => 10 + a
    | .element _ => 0
  cdr a := if a < 4 then some (a + 1) else none
  size := 5
  arrays _ := ⟨⟨.vector, .object, 1, [0], 0, 0, false, false⟩, none, ⟨0, 0⟩⟩

theorem digits_proper : Proper digits (.list (some 0)) :=
  ⟨[0, 1, 2, 3, 4], ⟨rfl, rfl, rfl, rfl, rfl, rfl⟩, by decide, by decide⟩

def replaced (start1 start2 : ℕ) : Store ℕ :=
  (replaceElements DisplacedArrays.anyElement digits (.list (some 0)) (.list (some 0)) start1 start2 5
    (min (5 - start2) (5 - start1))).getD digits

theorem replace_iff_digits :
    replace DisplacedArrays.anyElement digits (.list (some 0)) (.list (some 0)) 2 none 0 none =
        .ok (replaced 2 0) ∧
      Replaced digits (replaced 2 0) (.list (some 0)) (.list (some 0)) 2 0 3 := by
  have h : replace DisplacedArrays.anyElement digits (.list (some 0)) (.list (some 0)) 2 none 0 none =
      .ok (replaced 2 0) := rfl
  refine ⟨h, (replace_iff digits_proper digits_proper h).mpr ?_⟩
  intro i hi
  have hi : i < 3 := hi
  have hlt : 0 + (0 + i) < length digits (.list (some 0)) := by
    rw [Nat.zero_add, Nat.zero_add]
    exact lt_of_lt_of_le hi (by decide)
  rw [Option.getD_none, if_pos hlt, Nat.zero_add, Nat.zero_add]

/-- (replace l l :start1 2 :start2 1) leaves the list (10 11 12 13 14) as it is. -/
theorem replace_skips_start :
    replace DisplacedArrays.anyElement digits (.list (some 0)) (.list (some 0)) 2 none 1 none =
        .ok (replaced 2 1) ∧
      elements (replaced 2 1) (.list (some 0)) = [10, 11, 12, 13, 14] ∧
      ¬ Replaced digits (replaced 2 1) (.list (some 0)) (.list (some 0)) 2 1 3 := by
  refine ⟨rfl, by decide, fun h => ?_⟩
  have h2 := h 2
  exact absurd h2 (by decide)

end SequenceReplacement
