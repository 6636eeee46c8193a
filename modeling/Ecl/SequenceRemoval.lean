import Ecl.ConsChains
import Ecl.Integers

/-! REMOVE and DELETE of src/lsp/seqlib.lsp with the macros of src/lsp/seqmacros.lsp and
ecl_copy_subarray of src/c/array.d. Tests and keys are functions without side effects. -/
namespace SequenceRemoval

open Integers ConsChains

inductive SequenceError where
  | bothTests
  | badEnd
  | badStart
  | badFillPointer
  deriving DecidableEq

/-- The item and the keyword arguments; an absent one is none, :start is 0 then. -/
structure Arguments (α : Type) where
  which : α
  test : Option (α → α → Bool)
  testNot : Option (α → α → Bool)
  key : Option (α → α)
  start : ℕ
  stop : Option ℕ
  fromEnd : Bool
  count : Option ℤ

section
variable {α : Type} (eql : α → α → Bool)

/-- COMPARE of WITH-TESTS for an element, under its key of WITH-KEY. -/
def withTests (a : Arguments α) : Except SequenceError (α → Bool) :=
  let key := a.key.getD id
  match a.test, a.testNot with
  | some _, some _ => .error .bothTests
  | some test, none => .ok fun elt => test a.which (key elt)
  | none, some testNot => .ok fun elt => !testNot a.which (key elt)
  | none, none => .ok fun elt => eql a.which (key elt)

/-- ecl_sequence_start_end for a sequence of the given length. -/
def withStartEnd (length start : ℕ) (stop : Option ℕ) : Except SequenceError (ℕ × ℕ) :=
  let stop := stop.getD length
  if stop > length then .error .badEnd
  else if stop < start then .error .badStart
  else .ok (start, stop)

theorem withStartEnd_eq {length start : ℕ} {stop : Option ℕ} (h : start ≤ stop.getD length)
    (hstop : stop.getD length ≤ length) :
    withStartEnd length start stop = .ok (start, stop.getD length) := by
  simp only [withStartEnd, if_neg (Nat.not_lt.mpr hstop), if_neg (Nat.not_lt.mpr h)]

theorem withStartEnd_ok {n start : ℕ} {stop : Option ℕ} {b : ℕ × ℕ}
    (h : withStartEnd n start stop = .ok b) :
    b = (start, stop.getD n) ∧ start ≤ stop.getD n ∧ stop.getD n ≤ n := by
  unfold withStartEnd at h
  dsimp only at h
  split at h
  · cases h
  · split at h
    · cases h
    · cases h
      exact ⟨rfl, by omega, by omega⟩

def sequenceCount : Option ℤ → ℤ
  | none => mostPositiveFixnum
  | some count =>
    if FitsFixnum count then count else if count < 0 then -1 else mostPositiveFixnum

structure Vector (α : Type) where
  storage : List α
  fillPointer : Option ℕ
  deriving DecidableEq

def Vector.length (v : Vector α) : ℕ := v.fillPointer.getD v.storage.length

def Vector.elements (v : Vector α) : List α := v.storage.take v.length

structure Vector.WellFormed (v : Vector α) : Prop where
  length_le : v.length ≤ v.storage.length
  dimension : (v.storage.length : ℤ) ≤ mostPositiveFixnum

variable [Inhabited α]

/-- The storage of IN and OUT, which is only one when the vectors are the same. -/
structure Arrays (α : Type) where
  inp : List α
  out : List α

def Arrays.setOut (same : Bool) (m : Arrays α) (i : ℕ) (x : α) : Arrays α :=
  if same = true then ⟨m.inp.set i x, m.inp.set i x⟩ else { m with out := m.out.set i x }

/-- The loops of ecl_copy_subarray for bits, over the l elements that are left. -/
def copyUp (same : Bool) : ℕ → ℕ → ℕ → Arrays α → Arrays α
  | 0, _, _, m => m
  | l + 1, i0, i1, m =>
    copyUp same l (i0 + 1) (i1 + 1) (m.setOut same i0 (m.inp.getD i1 default))

def copyDown (same : Bool) : ℕ → ℕ → ℕ → Arrays α → Arrays α
  | 0, _, _, m => m
  | l + 1, i0, i1, m => copyDown same l i0 i1 (m.setOut same (i0 + l) (m.inp.getD (i1 + l) default))

def memmove (same : Bool) (l i0 i1 : ℕ) (m : Arrays α) : Arrays α :=
  let out := if same = true then m.inp else m.out
  let out := out.take i0 ++ (m.inp.drop i1).take l ++ out.drop (i0 + l)
  ⟨if same = true then out else m.inp, out⟩

def copySubarray (bits same : Bool) (i0 i1 l : ℕ) (m : Arrays α) : Arrays α :=
  let out := if same = true then m.inp else m.out
  let l := if i0 + l > out.length then out.length - i0 else l
  let l := if i1 + l > m.inp.length then m.inp.length - i1 else l
  if bits = true then
    if same = true ∧ i0 > i1 then copyDown same l i0 i1 m else copyUp same l i0 i1 m
  else memmove same l i0 i1 m

/-- COUNT of a vector. -/
def countVector (compare : α → Bool) (v : List α) : ℕ → ℕ → ℕ → ℕ
  | 0, _, counter => counter
  | n + 1, index, counter =>
    countVector compare v n (index + 1)
      (if compare (v.getD index default) = true then counter + 1 else counter)

/-- The first of the two loops of FILTER-VECTOR, up to an element that has to go. In place an
element that stays is where it belongs. -/
def skipLoop (compare : α → Bool) (same : Bool) :
    ℕ → ℕ → ℤ → ℕ → Arrays α → ℕ × Arrays α
  | 0, _, _, start, m => (start, m)
  | n + 1, index, skip, start, m =>
    let elt := m.inp.getD index default
    let skip := if compare elt = true then skip - 1 else skip
    if compare elt = true ∧ skip < 0 then (start, m)
    else skipLoop compare same n (index + 1) skip (start + 1)
      (if same = true then m else m.setOut same start elt)

/-- The loop that filters the rest; it answers start, end and the arrays. -/
def restLoop (compare : α → Bool) (same : Bool) :
    ℕ → ℕ → ℤ → ℕ → ℕ → Arrays α → ℕ × ℕ × Arrays α
  | 0, _, _, start, stop, m => (start, stop, m)
  | n + 1, index, count, start, stop, m =>
    let elt := m.inp.getD index default
    if compare elt = true then
      if count - 1 = 0 then (start, index + 1, m)
      else restLoop compare same n (index + 1) (count - 1) start stop m
    else restLoop compare same n (index + 1) count (start + 1) stop (m.setOut same start elt)

/-- FILTER-VECTOR with OUT either NIL or IN; none stands for a second value that is missing. -/
def filterVector (bits same : Bool) (a : Arguments α) (v : Vector α) :
    Except SequenceError (Vector α × Option ℕ) := do
  let compare ← withTests eql a
  let bounds ← withStartEnd v.length a.start a.stop
  let (start, stop, l) := (bounds.1, bounds.2, v.length)
  let count := sequenceCount a.count
  if 0 < count then
    let existing := countVector compare v.storage (stop - start) start 0
    if same = false ∧ existing = 0 then
      return (v, some l)
    let out := if same = true then v.storage
      else List.replicate (l - (min (existing : ℤ) count).toNat) default
    let m := if same = true then ⟨v.storage, out⟩
      else copySubarray bits same 0 0 start ⟨v.storage, out⟩
    let skip : ℤ := if a.fromEnd = true then (if existing < count then 0 else existing - count)
      else 0
    let skipped := skipLoop compare same (stop - start) start skip start m
    let rest := restLoop compare same (stop - skipped.1) skipped.1 count skipped.1 stop skipped.2
    let m := copySubarray bits same rest.1 rest.2.1 l rest.2.2
    return (⟨m.out, if same = true then v.fillPointer else none⟩, some (rest.1 + (l - rest.2.1)))
  else return (v, none)

def removeVector (bits : Bool) (a : Arguments α) (v : Vector α) :
    Except SequenceError (Vector α) := do
  let r ← filterVector eql bits false a v
  return r.1

/-- si_fill_pointer_set, which takes no NIL. -/
def fillPointerSet (v : Vector α) : Option ℕ → Except SequenceError (Vector α)
  | none => .error .badFillPointer
  | some l => if l > v.storage.length then .error .badFillPointer
    else .ok { v with fillPointer := some l }

def deleteVector (bits : Bool) (a : Arguments α) (v : Vector α) :
    Except SequenceError (Vector α) := do
  if v.fillPointer.isSome = true then
    let r ← filterVector eql bits true a v
    fillPointerSet r.1 r.2
  else
    let r ← filterVector eql bits false a v
    return r.1

def removeHead : ℕ → List α → List α → List α × List α
  | 0, sequence, output => (sequence, output)
  | _ + 1, [], output => ([], output)
  | n + 1, elt :: sequence, output => removeHead n sequence (elt :: output)

/-- The loop of REMOVE-LIST from index to end; output is in reverse order. -/
def removeLoop (compare : α → Bool) : ℕ → ℤ → List α → List α → List α × List α
  | 0, _, sequence, output => (sequence, output)
  | _ + 1, _, [], output => ([], output)
  | n + 1, count, elt :: sequence, output =>
    if compare elt = true then
      if count - 1 = 0 then (sequence, output)
      else removeLoop compare n (count - 1) sequence output
    else removeLoop compare n count sequence (elt :: output)

def removeList (a : Arguments α) (sequence : List α) : Except SequenceError (List α) := do
  let compare ← withTests eql a
  let bounds ← withStartEnd sequence.length a.start a.stop
  let count := sequenceCount a.count
  if 0 < count then
    let head := removeHead bounds.1 sequence []
    let rest := removeLoop compare (bounds.2 - bounds.1) count head.1 head.2
    return rest.2.reverseAux rest.1
  else return sequence

/-- The first loop of DELETE-LIST: sequence is what splice is linked to. -/
def deleteHead (m : Memory α) : ℕ → Option ℕ → ℕ → Option ℕ × ℕ
  | 0, sequence, splice => (sequence, splice)
  | _ + 1, none, splice => (none, splice)
  | n + 1, some a, splice => deleteHead m n (m.cdr a) ((m.cdr splice).getD splice)

def deleteLoop (compare : α → Bool) : ℕ → ℤ → Option ℕ → ℕ → Memory α → Memory α
  | 0, _, _, _, m => m
  | _ + 1, _, none, _, m => m
  | n + 1, count, some a, splice, m =>
    if compare (m.car a) = true then
      if count - 1 = 0 then m.rplacd splice (m.cdr a)
      else deleteLoop compare n (count - 1) (m.cdr a) splice (m.rplacd splice (m.cdr a))
    else deleteLoop compare n count (m.cdr a) ((m.cdr splice).getD splice) m

/-- The list has the given length; the result is what the new cell in front is linked to. -/
def deleteList (a : Arguments α) (start : ℕ) (stop : Option ℕ) (length : ℕ) (m : Memory α)
    (sequence : Option ℕ) : Except SequenceError (Memory α × Option ℕ) := do
  let compare ← withTests eql a
  let bounds ← withStartEnd length start stop
  let count := sequenceCount a.count
  if 0 < count then
    let output := m.cons default sequence
    let head := deleteHead output.1 bounds.1 sequence output.2
    let m := deleteLoop compare (bounds.2 - bounds.1) count head.1 head.2 output.1
    return (m, m.cdr output.2)
  else return (m, sequence)

/-- DELETE of a list. The differences of :from-end are those of a legal start and end. -/
def deleteSequence (a : Arguments α) (length : ℕ) (m : Memory α) (sequence : Option ℕ) :
    Except SequenceError (Memory α × Option ℕ) := do
  if a.fromEnd = true then
    let reversed := reverseLoop m.size m sequence none
    let r ← deleteList eql a (a.stop.elim 0 (length - ·)) (some (length - a.start)) length
      reversed.1 reversed.2
    return reverseLoop r.1.size r.1 r.2 none
  else deleteList eql a a.start a.stop length m sequence

/-- REVERSE of a list into fresh cells. -/
def consReverse : List α → Memory α → Option ℕ → Memory α × Option ℕ
  | [], m, output => (m, output)
  | x :: l, m, output => consReverse l (m.cons x output).1 (some (m.cons x output).2)

/-- REMOVE of a list. With :from-end its cells are all fresh. -/
def removeSequence (a : Arguments α) (sequence : List α) : Except SequenceError (List α) := do
  if a.fromEnd = true then
    let length := sequence.length
    let reversed := consReverse sequence ⟨fun _ => ⟨default, none⟩, 0⟩ none
    let r ← deleteList eql a (a.stop.elim 0 (length - ·)) (some (length - a.start)) length
      reversed.1 reversed.2
    let m := reverseLoop r.1.size r.1 r.2 none
    return contents m.1 m.1.size m.2
  else removeList eql a sequence

end

end SequenceRemoval
