import Ecl.SequenceSearch
import Ecl.VectorRemoval

/-! REMOVE-DUPLICATES and DELETE-DUPLICATES of src/lsp/seqlib.lsp. Tests and keys are functions
without side effects. -/
namespace DuplicateRemoval

open ConsChains
open ListRemoval (deleteHead_spec removeHead_spec)
open SequenceRemoval (SequenceError Vector Arrays copySubarray deleteHead fillPointerSet removeHead
  withStartEnd withStartEnd_eq)
open SequenceSearch (withTests)
open VectorRemoval

/-- The keyword arguments; :start is 0 when absent. -/
structure Arguments (α : Type) where
  test : Option (α → α → Bool)
  testNot : Option (α → α → Bool)
  fromEnd : Bool
  start : ℕ
  stop : Option ℕ
  key : Option (α → α)

variable {α : Type} [Inhabited α]

/-- COMPARE of two elements under their keys. -/
def comparing (test : α → α → Bool) (key : Option (α → α)) (x y : α) : Bool :=
  test (key.getD id x) (key.getD id y)

/-- The loop of REMOVE-DUPLICATES-LIST up to end. The elements from start to the current one are
before it, those up to end after it. -/
def removeLoop (compare : α → α → Bool) (fromEnd : Bool) (before : List α) :
    List α → List α → List α
  | [], output => output
  | x :: after, output =>
    removeLoop compare fromEnd (before ++ [x]) after
      (if (if fromEnd then before else after).any (compare x) then output else x :: output)

def removeDuplicatesList (eql : α → α → Bool) (a : Arguments α) (sequence : List α) :
    Except SequenceError (List α) := do
  let test ← withTests eql a.test a.testNot
  let bounds ← withStartEnd sequence.length a.start a.stop
  let head := removeHead bounds.1 sequence []
  let l := bounds.2 - bounds.1
  let output := removeLoop (comparing test a.key) a.fromEnd [] (head.1.take l) head.2
  return output.reverseAux (head.1.drop l)

/-- The loops of ALREADY-IN-LIST-P over cells; the number bounds the cells. -/
def foundUntil (p : α → Bool) (m : Memory α) (stop : Option ℕ) : ℕ → Option ℕ → Bool
  | 0, _ => false
  | n + 1, current =>
    if current = stop then false
    else match current with
      | none => false
      | some c => if p (m.car c) then true else foundUntil p m stop n (m.cdr c)

def alreadyInListP (compare : α → α → Bool) (m : Memory α) (start : Option ℕ) (current : ℕ)
    (stop : Option ℕ) (fromEnd : Bool) : Bool :=
  if fromEnd then foundUntil (compare (m.car current)) m (some current) m.size start
  else foundUntil (compare (m.car current)) m stop m.size (m.cdr current)

def deleteLoop (compare : α → α → Bool) (fromEnd : Bool) (first : ℕ) (stop : Option ℕ) :
    ℕ → Option ℕ → ℕ → Memory α → Memory α
  | 0, _, _, m => m
  | n + 1, sequence, splice, m =>
    if sequence = stop then m
    else match sequence with
      | none => m
      | some c =>
        if alreadyInListP compare m (m.cdr first) c stop fromEnd then
          deleteLoop compare fromEnd first stop n (m.cdr c) splice (m.rplacd splice (m.cdr c))
        else deleteLoop compare fromEnd first stop n (m.cdr c) ((m.cdr splice).getD splice) m

def nthcdr (m : Memory α) : ℕ → Option ℕ → Option ℕ
  | 0, p => p
  | _ + 1, none => none
  | n + 1, some c => nthcdr m n (m.cdr c)

/-- The list has the given length. -/
def deleteDuplicatesList (eql : α → α → Bool) (a : Arguments α) (length : ℕ) (m : Memory α)
    (sequence : Option ℕ) : Except SequenceError (Memory α × Option ℕ) := do
  let test ← withTests eql a.test a.testNot
  let bounds ← withStartEnd length a.start a.stop
  let output := m.cons default sequence
  let head := deleteHead output.1 bounds.1 sequence output.2
  let stop := nthcdr output.1 (bounds.2 - bounds.1) head.1
  let m := deleteLoop (comparing test a.key) a.fromEnd head.2 stop output.1.size head.1 head.2 output.1
  return (m, m.cdr output.2)

/-- DO-VECTOR over the n elements from index on, left by a test. -/
def foundBetween (p : α → Bool) (v : List α) : ℕ → ℕ → Bool
  | 0, _ => false
  | n + 1, index => if p (v.getD index default) then true else foundBetween p v n (index + 1)

def alreadyInVectorP (compare : α → α → Bool) (sequence : List α) (start current stop : ℕ)
    (fromEnd : Bool) : Bool :=
  let stop := if fromEnd then current else stop
  let start := if fromEnd then start else current + 1
  foundBetween (compare (sequence.getD current default)) sequence (stop - start) start

/-- NIL, the vector itself, or a new one of some length. -/
inductive Out where
  | nil
  | same
  | fresh (l : ℕ)
  deriving DecidableEq

def filterLoop (compare : α → α → Bool) (out : Out) (fromEnd : Bool) (start stop : ℕ) :
    ℕ → ℕ → ℕ → Arrays α → ℕ × Arrays α
  | 0, _, jndex, m => (jndex, m)
  | n + 1, index, jndex, m =>
    if alreadyInVectorP compare m.inp start index stop fromEnd then
      filterLoop compare out fromEnd start stop n (index + 1) jndex m
    else
      let m := if out = .nil then m else m.setOut (out = .same) jndex (m.inp.getD index default)
      filterLoop compare out fromEnd start stop n (index + 1) (jndex + 1) m

def filterDuplicatesVector (eql : α → α → Bool) (bits : Bool) (out : Out) (a : Arguments α)
    (v : Vector α) : Except SequenceError (ℕ × Arrays α) := do
  let test ← withTests eql a.test a.testNot
  let bounds ← withStartEnd v.length a.start a.stop
  let (start, stop) := bounds
  let m : Arrays α := match out with
    | .nil => ⟨v.storage, []⟩
    | .same => ⟨v.storage, v.storage⟩
    | .fresh l => copySubarray bits false 0 0 start ⟨v.storage, List.replicate l default⟩
  let r := filterLoop (comparing test a.key) out a.fromEnd start stop (stop - start) start start m
  let m := if out = .nil then r.2 else copySubarray bits (out = .same) r.1 stop v.length r.2
  return (r.1 + (v.length - stop), m)

def removeDuplicatesVector (eql : α → α → Bool) (bits : Bool) (a : Arguments α) (v : Vector α) :
    Except SequenceError (Vector α) := do
  let counted ← filterDuplicatesVector eql bits .nil a v
  let filled ← filterDuplicatesVector eql bits (.fresh counted.1) a v
  return ⟨filled.2.out, none⟩

def deleteDuplicatesVector (eql : α → α → Bool) (bits : Bool) (a : Arguments α) (v : Vector α) :
    Except SequenceError (Vector α) := do
  if v.fillPointer.isSome then
    let filtered ← filterDuplicatesVector eql bits .same a v
    fillPointerSet ⟨filtered.2.out, v.fillPointer⟩ (some filtered.1)
  else removeDuplicatesVector eql bits a v

def representatives (compare : α → α → Bool) (fromEnd : Bool) (l : List α) : List α :=
  (l.zipIdx.filter fun p =>
    !(if fromEnd then l.take p.2 else l.drop (p.2 + 1)).any (compare p.1)).map Prod.fst

def withoutDuplicates (compare : α → α → Bool) (fromEnd : Bool) (start stop : ℕ) (l : List α) :
    List α :=
  l.take start ++ representatives compare fromEnd ((l.drop start).take (stop - start)) ++ l.drop stop

section
omit [Inhabited α]
variable {compare : α → α → Bool} {fromEnd : Bool}

def kept (compare : α → α → Bool) (fromEnd : Bool) (before : List α) : List α → List α
  | [] => []
  | x :: after =>
    (if (if fromEnd then before else after).any (compare x) then [] else [x]) ++
      kept compare fromEnd (before ++ [x]) after

theorem kept_zipIdx (before l : List α) :
    ((l.zipIdx before.length).filter fun p =>
        !(if fromEnd then (before ++ l).take p.2 else (before ++ l).drop (p.2 + 1)).any
          (compare p.1)).map Prod.fst = kept compare fromEnd before l := by
  induction l generalizing before with
  | nil => rfl
  | cons x after ih =>
    have hnext := ih (before ++ [x])
    rw [List.length_append, List.length_singleton, List.append_assoc, List.singleton_append] at hnext
    have htake : (before ++ x :: after).take before.length = before := List.take_left
    have hdrop : (before ++ x :: after).drop (before.length + 1) = after := by
      rw [← List.drop_drop, List.drop_left, List.drop_succ_cons, List.drop_zero]
    rw [List.zipIdx_cons, List.filter_cons, kept, ← hnext]
    dsimp only
    rw [htake, hdrop]
    cases (if fromEnd then before else after).any (compare x) <;> rfl

theorem representatives_eq (l : List α) :
    representatives compare fromEnd l = kept compare fromEnd [] l :=
  kept_zipIdx [] l

theorem removeLoop_eq (before l output : List α) :
    removeLoop compare fromEnd before l output =
      (kept compare fromEnd before l).reverse ++ output := by
  induction l generalizing before output with
  | nil => rfl
  | cons x after ih =>
    rw [removeLoop, ih, kept, List.reverse_append, List.append_assoc]
    apply congrArg
    cases (if fromEnd then before else after).any (compare x) <;> rfl

structure Represents (compare : α → α → Bool) (reps l : List α) : Prop where
  subset : ∀ y ∈ reps, y ∈ l
  covers : ∀ y ∈ l, ∃ z ∈ reps, compare y z = true

theorem Represents.nil : Represents compare [] [] := ⟨by simp, by simp⟩

variable (hcompare : Equivalence fun x y => compare x y = true)
include hcompare

theorem Represents.any_eq {reps l seen : List α} (h : Represents compare reps l)
    (hreps : ∀ y ∈ reps, y ∈ seen) (hseen : ∀ y ∈ seen, y ∈ l) (x : α) :
    seen.any (compare x) = l.any (compare x) := by
  rw [Bool.eq_iff_iff, List.any_eq_true, List.any_eq_true]
  constructor
  · rintro ⟨y, hy, hxy⟩
    exact ⟨y, hseen y hy, hxy⟩
  · rintro ⟨y, hy, hxy⟩
    obtain ⟨z, hz, hyz⟩ := h.covers y hy
    exact ⟨z, hreps z hz, hcompare.trans hxy hyz⟩

theorem Represents.step {reps l : List α} (h : Represents compare reps l) (x : α) :
    Represents compare (reps ++ if l.any (compare x) then [] else [x]) (l ++ [x]) := by
  by_cases hx : l.any (compare x) = true
  · rw [if_pos hx, List.append_nil]
    refine ⟨fun y hy => List.mem_append_left _ (h.subset y hy), ?_⟩
    intro y hy
    rcases List.mem_append.mp hy with hy | hy
    · exact h.covers y hy
    · obtain rfl := List.mem_singleton.mp hy
      obtain ⟨z, hz, hyz⟩ := List.any_eq_true.mp hx
      obtain ⟨w, hw, hzw⟩ := h.covers z hz
      exact ⟨w, hw, hcompare.trans hyz hzw⟩
  · rw [if_neg hx]
    constructor
    · intro y hy
      rcases List.mem_append.mp hy with hy | hy
      · exact List.mem_append_left _ (h.subset y hy)
      · exact List.mem_append_right _ hy
    · intro y hy
      rcases List.mem_append.mp hy with hy | hy
      · obtain ⟨z, hz, hyz⟩ := h.covers y hy
        exact ⟨z, List.mem_append_left _ hz, hyz⟩
      · exact ⟨y, List.mem_append_right _ hy, hcompare.refl y⟩

end

section
variable {compare : α → α → Bool} {fromEnd : Bool}

theorem foundBetween_eq {p : α → Bool} {v : List α} {n i : ℕ} (h : i + n ≤ v.length) :
    foundBetween p v n i = ((v.drop i).take n).any p := by
  induction n generalizing i with
  | zero => simp [foundBetween]
  | succ n ih =>
    have hi : i < v.length := by omega
    rw [foundBetween, List.drop_eq_getElem_cons hi, List.take_succ_cons, List.any_cons,
      List.getD_eq_getElem v default hi, ← ih (by omega)]
    cases p v[i] <;> rfl

theorem alreadyInVectorP_eq {pre passed after tail : List α} {x : α} :
    alreadyInVectorP compare (pre ++ passed ++ x :: (after ++ tail)) pre.length
        (pre.length + passed.length) (pre.length + passed.length + 1 + after.length) fromEnd =
      (if fromEnd then passed else after).any (compare x) := by
  have hx : (pre ++ passed ++ x :: (after ++ tail)).getD (pre.length + passed.length) default = x := by
    rw [List.getD_eq_getElem?_getD, ← List.length_append, List.getElem?_append_right le_rfl,
      Nat.sub_self]
    rfl
  rw [alreadyInVectorP, hx]
  cases fromEnd with
  | true =>
    simp only [if_true]
    rw [foundBetween_eq, Nat.add_sub_cancel_left, List.append_assoc, List.drop_left, List.take_left]
    simp only [List.length_append]
    omega
  | false =>
    simp only [Bool.false_eq_true, if_false]
    rw [foundBetween_eq, Nat.add_sub_cancel_left, ← List.length_append, ← List.drop_drop,
      List.drop_left, List.drop_succ_cons, List.drop_zero, List.take_left]
    simp only [List.length_append, List.length_cons]
    omega

theorem filterLoop_nil {pre tail : List α} (rest done : List α) (jndex : ℕ) (m : Arrays α)
    (hinp : m.inp = pre ++ done ++ (rest ++ tail)) :
    filterLoop compare .nil fromEnd pre.length (pre.length + done.length + rest.length) rest.length
        (pre.length + done.length) jndex m =
      (jndex + (kept compare fromEnd done rest).length, m) := by
  induction rest generalizing done jndex with
  | nil => rfl
  | cons x after ih =>
    have hstop : pre.length + done.length + (x :: after).length =
        pre.length + done.length + 1 + after.length := by
      rw [List.length_cons]
      omega
    have hdup : alreadyInVectorP compare m.inp pre.length (pre.length + done.length)
        (pre.length + done.length + (x :: after).length) fromEnd =
        (if fromEnd then done else after).any (compare x) := by
      rw [hinp, hstop]
      exact alreadyInVectorP_eq
    have hnext (jndex : ℕ) := ih (done ++ [x]) jndex (by rw [hinp]; simp)
    simp only [List.length_append, List.length_singleton, ← Nat.add_assoc] at hnext
    rw [hstop] at hdup ⊢
    simp only [List.length_cons, filterLoop, hdup, reduceIte, hnext, kept, List.length_append]
    cases (if fromEnd then done else after).any (compare x) with
    | true => simp
    | false => simp [Nat.add_assoc]

/-- In the loop reps is what was kept of the elements done. In place it has overwritten the first of
them; the others up to the current element are still there. -/
structure Filtering (same : Bool) (pre done rest tail reps : List α) (m : Arrays α) : Prop where
  filling : Filling same (rest ++ tail) (pre ++ reps) (pre.length + done.length)
    (pre.length + reps.length) m
  passed : m.inp.take (pre.length + done.length) =
    pre ++ if same = true then reps ++ done.drop reps.length else done
  le : reps.length ≤ done.length

namespace Filtering

variable {same : Bool} {pre done rest tail reps : List α} {x : α} {m : Arrays α}

omit [Inhabited α] in
theorem inp_eq (h : Filtering same pre done rest tail reps m) :
    m.inp = pre ++ (if same = true then reps ++ done.drop reps.length else done) ++ (rest ++ tail) := by
  rw [← h.passed, ← h.filling.unread, List.take_append_drop]

omit [Inhabited α] in
theorem take_next (h : Filtering same pre done (x :: rest) tail reps m) :
    m.inp.take (pre.length + (done ++ [x]).length) =
      m.inp.take (pre.length + done.length) ++ [x] := by
  have hx := congrArg (·[0]?) h.filling.unread
  simp only [List.getElem?_drop, Nat.add_zero, List.cons_append, List.getElem?_cons_zero] at hx
  rw [List.length_append, List.length_singleton, ← Nat.add_assoc, List.take_add_one, hx]
  rfl

omit [Inhabited α] in
theorem drop (h : Filtering same pre done (x :: rest) tail reps m) :
    Filtering same pre (done ++ [x]) rest tail reps m := by
  refine ⟨?_, ?_, ?_⟩
  · have hskip := h.filling.skip
    rwa [Nat.add_assoc, ← List.length_singleton (a := x), ← List.length_append] at hskip
  · rw [h.take_next, h.passed, List.drop_append_of_le_length h.le]
    split <;> simp
  · exact h.le.trans (by simp)

omit [Inhabited α] in
theorem keep (h : Filtering same pre done (x :: rest) tail reps m)
    (hroom : pre.length + reps.length < m.out.length) :
    Filtering same pre (done ++ [x]) rest tail (reps ++ [x])
      (m.setOut same (pre.length + reps.length) x) := by
  have hle := h.le
  refine ⟨?_, ?_, ?_⟩
  · have hkeep := h.filling.keep (by omega) hroom
    rw [Nat.add_assoc, Nat.add_assoc, List.append_assoc] at hkeep
    simpa using hkeep
  · cases same with
    | false =>
      have hpassed := h.passed
      rw [if_neg Bool.false_ne_true] at hpassed ⊢
      change m.inp.take _ = _
      rw [h.take_next, hpassed, List.append_assoc]
    | true =>
      have hpassed := h.passed
      rw [if_pos rfl] at hpassed ⊢
      change (m.inp.set (pre.length + reps.length) x).take _ = _
      rw [List.take_set, h.take_next, hpassed, List.append_assoc, ← List.length_append,
        ← List.append_assoc, ← List.append_assoc, List.append_assoc (pre ++ reps)]
      -- the first of the old elements gives way, or the current one is written over itself
      have hold : done.drop reps.length ++ [x] = (done ++ [x]).drop reps.length :=
        (List.drop_append_of_le_length hle).symm
      rw [hold, List.set_append_right _ _ le_rfl, Nat.sub_self]
      have hne : (done ++ [x]).drop reps.length ≠ [] := by
        rw [← hold]
        simp
      obtain ⟨y, l, hl⟩ := List.exists_cons_of_ne_nil hne
      have htail : (done ++ [x]).drop (reps ++ [x]).length = l := by
        rw [List.length_append, List.length_singleton, ← List.drop_drop, hl, List.drop_succ_cons,
          List.drop_zero]
      rw [hl, htail]
      simp
  · rw [List.length_append, List.length_append]
    exact Nat.add_le_add_right hle _

end Filtering

theorem filterLoop_spec (hcompare : Equivalence fun x y => compare x y = true) {out : Out}
    {same : Bool} (hnil : out ≠ .nil) (hsame : decide (out = .same) = same) {pre tail : List α}
    (rest done reps : List α) {m : Arrays α} (h : Filtering same pre done rest tail reps m)
    (hreps : fromEnd = true → Represents compare reps done)
    (hroom : pre.length + (reps ++ kept compare fromEnd done rest).length ≤ m.out.length) :
    let r := filterLoop compare out fromEnd pre.length (pre.length + done.length + rest.length)
      rest.length (pre.length + done.length) (pre.length + reps.length) m
    r.1 = pre.length + (reps ++ kept compare fromEnd done rest).length ∧
      Filling same tail (pre ++ (reps ++ kept compare fromEnd done rest))
        (pre.length + done.length + rest.length) r.1 r.2 ∧ r.2.out.length = m.out.length := by
  induction rest generalizing done reps m with
  | nil =>
    rw [kept, List.append_nil]
    exact ⟨rfl, h.filling, rfl⟩
  | cons x after ih =>
    intro r
    have hstop : pre.length + done.length + (x :: after).length =
        pre.length + (done ++ [x]).length + after.length := by
      simp only [List.length_cons, List.length_append, List.length_nil]
      omega
    have hdup : alreadyInVectorP compare m.inp pre.length (pre.length + done.length)
        (pre.length + (done ++ [x]).length + after.length) fromEnd =
        (if fromEnd then done else after).any (compare x) := by
      have hle := h.le
      have hlen : (if same = true then reps ++ done.drop reps.length else done).length =
          done.length := by
        split
        · rw [List.length_append, List.length_drop]
          omega
        · rfl
      have heq := @alreadyInVectorP_eq _ _ compare fromEnd pre
        (if same = true then reps ++ done.drop reps.length else done) after tail x
      rw [hlen] at heq
      rw [h.inp_eq, List.length_append, List.length_singleton, ← Nat.add_assoc]
      apply heq.trans
      cases fromEnd with
      | false => rfl
      | true =>
        have hrep := hreps rfl
        rw [if_pos rfl, if_pos rfl]
        apply hrep.any_eq hcompare
        · intro y hy
          split
          · exact List.mem_append_left _ hy
          · exact hrep.subset y hy
        · intro y hy
          split at hy
          · rcases List.mem_append.mp hy with hy | hy
            · exact hrep.subset y hy
            · exact List.mem_of_mem_drop hy
          · exact hy
    have hr : r = filterLoop compare out fromEnd pre.length
        (pre.length + done.length + (x :: after).length) (x :: after).length
        (pre.length + done.length) (pre.length + reps.length) m := rfl
    clear_value r
    have hindex : pre.length + (done ++ [x]).length = pre.length + done.length + 1 := by
      rw [List.length_append, List.length_singleton, Nat.add_assoc]
    rw [List.length_cons, filterLoop, ← List.length_cons (a := x), hstop, hdup, if_neg hnil, hsame,
      ← hindex] at hr
    have hnext := hreps
    rw [kept] at hroom ⊢
    rw [hstop]
    cases hd : (if fromEnd then done else after).any (compare x) with
    | true =>
      rw [hd, if_pos rfl] at hr
      rw [hd, if_pos rfl, List.nil_append] at hroom
      rw [if_pos rfl, List.nil_append, hr]
      apply ih (done ++ [x]) reps h.drop _ hroom
      rintro rfl
      have hstep := (hreps rfl).step hcompare x
      rw [if_pos rfl] at hd
      rwa [hd, if_pos rfl, List.append_nil] at hstep
    | false =>
      have hx : m.inp.getD (pre.length + done.length) default = x := h.filling.getD
      rw [hd, if_neg Bool.false_ne_true, hx] at hr
      rw [hd, if_neg Bool.false_ne_true, ← List.append_assoc] at hroom
      rw [if_neg Bool.false_ne_true, ← List.append_assoc, hr]
      have hlt : pre.length + reps.length < m.out.length := by
        simp only [List.length_append, List.length_singleton] at hroom
        omega
      have hrest := ih (done ++ [x]) (reps ++ [x]) (h.keep hlt) ?_ ?_
      · rw [setOut_length h.filling] at hrest
        rw [@List.length_append _ reps, List.length_singleton, ← Nat.add_assoc] at hrest
        exact hrest
      · rintro rfl
        have hstep := (hreps rfl).step hcompare x
        rw [if_pos rfl] at hd
        rwa [hd, if_neg Bool.false_ne_true] at hstep
      · rw [setOut_length h.filling]
        exact hroom

omit [Inhabited α] in
theorem kept_length_le (before l : List α) : (kept compare fromEnd before l).length ≤ l.length := by
  induction l generalizing before with
  | nil => exact le_rfl
  | cons x after ih =>
    have := ih (before ++ [x])
    rw [kept, List.length_append, List.length_cons]
    cases (if fromEnd then before else after).any (compare x)
    · rw [if_neg Bool.false_ne_true, List.length_singleton]
      omega
    · rw [if_pos rfl, List.length_nil]
      omega

theorem copyUp_inp (l i0 i1 : ℕ) (m : Arrays α) :
    (SequenceRemoval.copyUp false l i0 i1 m).inp = m.inp := by
  induction l generalizing i0 i1 m with
  | zero => rfl
  | succ l ih => exact ih _ _ _

theorem copySubarray_inp (bits : Bool) (i0 i1 l : ℕ) (m : Arrays α) :
    (copySubarray bits false i0 i1 l m).inp = m.inp := by
  cases bits with
  | false => rfl
  | true => exact copyUp_inp _ _ _ _

variable {v : Vector α} {a : Arguments α} {pre mid tail : List α} {eql test : α → α → Bool}

theorem filled (hcompare : Equivalence fun x y => compare x y = true) (bits : Bool) {out : Out}
    {same : Bool} (hnil : out ≠ .nil) (hsame : decide (out = .same) = same) {m : Arrays α}
    (h : Filtering same pre [] mid tail [] m) {n : ℕ} (hn : n ≤ tail.length)
    (hl : n ≤ v.length)
    (hroom : pre.length + (kept compare fromEnd [] mid).length + n ≤ m.out.length) :
    let r := filterLoop compare out fromEnd pre.length (pre.length + mid.length) mid.length pre.length
      pre.length m
    r.1 = pre.length + (kept compare fromEnd [] mid).length ∧
      (copySubarray bits same r.1 (pre.length + mid.length) v.length r.2).out.take (r.1 + n) =
        pre ++ kept compare fromEnd [] mid ++ tail.take n ∧
      (copySubarray bits same r.1 (pre.length + mid.length) v.length r.2).out.length =
        m.out.length := by
  intro r
  have hkept : pre.length + ([] ++ kept compare fromEnd [] mid).length ≤ m.out.length := by
    rw [List.nil_append]
    omega
  obtain ⟨hr, hfill, hsize⟩ := filterLoop_spec hcompare hnil hsame mid [] [] h
    (fun _ => Represents.nil) hkept
  rw [List.nil_append] at hr hfill
  change r.1 = _ at hr
  change Filling same tail _ _ r.1 r.2 at hfill
  change r.2.out.length = _ at hsize
  rw [List.length_nil, Nat.add_zero] at hfill
  have hle : (kept compare fromEnd [] mid).length ≤ mid.length := kept_length_le [] mid
  obtain ⟨hcopied, hafter, hlength⟩ := copySubarray_spec (l := v.length) bits hfill (by omega)
  refine ⟨hr, ?_, hlength.trans hsize⟩
  apply Copied.take ⟨hcopied, hafter, hlength⟩
  · rw [List.length_append]
    exact hr.symm
  · rw [hsize]
    omega

omit [Inhabited α] in
theorem withStartEnd_parts {length : ℕ} (hpre : a.start = pre.length)
    (hmid : a.stop.getD length = pre.length + mid.length) (hstop : pre.length + mid.length ≤ length) :
    withStartEnd length a.start a.stop = .ok (pre.length, pre.length + mid.length) := by
  rw [withStartEnd_eq (by omega) (by omega), hpre, hmid]

theorem filterDuplicatesVector_nil (bits : Bool) (htests : withTests eql a.test a.testNot = .ok test)
    (hstorage : v.storage = pre ++ mid ++ tail) (hpre : a.start = pre.length)
    (hmid : a.stop.getD v.length = pre.length + mid.length)
    (hstop : pre.length + mid.length ≤ v.length) :
    ∃ m, filterDuplicatesVector eql bits .nil a v =
      .ok (pre.length + (kept (comparing test a.key) a.fromEnd [] mid).length +
        (v.length - (pre.length + mid.length)), m) := by
  have hbounds := withStartEnd_parts hpre hmid hstop
  have hloop := @filterLoop_nil _ _ (comparing test a.key) a.fromEnd pre tail mid [] pre.length
    ⟨v.storage, []⟩ (by rw [hstorage]; simp)
  rw [List.length_nil, Nat.add_zero] at hloop
  refine ⟨⟨v.storage, []⟩, ?_⟩
  simp only [filterDuplicatesVector, htests, hbounds, bind, Except.bind, Nat.add_sub_cancel_left,
    hloop, if_true]
  rfl

theorem filterDuplicatesVector_fresh (bits : Bool)
    (htests : withTests eql a.test a.testNot = .ok test)
    (hcompare : Equivalence fun x y => comparing test a.key x y = true)
    (hstorage : v.storage = pre ++ mid ++ tail) (hpre : a.start = pre.length)
    (hmid : a.stop.getD v.length = pre.length + mid.length)
    (hstop : pre.length + mid.length ≤ v.length) (hlength : v.length ≤ v.storage.length) {l : ℕ}
    (hl : pre.length + (kept (comparing test a.key) a.fromEnd [] mid).length +
      (v.length - (pre.length + mid.length)) = l) :
    ∃ m, filterDuplicatesVector eql bits (.fresh l) a v = .ok (l, m) ∧
      m.out = pre ++ kept (comparing test a.key) a.fromEnd [] mid ++
        tail.take (v.length - (pre.length + mid.length)) := by
  have hbounds := withStartEnd_parts hpre hmid hstop
  have htail : v.length - (pre.length + mid.length) ≤ tail.length := by
    rw [hstorage, List.length_append, List.length_append] at hlength
    omega
  obtain ⟨hfill, hsize⟩ : Filling false (mid ++ tail) pre pre.length pre.length
      (copySubarray bits false 0 0 pre.length ⟨v.storage, List.replicate l default⟩) ∧
      (copySubarray bits false 0 0 pre.length
        ⟨v.storage, List.replicate l (default : α)⟩).out.length = l :=
    hstorage ▸ headed_spec bits false pre mid tail (show pre.length ≤ l by omega)
  have hstart : Filtering false pre [] mid tail []
      (copySubarray bits false 0 0 pre.length ⟨v.storage, List.replicate l default⟩) := by
    refine ⟨?_, ?_, le_rfl⟩
    · rw [List.append_nil, List.length_nil, Nat.add_zero]
      exact hfill
    · rw [copySubarray_inp, hstorage, List.length_nil, Nat.add_zero, List.append_assoc,
        List.take_left, if_neg Bool.false_ne_true, List.append_nil]
  obtain ⟨hr, htake, hout⟩ := @filled _ _ (comparing test a.key) a.fromEnd v pre mid tail hcompare
    bits (.fresh l) false Out.noConfusion rfl _ hstart _ htail (Nat.sub_le _ _) (by omega)
  rw [List.take_of_length_le (by rw [hout, hsize, hr, hl])] at htake
  refine ⟨_, ?_, htake⟩
  simp only [filterDuplicatesVector, htests, hbounds, bind, Except.bind, Nat.add_sub_cancel_left,
    reduceCtorEq, if_false, decide_false, pure, Except.pure, hr, hl]

theorem filterDuplicatesVector_same (bits : Bool)
    (htests : withTests eql a.test a.testNot = .ok test)
    (hcompare : Equivalence fun x y => comparing test a.key x y = true)
    (hstorage : v.storage = pre ++ mid ++ tail) (hpre : a.start = pre.length)
    (hmid : a.stop.getD v.length = pre.length + mid.length)
    (hstop : pre.length + mid.length ≤ v.length) (hlength : v.length ≤ v.storage.length) :
    ∃ l m, filterDuplicatesVector eql bits .same a v = .ok (l, m) ∧ l ≤ m.out.length ∧
      m.out.take l = pre ++ kept (comparing test a.key) a.fromEnd [] mid ++
        tail.take (v.length - (pre.length + mid.length)) := by
  have hbounds := withStartEnd_parts hpre hmid hstop
  have hsize : v.storage.length = pre.length + mid.length + tail.length := by
    rw [hstorage, List.length_append, List.length_append]
  have hle : (kept (comparing test a.key) a.fromEnd [] mid).length ≤ mid.length :=
    kept_length_le [] mid
  have hstart : Filtering true pre [] mid tail [] (⟨v.storage, v.storage⟩ : Arrays α) := by
    refine ⟨⟨?_, ?_, ?_, fun _ => rfl⟩, ?_, le_rfl⟩
    · rw [hstorage, List.length_nil, Nat.add_zero, List.append_assoc, List.drop_left]
    · rw [hstorage, List.length_nil, Nat.add_zero, List.append_assoc, List.take_left,
        List.append_nil]
    · exact congrArg List.length (List.append_nil pre)
    · rw [hstorage, List.length_nil, Nat.add_zero, List.append_assoc, List.take_left, if_pos rfl]
      exact (List.append_nil pre).symm
  obtain ⟨hr, htake, hout⟩ := @filled _ _ (comparing test a.key) a.fromEnd v pre mid tail hcompare
    bits .same true Out.noConfusion rfl _ hstart (v.length - (pre.length + mid.length)) (by omega)
    (Nat.sub_le _ _) (by rw [hsize]; omega)
  refine ⟨_, _, ?_, ?_, htake⟩
  · simp only [filterDuplicatesVector, htests, hbounds, bind, Except.bind, Nat.add_sub_cancel_left,
      reduceCtorEq, if_false, decide_true, pure, Except.pure]
  · rw [hout, hr, hsize]
    omega

theorem removeDuplicatesVector_spec (bits : Bool) (htests : withTests eql a.test a.testNot = .ok test)
    (hcompare : Equivalence fun x y => comparing test a.key x y = true)
    (hstorage : v.storage = pre ++ mid ++ tail) (hpre : a.start = pre.length)
    (hmid : a.stop.getD v.length = pre.length + mid.length)
    (hstop : pre.length + mid.length ≤ v.length) (hlength : v.length ≤ v.storage.length) :
    ∃ v', removeDuplicatesVector eql bits a v = .ok v' ∧
      v'.elements = pre ++ kept (comparing test a.key) a.fromEnd [] mid ++
        tail.take (v.length - (pre.length + mid.length)) := by
  obtain ⟨_, hcounted⟩ := filterDuplicatesVector_nil bits htests hstorage hpre hmid hstop
  obtain ⟨m, hfilled, hout⟩ := filterDuplicatesVector_fresh bits htests hcompare hstorage hpre hmid
    hstop hlength rfl
  refine ⟨⟨m.out, none⟩, ?_, List.take_length.trans hout⟩
  simp only [removeDuplicatesVector, hcounted, bind, Except.bind, hfilled]
  rfl

theorem deleteDuplicatesVector_spec (bits : Bool) (htests : withTests eql a.test a.testNot = .ok test)
    (hcompare : Equivalence fun x y => comparing test a.key x y = true)
    (hstorage : v.storage = pre ++ mid ++ tail) (hpre : a.start = pre.length)
    (hmid : a.stop.getD v.length = pre.length + mid.length)
    (hstop : pre.length + mid.length ≤ v.length) (hlength : v.length ≤ v.storage.length) :
    ∃ v', deleteDuplicatesVector eql bits a v = .ok v' ∧
      v'.elements = pre ++ kept (comparing test a.key) a.fromEnd [] mid ++
        tail.take (v.length - (pre.length + mid.length)) := by
  cases hpointer : v.fillPointer.isSome with
  | false =>
    rw [deleteDuplicatesVector, hpointer, if_neg Bool.false_ne_true]
    exact removeDuplicatesVector_spec bits htests hcompare hstorage hpre hmid hstop hlength
  | true =>
    obtain ⟨l, m, hfiltered, hle, htake⟩ := filterDuplicatesVector_same bits htests hcompare hstorage
      hpre hmid hstop hlength
    refine ⟨⟨m.out, some l⟩, ?_, htake⟩
    simp only [deleteDuplicatesVector, hpointer, if_true, hfiltered, bind, Except.bind,
      fillPointerSet, if_neg (Nat.not_lt.mpr hle)]

end

section
variable {compare : α → α → Bool} {fromEnd : Bool} {eql test : α → α → Bool} {a : Arguments α}

omit [Inhabited α] in
theorem removeDuplicatesList_spec (htests : withTests eql a.test a.testNot = .ok test) {l : List α}
    (hstart : a.start ≤ a.stop.getD l.length) (hstop : a.stop.getD l.length ≤ l.length) :
    removeDuplicatesList eql a l =
      .ok (withoutDuplicates (comparing test a.key) a.fromEnd a.start (a.stop.getD l.length) l) := by
  simp only [removeDuplicatesList, htests, withStartEnd_eq hstart hstop, bind, Except.bind,
    removeHead_spec, removeLoop_eq, List.append_nil, List.reverseAux_eq, List.reverse_append,
    List.reverse_reverse, List.drop_drop, Nat.add_sub_cancel' hstart, withoutDuplicates,
    representatives_eq]
  rfl

variable {m : Memory α}

omit [Inhabited α] in
theorem foundUntil_spec {f : α → Bool} {n : ℕ} {p q : Option ℕ} {l : List ℕ} (h : Segment m p l q)
    (hq : ∀ c ∈ l, some c ≠ q) (hn : l.length ≤ n) :
    foundUntil f m q n p = (l.map m.car).any f := by
  induction n generalizing p l with
  | zero =>
    obtain rfl := List.length_eq_zero_iff.mp (Nat.le_zero.mp hn)
    rfl
  | succ n ih =>
    cases l with
    | nil => exact if_pos h
    | cons c l =>
      obtain ⟨rfl, hrest⟩ := h
      have hnext := ih hrest (fun b hb => hq b (List.mem_cons_of_mem c hb))
        (Nat.le_of_succ_le_succ hn)
      rw [foundUntil, if_neg (hq c List.mem_cons_self), List.map_cons, List.any_cons, ← hnext]
      cases f (m.car c) <;> rfl

omit [Inhabited α] in
theorem nthcdr_spec {p q : Option ℕ} {l : List ℕ} (h : Segment m p l q) :
    nthcdr m l.length p = q := by
  induction l generalizing p with
  | nil => exact h
  | cons c l ih =>
    obtain ⟨rfl, hrest⟩ := h
    exact ih hrest

omit [Inhabited α] in
theorem start_ne {p : Option ℕ} {tail : List ℕ} (h : Segment m p tail none) {c : ℕ}
    (hc : c ∉ tail) : some c ≠ p := by
  cases tail with
  | nil =>
    cases h
    exact Option.some_ne_none c
  | cons b tail =>
    obtain ⟨rfl, -⟩ := h
    exact fun he => hc (Option.some.inj he ▸ List.mem_cons_self)

/-- In the loop of DELETE-DUPLICATES-LIST the cells kept of the elements done follow the cell in
front, and the cells from sequence to end are the rest. -/
structure Splicing (m : Memory α) (o sequence stop : Option ℕ) (front reps rest tail : List ℕ)
    (first splice : ℕ) : Prop where
  last : (front ++ first :: reps).getLast? = some splice
  linked : Segment m o (front ++ first :: reps) sequence
  ahead : Segment m sequence rest stop
  outside : Segment m stop tail none
  nodup : (front ++ first :: reps ++ (rest ++ tail)).Nodup
  used : (front ++ first :: reps ++ (rest ++ tail)).length ≤ m.size

namespace Splicing

variable {o sequence stop : Option ℕ} {front reps rest tail : List ℕ} {first splice c : ℕ}

omit [Inhabited α] in
theorem alreadyInListP_eq (h : Splicing m o sequence stop front reps (c :: rest) tail first splice) :
    alreadyInListP compare m (m.cdr first) c stop fromEnd =
      (if fromEnd then reps.map m.car else rest.map m.car).any (compare (m.car c)) := by
  have hused := h.used
  have hdisjoint := (List.nodup_append.mp h.nodup).2.2
  simp only [List.length_append, List.length_cons] at hused
  obtain ⟨_, _, hfront⟩ := h.linked.split
  rw [h.ahead.1] at hfront
  cases fromEnd with
  | true =>
    apply foundUntil_spec hfront.2
    · intro b hb he
      exact hdisjoint b (List.mem_append_right _ (List.mem_cons_of_mem first hb)) c
        List.mem_cons_self (Option.some.inj he)
    · omega
  | false =>
    apply foundUntil_spec h.ahead.2
    · intro b hb
      apply start_ne h.outside
      intro ht
      have hnodup := (List.nodup_append.mp h.nodup).2.1
      exact (List.nodup_append.mp hnodup).2.2 b (List.mem_cons_of_mem c hb) b ht rfl
    · omega

omit [Inhabited α] in
theorem keep (h : Splicing m o sequence stop front reps (c :: rest) tail first splice) :
    Splicing m o (m.cdr c) stop front (reps ++ [c]) rest tail first ((m.cdr splice).getD splice) := by
  obtain ⟨l, hl⟩ := List.getLast?_eq_some_iff.mp h.last
  have hnext : m.cdr splice = some c := by
    rw [← h.ahead.1]
    exact (hl ▸ h.linked).last_cdr
  have heq : front ++ first :: (reps ++ [c]) = front ++ first :: reps ++ [c] := by simp
  refine ⟨?_, ?_, h.ahead.2, h.outside, ?_, ?_⟩
  · rw [heq, List.getLast?_concat, hnext, Option.getD_some]
  · rw [heq]
    exact h.linked.append ⟨h.ahead.1, rfl⟩
  · simpa using h.nodup
  · simpa [Nat.add_assoc, Nat.add_comm 1] using h.used

omit [Inhabited α] in
theorem drop (h : Splicing m o sequence stop front reps (c :: rest) tail first splice) :
    Splicing (m.rplacd splice (m.cdr c)) o (m.cdr c) stop front reps rest tail first splice := by
  obtain ⟨l, hl⟩ := List.getLast?_eq_some_iff.mp h.last
  have hsplice : splice ∈ front ++ first :: reps := by
    rw [hl]
    exact List.mem_append_right l (List.mem_singleton_self splice)
  have hother : ∀ b ∈ c :: rest ++ tail, (m.rplacd splice (m.cdr c)).cdr b = m.cdr b := by
    intro b hb
    apply rplacd_cdr_of_ne
    exact fun he => (List.nodup_append.mp h.nodup).2.2 splice hsplice b hb he.symm
  have hl' : splice ∉ l := by
    have hnodup := (List.nodup_append.mp h.nodup).1
    rw [hl] at hnodup
    exact fun hm => (List.nodup_append.mp hnodup).2.2 splice hm splice (List.mem_singleton_self _) rfl
  refine ⟨h.last, ?_, ?_, ?_, ?_, ?_⟩
  · rw [hl]
    exact (hl ▸ h.linked).relink hl' (m.cdr c)
  · exact h.ahead.2.congr fun b hb =>
      hother b (List.mem_append_left tail (List.mem_cons_of_mem c hb))
  · exact h.outside.congr fun b hb => hother b (List.mem_append_right _ hb)
  · exact h.nodup.sublist ((List.Sublist.refl _).append
      ((List.sublist_cons_self c rest).append (List.Sublist.refl tail)))
  · have hused := h.used
    rw [rplacd_size]
    simp only [List.length_append, List.length_cons] at hused ⊢
    omega

end Splicing

omit [Inhabited α] in
theorem deleteLoop_some {first c n splice : ℕ} {stop : Option ℕ} (hc : some c ≠ stop) :
    deleteLoop compare fromEnd first stop (n + 1) (some c) splice m =
      if alreadyInListP compare m (m.cdr first) c stop fromEnd then
        deleteLoop compare fromEnd first stop n (m.cdr c) splice (m.rplacd splice (m.cdr c))
      else deleteLoop compare fromEnd first stop n (m.cdr c) ((m.cdr splice).getD splice) m :=
  if_neg hc

omit [Inhabited α] in
theorem deleteLoop_spec (hcompare : Equivalence fun x y => compare x y = true)
    {o sequence stop : Option ℕ} {front tail : List ℕ} {first splice n : ℕ} (rest reps : List ℕ)
    (done : List α) (h : Splicing m o sequence stop front reps rest tail first splice)
    (hn : rest.length ≤ n) (hreps : fromEnd = true → Represents compare (reps.map m.car) done) :
    let m' := deleteLoop compare fromEnd first stop n sequence splice m
    ∃ cells, cells.Sublist rest ∧ cells.map m.car = kept compare fromEnd done (rest.map m.car) ∧
      Segment m' o (front ++ first :: (reps ++ cells ++ tail)) none ∧ m'.car = m.car ∧
      m'.size = m.size := by
  induction rest generalizing n sequence splice reps done m with
  | nil =>
    have hend : deleteLoop compare fromEnd first stop n sequence splice m = m := by
      cases n with
      | zero => rfl
      | succ n => exact if_pos h.ahead
    refine ⟨[], List.Sublist.refl _, rfl, ?_, ?_, ?_⟩
    · rw [hend]
      have htail := h.outside
      rw [← show sequence = stop from h.ahead] at htail
      simpa using h.linked.append htail
    · rw [hend]
    · rw [hend]
  | cons c rest ih =>
    intro m'
    obtain ⟨n, rfl⟩ := Nat.exists_eq_succ_of_ne_zero (n := n) (by
      rintro rfl
      exact absurd hn (by simp))
    have hn' : rest.length ≤ n := Nat.le_of_succ_le_succ hn
    have hstop : some c ≠ stop := by
      apply start_ne h.outside
      intro ht
      have hnodup := (List.nodup_append.mp h.nodup).2.1
      exact (List.nodup_append.mp hnodup).2.2 c List.mem_cons_self c ht rfl
    have hdup : alreadyInListP compare m (m.cdr first) c stop fromEnd =
        (if fromEnd then done else rest.map m.car).any (compare (m.car c)) := by
      rw [h.alreadyInListP_eq]
      cases fromEnd with
      | false => rfl
      | true => exact (hreps rfl).any_eq hcompare (fun y hy => hy) (hreps rfl).subset _
    have hm' : m' = deleteLoop compare fromEnd first stop (n + 1) sequence splice m := rfl
    clear_value m'
    rw [h.ahead.1, deleteLoop_some hstop, hdup] at hm'
    rw [List.map_cons, kept]
    cases hd : (if fromEnd then done else rest.map m.car).any (compare (m.car c)) with
    | true =>
      rw [hd, if_pos rfl] at hm'
      have hnext := ih reps (done ++ [m.car c]) h.drop hn'
      rw [rplacd_car, ← hm'] at hnext
      obtain ⟨cells, hsub, hcars, hresult⟩ := hnext (by
        rintro rfl
        have hstep := (hreps rfl).step hcompare (m.car c)
        rw [if_pos rfl] at hd
        rwa [hd, if_pos rfl, List.append_nil] at hstep)
      exact ⟨cells, hsub.cons c, hcars, hresult⟩
    | false =>
      rw [hd, if_neg Bool.false_ne_true] at hm'
      have hnext := ih (reps ++ [c]) (done ++ [m.car c]) h.keep hn'
      rw [List.map_append, ← hm'] at hnext
      obtain ⟨cells, hsub, hcars, hresult⟩ := hnext (by
        rintro rfl
        have hstep := (hreps rfl).step hcompare (m.car c)
        rw [if_pos rfl] at hd
        rwa [hd, if_neg Bool.false_ne_true] at hstep)
      refine ⟨c :: cells, hsub.cons_cons c, ?_, ?_⟩
      · rw [List.map_cons, hcars]
        rfl
      · simpa using hresult

theorem deleteDuplicatesList_spec (htests : withTests eql a.test a.testNot = .ok test)
    (hcompare : Equivalence fun x y => comparing test a.key x y = true) {p : Option ℕ} {l : List ℕ}
    (hchain : Chain m p l) (hstart : a.start ≤ a.stop.getD l.length)
    (hstop : a.stop.getD l.length ≤ l.length) :
    ∃ m' p' l', deleteDuplicatesList eql a l.length m p = .ok (m', p') ∧ Chain m' p' l' ∧
      l'.map m'.car = withoutDuplicates (comparing test a.key) a.fromEnd a.start
        (a.stop.getD l.length) (l.map m.car) := by
  have hfront := hchain.cons default
  obtain ⟨done, hdone, hsplice, htail⟩ := deleteHead_spec (m := (m.cons default p).1)
    (o := some m.size) (n := a.start) [] m.size (by omega)
    ⟨rfl, cons_cdr_self m default p⟩ (cons_cdr_self m default p ▸ hfront.links.2)
  set head := deleteHead (m.cons default p).1 a.start p m.size
  have hcells (r : List ℕ) : done ++ head.2 :: r = m.size :: (l.take a.start ++ r) := by
    rw [← List.singleton_append, ← List.append_assoc, hdone]
    simp
  set mid := (l.drop a.start).take (a.stop.getD l.length - a.start) with hmid
  have hlen : mid.length = a.stop.getD l.length - a.start := by
    rw [hmid, List.length_take, List.length_drop]
    omega
  have hdrop : mid ++ l.drop (a.stop.getD l.length) = l.drop a.start := by
    have hsum : l.drop (a.stop.getD l.length) =
        (l.drop a.start).drop (a.stop.getD l.length - a.start) := by
      rw [List.drop_drop, Nat.add_sub_cancel' hstart]
    rw [hsum, hmid, List.take_append_drop]
  rw [← hdrop] at htail
  obtain ⟨stop, hseg, hafter⟩ := htail.split
  have hnthcdr : nthcdr (m.cons default p).1 (a.stop.getD l.length - a.start) head.1 = stop :=
    hlen ▸ nthcdr_spec hseg
  have hall : done ++ head.2 :: (mid ++ l.drop (a.stop.getD l.length)) = m.size :: l := by
    rw [hcells, hdrop, List.take_append_drop]
  have hsplicing : Splicing (m.cons default p).1 (some m.size) head.1 stop done [] mid
      (l.drop (a.stop.getD l.length)) head.2 head.2 := by
    refine ⟨List.getLast?_concat, hsplice, hseg, hafter, ?_, ?_⟩
    · rw [List.append_assoc, List.singleton_append, hall]
      exact hfront.nodup
    · rw [List.append_assoc, List.singleton_append, hall]
      exact hfront.length_le
  have hfuel : mid.length ≤ (m.cons default p).1.size := by
    have hsize : l.length ≤ (m.cons default p).1.size :=
      hchain.length_le.trans (Nat.le_succ m.size)
    omega
  obtain ⟨cells, hsub, hcars, hlinks, hcar, hsize⟩ := deleteLoop_spec hcompare mid [] [] hsplicing
    hfuel (fun _ => Represents.nil)
  rw [List.nil_append, hcells] at hlinks
  have hkept : (l.take a.start ++ (cells ++ l.drop (a.stop.getD l.length))).Sublist l := by
    have hsub' := (List.Sublist.refl (l.take a.start)).append
      (hsub.append (List.Sublist.refl (l.drop (a.stop.getD l.length))))
    rwa [hdrop, List.take_append_drop] at hsub'
  refine ⟨_, _, l.take a.start ++ (cells ++ l.drop (a.stop.getD l.length)), ?_,
    ⟨hlinks.2, hchain.nodup.sublist hkept, ?_⟩, ?_⟩
  · simp only [deleteDuplicatesList, htests, withStartEnd_eq hstart hstop, bind, Except.bind]
    rw [← hnthcdr]
    rfl
  · intro b hb
    rw [hsize]
    exact Nat.lt_succ_of_lt (hchain.used b (hkept.subset hb))
  · have hcar' := hchain.cons_map_car default
    rw [hcar, List.map_append, List.map_append, hcars, withoutDuplicates, representatives_eq,
      List.append_assoc, ← hcar', hmid, List.map_take, List.map_drop, List.map_take, List.map_drop]

end

section
variable {eql test : α → α → Bool} {a : Arguments α}

omit [Inhabited α] in
theorem comparing_equivalence (htest : Equivalence fun x y => test x y = true)
    (key : Option (α → α)) : Equivalence fun x y => comparing test key x y = true where
  refl x := htest.refl (key.getD id x)
  symm h := htest.symm h
  trans h h' := htest.trans h h'

/-- The last element of each class between the bounds stays, or the first one with from-end, and
all others outside: in a list, in the cells of a destroyed list, in a new vector and in the vector
itself when it has a fill pointer. -/
theorem duplicates_removed (htests : withTests eql a.test a.testNot = .ok test)
    (htest : Equivalence fun x y => test x y = true) {l : List α}
    (hstart : a.start ≤ a.stop.getD l.length) (hstop : a.stop.getD l.length ≤ l.length) :
    let left := withoutDuplicates (comparing test a.key) a.fromEnd a.start (a.stop.getD l.length) l
    removeDuplicatesList eql a l = .ok left ∧
      (∀ (m : Memory α) (p : Option ℕ) (cells : List ℕ), Chain m p cells → cells.map m.car = l →
        ∃ m' p' cells', deleteDuplicatesList eql a cells.length m p = .ok (m', p') ∧
          Chain m' p' cells' ∧ cells'.map m'.car = left) ∧
      ∀ (bits : Bool) (v : Vector α), v.WellFormed → v.elements = l →
        (∃ v', removeDuplicatesVector eql bits a v = .ok v' ∧ v'.elements = left) ∧
          ∃ v', deleteDuplicatesVector eql bits a v = .ok v' ∧ v'.elements = left := by
  have hcompare := comparing_equivalence htest a.key
  refine ⟨removeDuplicatesList_spec htests hstart hstop, ?_, ?_⟩
  · rintro m p cells hchain rfl
    rw [List.length_map] at hstart hstop ⊢
    exact deleteDuplicatesList_spec htests hcompare hchain hstart hstop
  · rintro bits v hv rfl
    have hlength : v.elements.length = v.length := by
      rw [Vector.elements, List.length_take, Nat.min_eq_left hv.length_le]
    rw [hlength] at hstart hstop ⊢
    obtain ⟨pre, mid, tail, hstorage, hpre, hmid⟩ : ∃ pre mid tail,
        v.storage = pre ++ mid ++ tail ∧ a.start = pre.length ∧
          a.stop.getD v.length = pre.length + mid.length := by
      have hle := hv.length_le
      refine ⟨v.storage.take a.start, (v.storage.drop a.start).take (a.stop.getD v.length - a.start),
        (v.storage.drop a.start).drop (a.stop.getD v.length - a.start), ?_, ?_, ?_⟩
      · rw [List.append_assoc, List.take_append_drop, List.take_append_drop]
      · rw [List.length_take]
        omega
      · rw [List.length_take, List.length_take, List.length_drop]
        omega
    have hwithin : pre.length + mid.length ≤ v.length := hmid ▸ hstop
    have hleft : withoutDuplicates (comparing test a.key) a.fromEnd a.start (a.stop.getD v.length)
        v.elements = pre ++ kept (comparing test a.key) a.fromEnd [] mid ++
          tail.take (v.length - (pre.length + mid.length)) := by
      rw [elements_parts hstorage hwithin, hpre, hmid, withoutDuplicates, representatives_eq,
        Nat.add_sub_cancel_left, ← List.length_append, List.drop_left, List.append_assoc pre mid,
        List.take_left, List.drop_left, List.take_left]
    rw [hleft]
    exact ⟨removeDuplicatesVector_spec bits htests hcompare hstorage hpre hmid hwithin hv.length_le,
      deleteDuplicatesVector_spec bits htests hcompare hstorage hpre hmid hwithin hv.length_le⟩

end

theorem duplicates_removed_parities :
    removeDuplicatesList (fun x y : ℕ => x == y) ⟨none, none, false, 1, some 4, some (· % 2)⟩
        [0, 1, 2, 3, 4] = .ok [0, 2, 3, 4] ∧
      ∃ v, deleteDuplicatesVector (fun x y : ℕ => x == y) false
        ⟨none, none, false, 1, some 4, some (· % 2)⟩ ⟨[0, 1, 2, 3, 4], some 5⟩ = .ok v ∧
          v.elements = [0, 2, 3, 4] := by
  have h := @duplicates_removed ℕ _ (fun x y => x == y) (fun x y => x == y)
    ⟨none, none, false, 1, some 4, some (· % 2)⟩ rfl
    ⟨fun x => beq_self_eq_true x, fun h => by rw [beq_iff_eq] at h ⊢; exact h.symm,
      fun h h' => by rw [beq_iff_eq] at h h' ⊢; exact h.trans h'⟩ [0, 1, 2, 3, 4] (by decide) (by decide)
  exact ⟨h.1, (h.2.2 false ⟨[0, 1, 2, 3, 4], some 5⟩ ⟨by decide, by decide⟩ rfl).2⟩

end DuplicateRemoval
