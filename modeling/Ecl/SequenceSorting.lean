import Ecl.SequenceRemoval

/-! SORT, STABLE-SORT and MERGE of src/lsp/seqlib.lsp. The predicate and the key are functions
without side effects. A loop without a bound of its own takes a number of rounds; none means
that they did not suffice. -/
namespace SequenceSorting

open ConsChains SequenceRemoval

section
variable {α κ : Type} (predicate : κ → κ → Bool) (key : α → κ)

/-- Whether the COND of both merges goes on with the second of two keys. -/
def takesRight (keyLeft keyRight : κ) : Bool :=
  if predicate keyLeft keyRight = true then false else predicate keyRight keyLeft

variable [Inhabited α]

def car (m : Memory α) (l : Option ℕ) : α := l.elim default m.car

def cdr (m : Memory α) (l : Option ℕ) : Option ℕ := l.bind m.cdr

/-- The merging loop of LIST-MERGE-SORT; left and right are not at their end. -/
def mergeLoop : ℕ → Memory α → ℕ → ℕ → ℕ → Option (Memory α)
  | 0, _, _, _, _ => none
  | n + 1, m, l1, left, right =>
    if takesRight predicate (key (m.car left)) (key (m.car right)) = true then
      let m := m.rplacd l1 (some right)
      let l1 := (m.cdr l1).getD l1
      (m.cdr right).elim (some (m.rplacd l1 (some left))) fun right => mergeLoop n m l1 left right
    else
      let m := m.rplacd l1 (some left)
      let l1 := (m.cdr l1).getD l1
      (m.cdr left).elim (some (m.rplacd l1 (some right))) fun left => mergeLoop n m l1 left right

/-- Takes the CDR as often as the DO loop that finds the middle. -/
def halfLoop (m : Memory α) : ℕ → Option ℕ → Option ℕ
  | 0, l1 => l1
  | n + 1, l1 => halfLoop m n (cdr m l1)

def listMergeSort : ℕ → Memory α → Option ℕ → Option (Memory α × Option ℕ)
  | 0, _, _ => none
  | n + 1, m, l =>
    let i := (contents m m.size l).length
    if i < 2 then some (m, l)
    else if i = 2 then
      if takesRight predicate (key (car m l)) (key (car m (cdr m l))) = true then
        some (reverseLoop m.size m l none)
      else some (m, l)
    else
      let last := (halfLoop m (i / 2 - 1) l).getD 0
      let right := m.cdr last
      (listMergeSort n (m.rplacd last none) l).bind fun sorted =>
        let left := sorted.2
        (listMergeSort n sorted.1 right).bind fun sorted =>
          let right := sorted.2
          left.elim (some (sorted.1, right)) fun leftCell =>
            right.elim (some (sorted.1, left)) fun rightCell =>
              let front := sorted.1.cons default none
              (mergeLoop predicate key front.1.size front.1 front.2 leftCell rightCell).map fun m =>
                (m, m.cdr front.2)

/-- SORT and STABLE-SORT of a list. -/
def sortList (m : Memory α) (sequence : Option ℕ) : Option (Memory α × Option ℕ) :=
  listMergeSort predicate key ((contents m m.size sequence).length + 1) m sequence

def elt (seq : List α) (i : ℕ) : α := seq.getD i default

def rotatef (seq : List α) (i j : ℕ) : List α := (seq.set i (elt seq j)).set j (elt seq i)

/-- The first inner loop, from j down to i; it answers j and whether the outer loop ends. -/
def scanDown (seq : List α) (kd : κ) (i : ℕ) : ℕ → ℕ × Bool
  | 0 => (0, true)
  | j + 1 =>
    if j > i then
      if predicate (key (elt seq j)) kd = true then (j, false) else scanDown seq kd i j
    else (j, true)

/-- The second one, from i up to j, with the number of places in between and one more. -/
def scanUp (seq : List α) (kd : κ) (j : ℕ) : ℕ → ℕ → ℕ × Bool
  | 0, i => (i + 1, true)
  | n + 1, i =>
    if i + 1 < j then
      if predicate (key (elt seq (i + 1))) kd = true then scanUp seq kd j n (i + 1)
      else (i + 1, false)
    else (i + 1, true)

def outerLoop (kd : κ) : ℕ → List α → ℕ → ℕ → Option (List α × ℕ)
  | 0, _, _, _ => none
  | n + 1, seq, i, j =>
    let down := scanDown predicate key seq kd i j
    if down.2 = true then some (seq, down.1)
    else
      let up := scanUp predicate key seq kd down.1 (down.1 - i) i
      if up.2 = true then some (seq, down.1)
      else outerLoop kd n (rotatef seq up.1 down.1) up.1 down.1

/-- The part before the recursive calls, for a start below the end; the answer is j. -/
def partition (seq : List α) (start stop : ℕ) : Option (List α × ℕ) :=
  let p := start + (stop - start) / 2
  let d := elt seq p
  (outerLoop predicate key (key d) (stop + 1 - start) (rotatef seq p start) start (stop + 1)).map
    fun r => ((r.1.set start (elt r.1 r.2)).set r.2 d, r.2)

def quickSort : ℕ → List α → ℕ → ℤ → Option (List α)
  | 0, _, _, _ => none
  | n + 1, seq, start, stop =>
    if (start : ℤ) < stop then
      (partition predicate key seq start stop.toNat).bind fun r =>
        let j := r.2
        if (j : ℤ) - start < stop - j then
          (quickSort n r.1 start (j - 1)).bind fun seq => quickSort n seq (j + 1) stop
        else
          (quickSort n r.1 (j + 1) stop).bind fun seq => quickSort n seq start (j - 1)
    else some seq

/-- SORT of a vector. -/
def sortVector (v : Vector α) : Option (Vector α) :=
  (quickSort predicate key (v.length + 1) v.storage 0 (v.length - 1)).map fun storage =>
    { v with storage }

def copyLoop (source : List α) : ℕ → ℕ → ℕ → List α → List α
  | 0, _, _, target => target
  | n + 1, i, targetI, target =>
    copyLoop source n (i + 1) (targetI + 1) (target.set targetI (elt source i))

def mergeVectors (source : List α) (end1 end2 : ℕ) :
    ℕ → ℕ → ℕ → ℕ → List α → Option (List α)
  | 0, _, _, _, _ => none
  | n + 1, i, j, targetI, target =>
    if i = end1 then some (copyLoop source (end2 - j) j targetI target)
    else if j = end2 then some (copyLoop source (end1 - i) i targetI target)
    else if predicate (key (elt source j)) (key (elt source i)) = true then
      mergeVectors source end1 end2 n i (j + 1) (targetI + 1) (target.set targetI (elt source j))
    else
      mergeVectors source end1 end2 n (i + 1) j (targetI + 1) (target.set targetI (elt source i))

/-- The inner loop, which merges the runs of length n in pairs; it answers the last start-1. -/
def passLoop (source : List α) (vectorLen n : ℕ) : ℕ → ℕ → List α → Option (List α × ℕ)
  | 0, _, _ => none
  | rounds + 1, unsorted, target =>
    let start1 := unsorted
    let end1 := start1 + n
    if end1 < vectorLen then
      let end2 := if end1 + n > vectorLen then vectorLen else end1 + n
      (mergeVectors predicate key source end1 end2 (end2 - start1 + 1) start1 end1 start1
        target).bind fun target =>
          if end2 = vectorLen then some (target, start1)
          else passLoop source vectorLen n rounds end2 target
    else some (copyLoop source (vectorLen - start1) start1 start1 target, start1)

/-- The outer loop; with direction the pass goes from the vector to temp. -/
def vectorLoop (vectorLen : ℕ) : ℕ → ℕ → Bool → List α → List α → Option (List α)
  | 0, _, _, _, _ => none
  | rounds + 1, n, direction, vector, temp =>
    let source := if direction = true then vector else temp
    let target := if direction = true then temp else vector
    (passLoop predicate key source vectorLen n vectorLen.succ 0 target).bind fun r =>
      let temp := if direction = true then r.1 else temp
      let vector := if direction = true then vector else r.1
      if r.2 = 0 then
        some (if direction = true then copyLoop temp vectorLen 0 0 vector else vector)
      else vectorLoop vectorLen rounds (2 * n) (!direction) vector temp

def vectorMergeSort (v : Vector α) : Option (Vector α) :=
  (vectorLoop predicate key v.length (v.length + 1) 1 true v.storage
    (List.replicate v.length default)).map fun storage => { v with storage }

/-- STABLE-SORT of a vector, with what BIT-VECTOR-P says of it. -/
def stableSortVector (bitVectorP : Bool) (v : Vector α) : Option (Vector α) :=
  if bitVectorP = true then sortVector predicate key v else vectorMergeSort predicate key v

/-- The DO loop from j up to the size. -/
def mergeSteps (sequence1 sequence2 : List α) : ℕ → ℕ → ℕ → ℕ → List α → List α
  | 0, _, _, _, newseq => newseq
  | n + 1, j, i1, i2, newseq =>
    if i1 ≥ sequence1.length then
      mergeSteps sequence1 sequence2 n (j + 1) i1 (i2 + 1) (newseq.set j (elt sequence2 i2))
    else if i2 ≥ sequence2.length then
      mergeSteps sequence1 sequence2 n (j + 1) (i1 + 1) i2 (newseq.set j (elt sequence1 i1))
    else if takesRight predicate (key (elt sequence1 i1)) (key (elt sequence2 i2)) = true then
      mergeSteps sequence1 sequence2 n (j + 1) i1 (i2 + 1) (newseq.set j (elt sequence2 i2))
    else
      mergeSteps sequence1 sequence2 n (j + 1) (i1 + 1) i2 (newseq.set j (elt sequence1 i1))

/-- MERGE of two sequences, by their elements, into a new one with other elements at first. -/
def merge (sequence1 sequence2 : List α) : List α :=
  let size := sequence1.length + sequence2.length
  mergeSteps predicate key sequence1 sequence2 size 0 0 0 (List.replicate size default)

end

end SequenceSorting
