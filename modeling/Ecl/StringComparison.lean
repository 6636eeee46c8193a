import Ecl.LexicographicOrder
import Ecl.Strings

/-! The comparisons of strings in src/c/string.d. Arguments that are symbols or characters have
been made strings, and absent keyword arguments have their defaults. -/
namespace StringComparison

open Characters LexicographicOrder Strings
open SequenceRemoval (SequenceError withStartEnd withStartEnd_eq)

section
variable (ucd : Ucd)

def code (caseSensitive : Bool) (c : ℕ) : ℕ := if caseSensitive then c else ucd.charUpcase c

/-- compare_strings; the second number is what the pointer m gets. -/
def compareStrings (caseSensitive : Bool) (string1 : LispString) (e1 : ℕ) (string2 : LispString)
    (e2 s1 s2 : ℕ) : ℤ × ℕ :=
  if s1 < e1 then
    if e2 ≤ s2 then (1, s1)
    else
      let c1 := code ucd caseSensitive (string1.char s1)
      let c2 := code ucd caseSensitive (string2.char s2)
      if c1 < c2 then (-1, s1)
      else if c2 < c1 then (1, s1)
      else compareStrings caseSensitive string1 e1 string2 e2 (s1 + 1) (s2 + 1)
  else if e2 ≤ s2 then (0, s1)
  else (-1, s1)
termination_by e1 - s1

/-- compare_base from the character l on; the pointers s1 and s2 are places in the storage. -/
def compareBase (caseSensitive : Bool) (string1 : LispString) (s1 l1 : ℕ) (string2 : LispString)
    (s2 l2 l : ℕ) : ℤ × ℕ :=
  if l < l1 then
    if l = l2 then (1, l)
    else
      let c1 := code ucd caseSensitive (string1.char (s1 + l))
      let c2 := code ucd caseSensitive (string2.char (s2 + l))
      if c1 < c2 then (-1, l)
      else if c2 < c1 then (1, l)
      else compareBase caseSensitive string1 s1 l1 string2 s2 l2 (l + 1)
  else if l1 = l2 then (0, l)
  else (-1, l)
termination_by l1 - l

/-- The keyword arguments. -/
structure Bounds where
  start1 : ℕ
  end1 : Option ℕ
  start2 : ℕ
  end2 : Option ℕ
  deriving DecidableEq

/-- NIL is none. -/
def stringCompare (sign1 sign2 : ℤ) (caseSensitive : Bool) (string1 string2 : LispString)
    (k : Bounds) : Except SequenceError (Option ℕ) := do
  let (s1, e1) ← withStartEnd string1.fillp k.start1 k.end1
  let (s2, e2) ← withStartEnd string2.fillp k.start2 k.end2
  let (output, e1) :=
    if string1.extended || string2.extended then
      compareStrings ucd caseSensitive string1 e1 string2 e2 s1 s2
    else
      let (output, m) :=
        compareBase ucd caseSensitive string1 s1 (e1 - s1) string2 s2 (e2 - s2) 0
      (output, m + s1)
  return if output = sign1 ∨ output = sign2 then some e1 else none

/-- The four loops of string=, which differ in the types of the pointers. -/
def equalLoop (string1 : LispString) (e1 : ℕ) (string2 : LispString) (s1 s2 : ℕ) : Bool :=
  if s1 < e1 then
    if string1.char s1 ≠ string2.char s2 then false
    else equalLoop string1 e1 string2 (s1 + 1) (s2 + 1)
  else true
termination_by e1 - s1

def stringEq (string1 string2 : LispString) (k : Bounds) : Except SequenceError Bool := do
  let (s1, e1) ← withStartEnd string1.fillp k.start1 k.end1
  let (s2, e2) ← withStartEnd string2.fillp k.start2 k.end2
  return if e1 - s1 ≠ e2 - s2 then false else equalLoop string1 e1 string2 s1 s2

def stringEqual (string1 string2 : LispString) (k : Bounds) : Except SequenceError Bool := do
  let (s1, e1) ← withStartEnd string1.fillp k.start1 k.end1
  let (s2, e2) ← withStartEnd string2.fillp k.start2 k.end2
  if e1 - s1 ≠ e2 - s2 then return false
  else if string1.extended || string2.extended then
    return (compareStrings ucd false string1 e1 string2 e2 s1 s2).1 = 0
  else
    return (compareBase ucd false string1 s1 (e1 - s1) string2 s2 (e2 - s2) 0).1 = 0

/-- string<, string>, string<=, string>=, string/= and their counterparts without case. -/
inductive Comparison where
  | stringLt | stringGt | stringLe | stringGe | stringNe
  | stringLessp | stringGreaterp | stringNotGreaterp | stringNotLessp | stringNotEqual
  deriving DecidableEq

def Comparison.run : Comparison → LispString → LispString → Bounds → Except SequenceError (Option ℕ)
  | .stringLt => stringCompare ucd (-1) (-1) true
  | .stringGt => stringCompare ucd 1 1 true
  | .stringLe => stringCompare ucd (-1) 0 true
  | .stringGe => stringCompare ucd 0 1 true
  | .stringNe => stringCompare ucd (-1) 1 true
  | .stringLessp => stringCompare ucd (-1) (-1) false
  | .stringGreaterp => stringCompare ucd 1 1 false
  | .stringNotGreaterp => stringCompare ucd (-1) 0 false
  | .stringNotLessp => stringCompare ucd 0 1 false
  | .stringNotEqual => stringCompare ucd (-1) 1 false

end

def Comparison.caseSensitive : Comparison → Bool
  | .stringLt | .stringGt | .stringLe | .stringGe | .stringNe => true
  | .stringLessp | .stringGreaterp | .stringNotGreaterp | .stringNotLessp | .stringNotEqual => false

def Comparison.relation : Comparison → List ℕ → List ℕ → Prop
  | .stringLt | .stringLessp => fun u v => u < v
  | .stringGt | .stringGreaterp => fun u v => v < u
  | .stringLe | .stringNotGreaterp => fun u v => u ≤ v
  | .stringGe | .stringNotLessp => fun u v => v ≤ u
  | .stringNe | .stringNotEqual => fun u v => u ≠ v

instance (f : Comparison) (u v : List ℕ) : Decidable (f.relation u v) :=
  match f with
  | .stringLt | .stringLessp => inferInstanceAs (Decidable (u < v))
  | .stringGt | .stringGreaterp => inferInstanceAs (Decidable (v < u))
  | .stringLe | .stringNotGreaterp => inferInstanceAs (Decidable (u ≤ v))
  | .stringGe | .stringNotLessp => inferInstanceAs (Decidable (v ≤ u))
  | .stringNe | .stringNotEqual => inferInstanceAs (Decidable (u ≠ v))

section
variable {ucd : Ucd} {caseSensitive : Bool} {string1 string2 : LispString}

def codes (ucd : Ucd) (caseSensitive : Bool) (s : LispString) (start stop : ℕ) : List ℕ :=
  (s.between start stop).map (code ucd caseSensitive)

theorem codes_nil (s : LispString) {start stop : ℕ} (h : stop ≤ start) :
    codes ucd caseSensitive s start stop = [] := by
  rw [codes, s.between_nil h, List.map_nil]

theorem codes_cons (s : LispString) {start stop : ℕ} (h : start < stop) (hstop : stop ≤ s.dim) :
    codes ucd caseSensitive s start stop =
      code ucd caseSensitive (s.char start) :: codes ucd caseSensitive s (start + 1) stop := by
  rw [codes, s.between_cons h hstop, List.map_cons, codes]

theorem compareStrings_eq {e1 e2 : ℕ} (h1 : e1 ≤ string1.dim) (h2 : e2 ≤ string2.dim) (s1 s2 : ℕ) :
    compareStrings ucd caseSensitive string1 e1 string2 e2 s1 s2 =
      (sign (codes ucd caseSensitive string1 s1 e1) (codes ucd caseSensitive string2 s2 e2),
        s1 + firstDifference (codes ucd caseSensitive string1 s1 e1)
          (codes ucd caseSensitive string2 s2 e2)) := by
  fun_induction compareStrings ucd caseSensitive string1 e1 string2 e2 s1 s2 with
  | case1 s1 s2 hlt hend =>
    rw [codes_cons string1 hlt h1, codes_nil string2 hend, sign_cons_nil, firstDifference_nil_right]
    rfl
  | case2 s1 s2 hlt hend c1 c2 hless =>
    rw [codes_cons string1 hlt h1, codes_cons string2 (by omega) h2, sign_of_lt hless,
      firstDifference_of_ne hless.ne]
    rfl
  | case3 s1 s2 hlt hend c1 c2 hless hmore =>
    rw [codes_cons string1 hlt h1, codes_cons string2 (by omega) h2, sign_of_gt hmore,
      firstDifference_of_ne hmore.ne']
    rfl
  | case4 s1 s2 hlt hend c1 c2 hless hmore ih =>
    have heq : code ucd caseSensitive (string1.char s1) =
        code ucd caseSensitive (string2.char s2) :=
      Nat.le_antisymm (not_lt.mp hmore) (not_lt.mp hless)
    have hcodes : codes ucd caseSensitive string2 s2 e2 = _ := codes_cons string2 (by omega) h2
    rw [ih, codes_cons string1 hlt h1, hcodes, heq, sign_cons, firstDifference_cons,
      Nat.add_assoc, Nat.add_comm 1]
  | case5 s1 s2 hlt hend =>
    rw [codes_nil string1 (by omega), codes_nil string2 hend, sign_nil_nil]
    rfl
  | case6 s1 s2 hlt hend =>
    rw [codes_nil string1 (by omega), codes_cons string2 (by omega) h2, sign_nil_cons]
    rfl

theorem compareBase_eq {s1 l1 s2 l2 : ℕ} (h1 : s1 + l1 ≤ string1.dim) (h2 : s2 + l2 ≤ string2.dim)
    {l : ℕ} (hl1 : l ≤ l1) (hl2 : l ≤ l2) :
    compareBase ucd caseSensitive string1 s1 l1 string2 s2 l2 l =
      (sign (codes ucd caseSensitive string1 (s1 + l) (s1 + l1))
          (codes ucd caseSensitive string2 (s2 + l) (s2 + l2)),
        l + firstDifference (codes ucd caseSensitive string1 (s1 + l) (s1 + l1))
          (codes ucd caseSensitive string2 (s2 + l) (s2 + l2))) := by
  fun_induction compareBase ucd caseSensitive string1 s1 l1 string2 s2 l2 l with
  | case1 hlt =>
    rw [codes_cons string1 (by omega) h1, codes_nil string2 le_rfl, sign_cons_nil,
      firstDifference_nil_right]
    rfl
  | case2 l hlt hend c1 c2 hless =>
    rw [codes_cons string1 (by omega) h1, codes_cons string2 (by omega) h2, sign_of_lt hless,
      firstDifference_of_ne hless.ne]
    rfl
  | case3 l hlt hend c1 c2 hless hmore =>
    rw [codes_cons string1 (by omega) h1, codes_cons string2 (by omega) h2, sign_of_gt hmore,
      firstDifference_of_ne hmore.ne']
    rfl
  | case4 l hlt hend c1 c2 hless hmore ih =>
    have heq : code ucd caseSensitive (string1.char (s1 + l)) =
        code ucd caseSensitive (string2.char (s2 + l)) :=
      Nat.le_antisymm (not_lt.mp hmore) (not_lt.mp hless)
    have hcodes1 : codes ucd caseSensitive string1 (s1 + l) (s1 + l1) = _ :=
      codes_cons string1 (by omega) h1
    have hcodes2 : codes ucd caseSensitive string2 (s2 + l) (s2 + l2) = _ :=
      codes_cons string2 (by omega) h2
    rw [ih (by omega) (by omega), hcodes1, hcodes2, heq, sign_cons, firstDifference_cons,
      Nat.add_assoc, Nat.add_comm 1]
    rfl
  | case5 l hlt =>
    rw [codes_nil string1 (by omega), codes_nil string2 (by omega), sign_nil_nil]
    rfl
  | case6 l hlt hend =>
    rw [codes_nil string1 (by omega), codes_cons string2 (by omega) h2, sign_nil_cons]
    rfl

theorem equalLoop_iff {e1 : ℕ} (h1 : e1 ≤ string1.dim) (s1 s2 : ℕ)
    (h2 : s2 + (e1 - s1) ≤ string2.dim) :
    equalLoop string1 e1 string2 s1 s2 = true ↔
      string1.between s1 e1 = string2.between s2 (s2 + (e1 - s1)) := by
  fun_induction equalLoop string1 e1 string2 s1 s2 with
  | case1 s1 s2 hlt hne =>
    have hbetween : string2.between s2 (s2 + (e1 - s1)) = _ := string2.between_cons (by omega) h2
    rw [string1.between_cons hlt h1, hbetween]
    simp [hne]
  | case2 s1 s2 hlt heq ih =>
    have hbetween : string2.between s2 (s2 + (e1 - s1)) = _ := string2.between_cons (by omega) h2
    have hrest : s2 + 1 + (e1 - (s1 + 1)) = s2 + (e1 - s1) := by omega
    rw [hrest] at ih
    rw [ih h2, string1.between_cons hlt h1, hbetween, not_not.mp heq]
    simp
  | case3 s1 s2 hlt =>
    rw [string1.between_nil (by omega), string2.between_nil (by omega)]
    simp

theorem compareBase_parts {s1 e1 s2 e2 : ℕ} (hle1 : s1 ≤ e1) (h1 : e1 ≤ string1.dim)
    (hle2 : s2 ≤ e2) (h2 : e2 ≤ string2.dim) :
    compareBase ucd caseSensitive string1 s1 (e1 - s1) string2 s2 (e2 - s2) 0 =
      (sign (codes ucd caseSensitive string1 s1 e1) (codes ucd caseSensitive string2 s2 e2),
        firstDifference (codes ucd caseSensitive string1 s1 e1)
          (codes ucd caseSensitive string2 s2 e2)) := by
  have hsum1 : s1 + (e1 - s1) = e1 := Nat.add_sub_cancel' hle1
  have hsum2 : s2 + (e2 - s2) = e2 := Nat.add_sub_cancel' hle2
  rw [compareBase_eq (by rwa [hsum1]) (by rwa [hsum2]) (Nat.zero_le _) (Nat.zero_le _), hsum1,
    hsum2, Nat.add_zero, Nat.add_zero, Nat.zero_add]

def noLetters : Ucd := ⟨fun _ => ⟨9, 0⟩, fun _ => 20, fun _ => 255⟩

structure Bounds.Valid (k : Bounds) (string1 string2 : LispString) : Prop where
  start1 : k.start1 ≤ k.end1.getD string1.fillp
  end1 : k.end1.getD string1.fillp ≤ string1.fillp
  start2 : k.start2 ≤ k.end2.getD string2.fillp
  end2 : k.end2.getD string2.fillp ≤ string2.fillp

section
variable {k : Bounds}

def Bounds.part1 (k : Bounds) (ucd : Ucd) (caseSensitive : Bool) (string1 : LispString) : List ℕ :=
  codes ucd caseSensitive string1 k.start1 (k.end1.getD string1.fillp)

def Bounds.part2 (k : Bounds) (ucd : Ucd) (caseSensitive : Bool) (string2 : LispString) : List ℕ :=
  codes ucd caseSensitive string2 k.start2 (k.end2.getD string2.fillp)

theorem stringCompare_eq {sign1 sign2 : ℤ} (hk : k.Valid string1 string2) :
    let u := k.part1 ucd caseSensitive string1
    let v := k.part2 ucd caseSensitive string2
    stringCompare ucd sign1 sign2 caseSensitive string1 string2 k =
      .ok (if sign u v = sign1 ∨ sign u v = sign2 then some (k.start1 + firstDifference u v)
        else none) := by
  have hdim1 := hk.end1.trans string1.fillp_le
  have hdim2 := hk.end2.trans string2.fillp_le
  intro u v
  simp only [stringCompare, withStartEnd_eq hk.start1 hk.end1, withStartEnd_eq hk.start2 hk.end2,
    bind, Except.bind, pure, Except.pure]
  split
  · rw [compareStrings_eq hdim1 hdim2]
    rfl
  · rw [compareBase_parts hk.start1 hdim1 hk.start2 hdim2]
    dsimp only
    rw [Nat.add_comm _ k.start1]
    rfl

theorem stringEq_iff (ucd : Ucd) (hk : k.Valid string1 string2) :
    stringEq string1 string2 k = .ok true ↔
      k.part1 ucd true string1 = k.part2 ucd true string2 := by
  have hdim1 := hk.end1.trans string1.fillp_le
  have hdim2 := hk.end2.trans string2.fillp_le
  have hcodes : ∀ s : LispString, ∀ i j, codes ucd true s i j = s.between i j := by
    intro s i j
    exact List.map_id'' (fun _ => rfl) _
  rw [Bounds.part1, Bounds.part2, hcodes, hcodes]
  simp only [stringEq, withStartEnd_eq hk.start1 hk.end1, withStartEnd_eq hk.start2 hk.end2, bind,
    Except.bind, pure, Except.pure, Except.ok.injEq]
  split
  · next hne =>
    simp only [Bool.false_eq_true, false_iff]
    intro heq
    have hlength := congrArg List.length heq
    rw [string1.length_between hdim1, string2.length_between hdim2] at hlength
    exact hne hlength
  · next hsame =>
    have hstart2 := hk.start2
    have hsum : k.start2 + (k.end1.getD string1.fillp - k.start1) = k.end2.getD string2.fillp := by
      omega
    rw [equalLoop_iff hdim1 _ _ (by rwa [hsum]), hsum]

theorem stringEqual_eq (hk : k.Valid string1 string2) : stringEqual ucd string1 string2 k =
    .ok (decide (k.part1 ucd false string1 = k.part2 ucd false string2)) := by
  have hdim1 := hk.end1.trans string1.fillp_le
  have hdim2 := hk.end2.trans string2.fillp_le
  simp only [stringEqual, withStartEnd_eq hk.start1 hk.end1, withStartEnd_eq hk.start2 hk.end2,
    bind, Except.bind, pure, Except.pure, compareStrings_eq hdim1 hdim2,
    compareBase_parts hk.start1 hdim1 hk.start2 hdim2, sign_same_iff, ite_self]
  split
  · next hne =>
    rw [decide_eq_false]
    intro heq
    have hlength := congrArg List.length heq
    rw [Bounds.part1, Bounds.part2, codes, codes, List.length_map, List.length_map,
      string1.length_between hdim1, string2.length_between hdim2] at hlength
    exact hne hlength
  · rfl

theorem stringEq_active : stringEq string1 string2 ⟨0, none, 0, none⟩ = .ok true ↔
    string1.active = string2.active := by
  have hcodes : ∀ s : LispString, codes noLetters true s 0 s.fillp = s.active :=
    fun s => List.map_id'' (fun _ => rfl) _
  rw [stringEq_iff noLetters ⟨Nat.zero_le _, le_rfl, Nat.zero_le _, le_rfl⟩,
    ← hcodes string1, ← hcodes string2]
  rfl

theorem run_eq (f : Comparison) (hk : k.Valid string1 string2) :
    let u := k.part1 ucd f.caseSensitive string1
    let v := k.part2 ucd f.caseSensitive string2
    f.run ucd string1 string2 k =
      .ok (if f.relation u v then some (k.start1 + firstDifference u v) else none) := by
  intro u v
  have hrun : ∀ (caseSensitive : Bool) (sign1 sign2 : ℤ) (r : List ℕ → List ℕ → Prop)
      [∀ u v, Decidable (r u v)], (∀ u v : List ℕ, sign u v = sign1 ∨ sign u v = sign2 ↔ r u v) →
      stringCompare ucd sign1 sign2 caseSensitive string1 string2 k =
        .ok (if r (k.part1 ucd caseSensitive string1) (k.part2 ucd caseSensitive string2) then
          some (k.start1 + firstDifference (k.part1 ucd caseSensitive string1)
            (k.part2 ucd caseSensitive string2)) else none) := by
    intro caseSensitive sign1 sign2 r _ hr
    rw [stringCompare_eq hk]
    simp only [hr]
  have hlt : ∀ u v : List ℕ, sign u v = -1 ∨ sign u v = -1 ↔ u < v := by
    intro u v
    rw [or_self, sign_less_iff]
  have hgt : ∀ u v : List ℕ, sign u v = 1 ∨ sign u v = 1 ↔ v < u := by
    intro u v
    rw [or_self, sign_greater_iff]
  have hle : ∀ u v : List ℕ, sign u v = -1 ∨ sign u v = 0 ↔ u ≤ v := by
    intro u v
    rw [sign_less_iff, sign_same_iff]
    exact le_iff_lt_or_eq.symm
  have hge : ∀ u v : List ℕ, sign u v = 0 ∨ sign u v = 1 ↔ v ≤ u := by
    intro u v
    rw [sign_greater_iff, sign_same_iff, or_comm, le_iff_lt_or_eq, eq_comm]
  have hne : ∀ u v : List ℕ, sign u v = -1 ∨ sign u v = 1 ↔ u ≠ v := by
    intro u v
    rw [sign_less_iff, sign_greater_iff]
    exact lt_or_lt_iff_ne
  cases f with
  | stringLt => exact hrun true (-1) (-1) _ hlt
  | stringGt => exact hrun true 1 1 _ hgt
  | stringLe => exact hrun true (-1) 0 _ hle
  | stringGe => exact hrun true 0 1 _ hge
  | stringNe => exact hrun true (-1) 1 _ hne
  | stringLessp => exact hrun false (-1) (-1) _ hlt
  | stringGreaterp => exact hrun false 1 1 _ hgt
  | stringNotGreaterp => exact hrun false (-1) 0 _ hle
  | stringNotLessp => exact hrun false 0 1 _ hge
  | stringNotEqual => exact hrun false (-1) 1 _ hne

end

end

def IsTrue (result : Except SequenceError (Option ℕ)) : Prop := ∃ i, result = .ok (some i)

def ExactlyOne (p q r : Prop) : Prop := p ∧ ¬q ∧ ¬r ∨ ¬p ∧ q ∧ ¬r ∨ ¬p ∧ ¬q ∧ r

/-- The comparisons are those of the codes in lexicographic order, and return where the parts
differ. -/
theorem comparisons_lexicographic (ucd : Ucd) {string1 string2 : LispString} {k : Bounds}
    (hk : k.Valid string1 string2) :
    (∀ f : Comparison,
      let u := k.part1 ucd f.caseSensitive string1
      let v := k.part2 ucd f.caseSensitive string2
      f.run ucd string1 string2 k =
        .ok (if f.relation u v then some (k.start1 + firstDifference u v) else none)) ∧
      ExactlyOne (IsTrue (Comparison.stringLt.run ucd string1 string2 k))
        (stringEq string1 string2 k = .ok true)
        (IsTrue (Comparison.stringGt.run ucd string1 string2 k)) := by
  refine ⟨fun f => run_eq f hk, ?_⟩
  have htrue : ∀ (p : Prop) [Decidable p] (n : ℕ),
      IsTrue (.ok (if p then some n else none)) ↔ p := by
    intro p _ n
    by_cases hp : p <;> simp [IsTrue, hp]
  rw [run_eq .stringLt hk, run_eq .stringGt hk, htrue, htrue, stringEq_iff ucd hk]
  simp only [Comparison.relation, Comparison.caseSensitive]
  generalize k.part1 ucd true string1 = u
  generalize k.part2 ucd true string2 = v
  rcases lt_trichotomy u v with h | h | h
  · exact Or.inl ⟨h, h.ne, h.asymm⟩
  · exact Or.inr (Or.inl ⟨h.not_lt, h, h.not_gt⟩)
  · exact Or.inr (Or.inr ⟨h.asymm, h.ne', h⟩)

/-- STRING-EQUAL is equality without case; it follows from STRING=. -/
theorem stringEqual_complements (ucd : Ucd) {string1 string2 : LispString} {k : Bounds}
    (hk : k.Valid string1 string2) :
    stringEqual ucd string1 string2 k =
        .ok (decide (k.part1 ucd false string1 = k.part2 ucd false string2)) ∧
      (stringEqual ucd string1 string2 k = .ok true ↔
        Comparison.stringNotEqual.run ucd string1 string2 k = .ok none) ∧
      (stringEq string1 string2 k = .ok true → stringEqual ucd string1 string2 k = .ok true) := by
  rw [stringEqual_eq hk, run_eq .stringNotEqual hk, stringEq_iff ucd hk]
  refine ⟨rfl, ?_, fun heq => ?_⟩
  · simp only [Except.ok.injEq, decide_eq_true_eq, ite_eq_right_iff, reduceCtorEq, imp_false]
    exact not_not.symm
  · have hmap := congrArg (List.map (code ucd false)) heq
    simp only [Bounds.part1, Bounds.part2, codes, List.map_map] at hmap ⊢
    exact congrArg _ (decide_eq_true hmap)

def abc : LispString := ⟨false, [97, 98, 99], 3, by decide, by decide⟩

def abd : LispString := ⟨true, [97, 98, 100], 3, by decide, by decide⟩

theorem stringEqual_complements_abd :
    stringEqual noLetters abc abd ⟨0, none, 0, none⟩ = .ok false :=
  (stringEqual_complements noLetters ⟨by decide, by decide, by decide, by decide⟩).1.trans
    (by decide)

theorem comparisons_lexicographic_abd :
    Comparison.stringLt.run noLetters abc abd ⟨0, none, 0, none⟩ = .ok (some 2) ∧
      ¬stringEq abc abd ⟨0, none, 0, none⟩ = .ok true := by
  have hvalid : Bounds.Valid ⟨0, none, 0, none⟩ abc abd :=
    ⟨by decide, by decide, by decide, by decide⟩
  obtain ⟨hrun, hone⟩ := comparisons_lexicographic noLetters hvalid
  have hless : Comparison.stringLt.run noLetters abc abd ⟨0, none, 0, none⟩ = .ok (some 2) :=
    (hrun .stringLt).trans (by decide)
  refine ⟨hless, fun heq => ?_⟩
  rcases hone with ⟨-, hne, -⟩ | ⟨hnot, -, -⟩ | ⟨hnot, -, -⟩
  · exact hne heq
  · exact hnot ⟨2, hless⟩
  · exact hnot ⟨2, hless⟩

end StringComparison
