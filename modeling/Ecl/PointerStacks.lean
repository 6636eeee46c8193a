import Mathlib.Data.List.Basic
import Mathlib.Tactic.Linarith

/-! The general purpose stacks of src/c/stacks.d. An access past the allocated cells is no
result. -/
namespace PointerStacks

structure Stack (α : Type*) where
  dim : ℕ
  self : Vector α dim
  fillp : ℕ
  fits : fillp ≤ dim

variable {α : Type*} {n : ℕ}

def fetch (v : Vector α n) (idx : ℕ) : Option α := v[idx]?

def store (v : Vector α n) (idx : ℕ) (x : α) : Option (Vector α n) :=
  if h : idx < n then some (v.set idx x h) else none

/-- ecl_make_stack. The allocator decides what fresh cells hold. -/
def makeStack (size : ℕ) (fresh : ℕ → α) : Stack α where
  dim := size
  self := Vector.ofFn fun i => fresh i
  fillp := 0
  fits := Nat.zero_le _

/-- ecl_stack_resize, with the new block of ecl_realloc. -/
def resize (s : Stack α) (nsize : ℕ) (h : s.dim ≤ nsize) (fresh : ℕ → α) : Stack α where
  dim := nsize
  self := Vector.ofFn fun i => s.self[i.val]?.getD (fresh i)
  fillp := s.fillp
  fits := s.fits.trans h

def grownDim (dim : ℕ) : ℕ := dim + dim / 2 + 1

theorem lt_grownDim (dim : ℕ) : dim < grownDim dim := by
  unfold grownDim
  omega

/-- The end of ecl_stack_push. -/
def append (s : Stack α) (elt : α) : Option (Stack α) :=
  if h : s.fillp < s.dim then
    some { s with self := s.self.set s.fillp elt h, fillp := s.fillp + 1, fits := h }
  else none

/-- ecl_stack_push. -/
def push (s : Stack α) (elt : α) (fresh : ℕ → α) : Option (Stack α) :=
  if s.fillp = s.dim then append (resize s (grownDim s.dim) (lt_grownDim s.dim).le fresh) elt
  else append s elt

/-- ecl_stack_popu. Without elements the index is far out of the vector. -/
def popu (nil : α) (s : Stack α) : Option (α × Stack α) :=
  if h : 0 < s.fillp then
    have hlt : s.fillp - 1 < s.dim := Nat.lt_of_lt_of_le (Nat.sub_one_lt_of_lt h) s.fits
    some (s.self[s.fillp - 1],
      { s with self := s.self.set (s.fillp - 1) nil, fillp := s.fillp - 1, fits := hlt.le })
  else none

/-- The loop of ecl_stack_del that moves the cells down. -/
def shift (v : Vector α n) (idx ndx : ℕ) : Option (Vector α n) := do
  let v ← store v idx (← fetch v (idx + 1))
  if idx + 1 ≤ ndx then shift v (idx + 1) ndx else some v
termination_by ndx + 1 - idx

/-- The loop of ecl_stack_del that looks for the element. -/
def delFrom [DecidableEq α] (nil : α) (s : Stack α) (elt : α) (idx : ℕ) : Option (Stack α) :=
  if idx < s.fillp then do
    if (← fetch s.self idx) = elt then
      let v ← shift s.self idx s.fillp
      let (_, s) ← popu nil { s with self := v }
      return s
    else delFrom nil s elt (idx + 1)
  else some s
termination_by s.fillp - idx

/-- ecl_stack_del. -/
def del [DecidableEq α] (nil : α) (s : Stack α) (elt : α) : Option (Stack α) := delFrom nil s elt 0

def Stack.contents (s : Stack α) : List α := s.self.toList.take s.fillp

section
variable {s s' : Stack α}

@[simp] theorem length_contents (s : Stack α) : s.contents.length = s.fillp := by
  simp [Stack.contents, s.fits]

theorem contents_getElem? (s : Stack α) (j : ℕ) :
    s.contents[j]? = if j < s.fillp then s.self[j]? else none := by
  rw [Stack.contents, List.getElem?_take, Vector.getElem?_toList]

theorem contents_getElem?_of_lt {j : ℕ} (h : j < s.fillp) : s.contents[j]? = s.self[j]? := by
  rw [contents_getElem?, if_pos h]

theorem store_of_lt {v : Vector α n} {idx : ℕ} (h : idx < n) (x : α) :
    store v idx x = some (v.set idx x h) := dif_pos h

theorem contents_resize {nsize : ℕ} (h : s.dim ≤ nsize) (fresh : ℕ → α) :
    (resize s nsize h fresh).contents = s.contents := by
  apply List.ext_getElem?
  intro j
  rw [contents_getElem?, contents_getElem?]
  refine ite_congr rfl (fun hj => ?_) fun _ => rfl
  have hj : j < s.dim := lt_of_lt_of_le hj s.fits
  refine (Vector.getElem?_ofFn (n := nsize)).trans ?_
  rw [dif_pos (lt_of_lt_of_le hj h), Vector.getElem?_eq_getElem hj, Option.getD_some]

theorem append_spec (h : s.fillp < s.dim) (elt : α) :
    ∃ s', append s elt = some s' ∧ s'.dim = s.dim ∧ s'.contents = s.contents ++ [elt] := by
  refine ⟨_, dif_pos h, rfl, ?_⟩
  apply List.ext_getElem?
  intro j
  rw [contents_getElem?, List.getElem?_append, length_contents]
  rcases lt_trichotomy j s.fillp with hj | rfl | hj
  · rw [if_pos (Nat.lt_succ_of_lt hj), if_pos hj, contents_getElem?_of_lt hj,
      Vector.getElem?_set_ne h hj.ne']
  · simp [h]
  · have hle : ¬ j < s.fillp + 1 := by omega
    obtain ⟨k, hk⟩ := Nat.exists_eq_add_of_lt hj
    simp [hle, hj.le.not_gt, show j - s.fillp = k + 1 by omega]

def pushedDim (dim length : ℕ) : ℕ := if length = dim then grownDim dim else dim

theorem push_spec (s : Stack α) (elt : α) (fresh : ℕ → α) :
    ∃ s', push s elt fresh = some s' ∧ s'.dim = pushedDim s.dim s.fillp ∧
      s'.contents = s.contents ++ [elt] := by
  unfold push pushedDim
  split
  · next hfull =>
    have hroom : s.fillp < grownDim s.dim := hfull ▸ lt_grownDim s.dim
    obtain ⟨s', hs', hdim, hcontents⟩ :=
      append_spec (s := resize s (grownDim s.dim) (lt_grownDim s.dim).le fresh) hroom elt
    exact ⟨s', hs', hdim, by rw [hcontents, contents_resize]⟩
  · next hfull => exact append_spec (lt_of_le_of_ne s.fits hfull) elt

theorem popu_spec (nil : α) (h : 0 < s.fillp) : ∃ s', popu nil s =
    some (s.self.get ⟨s.fillp - 1, by have := s.fits; omega⟩, s') ∧ s'.dim = s.dim ∧
      s'.contents = s.contents.dropLast := by
  refine ⟨_, dif_pos h, rfl, ?_⟩
  apply List.ext_getElem?
  intro j
  rw [contents_getElem?, List.getElem?_dropLast, length_contents]
  refine ite_congr rfl (fun hj => ?_) fun _ => rfl
  have hj' : j < s.fillp := lt_of_lt_of_le hj (Nat.sub_le _ _)
  rw [contents_getElem?_of_lt hj', Vector.getElem?_set_ne _ (ne_of_gt hj)]

theorem shift_step {v : Vector α n} {idx : ℕ} (ndx : ℕ) (h : idx + 1 < n) :
    shift v idx ndx = if idx + 1 ≤ ndx then shift (v.set idx v[idx + 1]) (idx + 1) ndx
      else some (v.set idx v[idx + 1]) := by
  rw [shift, fetch, Vector.getElem?_eq_getElem h, Option.bind_eq_bind, Option.bind_some,
    store_of_lt (by omega)]
  rfl

theorem shift_eq {v : Vector α n} {idx ndx : ℕ} (hidx : idx ≤ ndx) (hn : ndx + 1 < n) :
    ∃ v', shift v idx ndx = some v' ∧
      ∀ j, v'[j]? = if idx ≤ j ∧ j ≤ ndx then v[j + 1]? else v[j]? := by
  induction hk : ndx - idx generalizing v idx with
  | zero =>
    obtain rfl : idx = ndx := by omega
    rw [shift_step idx hn, if_neg (Nat.not_succ_le_self idx)]
    refine ⟨_, rfl, fun j => ?_⟩
    by_cases hj : idx = j
    · subst hj
      rw [if_pos ⟨le_rfl, le_rfl⟩, Vector.getElem?_set_self, Vector.getElem?_eq_getElem hn]
    · rw [if_neg (by omega), Vector.getElem?_set_ne _ hj]
  | succ k ih =>
    have hlt : idx + 1 < n := by omega
    rw [shift_step ndx hlt, if_pos (by omega)]
    obtain ⟨v', hv', hcells⟩ := @ih (v.set idx v[idx + 1]) (idx + 1) (by omega) (by omega)
    refine ⟨v', hv', fun j => ?_⟩
    rw [hcells]
    rcases lt_trichotomy j idx with hj | rfl | hj
    · rw [if_neg (by omega), if_neg (by omega), Vector.getElem?_set_ne _ (by omega)]
    · rw [if_neg (by omega), if_pos (by omega), Vector.getElem?_set_self,
        Vector.getElem?_eq_getElem hlt]
    · rw [Vector.getElem?_set_ne _ (by omega), Vector.getElem?_set_ne _ (by omega)]
      refine ite_congr (propext (by omega)) (fun _ => rfl) fun _ => rfl

theorem shift_none {v : Vector α n} {idx ndx : ℕ} (hidx : idx ≤ ndx) (hn : n ≤ ndx + 1) :
    shift v idx ndx = none := by
  induction hk : ndx - idx generalizing v idx with
  | zero =>
    rw [shift, fetch, Vector.getElem?_eq_none (by omega)]
    rfl
  | succ k ih =>
    by_cases hlt : idx + 1 < n
    · rw [shift_step ndx hlt, if_pos (by omega)]
      exact ih (by omega) (by omega)
    · rw [shift, fetch, Vector.getElem?_eq_none (by omega)]
      rfl

section
variable [DecidableEq α] {nil elt : α}

/-- What ecl_stack_del does to the element that it found. -/
def remove (nil : α) (s : Stack α) (idx : ℕ) : Option (Stack α) := do
  let v ← shift s.self idx s.fillp
  let (_, s) ← popu nil { s with self := v }
  return s

theorem delFrom_eq {idx : ℕ} (hidx : idx ≤ s.contents.idxOf elt) :
    delFrom nil s elt idx =
      if elt ∈ s.contents then remove nil s (s.contents.idxOf elt) else some s := by
  have hlength : s.contents.idxOf elt ≤ s.fillp := by
    rw [← length_contents s]
    exact List.idxOf_le_length
  induction hk : s.fillp - idx generalizing idx with
  | zero =>
    have habsent : elt ∉ s.contents := by
      rw [← List.idxOf_eq_length_iff, length_contents]
      omega
    rw [delFrom, if_neg (by omega), if_neg habsent]
  | succ k ih =>
    have hlt : idx < s.fillp := by omega
    have hlist : idx < s.contents.length := by simpa using hlt
    have hdim : idx < s.dim := hlt.trans_le s.fits
    have hget : s.contents[idx] = s.self[idx] := by
      apply Option.some.inj
      rw [← List.getElem?_eq_getElem, contents_getElem?_of_lt hlt, Vector.getElem?_eq_getElem]
    rw [delFrom, if_pos hlt, fetch, Vector.getElem?_eq_getElem hdim,
      Option.bind_eq_bind, Option.bind_some, ← hget]
    by_cases helt : s.contents[idx] = elt
    · have hfound : s.contents.idxOf elt = idx := by
        refine le_antisymm (not_lt.mp fun hlt' => ?_) hidx
        have hne := List.not_of_lt_findIdx hlt'
        simp [helt] at hne
      rw [if_pos helt, if_pos (helt ▸ List.getElem_mem _), hfound]
      rfl
    · have hne : s.contents.idxOf elt ≠ idx := by
        rintro rfl
        exact helt (List.getElem_idxOf _)
      rw [if_neg helt]
      exact ih (by omega) (by omega)

theorem del_of_notMem (h : elt ∉ s.contents) : del nil s elt = some s := by
  rw [del, delFrom_eq (Nat.zero_le _), if_neg h]

theorem del_overruns (h : elt ∈ s.contents) (hfull : s.dim ≤ s.fillp + 1) :
    del nil s elt = none := by
  have hle : s.contents.idxOf elt ≤ s.fillp := length_contents s ▸ List.idxOf_le_length
  rw [del, delFrom_eq (Nat.zero_le _), if_pos h, remove, shift_none hle hfull]
  rfl

theorem del_spec (h : elt ∈ s.contents) (hroom : s.fillp + 1 < s.dim) :
    ∃ s', del nil s elt = some s' ∧ s'.dim = s.dim ∧ s'.contents = s.contents.erase elt := by
  have hlt : s.contents.idxOf elt < s.fillp := length_contents s ▸ List.idxOf_lt_length_of_mem h
  obtain ⟨v, hv, hcells⟩ := shift_eq (v := s.self) hlt.le hroom
  obtain ⟨s', hs', hdim, hcontents⟩ :=
    popu_spec (s := { s with self := v }) nil (Nat.zero_lt_of_lt hlt)
  refine ⟨s', ?_, hdim, ?_⟩
  · rw [del, delFrom_eq (Nat.zero_le _), if_pos h, remove, hv, Option.bind_eq_bind,
      Option.bind_some, hs']
    rfl
  · rw [hcontents, List.erase_eq_eraseIdx_of_idxOf rfl]
    apply List.ext_getElem?
    intro j
    rw [List.getElem?_dropLast, length_contents, List.getElem?_eraseIdx]
    by_cases hj : j < s.fillp - 1
    · have hmoved := contents_getElem?_of_lt (s := { s with self := v })
        (show j < s.fillp by omega)
      rw [if_pos hj, hmoved, hcells]
      rcases lt_or_ge j (s.contents.idxOf elt) with hlow | hhigh
      · rw [if_neg (by omega), if_pos hlow, contents_getElem?_of_lt (by omega)]
      · rw [if_pos ⟨hhigh, by omega⟩, if_neg (by omega), contents_getElem?_of_lt (by omega)]
    · rw [if_neg hj, if_neg (by omega), contents_getElem?, if_neg (by omega)]

end

end

inductive Operation (α : Type*) where
  | push (elt : α) (fresh : ℕ → α)
  | del (elt : α)
  | popu

structure Sketch (α : Type*) where
  items : List α
  dim : ℕ

def Stack.sketch (s : Stack α) : Sketch α := ⟨s.contents, s.dim⟩

section
variable [DecidableEq α] (nil : α)

def Operation.run (s : Stack α) : Operation α → Option (Stack α)
  | push elt fresh => PointerStacks.push s elt fresh
  | del elt => PointerStacks.del nil s elt
  | popu => do
    let (_, s) ← PointerStacks.popu nil s
    return s

def runAll (s : Stack α) : List (Operation α) → Option (Stack α)
  | [] => some s
  | op :: ops => do runAll (← op.run nil s) ops

end

section
variable [DecidableEq α]

def Operation.apply (a : Sketch α) : Operation α → Sketch α
  | push elt _ => ⟨a.items ++ [elt], pushedDim a.dim a.items.length⟩
  | del elt => ⟨a.items.erase elt, a.dim⟩
  | popu => ⟨a.items.dropLast, a.dim⟩

def applyAll (a : Sketch α) (ops : List (Operation α)) : Sketch α := ops.foldl Operation.apply a

def Operation.Safe (a : Sketch α) : Operation α → Prop
  | push _ _ => True
  | del elt => elt ∈ a.items → a.items.length + 1 < a.dim
  | popu => a.items ≠ []

def SafeRun (a : Sketch α) : List (Operation α) → Prop
  | [] => True
  | op :: ops => op.Safe a ∧ SafeRun (op.apply a) ops

variable {nil : α} {s s' : Stack α} {op : Operation α} {ops : List (Operation α)}

theorem run_safe (h : op.Safe s.sketch) :
    ∃ s', op.run nil s = some s' ∧ s'.sketch = op.apply s.sketch := by
  cases op with
  | push elt fresh =>
    obtain ⟨s', hs', hdim, hcontents⟩ := push_spec s elt fresh
    exact ⟨s', hs', by simp [Stack.sketch, Operation.apply, hdim, hcontents]⟩
  | del elt =>
    by_cases hmem : elt ∈ s.contents
    · have hroom := h hmem
      rw [Stack.sketch, length_contents] at hroom
      obtain ⟨s', hs', hdim, hcontents⟩ := @del_spec _ _ _ nil _ hmem hroom
      exact ⟨s', hs', by simp [Stack.sketch, Operation.apply, hdim, hcontents]⟩
    · refine ⟨s, del_of_notMem hmem, ?_⟩
      simp [Stack.sketch, Operation.apply, List.erase_of_not_mem hmem]
  | popu =>
    have hpos : 0 < s.fillp := by
      rw [← length_contents s]
      exact List.length_pos_iff.mpr h
    obtain ⟨s', hs', hdim, hcontents⟩ := popu_spec nil hpos
    refine ⟨s', ?_, by simp [Stack.sketch, Operation.apply, hdim, hcontents]⟩
    rw [Operation.run, hs']
    rfl

theorem run_unsafe_eq (h : ¬ op.Safe s.sketch) : op.run nil s = none := by
  cases op with
  | push elt fresh => exact absurd trivial h
  | del elt =>
    obtain ⟨hmem, hfull⟩ := Classical.not_imp.mp h
    rw [Stack.sketch, length_contents, not_lt] at hfull
    exact del_overruns hmem hfull
  | popu =>
    have hempty : s.contents = [] := not_not.mp h
    have hzero : s.fillp = 0 := by
      rw [← length_contents s, hempty]
      rfl
    rw [Operation.run, popu, dif_neg (by omega)]
    rfl

theorem runAll_iff (s : Stack α) (ops : List (Operation α)) :
    (∃ s', runAll nil s ops = some s' ∧ s'.contents = (applyAll s.sketch ops).items) ↔
      SafeRun s.sketch ops := by
  induction ops generalizing s with
  | nil => exact iff_of_true ⟨s, rfl, rfl⟩ trivial
  | cons op ops ih =>
    by_cases hsafe : op.Safe s.sketch
    · obtain ⟨s₁, hrun, hsketch⟩ := @run_safe _ _ nil _ _ hsafe
      have hcons : runAll nil s (op :: ops) = runAll nil s₁ ops := by
        rw [runAll, hrun, Option.bind_eq_bind, Option.bind_some]
      rw [hcons, SafeRun, ← hsketch, and_iff_right hsafe, ← ih s₁, applyAll, List.foldl_cons,
        ← hsketch]
      rfl
    · have hcons : runAll nil s (op :: ops) = none := by
        rw [runAll, run_unsafe_eq hsafe]
        rfl
      rw [hcons, SafeRun]
      exact iff_of_false (fun ⟨_, h, _⟩ => Option.some_ne_none _ h.symm) fun h => hsafe h.1

/-- A sequence of operations on a new stack stays within the cells, with the contents of the
list, exactly if nothing is taken from an empty stack and no present element is deleted with
fewer than two cells free. -/
theorem pointerStack_run_iff (size : ℕ) (fresh : ℕ → α) (nil : α) (ops : List (Operation α)) :
    (∃ s, runAll nil (makeStack size fresh) ops = some s ∧
        s.contents = (applyAll ⟨[], size⟩ ops).items) ↔ SafeRun ⟨[], size⟩ ops :=
  runAll_iff (makeStack size fresh) ops

/-- The only element of a full stack is deleted. -/
theorem full_stack_overruns :
    runAll 0 (makeStack 1 fun _ => 0) [.push 7 fun _ => 0, .del 7] = none := by
  obtain ⟨s, hs, hdim, hcontents⟩ := push_spec (makeStack 1 fun _ => 0) 7 fun _ => 0
  have hmem : 7 ∈ s.contents := by
    rw [hcontents]
    exact List.mem_append_right _ (List.mem_singleton_self 7)
  have hfull : s.dim ≤ s.fillp + 1 := by
    rw [hdim]
    exact Nat.le_add_left _ _
  rw [runAll, Operation.run, hs, Option.bind_eq_bind, Option.bind_some, runAll, Operation.run,
    del_overruns hmem hfull]
  rfl

end

end PointerStacks
