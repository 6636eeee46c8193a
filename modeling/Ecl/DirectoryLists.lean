import Mathlib.Data.List.Basic

/-! Components of pathnames, as in src/c/pathname.d. A string is the list of its character codes. -/
namespace Pathnames

abbrev LispString := List ℕ

inductive Component where
  | null
  | absolute
  | relative
  | up
  | back
  | wild
  | wildInferiors
  | string (s : LispString)
  | other (n : ℕ)
  deriving DecidableEq

end Pathnames

namespace DirectoryLists

open Pathnames

def dot : LispString := [46]
def dotDot : LispString := [46, 46]

/-- ecl_nth, for a list that may be too short. -/
def nth (n : ℕ) (directory : List Component) : Component := directory.getD n .null

/-- ECL_RPLACD of the n-th cell. -/
def rplacdNthcdr (n : ℕ) (directory tail : List Component) : List Component :=
  directory.take (n + 1) ++ tail

/-- ECL_RPLACA of the cell that as many follow. -/
def rplacaBefore (directory next : List Component) (item : Component) : List Component :=
  directory.take (directory.length - (next.length + 1)) ++ item :: next

inductive Pass where
  | error
  | finished (directory : List Component)
  | begin (directory : List Component)
  deriving DecidableEq

def Rooted (item : Component) : Prop := item = .absolute ∨ item = .wildInferiors

instance (item : Component) : Decidable (Rooted item) := inferInstanceAs (Decidable (_ ∨ _))

/-- The loop, at the cells of ptr. -/
def pass (logical deleteBack : Bool) : List Component → ℕ → List Component → Pass
  | directory, _, [] => .finished directory
  | directory, i, item :: next =>
    match item with
    | .back =>
      if i = 0 then .error
      else if Rooted (nth (i - 1) directory) then .error
      else if deleteBack ∧ 2 ≤ i then
        pass logical deleteBack (rplacdNthcdr (i - 2) directory next) (i - 1) next
      else pass logical deleteBack directory (i + 1) next
    | .up =>
      if i = 0 then .error
      else if Rooted (nth (i - 1) directory) then .error
      else pass logical deleteBack directory (i + 1) next
    | .relative | .absolute =>
      if 0 < i then .error else pass logical deleteBack directory (i + 1) next
    | .string s =>
      if logical then pass logical deleteBack directory (i + 1) next
      else if s = dot then
        if i = 0 then .error
        else pass logical deleteBack (rplacdNthcdr (i - 1) directory next) i next
      else if s = dotDot then .begin (rplacaBefore directory next .up)
      else pass logical deleteBack directory (i + 1) next
    | .wild | .wildInferiors => pass logical deleteBack directory (i + 1) next
    | .null | .other _ => .error

/-- How often a list can make the loop begin again. -/
def dots (directory : List Component) : ℕ := directory.count (.string dotDot)

/-- What the loop makes of an item after the items before it. -/
def checkItem (logical deleteBack : Bool) (before : List Component) (item : Component) :
    Option (List Component) :=
  let previous := nth (before.length - 1) before
  match item with
  | .back =>
    if before = [] ∨ Rooted previous then none
    else if deleteBack ∧ 2 ≤ before.length then some before.dropLast
    else some (before ++ [.back])
  | .up => if before = [] ∨ Rooted previous then none else some (before ++ [.up])
  | .relative | .absolute => if before = [] then some [item] else none
  | .string s =>
    if logical then some (before ++ [item])
    else if s = dot then if before = [] then none else some before
    else if s = dotDot then
      if before = [] ∨ Rooted previous then none else some (before ++ [.up])
    else some (before ++ [item])
  | .wild | .wildInferiors => some (before ++ [item])
  | .null | .other _ => none

section
variable {logical deleteBack : Bool} {before next : List Component} {item : Component}

theorem nth_before (h : before ≠ []) (rest : List Component) :
    nth (before.length - 1) (before ++ rest) = nth (before.length - 1) before := by
  have hpos := List.length_pos_of_ne_nil h
  rw [nth, nth, List.getD_eq_getElem?_getD, List.getElem?_append_left (by omega),
    List.getD_eq_getElem?_getD]

theorem rplacd_pair (h : 2 ≤ before.length) :
    rplacdNthcdr (before.length - 2) (before ++ item :: next) next = before.dropLast ++ next := by
  rw [rplacdNthcdr, List.take_append_of_le_length (by omega), List.dropLast_eq_take]
  congr 2
  omega

theorem rplacd_one (h : before ≠ []) :
    rplacdNthcdr (before.length - 1) (before ++ item :: next) next = before ++ next := by
  have hpos := List.length_pos_of_ne_nil h
  rw [rplacdNthcdr, Nat.sub_add_cancel hpos, List.take_left]

theorem rplaca_before : rplacaBefore (before ++ item :: next) next .up = before ++ .up :: next := by
  rw [rplacaBefore, List.length_append, List.length_cons, Nat.add_sub_cancel, List.take_left]

/-- One turn of the loop. The index stays in step with the pointer, also where cells are cut out. -/
theorem pass_cons (logical deleteBack : Bool) (before : List Component) (item : Component)
    (next : List Component) :
    (pass logical deleteBack (before ++ item :: next) before.length (item :: next) = .error ∧
      checkItem logical deleteBack before item = none) ∨
    (∃ p, pass logical deleteBack (before ++ item :: next) before.length (item :: next) =
        pass logical deleteBack (p ++ next) p.length next ∧
      checkItem logical deleteBack before item = some p) ∨
    (pass logical deleteBack (before ++ item :: next) before.length (item :: next) =
        .begin (before ++ .up :: next) ∧ item = .string dotDot ∧
      checkItem logical deleteBack before item = checkItem logical deleteBack before .up) := by
  have hpush : ∀ x : Component, pass logical deleteBack (before ++ x :: next) (before.length + 1)
      next = pass logical deleteBack ((before ++ [x]) ++ next) (before ++ [x]).length next := by
    intro x
    rw [List.append_assoc, List.length_append, List.singleton_append, List.length_singleton]
  have hbegin : rplacaBefore (before ++ .string dotDot :: next) next .up =
      before ++ .up :: next := rplaca_before
  rcases eq_or_ne before [] with rfl | hnil
  · cases item with
    | back | up | null | other => exact Or.inl ⟨rfl, rfl⟩
    | relative | absolute | wild | wildInferiors => exact Or.inr (Or.inl ⟨_, hpush _, rfl⟩)
    | string s =>
      cases logical with
      | true => exact Or.inr (Or.inl ⟨_, hpush _, rfl⟩)
      | false =>
        by_cases hdot : s = dot
        · subst hdot
          exact Or.inl ⟨rfl, rfl⟩
        by_cases hdotDot : s = dotDot
        · subst hdotDot
          exact Or.inr (Or.inr ⟨congrArg Pass.begin hbegin, rfl, rfl⟩)
        · simp only [pass, checkItem, if_neg hdot, if_neg hdotDot, Bool.false_eq_true, if_false]
          exact Or.inr (Or.inl ⟨_, hpush _, rfl⟩)
  have hlen : before.length ≠ 0 := fun h => hnil (List.length_eq_zero_iff.mp h)
  have hprev := nth_before hnil (item :: next)
  cases item with
  | back =>
    simp only [pass, checkItem, if_neg hlen, hprev, hnil, false_or]
    by_cases hroot : Rooted (nth (before.length - 1) before)
    · exact Or.inl ⟨if_pos hroot, if_pos hroot⟩
    · rw [if_neg hroot, if_neg hroot]
      by_cases hdel : deleteBack ∧ 2 ≤ before.length
      · rw [if_pos hdel, if_pos hdel, rplacd_pair hdel.2]
        exact Or.inr (Or.inl ⟨_, by rw [List.length_dropLast], rfl⟩)
      · rw [if_neg hdel, if_neg hdel, hpush]
        exact Or.inr (Or.inl ⟨_, rfl, rfl⟩)
  | up =>
    simp only [pass, checkItem, if_neg hlen, hprev, hnil, false_or]
    by_cases hroot : Rooted (nth (before.length - 1) before)
    · exact Or.inl ⟨if_pos hroot, if_pos hroot⟩
    · rw [if_neg hroot, if_neg hroot, hpush]
      exact Or.inr (Or.inl ⟨_, rfl, rfl⟩)
  | relative | absolute =>
    exact Or.inl ⟨if_pos (Nat.pos_of_ne_zero hlen), if_neg hnil⟩
  | wild | wildInferiors => exact Or.inr (Or.inl ⟨_, hpush _, rfl⟩)
  | null | other => exact Or.inl ⟨rfl, rfl⟩
  | string s =>
    cases logical with
    | true => exact Or.inr (Or.inl ⟨_, hpush _, rfl⟩)
    | false =>
      simp only [pass, checkItem, Bool.false_eq_true, if_false]
      by_cases hdot : s = dot
      · rw [if_pos hdot, if_pos hdot, if_neg hlen, if_neg hnil, rplacd_one hnil]
        exact Or.inr (Or.inl ⟨_, rfl, rfl⟩)
      by_cases hdotDot : s = dotDot
      · subst hdotDot
        rw [if_neg hdot, if_neg hdot, if_pos rfl, if_pos rfl, hbegin]
        exact Or.inr (Or.inr ⟨rfl, rfl, rfl⟩)
      · rw [if_neg hdot, if_neg hdot, if_neg hdotDot, if_neg hdotDot, hpush]
        exact Or.inr (Or.inl ⟨_, rfl, rfl⟩)

def Allowed (logical : Bool) : Component → Prop
  | .up | .back | .wild | .wildInferiors => True
  | .string s => logical = true ∨ s ≠ dot ∧ s ≠ dotDot
  | .null | .absolute | .relative | .other _ => False

structure Pushed (logical deleteBack : Bool) (before : List Component) (item : Component) :
    Prop where
  allowed : Allowed logical item
  rooted : item = .up ∨ item = .back → ¬ Rooted (nth (before.length - 1) before)
  kept : deleteBack = true → item = .back → before.length < 2

theorem Pushed.of_name (h : Allowed logical item) (hup : item ≠ .up) (hback : item ≠ .back) :
    Pushed logical deleteBack before item where
  allowed := h
  rooted hitem := absurd hitem (not_or.mpr ⟨hup, hback⟩)
  kept _ hitem := absurd hitem hback

inductive Checks (logical deleteBack : Bool) (before : List Component) :
    Component → List Component → Prop where
  | push {item : Component} (h : before ≠ [] → Pushed logical deleteBack before item) :
    Checks logical deleteBack before item (before ++ [item])
  | up (hlogical : logical = false)
    (h : before ≠ [] → Pushed logical deleteBack before .up)
    (hup : checkItem logical deleteBack before .up = some (before ++ [.up])) :
    Checks logical deleteBack before (.string dotDot) (before ++ [.up])
  | dot (hlogical : logical = false) : Checks logical deleteBack before (.string dot) before
  | pop (hdelete : deleteBack = true) (hlen : 2 ≤ before.length)
    (hroot : ¬ Rooted (nth (before.length - 1) before)) :
    Checks logical deleteBack before .back before.dropLast

theorem checks_of_some {p : List Component}
    (h : checkItem logical deleteBack before item = some p) :
    Checks logical deleteBack before item p := by
  cases item with
  | null | other => cases h
  | wild | wildInferiors =>
    cases h
    exact .push fun _ => .of_name trivial (by decide) (by decide)
  | relative | absolute =>
    by_cases hnil : before = []
    · subst hnil
      cases h
      exact @Checks.push _ _ [] _ fun hne => absurd rfl hne
    · rw [checkItem, if_neg hnil] at h
      cases h
  | up =>
    rw [checkItem] at h
    split at h
    · cases h
    · next hprev =>
      cases h
      exact .push fun _ => ⟨trivial, fun _ hroot => hprev (Or.inr hroot), fun _ h => (by cases h)⟩
  | back =>
    rw [checkItem] at h
    split at h
    · cases h
    · next hprev =>
      split at h
      · next hdel =>
        cases h
        exact .pop hdel.1 hdel.2 fun hroot => hprev (Or.inr hroot)
      · next hdel =>
        cases h
        exact .push fun _ => ⟨trivial, fun _ hroot => hprev (Or.inr hroot),
          fun hd _ => Nat.lt_of_not_le fun hlen => hdel ⟨hd, hlen⟩⟩
  | string s =>
    cases logical with
    | true =>
      cases h
      exact .push fun _ => .of_name (Or.inl rfl) (by simp) (by simp)
    | false =>
      simp only [checkItem, Bool.false_eq_true, if_false] at h
      split at h
      · next hdot =>
        split at h
        · cases h
        · cases h
          rw [hdot]
          exact .dot rfl
      · next hdot =>
        split at h
        · next hdotDot =>
          split at h
          · cases h
          · next hprev =>
            cases h
            rw [hdotDot]
            exact .up rfl (fun _ => ⟨trivial, fun _ hroot => hprev (Or.inr hroot),
              fun _ h => (by cases h)⟩) (by rw [checkItem, if_neg hprev])
        · next hdotDot =>
          cases h
          exact .push fun _ => .of_name (Or.inr ⟨hdot, hdotDot⟩) (by simp) (by simp)

def Checked (logical deleteBack : Bool) (before : List Component) : Prop :=
  ∀ p, p <+: before → p.foldlM (checkItem logical deleteBack) [] = some p

theorem checked_nil : Checked logical deleteBack [] := by
  intro p hp
  rw [List.prefix_nil.mp hp]
  rfl

theorem Checked.step {p : List Component} (h : Checked logical deleteBack before)
    (hp : checkItem logical deleteBack before item = some p) : Checked logical deleteBack p := by
  have hpush : ∀ y, checkItem logical deleteBack before y = some (before ++ [y]) →
      Checked logical deleteBack (before ++ [y]) := by
    intro y hy q hq
    rcases List.prefix_concat_iff.mp hq with rfl | hq
    · rw [List.foldlM_append, h before List.prefix_rfl]
      exact (bind_pure _).trans hy
    · exact h q hq
  cases checks_of_some hp with
  | push => exact hpush _ hp
  | up _ _ hup => exact hpush _ hup
  | dot => exact h
  | pop => exact fun q hq => h q (hq.trans (List.dropLast_prefix before))

theorem Checked.run {p : List Component} (h : Checked logical deleteBack before)
    (hp : next.foldlM (checkItem logical deleteBack) before = some p) :
    Checked logical deleteBack p := by
  induction next generalizing before with
  | nil =>
    cases hp
    exact h
  | cons item next ih =>
    obtain ⟨q, hq, hrest⟩ := Option.bind_eq_some_iff.mp hp
    exact ih (h.step hq) hrest

theorem dots_append (l l' : List Component) : dots (l ++ l') = dots l + dots l' := List.count_append

theorem dots_step {p : List Component} (hp : checkItem logical deleteBack before item = some p) :
    dots p ≤ dots (before ++ [item]) := by
  rw [dots_append]
  cases checks_of_some hp with
  | push => exact Nat.le_of_eq (dots_append _ _)
  | up =>
    exact Nat.le_trans (Nat.le_of_eq (dots_append _ _))
      (Nat.add_le_add_left (Nat.zero_le _) _)
  | dot => exact Nat.le_add_right _ _
  | pop => exact Nat.le_trans ((List.dropLast_sublist before).count_le _) (Nat.le_add_right _ _)

/-- A pass goes through the items, until one makes it begin again. -/
theorem pass_spec (h : Checked logical deleteBack before) :
    (pass logical deleteBack (before ++ next) before.length next = .error →
      next.foldlM (checkItem logical deleteBack) before = none) ∧
    (∀ d, pass logical deleteBack (before ++ next) before.length next = .finished d →
      next.foldlM (checkItem logical deleteBack) before = some d) ∧
    (∀ d, pass logical deleteBack (before ++ next) before.length next = .begin d →
      d.foldlM (checkItem logical deleteBack) [] =
          next.foldlM (checkItem logical deleteBack) before ∧
        dots d < dots (before ++ next)) := by
  induction next generalizing before with
  | nil =>
    rw [List.append_nil, pass]
    refine ⟨fun hp => (by cases hp), fun d hp => ?_, fun d hp => (by cases hp)⟩
    cases hp
    rfl
  | cons item next ih =>
    rw [List.foldlM_cons]
    rcases pass_cons logical deleteBack before item next with
      ⟨hpass, hitem⟩ | ⟨p, hpass, hitem⟩ | ⟨hpass, rfl, hitem⟩
    · rw [hpass, hitem]
      exact ⟨fun _ => rfl, fun d hp => (by cases hp), fun d hp => (by cases hp)⟩
    · obtain ⟨herror, hfinished, hbegin⟩ := ih (h.step hitem)
      rw [hpass, hitem]
      refine ⟨herror, hfinished, fun d hp => ?_⟩
      obtain ⟨hfold, hdots⟩ := hbegin d hp
      refine ⟨hfold, Nat.lt_of_lt_of_le hdots ?_⟩
      rw [List.append_cons, dots_append, dots_append _ next]
      exact Nat.add_le_add_right (dots_step hitem) _
    · rw [hpass, hitem]
      refine ⟨fun hp => by (cases hp), fun d hp => by (cases hp), fun d hp => ?_⟩
      cases hp
      constructor
      · rw [List.foldlM_append, h before List.prefix_rfl]
        rfl
      · rw [dots_append, dots_append, dots, dots, dots, List.count_cons_self,
          List.count_cons_of_ne (by decide)]
        exact Nat.lt_succ_self _

end

/-- From the label BEGIN on. -/
def fromBegin (logical deleteBack : Bool) (directory : List Component) : Option (List Component) :=
  match _h : pass logical deleteBack directory 0 directory with
  | .error => none
  | .finished d => some d
  | .begin d => fromBegin logical deleteBack d
termination_by dots directory
decreasing_by exact ((pass_spec checked_nil).2.2 d _h).2

/-- None is :error. -/
def destructivelyCheckDirectory (logical deleteBack : Bool) :
    List Component → Option (List Component)
  | [] => some []
  | first :: rest =>
    if first ≠ .absolute ∧ first ≠ .relative then none
    else fromBegin logical deleteBack (first :: rest)

section
variable {logical deleteBack : Bool} {directory d : List Component}

theorem fromBegin_eq (logical deleteBack : Bool) (directory : List Component) :
    fromBegin logical deleteBack directory =
      directory.foldlM (checkItem logical deleteBack) [] := by
  induction hn : dots directory using Nat.strongRecOn generalizing directory with
  | ind n ih =>
    obtain ⟨herror, hfinished, hbegin⟩ :=
      @pass_spec logical deleteBack [] directory checked_nil
    rw [fromBegin]
    split
    · next hp => exact (herror hp).symm
    · next d hp => exact (hfinished d hp).symm
    · next d hp =>
      obtain ⟨hfold, hdots⟩ := hbegin d hp
      rw [ih _ (hn ▸ hdots) d rfl, hfold]

theorem check_cons {first : Component} {rest : List Component}
    (h : first = .absolute ∨ first = .relative) :
    destructivelyCheckDirectory logical deleteBack (first :: rest) =
      rest.foldlM (checkItem logical deleteBack) [first] := by
  rw [destructivelyCheckDirectory, if_neg (by tauto), fromBegin_eq, List.foldlM_cons]
  rcases h with rfl | rfl <;> rfl

end

end DirectoryLists
