import Ecl.DirectoryLists
import Mathlib.Data.List.Chain

/-! What directory lists denote, and when checking one keeps it. -/
namespace DirectoryLists

open Pathnames

def Follows (item item' : Component) : Prop := item' = .up ∨ item' = .back → ¬ Rooted item

def WellFormed (logical : Bool) (directory : List Component) : Prop :=
  directory = [] ∨ ∃ first rest, directory = first :: rest ∧
    (first = .absolute ∨ first = .relative) ∧ (∀ x ∈ rest, Allowed logical x) ∧
    directory.IsChain Follows

def cancelled : Component → Bool
  | .string _ | .wild => true
  | _ => false

def readItem (logical : Bool) (before : List Component) (item : Component) : List Component :=
  match item with
  | .back => if before.getLast?.any cancelled then before.dropLast else before ++ [.back]
  | .string s =>
    if logical then before ++ [.string s]
    else if s = dot then before
    else if s = dotDot then before ++ [.up]
    else before ++ [.string s]
  | item => before ++ [item]

def reading (logical : Bool) (directory : List Component) : List Component :=
  directory.foldl (readItem logical) []

def Stray (logical : Bool) (directory : List Component) : Prop :=
  ∃ p q, directory = p ++ .back :: q ∧
    ((reading logical p).getLast? = some .up ∨ (reading logical p).getLast? = some .back)

section
variable {logical deleteBack : Bool} {first item : Component} {before next : List Component}

theorem nth_last (q : List Component) (z : Component) :
    nth ((q ++ [z]).length - 1) (q ++ [z]) = z := by
  rw [nth, List.length_append, List.length_singleton, Nat.add_sub_cancel,
    List.getD_eq_getElem?_getD, List.getElem?_concat_length]
  rfl

structure Formed (logical deleteBack : Bool) (first : Component) (before : List Component) :
    Prop where
  first_root : first = .absolute ∨ first = .relative
  head : before.head? = some first
  allowed : ∀ x ∈ before.tail, Allowed logical x
  chain : before.IsChain Follows
  back : deleteBack = true → before.IsChain fun x y => y = .back → x = .relative

theorem Formed.start (h : first = .absolute ∨ first = .relative) :
    Formed logical deleteBack first [first] where
  first_root := h
  head := rfl
  allowed _ hx := absurd hx List.not_mem_nil
  chain := .singleton first
  back _ := .singleton first

theorem Formed.ne_nil (h : Formed logical deleteBack first before) : before ≠ [] := by
  rintro rfl
  cases h.head

theorem Formed.push (h : Formed logical deleteBack first before)
    (hitem : Pushed logical deleteBack before item) :
    Formed logical deleteBack first (before ++ [item]) := by
  have hne := h.ne_nil
  obtain ⟨q, z, rfl⟩ : ∃ q z, before = q ++ [z] :=
    ⟨_, _, (List.dropLast_append_getLast hne).symm⟩
  have hroot := hitem.rooted
  rw [nth_last] at hroot
  have hlast : ∀ x ∈ (q ++ [z]).getLast?, x = z := by
    intro x hx
    rw [List.getLast?_concat] at hx
    exact (Option.some.inj hx).symm
  refine ⟨h.first_root, ?_, ?_, ?_, fun hd => ?_⟩
  · rw [List.head?_append_of_ne_nil _ hne]
    exact h.head
  · rw [List.tail_append_of_ne_nil hne]
    intro x hx
    rcases List.mem_append.mp hx with hx | hx
    · exact h.allowed x hx
    · rw [List.mem_singleton.mp hx]
      exact hitem.allowed
  · refine List.isChain_append.mpr ⟨h.chain, .singleton item, fun x hx y hy => ?_⟩
    cases hy
    rw [hlast x hx]
    exact hroot
  · refine List.isChain_append.mpr ⟨h.back hd, .singleton item, fun x hx y hy hback => ?_⟩
    cases hy
    rw [hlast x hx]
    -- the item is the second component
    have hlen := hitem.kept hd hback
    rw [List.length_append, List.length_singleton] at hlen
    have hq : q = [] := List.length_eq_zero_iff.mp (by omega)
    have hhead := h.head
    rw [hq, List.nil_append, List.head?_cons, Option.some.injEq] at hhead
    rcases h.first_root with hf | hf
    · exact absurd (Or.inl (hhead.trans hf)) (hroot (Or.inr hback))
    · exact hhead.trans hf

theorem Formed.pop (h : Formed logical deleteBack first before) (hlen : 2 ≤ before.length) :
    Formed logical deleteBack first before.dropLast := by
  have hlast : ∀ {R : Component → Component → Prop}, before.IsChain R →
      before.dropLast.IsChain R := by
    intro R hchain
    obtain ⟨l, hl⟩ := List.dropLast_prefix before
    rw [← hl] at hchain
    exact hchain.left_of_append
  refine ⟨h.first_root, ?_, fun x hx => h.allowed x ?_, hlast h.chain, fun hd => hlast (h.back hd)⟩
  · rw [List.head?_dropLast, if_pos (Nat.lt_of_succ_le hlen)]
    exact h.head
  · rw [List.tail_dropLast] at hx
    exact (List.dropLast_sublist _).subset hx

theorem Formed.step {p : List Component} (h : Formed logical deleteBack first before)
    (hp : checkItem logical deleteBack before item = some p) :
    Formed logical deleteBack first p := by
  cases checks_of_some hp with
  | push hitem => exact h.push (hitem h.ne_nil)
  | up _ hitem => exact h.push (hitem h.ne_nil)
  | dot => exact h
  | pop _ hlen => exact h.pop hlen

theorem Formed.run {p : List Component} (h : Formed logical deleteBack first before)
    (hp : next.foldlM (checkItem logical deleteBack) before = some p) :
    Formed logical deleteBack first p := by
  induction next generalizing before with
  | nil =>
    cases hp
    exact h
  | cons item next ih =>
    obtain ⟨q, hq, hrest⟩ := Option.bind_eq_some_iff.mp hp
    exact ih (h.step hq) hrest

theorem Formed.wellFormed (h : Formed logical deleteBack first before) :
    WellFormed logical before := by
  obtain ⟨x, rest, rfl⟩ := List.exists_cons_of_ne_nil h.ne_nil
  obtain rfl : x = first := Option.some.inj h.head
  exact Or.inr ⟨x, rest, rfl, h.first_root, h.allowed, h.chain⟩

theorem reading_concat (directory : List Component) (item : Component) :
    reading logical (directory ++ [item]) = readItem logical (reading logical directory) item := by
  rw [reading, List.foldl_append]
  rfl

theorem reading_self {directory : List Component}
    (hdots : ∀ x ∈ directory, logical = true ∨ x ≠ .string dot ∧ x ≠ .string dotDot)
    (hback : directory.IsChain fun x y => y = .back → cancelled x = false) :
    reading logical directory = directory := by
  induction directory using List.reverseRecOn with
  | nil => rfl
  | append_singleton l y ih =>
    have hl := ih (fun x hx => hdots x (List.mem_append_left _ hx)) hback.left_of_append
    rw [reading_concat, hl]
    cases y with
    | back =>
      have hlast : l.getLast?.any cancelled = false := by
        cases hz : l.getLast? with
        | none => rfl
        | some z => exact (List.isChain_append.mp hback).2.2 z hz .back rfl rfl
      rw [readItem, hlast]
      rfl
    | string s =>
      have hs := hdots (.string s) (List.mem_append_right _ (List.mem_singleton_self _))
      rw [ne_eq, ne_eq, Component.string.injEq, Component.string.injEq] at hs
      rw [readItem]
      rcases hs with hlogical | ⟨hdot, hdotDot⟩
      · rw [if_pos hlogical]
      · rw [if_neg hdot, if_neg hdotDot, ite_self]
    | null | absolute | relative | up | wild | wildInferiors | other => rfl

theorem Formed.no_dots (h : Formed logical deleteBack first before) :
    ∀ x ∈ before, logical = true ∨ x ≠ .string dot ∧ x ≠ .string dotDot := by
  obtain ⟨x, rest, rfl⟩ := List.exists_cons_of_ne_nil h.ne_nil
  refine List.forall_mem_cons.mpr ⟨Or.inr ?_, fun y hy => ?_⟩
  · obtain rfl : x = first := Option.some.inj h.head
    rcases h.first_root with rfl | rfl <;> exact ⟨by decide, by decide⟩
  · have hallowed := h.allowed y hy
    cases y with
    | string s => exact hallowed.imp_right fun hs => by simpa using hs
    | null | absolute | relative | up | back | wild | wildInferiors | other =>
      exact Or.inr ⟨by simp, by simp⟩

theorem Formed.reading_self (h : Formed logical true first before) :
    reading logical before = before := by
  refine DirectoryLists.reading_self h.no_dots ((h.back rfl).imp fun x y hxy hy => ?_)
  rw [hxy hy]
  rfl

theorem Formed.reading_step {p : List Component} (h : Formed logical deleteBack first before)
    (hp : checkItem logical deleteBack before item = some p)
    (hstray : deleteBack = true → item = .back → (reading logical before).getLast? ≠ some .up ∧
      (reading logical before).getLast? ≠ some .back) :
    reading logical p = readItem logical (reading logical before) item := by
  cases checks_of_some hp with
  | push => exact reading_concat before item
  | up hlogical =>
    rw [reading_concat, hlogical]
    rfl
  | dot hlogical =>
    rw [hlogical]
    rfl
  | pop hdelete hlen hroot =>
    subst hdelete
    have hpop := (h.pop hlen).reading_self
    have hself := h.reading_self
    obtain ⟨hup, hback⟩ := hstray rfl rfl
    rw [hself] at hup hback
    rw [hpop, hself, readItem, if_pos]
    obtain ⟨q, z, rfl⟩ : ∃ q z, before = q ++ [z] :=
      ⟨_, _, (List.dropLast_append_getLast h.ne_nil).symm⟩
    rw [nth_last] at hroot
    rw [List.getLast?_concat] at hup hback ⊢
    have hq : q ≠ [] := by
      rintro rfl
      simp at hlen
    have hallowed : Allowed logical z := by
      refine h.allowed z ?_
      rw [List.tail_append_of_ne_nil hq]
      exact List.mem_append_right _ (List.mem_singleton_self z)
    cases z with
    | string | wild => rfl
    | up => exact absurd rfl hup
    | back => exact absurd rfl hback
    | wildInferiors => exact absurd (Or.inr rfl) hroot
    | null | absolute | relative | other => exact hallowed.elim

theorem Formed.reading_run {d p : List Component} (h : Formed logical deleteBack first before)
    (hread : reading logical before = reading logical d)
    (hp : next.foldlM (checkItem logical deleteBack) before = some p)
    (hstray : deleteBack = true → ¬ Stray logical (d ++ next)) :
    reading logical p = reading logical (d ++ next) := by
  induction next generalizing before d with
  | nil =>
    cases hp
    rw [List.append_nil, hread]
  | cons item next ih =>
    obtain ⟨q, hq, hrest⟩ := Option.bind_eq_some_iff.mp hp
    rw [List.append_cons] at hstray ⊢
    refine ih (h.step hq) ?_ hrest hstray
    rw [h.reading_step hq, hread, reading_concat]
    intro hdelete hback
    rw [hread]
    have hnot := hstray hdelete
    rw [← List.append_cons, hback] at hnot
    exact ⟨fun hup => hnot ⟨d, next, rfl, Or.inl hup⟩,
      fun hback => hnot ⟨d, next, rfl, Or.inr hback⟩⟩

theorem stray_kept {a : Component} (hinside : [a, .back] <:+: before) :
    [a, .back] <:+: readItem logical before item := by
  have hpush : ∀ y : Component, [a, .back] <:+: before ++ [y] :=
    fun y => hinside.trans (List.prefix_append before [y]).isInfix
  cases item with
  | back =>
    rw [readItem]
    split
    · next hlast =>
      obtain ⟨s, t, rfl⟩ := hinside
      rcases eq_or_ne t [] with rfl | ht
      · rw [List.append_nil, List.append_cons, List.getLast?_concat] at hlast
        cases hlast
      · rw [List.dropLast_append_of_ne_nil ht]
        exact ⟨s, t.dropLast, rfl⟩
    · exact hpush _
  | string s =>
    rw [readItem]
    split
    · exact hpush _
    · split
      · exact hinside
      · split
        · exact hpush _
        · exact hpush _
  | null | absolute | relative | up | wild | wildInferiors | other => exact hpush _

theorem stray_reading {directory : List Component} (h : Stray logical directory) :
    ∃ a, (a = .up ∨ a = .back) ∧ [a, .back] <:+: reading logical directory := by
  obtain ⟨p, q, rfl, hlast⟩ := h
  obtain ⟨a, ha, hlast⟩ : ∃ a, (a = .up ∨ a = .back) ∧ (reading logical p).getLast? = some a :=
    hlast.elim (fun h => ⟨_, Or.inl rfl, h⟩) fun h => ⟨_, Or.inr rfl, h⟩
  have hcancelled : cancelled a = false := by
    rcases ha with rfl | rfl <;> rfl
  refine ⟨a, ha, ?_⟩
  rw [List.append_cons]
  induction q using List.reverseRecOn with
  | nil =>
    rw [List.append_nil, reading_concat, readItem, hlast, Option.any_some, hcancelled]
    obtain ⟨l, hl⟩ := List.getLast?_eq_some_iff.mp hlast
    rw [hl]
    exact ⟨l, [], by simp⟩
  | append_singleton q y ih =>
    rw [← List.append_assoc, reading_concat]
    exact stray_kept ih

theorem checked_first {directory p : List Component}
    (hp : destructivelyCheckDirectory logical deleteBack directory = some p) :
    directory = [] ∧ p = [] ∨ ∃ first rest, directory = first :: rest ∧
      (first = .absolute ∨ first = .relative) ∧
      rest.foldlM (checkItem logical deleteBack) [first] = some p := by
  cases directory with
  | nil =>
    cases hp
    exact Or.inl ⟨rfl, rfl⟩
  | cons first rest =>
    have hfirst : first = .absolute ∨ first = .relative := by
      by_contra hnot
      rw [destructivelyCheckDirectory, if_pos (not_or.mp hnot)] at hp
      cases hp
    rw [check_cons hfirst] at hp
    exact Or.inr ⟨first, rest, rfl, hfirst, hp⟩

theorem check_wellFormed {directory p : List Component}
    (hp : destructivelyCheckDirectory logical deleteBack directory = some p) :
    WellFormed logical p := by
  obtain ⟨-, rfl⟩ | ⟨first, rest, rfl, hfirst, hfold⟩ := checked_first hp
  · exact Or.inl rfl
  · exact ((Formed.start hfirst).run hfold).wellFormed

theorem check_again {directory p : List Component}
    (hp : destructivelyCheckDirectory logical deleteBack directory = some p) :
    destructivelyCheckDirectory logical deleteBack p = some p := by
  obtain ⟨-, rfl⟩ | ⟨first, rest, rfl, hfirst, hfold⟩ := checked_first hp
  · rfl
  · have hstart : Checked logical deleteBack [first] := by
      refine @Checked.step _ _ [] first _ checked_nil ?_
      rcases hfirst with rfl | rfl <;> rfl
    have hformed := (Formed.start hfirst).run hfold
    obtain ⟨x, l, rfl⟩ := List.exists_cons_of_ne_nil hformed.ne_nil
    obtain rfl : x = first := Option.some.inj hformed.head
    have hall := hstart.run hfold (x :: l) List.prefix_rfl
    rw [← fromBegin_eq] at hall
    rw [destructivelyCheckDirectory, if_neg (by tauto), hall]

theorem check_reading {directory p : List Component}
    (hp : destructivelyCheckDirectory logical deleteBack directory = some p) :
    reading logical p = reading logical directory ↔
      (deleteBack = true → ¬ Stray logical directory) := by
  obtain ⟨rfl, rfl⟩ | ⟨first, rest, rfl, hfirst, hfold⟩ := checked_first hp
  · refine iff_of_true rfl fun _ => ?_
    rintro ⟨p, q, h, -⟩
    simp at h
  · constructor
    · rintro hread rfl hstray
      obtain ⟨a, ha, hinside⟩ := stray_reading hstray
      have hformed := (Formed.start hfirst).run hfold
      rw [← hread, hformed.reading_self] at hinside
      obtain ⟨s, t, ht⟩ := hinside
      have hback := hformed.back rfl
      rw [← ht] at hback
      have hrelative := List.isChain_pair.mp hback.left_of_append.right_of_append rfl
      rcases ha with rfl | rfl <;> cases hrelative
    · exact (Formed.start hfirst).reading_run (d := [first]) rfl hfold

end

/-- A list is refused, or comes out well formed and stays as it is then. It still denotes the
same directory, if and only if no :back of it is stray or redundant ones are left. -/
theorem directories_are_checked (logical deleteBack : Bool) (directory : List Component) :
    destructivelyCheckDirectory logical deleteBack directory = none ∨
      ∃ p, destructivelyCheckDirectory logical deleteBack directory = some p ∧
        WellFormed logical p ∧ destructivelyCheckDirectory logical deleteBack p = some p ∧
        (reading logical p = reading logical directory ↔
          (deleteBack = true → ¬ Stray logical directory)) := by
  cases hp : destructivelyCheckDirectory logical deleteBack directory with
  | none => exact Or.inl rfl
  | some p => exact Or.inr ⟨p, rfl, check_wellFormed hp, check_again hp, check_reading hp⟩

/-- Two levels up from a relative directory become none. -/
theorem second_back_takes_the_first : ¬ ∀ directory p,
    destructivelyCheckDirectory true true directory = some p →
      reading true p = reading true directory := by
  intro h
  have hcheck : destructivelyCheckDirectory true true [.relative, .back, .back] =
      some [.relative] := check_cons (Or.inr rfl)
  exact absurd (h _ _ hcheck) (by decide)

end DirectoryLists
