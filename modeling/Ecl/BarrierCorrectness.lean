import Ecl.Barriers
import Ecl.Runs
import Mathlib.Algebra.BigOperators.Group.Finset.Piecewise
import Mathlib.Algebra.Order.BigOperators.Group.Finset

/-! A barrier lets threads pass in groups, and each release comes to its end. -/
namespace BarrierCorrectness

open ConditionalRuns Barriers
open Families (sum_update_add)
open Holders (some_iff_of_ne)

variable {ι : Type*} [DecidableEq ι]

@[simp] theorem to_threads_self (s : State ι) (t : ι) (x : Thread) :
    (s.to t x).threads t = x := Function.update_self ..

theorem to_threads_of_ne (s : State ι) {t u : ι} (x : Thread) (h : u ≠ t) :
    (s.to t x).threads u = s.threads u := Function.update_of_ne h ..

@[simp] theorem arrival_broadcast (x : Thread) : x.broadcast.arrival = x.arrival := by
  cases x <;> rfl

def arrivedBy (x : Thread) : ℕ := if x.arrival.isSome = true then 1 else 0

def Critical : Thread → Prop
  | .entering _ | .inside _ => True
  | _ => False

def Woken : Thread → Prop
  | .entering _ | .waiting _ => False
  | _ => True

def Current (wakeup : Wakeup) (releases g : ℕ) : Prop :=
  if wakeup = .no then g = releases else g + 1 = releases

variable [Fintype ι]

structure Invariant (s : State ι) : Prop where
  arrivers : s.arriversCount = ∑ u, arrivedBy (s.threads u)
  awake : s.wakeup ≠ .no → 0 < s.arriversCount
  critical : ∀ u, Critical (s.threads u) ↔ s.holder = some u
  current : ∀ u g, (s.threads u).arrival = some g → Current s.wakeup s.releases g
  woken : s.wakeup ≠ .no → ∀ u, Woken (s.threads u)

omit [DecidableEq ι] in
theorem invariant_make (count : ℕ) : Invariant (makeBarrier count : State ι) where
  arrivers := (Finset.sum_const_zero).symm
  awake h := absurd rfl h
  critical u := ⟨fun h => h.elim, fun h => by cases h⟩
  current u g h := by cases h
  woken h := absurd rfl h

theorem sum_to (s : State ι) (t : ι) (x : Thread) :
    ∑ u, arrivedBy ((s.to t x).threads u) + arrivedBy (s.threads t) =
      ∑ u, arrivedBy (s.threads u) + arrivedBy x :=
  sum_update_add arrivedBy s.threads t x

omit [DecidableEq ι] in
theorem Invariant.nobody {s : State ι} (h : Invariant s) (hzero : s.arriversCount = 0) (u : ι) :
    (s.threads u).arrival = none := by
  have hsum : ∑ u, arrivedBy (s.threads u) = 0 := h.arrivers.symm.trans hzero
  have hu := (Finset.sum_eq_zero_iff.1 hsum) u (Finset.mem_univ u)
  cases ha : (s.threads u).arrival with
  | none => rfl
  | some g => simp [arrivedBy, ha] at hu

omit [DecidableEq ι] in
theorem Invariant.somebody {s : State ι} (h : Invariant s) (hpos : 0 < s.arriversCount) :
    ∃ u g, (s.threads u).arrival = some g := by
  by_contra hnone
  have hzero : ∑ u, arrivedBy (s.threads u) = 0 := by
    apply Finset.sum_eq_zero
    intro u _
    cases ha : (s.threads u).arrival with
    | none => simp [arrivedBy, ha]
    | some g => exact absurd ⟨u, g, ha⟩ hnone
  rw [h.arrivers, hzero] at hpos
  exact absurd hpos (Nat.lt_irrefl 0)

theorem Invariant.change {s : State ι} (h : Invariant s) {t : ι} {x : Thread}
    {count arriversCount : ℕ} {disabled : Bool} {holder : Option ι} {passed : ℕ → ℕ}
    (harrivers : arriversCount + arrivedBy (s.threads t) = s.arriversCount + arrivedBy x)
    (hawake : s.wakeup ≠ .no → 0 < arriversCount)
    (hcritical : Critical x ↔ holder = some t)
    (hholder : ∀ u, u ≠ t → (s.holder = some u ↔ holder = some u))
    (hcurrent : ∀ g, x.arrival = some g → Current s.wakeup s.releases g)
    (hwoken : s.wakeup ≠ .no → Woken x) :
    Invariant ⟨count, disabled, s.wakeup, arriversCount, holder, (s.to t x).threads, s.releases,
      passed⟩ where
  arrivers := by
    have hsum := sum_to s t x
    have hbefore := h.arrivers
    change arriversCount = ∑ u, arrivedBy ((s.to t x).threads u)
    omega
  awake := hawake
  critical u := by
    change Critical ((s.to t x).threads u) ↔ holder = some u
    by_cases hut : u = t
    · rw [hut, to_threads_self]
      exact hcritical
    · rw [to_threads_of_ne s x hut, h.critical u]
      exact hholder u hut
  current u g hu := by
    change ((s.to t x).threads u).arrival = some g at hu
    by_cases hut : u = t
    · rw [hut, to_threads_self] at hu
      exact hcurrent g hu
    · rw [to_threads_of_ne s x hut] at hu
      exact h.current u g hu
  woken hw u := by
    change Woken ((s.to t x).threads u)
    by_cases hut : u = t
    · rw [hut, to_threads_self]
      exact hwoken hw
    · rw [to_threads_of_ne s x hut]
      exact h.woken hw u

theorem Invariant.move {s : State ι} (h : Invariant s) {t : ι} {x : Thread} {count : ℕ}
    {disabled : Bool} {passed : ℕ → ℕ} (ht : ¬ Critical (s.threads t)) (hx : ¬ Critical x)
    (harrival : x.arrival = (s.threads t).arrival) (hwoken : s.wakeup ≠ .no → Woken x) :
    Invariant ⟨count, disabled, s.wakeup, s.arriversCount, s.holder, (s.to t x).threads,
      s.releases, passed⟩ := by
  refine h.change ?_ h.awake ?_ (fun _ _ => Iff.rfl) ?_ hwoken
  · rw [arrivedBy, arrivedBy, harrival]
  · exact ⟨fun hc => absurd hc hx, fun hh => absurd ((h.critical t).2 hh) ht⟩
  · intro g hg
    rw [harrival] at hg
    exact h.current t g hg

theorem Invariant.exchange {s : State ι} (h : Invariant s) {t : ι} {x : Thread}
    {arriversCount : ℕ} {holder : Option ι} {passed : ℕ → ℕ}
    (harrivers : arriversCount + arrivedBy (s.threads t) = s.arriversCount + arrivedBy x)
    (hawake : s.wakeup ≠ .no → 0 < arriversCount)
    (hbefore : s.holder = none ∨ s.holder = some t)
    (hafter : Critical x ∧ holder = some t ∨ ¬ Critical x ∧ holder = none)
    (hcurrent : ∀ g, x.arrival = some g → Current s.wakeup s.releases g)
    (hwoken : s.wakeup ≠ .no → Woken x) :
    Invariant ⟨s.count, s.disabled, s.wakeup, arriversCount, holder, (s.to t x).threads,
      s.releases, passed⟩ := by
  refine h.change harrivers hawake ?_ (fun u hu => ?_) hcurrent hwoken
  · rcases hafter with ⟨hx, rfl⟩ | ⟨hx, rfl⟩
    · exact ⟨fun _ => rfl, fun _ => hx⟩
    · exact ⟨fun hc => absurd hc hx, fun hh => by cases hh⟩
  · have hholder : holder = none ∨ holder = some t := hafter.elim (.inr ·.2) (.inl ·.2)
    exact some_iff_of_ne hbefore hholder hu

omit [DecidableEq ι] in
theorem Invariant.release {s : State ι} (h : Invariant s) (hno : s.wakeup = .no)
    (hholder : s.holder = none) (hpos : 0 < s.arriversCount) {wakeup : Wakeup} (hw : wakeup ≠ .no) :
    Invariant (s.release wakeup) where
  arrivers := by
    change s.arriversCount = ∑ u, arrivedBy (s.threads u).broadcast
    simp only [arrivedBy, arrival_broadcast]
    exact h.arrivers
  awake _ := hpos
  critical u := by
    rw [← show s.holder = (s.release wakeup).holder from rfl, ← h.critical u]
    change Critical (s.threads u).broadcast ↔ _
    cases s.threads u <;> rfl
  current u g hu := by
    change (s.threads u).broadcast.arrival = some g at hu
    rw [arrival_broadcast] at hu
    have hg := h.current u g hu
    rw [Current, if_pos hno] at hg
    change Current wakeup (s.releases + 1) g
    rw [Current, if_neg hw, hg]
  woken _ u := by
    change Woken (s.threads u).broadcast
    cases hu : s.threads u with
    | entering g =>
      have := (h.critical u).1 (by rw [hu]; trivial)
      rw [hholder] at this
      cases this
    | _ => trivial

theorem Invariant.arrive {s : State ι} (h : Invariant s) {t : ι} (ht : s.threads t = .arriving)
    (hholder : s.holder = none) : Invariant (arrive s t) := by
  have hcritical : ¬ Critical (s.threads t) := by
    rw [ht]
    exact id
  have harrival : Thread.arrival .idle = (s.threads t).arrival := by
    rw [ht]
    rfl
  rw [Barriers.arrive]
  by_cases hdisabled : s.disabled = true
  · rw [if_pos hdisabled]
    exact h.move hcritical id harrival fun _ => trivial
  rw [if_neg hdisabled]
  by_cases hwakeup : s.wakeup = .no
  · rw [if_neg (not_not.2 hwakeup)]
    by_cases hcount : s.arriversCount + 1 = s.count
    · have hpassed : Invariant ((s.to t .idle).pass s.releases) :=
        h.move hcritical id harrival fun _ => trivial
      rw [if_pos hcount]
      dsimp only
      by_cases hpos : 0 < ((s.to t .idle).pass s.releases).arriversCount
      · rw [if_pos hpos]
        exact hpassed.release hwakeup hholder hpos fun hn => by cases hn
      · rw [if_neg hpos]
        refine ⟨hpassed.arrivers, hpassed.awake, hpassed.critical, fun u g hu => ?_,
          hpassed.woken⟩
        have hnone := hpassed.nobody (Nat.eq_zero_of_not_pos hpos) u
        cases hnone.symm.trans hu
    · rw [if_neg hcount]
      refine h.exchange ?_ ?_ (.inl hholder) (.inl ⟨trivial, rfl⟩) ?_ ?_
      · rw [ht]
        rfl
      · exact fun _ => Nat.succ_pos _
      · intro g hg
        cases hg
        rw [Current, if_pos hwakeup]
      · exact fun hw => absurd hwakeup hw
  · rw [if_pos hwakeup]
    exact h

theorem Invariant.test {s : State ι} (h : Invariant s) {t : ι} {g : ℕ}
    (ht : s.threads t = .inside g) : Invariant (test s t g) := by
  have hholder : s.holder = some t := (h.critical t).1 (by rw [ht]; trivial)
  have hcurrent := h.current t g (by rw [ht]; rfl)
  rw [Barriers.test]
  by_cases hno : s.wakeup = .no
  · rw [if_pos hno]
    refine h.change ?_ h.awake ⟨fun _ => hholder, fun _ => trivial⟩ (fun _ _ => Iff.rfl) ?_ ?_
    · rw [ht]
      rfl
    · intro g' hg
      cases hg
      exact hcurrent
    · exact fun hw => absurd hno hw
  · rw [if_neg hno]
    have hpos := h.awake hno
    have hleft (x : Thread) (hx : x.arrival = none) (hx' : ¬ Critical x) (u : ι) (hu : u ≠ t) :
        Critical ((s.to t x).threads u) ↔ none = some u := by
      rw [to_threads_of_ne s x hu, h.critical u, hholder]
      exact ⟨fun hh => absurd (Option.some.inj hh).symm hu, fun hh => by cases hh⟩
    generalize hx : (if s.wakeup = .kill then Thread.killed else .idle) = x
    have hgone : x.arrival = none ∧ ¬ Critical x ∧ Woken x := by
      rw [← hx]
      split_ifs <;> exact ⟨rfl, id, trivial⟩
    have hone : arrivedBy (s.threads t) = 1 ∧ arrivedBy x = 0 := by
      rw [ht, arrivedBy, arrivedBy, hgone.1]
      exact ⟨rfl, rfl⟩
    have hsum := sum_to s t x
    have harrivers := h.arrivers
    refine ⟨?_, ?_, fun u => ?_, fun u g' hu => ?_, fun hw u => ?_⟩
    · change s.arriversCount - 1 = ∑ u, arrivedBy ((s.to t x).threads u)
      omega
    · change (if s.arriversCount - 1 = 0 then Wakeup.no else s.wakeup) ≠ .no → _
      intro hw
      change 0 < s.arriversCount - 1
      by_contra hlast
      exact hw (if_pos (by omega))
    · by_cases hut : u = t
      · rw [hut]
        change Critical ((s.to t x).threads t) ↔ none = some t
        rw [to_threads_self]
        exact ⟨fun hc => absurd hc hgone.2.1, fun hh => by cases hh⟩
      · exact hleft x hgone.1 hgone.2.1 u hut
    · change ((s.to t x).threads u).arrival = some g' at hu
      change Current (if s.arriversCount - 1 = 0 then .no else s.wakeup) s.releases g'
      by_cases hut : u = t
      · rw [hut, to_threads_self, hgone.1] at hu
        cases hu
      · have hsome : arrivedBy ((s.to t x).threads u) = 1 := by
          simp [arrivedBy, hu]
        have hle := Finset.single_le_sum (f := fun u => arrivedBy ((s.to t x).threads u))
          (fun u _ => Nat.zero_le _) (Finset.mem_univ u)
        rw [if_neg (by simp only [hsome] at hle; omega)]
        rw [to_threads_of_ne s x hut] at hu
        exact h.current u g' hu
    · change Woken ((s.to t x).threads u)
      by_cases hut : u = t
      · rw [hut, to_threads_self]
        exact hgone.2.2
      · rw [to_threads_of_ne s x hut]
        exact h.woken hno u

theorem Invariant.unblock {s : State ι} (h : Invariant s) {t : ι} {v : Unblock}
    (ht : s.threads t = .unblocking v) (hholder : s.holder = none) :
    Invariant (unblock s t v) := by
  rw [Barriers.unblock]
  by_cases hwakeup : s.wakeup = .no
  · have hmoved : Invariant { s.to t .idle with
        count := v.resetCount.getD s.count, disabled := v.disable } := by
      refine h.move ?_ id ?_ fun _ => trivial
      · rw [ht]
        exact id
      · rw [ht]
        rfl
    rw [if_neg (not_not.2 hwakeup)]
    dsimp only
    split_ifs with hpos
    · exact hmoved.release hwakeup hholder hpos fun hn => by cases hn
    · exact hmoved.release hwakeup hholder hpos fun hn => by cases hn
    · exact hmoved
  · rw [if_pos hwakeup]
    exact h

theorem Invariant.exit {s s' : State ι} (h : Invariant s) {t : ι} (hok : Orderly s (.exit t))
    (hs : next s (.exit t) = some s') : Invariant s' := by
  have hawake : s.wakeup ≠ .no → 0 < s.arriversCount - 1 := by
    intro hw
    have := h.awake hw
    have hone := hok.resolve_left hw
    omega
  have harrived {g : ℕ} (hg : (s.threads t).arrival = some g) :
      s.arriversCount - 1 + arrivedBy (s.threads t) = s.arriversCount + arrivedBy .idle := by
    have hone : arrivedBy (s.threads t) = 1 := by
      simp [arrivedBy, hg]
    have hle := Finset.single_le_sum (f := fun u => arrivedBy (s.threads u))
      (fun u _ => Nat.zero_le _) (Finset.mem_univ t)
    have harrivers := h.arrivers
    simp only [hone] at hle
    rw [hone]
    change s.arriversCount - 1 + 1 = s.arriversCount + 0
    omega
  have hwithout (hnot : ¬ Critical (s.threads t)) : Critical .idle ↔ s.holder = some t :=
    ⟨fun hc => hc.elim, fun hh => absurd ((h.critical t).2 hh) hnot⟩
  cases ht : s.threads t with
  | entering g | inside g =>
    simp only [next, ht] at hs
    cases hs
    exact h.exchange (harrived (by rw [ht]; rfl)) hawake
      (.inr ((h.critical t).1 (by rw [ht]; trivial))) (.inr ⟨id, rfl⟩) (fun _ hg => by cases hg)
      fun _ => trivial
  | waiting g | woken g =>
    simp only [next, ht] at hs
    cases hs
    exact h.change (harrived (by rw [ht]; rfl)) hawake (hwithout (by rw [ht]; exact id))
      (fun _ _ => Iff.rfl) (fun _ hg => by cases hg) fun _ => trivial
  | _ =>
    simp only [next, ht] at hs
    cases hs

theorem Invariant.retake {s s' : State ι} (h : Invariant s) {t : ι}
    (hs : next s (.retake t) = some s') : Invariant s' := by
  cases ht : s.threads t with
  | woken g =>
    simp only [next, ht] at hs
    split_ifs at hs with hholder
    cases hs
    refine h.exchange ?_ h.awake (.inl hholder) (.inl ⟨trivial, rfl⟩) ?_ fun _ => trivial
    · rw [ht]
      rfl
    · intro g' hg
      apply h.current t g'
      rw [ht]
      exact hg
  | _ =>
    simp only [next, ht] at hs
    cases hs

theorem Invariant.step {s s' : State ι} {a : Action ι} (h : Invariant s) (hok : Orderly s a)
    (hs : next s a = some s') : Invariant s' := by
  cases a with
  | barrierWait t | barrierUnblock t u =>
    simp only [next] at hs
    split_ifs at hs with ht
    cases hs
    refine h.move ?_ id ?_ fun _ => trivial
    · rw [ht]
      exact id
    · rw [ht]
      rfl
  | arrive t =>
    simp only [next] at hs
    split_ifs at hs with ht
    cases hs
    exact h.arrive ht.1 ht.2
  | sleep t =>
    cases ht : s.threads t with
    | entering g =>
      have hwoken : s.wakeup = .no := by
        by_contra hw
        have := h.woken hw t
        rw [ht] at this
        exact this
      simp only [next, ht] at hs
      cases hs
      refine h.exchange ?_ h.awake (.inr ((h.critical t).1 (by rw [ht]; trivial)))
        (.inr ⟨id, rfl⟩) ?_ fun hw => absurd hwoken hw
      · rw [ht]
        rfl
      · intro g' hg
        apply h.current t g'
        rw [ht]
        exact hg
    | _ =>
      simp only [next, ht] at hs
      cases hs
  | wake t =>
    cases ht : s.threads t with
    | waiting g =>
      simp only [next, ht] at hs
      cases hs
      refine h.move ?_ id ?_ fun _ => trivial
      · rw [ht]
        exact id
      · rw [ht]
        rfl
    | _ =>
      simp only [next, ht] at hs
      cases hs
  | retake t => exact h.retake hs
  | test t =>
    cases ht : s.threads t with
    | inside g =>
      simp only [next, ht] at hs
      cases hs
      exact h.test ht
    | _ =>
      simp only [next, ht] at hs
      cases hs
  | exit t => exact h.exit hok hs
  | unblock t =>
    cases ht : s.threads t with
    | unblocking u =>
      simp only [next, ht] at hs
      split_ifs at hs with hholder
      cases hs
      exact h.unblock ht hholder
    | _ =>
      simp only [next, ht] at hs
      cases hs

theorem reached_invariant {count : ℕ} {s : State ι}
    (h : Reached next Orderly (· = makeBarrier count) s) : Invariant s := by
  apply h.invariant
  · rintro s rfl
    exact invariant_make count
  · exact fun s a s' hs hok hnext => hs.step hok hnext

omit [Fintype ι] in
theorem test_leaves {s : State ι} (hw : s.wakeup ≠ .no) (t : ι) (g : ℕ) :
    (test s t g).arriversCount = s.arriversCount - 1 := by
  rw [test, if_neg hw]

theorem Invariant.ends (n : ℕ) : ∀ {s : State ι}, Invariant s → s.arriversCount = n →
    ∃ s', Reached next Onward (· = s) s' ∧ s'.wakeup = .no := by
  induction n with
  | zero =>
    intro s h hn
    refine ⟨s, .start rfl, ?_⟩
    by_contra hw
    have := h.awake hw
    omega
  | succ n ih =>
    intro s h hn
    by_cases hw : s.wakeup = .no
    · exact ⟨s, .start rfl, hw⟩
    have leaves {s₁ : State ι} (h₁ : Invariant s₁) (hw₁ : s₁.wakeup ≠ .no)
        (hn₁ : s₁.arriversCount = n + 1) {t : ι} {g : ℕ} (ht : s₁.threads t = .inside g) :
        ∃ s', Reached next Onward (· = s₁) s' ∧ s'.wakeup = .no := by
      have hstep : next s₁ (.test t) = some (Barriers.test s₁ t g) := by
        simp only [next, ht]
      have hstart : Reached next Onward (· = s₁) s₁ := .start rfl
      have hreached := hstart.step (a := Action.test t) trivial hstep
      have hcount := test_leaves hw₁ t g
      obtain ⟨s', hs', hno⟩ := ih (h₁.test ht) (by omega)
      exact ⟨s', hreached.trans hs', hno⟩
    obtain ⟨t, g, ht⟩ := h.somebody (by omega)
    have hwoken := h.woken hw t
    cases hx : s.threads t with
    | inside g' => exact leaves h hw hn hx
    | woken g' =>
      cases hholder : s.holder with
      | none =>
        have hstep : next s (.retake t) = some { s.to t (.inside g') with holder := some t } := by
          simp only [next, hx, hholder, if_true]
        have hstart : Reached next Onward (· = s) s := .start rfl
        have hreached := hstart.step (a := Action.retake t) trivial hstep
        obtain ⟨s', hs', hno⟩ := leaves (h.retake hstep) hw hn
          (t := t) (g := g') (to_threads_self s t (.inside g'))
        exact ⟨s', hreached.trans hs', hno⟩
      | some u =>
        -- Who has the mutex during a release comes out of the condition wait.
        have hcritical := (h.critical u).2 hholder
        have hu := h.woken hw u
        cases hy : s.threads u with
        | inside g'' => exact leaves h hw hn hy
        | entering g'' =>
          rw [hy] at hu
          exact hu.elim
        | _ =>
          rw [hy] at hcritical
          exact hcritical.elim
    | entering g' | waiting g' =>
      rw [hx] at hwoken
      exact hwoken.elim
    | _ =>
      rw [hx] at ht
      cases ht

structure Grouped (n : ℕ) (s : State ι) : Prop where
  invariant : Invariant s
  count : s.count = n
  enabled : s.disabled = false
  waits : ∀ t u, s.threads t ≠ .unblocking u
  later : ∀ r, s.releases ≤ r → s.passed r = 0
  done : ∀ r, r < s.releases → s.wakeup = .no ∨ r + 1 ≠ s.releases → s.passed r = n
  last : s.wakeup ≠ .no → s.passed (s.releases - 1) + s.arriversCount = n ∧ 0 < s.releases

omit [DecidableEq ι] in
theorem grouped_make (n : ℕ) : Grouped n (makeBarrier n : State ι) where
  invariant := invariant_make n
  count := rfl
  enabled := rfl
  waits _ _ h := by cases h
  later _ _ := rfl
  done r hr _ := absurd hr (Nat.not_lt_zero r)
  last h := absurd rfl h

omit [DecidableEq ι] in
theorem Grouped.move {n : ℕ} {s s' : State ι} (h : Grouped n s) (hi : Invariant s')
    (hcount : s'.count = s.count) (hdisabled : s'.disabled = s.disabled)
    (hwakeup : s'.wakeup = s.wakeup) (harrivers : s'.arriversCount = s.arriversCount)
    (hreleases : s'.releases = s.releases) (hpassed : s'.passed = s.passed)
    (hwaits : ∀ t u, s'.threads t ≠ .unblocking u) : Grouped n s' where
  invariant := hi
  count := hcount.trans h.count
  enabled := hdisabled.trans h.enabled
  waits := hwaits
  later := by
    rw [hreleases, hpassed]
    exact h.later
  done := by
    rw [hreleases, hpassed, hwakeup]
    exact h.done
  last := by
    rw [hreleases, hpassed, hwakeup, harrivers]
    exact h.last

omit [Fintype ι] in
theorem waits_to {s : State ι} (h : ∀ t u, s.threads t ≠ .unblocking u) {t : ι} {x : Thread}
    (hx : ∀ u, x ≠ .unblocking u) (t' : ι) (u : Unblock) : (s.to t x).threads t' ≠ .unblocking u := by
  by_cases htt : t' = t
  · rw [htt, to_threads_self]
    exact hx u
  · rw [to_threads_of_ne s x htt]
    exact h t' u

theorem Grouped.arrive {n : ℕ} {s : State ι} (h : Grouped n s) {t : ι}
    (ht : s.threads t = .arriving) (hholder : s.holder = none) : Grouped n (arrive s t) := by
  have hi := h.invariant.arrive ht hholder
  rw [Barriers.arrive] at hi ⊢
  have hdisabled : ¬ s.disabled = true := by
    rw [h.enabled]
    exact Bool.false_ne_true
  rw [if_neg hdisabled] at hi ⊢
  by_cases hwakeup : s.wakeup = .no
  · rw [if_neg (not_not.2 hwakeup)] at hi ⊢
    by_cases hcount : s.arriversCount + 1 = s.count
    · rw [if_pos hcount] at hi ⊢
      dsimp only at hi ⊢
      have hself : ((s.to t .idle).pass s.releases).passed s.releases = 1 := by
        change Function.update s.passed s.releases (s.passed s.releases + 1) s.releases = 1
        rw [Function.update_self, h.later s.releases (Nat.le_refl _)]
      have hother (r : ℕ) (hr : r ≠ s.releases) :
          ((s.to t .idle).pass s.releases).passed r = s.passed r := Function.update_of_ne hr ..
      have hlater (r : ℕ) (hr : s.releases + 1 ≤ r) :
          ((s.to t .idle).pass s.releases).passed r = 0 := by
        rw [hother r (by omega)]
        exact h.later r (by omega)
      have hbefore (r : ℕ) (hr : r < s.releases) :
          ((s.to t .idle).pass s.releases).passed r = n := by
        rw [hother r (by omega)]
        exact h.done r hr (.inl hwakeup)
      have hwaits := waits_to h.waits (t := t) (x := .idle) fun u hu => by cases hu
      have hn := h.count
      by_cases hpos : 0 < ((s.to t .idle).pass s.releases).arriversCount
      · rw [if_pos hpos] at hi ⊢
        refine ⟨hi, hn, h.enabled, fun t' u hu => ?_, hlater, fun r hr hor => ?_, fun _ => ?_⟩
        · change ((s.to t .idle).threads t').broadcast = _ at hu
          cases hx : (s.to t .idle).threads t' with
          | unblocking v => exact hwaits t' v hx
          | _ =>
            rw [hx] at hu
            cases hu
        · change r < s.releases + 1 at hr
          have hne := hor.resolve_left fun hn => by cases hn
          change r + 1 ≠ s.releases + 1 at hne
          exact hbefore r (by omega)
        · change ((s.to t .idle).pass s.releases).passed (s.releases + 1 - 1) + s.arriversCount = n ∧
            0 < s.releases + 1
          rw [Nat.add_sub_cancel, hself]
          omega
      · rw [if_neg hpos] at hi ⊢
        have hzero : s.arriversCount = 0 := Nat.eq_zero_of_not_pos hpos
        refine ⟨hi, hn, h.enabled, hwaits, hlater, fun r hr _ => ?_, fun hw => absurd hwakeup hw⟩
        change r < s.releases + 1 at hr
        by_cases hlast : r = s.releases
        · change ((s.to t .idle).pass s.releases).passed r = n
          rw [hlast, hself]
          omega
        · exact hbefore r (by omega)
    · rw [if_neg hcount] at hi ⊢
      exact ⟨hi, h.count, h.enabled, waits_to h.waits fun u hu => (by cases hu), h.later, h.done,
        fun hw => absurd hwakeup hw⟩
  · rw [if_pos hwakeup]
    exact h

theorem Grouped.test {n : ℕ} {s : State ι} (h : Grouped n s) {t : ι} {g : ℕ}
    (ht : s.threads t = .inside g) : Grouped n (test s t g) := by
  have hi := h.invariant.test ht
  rw [Barriers.test] at hi ⊢
  by_cases hno : s.wakeup = .no
  · rw [if_pos hno] at hi ⊢
    exact h.move hi rfl rfl rfl rfl rfl rfl (waits_to h.waits fun u hu => by cases hu)
  · rw [if_neg hno] at hi ⊢
    obtain ⟨hlast, hreleases⟩ := h.last hno
    have hpos := h.invariant.awake hno
    have hself : Function.update s.passed (s.releases - 1) (s.passed (s.releases - 1) + 1)
        (s.releases - 1) = s.passed (s.releases - 1) + 1 := Function.update_self ..
    have hother (r : ℕ) (hr : r ≠ s.releases - 1) : Function.update s.passed (s.releases - 1)
        (s.passed (s.releases - 1) + 1) r = s.passed r := Function.update_of_ne hr ..
    refine ⟨hi, h.count, h.enabled, ?_, fun r hr => ?_, fun r hr hor => ?_, fun hw => ⟨?_, ?_⟩⟩
    · apply waits_to h.waits
      intro u hu
      split_ifs at hu
    · change s.releases ≤ r at hr
      change Function.update s.passed (s.releases - 1) (s.passed (s.releases - 1) + 1) r = 0
      rw [hother r (by omega)]
      exact h.later r hr
    · change r < s.releases at hr
      change Function.update s.passed (s.releases - 1) (s.passed (s.releases - 1) + 1) r = n
      change (if s.arriversCount - 1 = 0 then Wakeup.no else s.wakeup) = .no ∨
        r + 1 ≠ s.releases at hor
      by_cases hr' : r = s.releases - 1
      · have hend : s.arriversCount - 1 = 0 := by
          by_contra hne
          rw [if_neg hne] at hor
          rcases hor with hor | hor
          · exact hno hor
          · omega
        rw [hr', hself]
        omega
      · rw [hother r hr']
        exact h.done r hr (.inr (by omega))
    · change Function.update s.passed (s.releases - 1) (s.passed (s.releases - 1) + 1)
        (s.releases - 1) + (s.arriversCount - 1) = n
      rw [hself]
      omega
    · exact hreleases

theorem Grouped.step {n : ℕ} {s s' : State ι} {a : Action ι} (h : Grouped n s) (hok : Plain s a)
    (hs : next s a = some s') : Grouped n s' := by
  have hi : Invariant s' := by
    apply h.invariant.step _ hs
    cases a with
    | exit t => exact hok.elim
    | _ => trivial
  cases a with
  | barrierWait t =>
    simp only [next] at hs
    split_ifs at hs
    cases hs
    exact h.move hi rfl rfl rfl rfl rfl rfl (waits_to h.waits fun u hu => by cases hu)
  | barrierUnblock t u => exact hok.elim
  | arrive t =>
    simp only [next] at hs
    split_ifs at hs with ht
    cases hs
    exact h.arrive ht.1 ht.2
  | sleep t =>
    cases ht : s.threads t with
    | entering g =>
      simp only [next, ht] at hs
      cases hs
      exact h.move hi rfl rfl rfl rfl rfl rfl (waits_to h.waits fun u hu => by cases hu)
    | _ =>
      simp only [next, ht] at hs
      cases hs
  | wake t =>
    cases ht : s.threads t with
    | waiting g =>
      simp only [next, ht] at hs
      cases hs
      exact h.move hi rfl rfl rfl rfl rfl rfl (waits_to h.waits fun u hu => by cases hu)
    | _ =>
      simp only [next, ht] at hs
      cases hs
  | retake t =>
    cases ht : s.threads t with
    | woken g =>
      simp only [next, ht] at hs
      split_ifs at hs
      cases hs
      exact h.move hi rfl rfl rfl rfl rfl rfl (waits_to h.waits fun u hu => by cases hu)
    | _ =>
      simp only [next, ht] at hs
      cases hs
  | test t =>
    cases ht : s.threads t with
    | inside g =>
      simp only [next, ht] at hs
      cases hs
      exact h.test ht
    | _ =>
      simp only [next, ht] at hs
      cases hs
  | exit t => exact hok.elim
  | unblock t =>
    cases ht : s.threads t with
    | unblocking u => exact absurd ht (h.waits t u)
    | _ =>
      simp only [next, ht] at hs
      cases hs

theorem reached_grouped {n : ℕ} {s : State ι}
    (h : Reached next Plain (· = makeBarrier n) s) : Grouped n s := by
  apply h.invariant
  · rintro s rfl
    exact grouped_make n
  · exact fun s a s' hs hok hnext => hs.step hok hnext

/-- While no thread leaves a release by a non-local exit as the last one, the barrier counts the
threads that have arrived, a release lets those pass that arrived before it, and it can end.
Without such exits and without barrier-unblock, each release that has ended let n threads pass. -/
theorem barriers_stay_usable (n : ℕ) (s : State ι) :
    (Reached next Orderly (· = makeBarrier n) s →
      s.arriversCount = (Finset.univ.filter fun u => (s.threads u).arrival.isSome = true).card ∧
        (s.wakeup ≠ .no → 0 < s.arriversCount) ∧
        (∀ u g, (s.threads u).arrival = some g → s.wakeup ≠ .no → g + 1 = s.releases) ∧
        ∃ s', Reached next Onward (· = s) s' ∧ s'.wakeup = .no) ∧
    (Reached next Plain (· = makeBarrier n) s →
      ∀ r, r < s.releases → s.wakeup = .no ∨ r + 1 ≠ s.releases → s.passed r = n) := by
  refine ⟨fun h => ?_, fun h => (reached_grouped h).done⟩
  have hi := reached_invariant h
  refine ⟨?_, hi.awake, fun u g hg hw => ?_, hi.ends _ rfl⟩
  · rw [hi.arrivers, Finset.card_filter]
    rfl
  · have := hi.current u g hg
    rw [Current, if_neg hw] at this
    exact this

/-- Two threads pass a barrier for two. -/
theorem barriers_stay_usable_two : ∃ s : State Bool,
    s.arriversCount = 0 ∧ s.wakeup = .no ∧ s.releases = 1 ∧ s.passed 0 = 2 :=
  have start : Reached next Plain (· = makeBarrier 2) (makeBarrier 2 : State Bool) := .start rfl
  have first := ((start.step (a := .barrierWait true) (by trivial) rfl).step (a := .arrive true)
    (by trivial) rfl).step (a := .sleep true) (by trivial) rfl
  have second := (first.step (a := .barrierWait false) (by trivial) rfl).step (a := .arrive false)
    (by trivial) rfl
  have passed := (second.step (a := .retake true) (by trivial) rfl).step (a := .test true) (by trivial) rfl
  ⟨_, rfl, rfl, rfl, (barriers_stay_usable 2 _).2 passed 0 (Nat.lt_succ_self 0) (.inl rfl)⟩

def Stuck (s : State Bool) : Prop :=
  s.disabled = false ∧ s.wakeup = .normal ∧ s.arriversCount = 0 ∧
    ∀ t, (s.threads t).arrival = none

theorem stuck_forever {s s' : State Bool} (h : Reached next (fun _ _ => True) (· = s) s')
    (hs : Stuck s) : Stuck s' := by
  apply h.invariant
  · rintro _ rfl
    exact hs
  · rintro s a s' ⟨hdisabled, hwakeup, hzero, hnone⟩ - hnext
    have hw : s.wakeup ≠ .no := by
      rw [hwakeup]
      exact fun hn => by cases hn
    have hmove (t : Bool) (x : Thread) (hx : x.arrival = none) : Stuck (s.to t x) := by
      refine ⟨hdisabled, hwakeup, hzero, fun u => ?_⟩
      by_cases hut : u = t
      · rw [hut, to_threads_self]
        exact hx
      · rw [to_threads_of_ne s x hut]
        exact hnone u
    have harrived {t : Bool} {g : ℕ} (ht : (s.threads t).arrival = some g) : Stuck s' := by
      rw [hnone t] at ht
      cases ht
    cases a with
    | barrierWait t =>
      simp only [next] at hnext
      split_ifs at hnext
      cases hnext
      exact hmove t .arriving rfl
    | barrierUnblock t u =>
      simp only [next] at hnext
      split_ifs at hnext
      cases hnext
      exact hmove t (.unblocking u) rfl
    | arrive t =>
      simp only [next, arrive, hdisabled, Bool.false_eq_true, if_false, if_pos hw] at hnext
      split_ifs at hnext
      cases hnext
      exact ⟨hdisabled, hwakeup, hzero, hnone⟩
    | sleep t =>
      cases ht : s.threads t with
      | entering g => exact harrived (by rw [ht]; rfl)
      | _ =>
        simp only [next, ht] at hnext
        cases hnext
    | wake t =>
      cases ht : s.threads t with
      | waiting g => exact harrived (by rw [ht]; rfl)
      | _ =>
        simp only [next, ht] at hnext
        cases hnext
    | retake t =>
      cases ht : s.threads t with
      | woken g => exact harrived (by rw [ht]; rfl)
      | _ =>
        simp only [next, ht] at hnext
        cases hnext
    | test t =>
      cases ht : s.threads t with
      | inside g => exact harrived (by rw [ht]; rfl)
      | _ =>
        simp only [next, ht] at hnext
        cases hnext
    | exit t =>
      cases ht : s.threads t with
      | entering g | waiting g | woken g | inside g => exact harrived (by rw [ht]; rfl)
      | _ =>
        simp only [next, ht] at hnext
        cases hnext
    | unblock t =>
      cases ht : s.threads t with
      | unblocking u =>
        simp only [next, ht, unblock, if_pos hw] at hnext
        split_ifs at hnext
        cases hnext
        exact ⟨hdisabled, hwakeup, hzero, hnone⟩
      | _ =>
        simp only [next, ht] at hnext
        cases hnext

/-- A thread waits at a barrier for two, a second one arrives and wakes it, and the first one is
interrupted before it has the mutex again. -/
theorem interrupted_release_never_ends : ∃ s : State Bool,
    Reached next (fun _ _ => True) (· = makeBarrier 2) s ∧ s.holder = none ∧
      s.arriversCount = 0 ∧ s.wakeup = .normal ∧
      ∀ s', Reached next (fun _ _ => True) (· = s) s' → Stuck s' :=
  have start : Reached next (fun _ _ => True) (· = makeBarrier 2) (makeBarrier 2 : State Bool) :=
    .start rfl
  have first := ((start.step (a := .barrierWait true) trivial rfl).step (a := .arrive true)
    trivial rfl).step (a := .sleep true) trivial rfl
  have second := (first.step (a := .barrierWait false) trivial rfl).step (a := .arrive false)
    trivial rfl
  have interrupted := second.step (a := .exit true) trivial rfl
  ⟨_, interrupted, rfl, rfl, rfl, fun _ h =>
    stuck_forever h ⟨rfl, rfl, rfl, fun t => by cases t <;> rfl⟩⟩

end BarrierCorrectness
