import Ecl.Runs
import Ecl.Semaphores
import Mathlib.Algebra.Order.BigOperators.Group.Finset
import Mathlib.Algebra.Order.Ring.Int

/-! A semaphore keeps account of its permits, and no thread waits for permits that are there. -/
namespace SemaphoreCorrectness

open ConditionalRuns Semaphores
open Families (sum_update_add)
open Holders (some_iff_of_ne)

variable {ι : Type*} [DecidableEq ι] [Fintype ι] {count : ℕ}

omit [Fintype ι] in
@[simp] theorem to_threads_self (s : State ι) (t : ι) (x : Thread) :
    (s.to t x).threads t = x := Function.update_self ..

omit [Fintype ι] in
theorem to_threads_of_ne (s : State ι) {t u : ι} (x : Thread) (h : u ≠ t) :
    (s.to t x).threads u = s.threads u := Function.update_of_ne h ..

theorem sum_to (f : Thread → ℤ) (s : State ι) (t : ι) (x : Thread) :
    ∑ u, f ((s.to t x).threads u) = ∑ u, f (s.threads u) - f (s.threads t) + f x := by
  have hsum : ∑ u, f ((s.to t x).threads u) + f (s.threads t) = ∑ u, f (s.threads u) + f x :=
    sum_update_add f s.threads t x
  omega

theorem owed_to (s : State ι) (t : ι) (x : Thread) :
    owed (s.to t x) = owed s - owedBy (s.threads t) + owedBy x := sum_to owedBy s t x

def Fine : Thread → Prop
  | .locking r | .inside r => r.count < 2 ^ 63
  | .waiting count _ | .woken count _ _ | .expired count => 1 ≤ count ∧ count < 2 ^ 63
  | .signalling n => 0 ≤ n
  | _ => True

def Critical : Thread → Prop
  | .inside _ | .signalling _ | .leaving _ => True
  | _ => False

def waitsBy (x : Thread) : ℤ := if InWait x = true then 1 else 0

structure Invariant (count : ℕ) (s : State ι) : Prop where
  nonneg : 0 ≤ s.counter
  small : s.counter < 2 ^ 63
  balance : count + s.signalled = s.counter + s.acquired
  waits : s.waitCount = ∑ u, waitsBy (s.threads u)
  fine : ∀ u, Fine (s.threads u)
  critical : ∀ u, Critical (s.threads u) ↔ s.holder = some u
  enough : ∀ u count' timed, s.threads u = .waiting count' timed → s.counter < count' + owed s

omit [DecidableEq ι] in
theorem invariant_make (hc : count < 2 ^ 63) : Invariant count (makeSemaphore count : State ι) where
  nonneg := by
    rw [makeSemaphore, clFixnum_of_lt (by omega) (by omega)]
    exact Int.natCast_nonneg count
  small := by
    rw [makeSemaphore, clFixnum_of_lt (by omega) (by omega)]
    exact Int.ofNat_lt.2 hc
  balance := by
    rw [makeSemaphore, clFixnum_of_lt (by omega) (by omega)]
  waits := by
    symm
    exact Finset.sum_const_zero
  fine _ := trivial
  critical u := by
    constructor
    · exact fun h => h.elim
    · exact fun h => by cases h
  enough u count' timed h := by cases h

theorem owedBy_nonneg {x : Thread} (h : Fine x) : 0 ≤ owedBy x := by
  cases x with
  | woken count timed signalled =>
    simp only [owedBy]
    split_ifs <;> omega
  | signalling n => exact h
  | _ => exact Int.le_refl 0

theorem Invariant.rest_nonneg {s : State ι} (h : Invariant count s) (t : ι) :
    0 ≤ owed s - owedBy (s.threads t) := by
  have := Finset.add_sum_erase Finset.univ (fun u => owedBy (s.threads u)) (Finset.mem_univ t)
  have hrest : 0 ≤ ∑ u ∈ Finset.univ.erase t, owedBy (s.threads u) :=
    Finset.sum_nonneg fun u _ => owedBy_nonneg (h.fine u)
  rw [owed]
  omega

theorem Invariant.change {s : State ι} (h : Invariant count s) {t : ι} {x : Thread}
    {counter waitCount signalled acquired : ℤ} {holder : Option ι}
    (hnonneg : 0 ≤ counter) (hsmall : counter < 2 ^ 63)
    (hbalance : count + signalled = counter + acquired)
    (hwaits : waitCount = s.waitCount - waitsBy (s.threads t) + waitsBy x) (hfine : Fine x)
    (hcritical : Critical x ↔ holder = some t)
    (hholder : ∀ u, u ≠ t → (s.holder = some u ↔ holder = some u))
    (hself : ∀ count' timed, x = .waiting count' timed → counter < count')
    (hothers : ∀ u count' timed, u ≠ t → s.threads u = .waiting count' timed →
      counter < count' + (owed s - owedBy (s.threads t) + owedBy x)) :
    Invariant count ⟨counter, waitCount, holder, (s.to t x).threads, signalled, acquired⟩ where
  nonneg := hnonneg
  small := hsmall
  balance := hbalance
  waits := by
    change waitCount = ∑ u, waitsBy ((s.to t x).threads u)
    rw [sum_to, ← h.waits]
    exact hwaits
  fine u := by
    change Fine ((s.to t x).threads u)
    by_cases hut : u = t
    · rw [hut, to_threads_self]
      exact hfine
    · rw [to_threads_of_ne s x hut]
      exact h.fine u
  critical u := by
    change Critical ((s.to t x).threads u) ↔ holder = some u
    by_cases hut : u = t
    · rw [hut, to_threads_self]
      exact hcritical
    · rw [to_threads_of_ne s x hut, h.critical u]
      exact hholder u hut
  enough u count' timed hu := by
    change (s.to t x).threads u = _ at hu
    change counter < count' + owed (s.to t x)
    rw [owed_to]
    by_cases hut : u = t
    · rw [hut, to_threads_self] at hu
      have hlt := hself count' timed hu
      have hrest := h.rest_nonneg t
      have hx := owedBy_nonneg hfine
      omega
    · rw [to_threads_of_ne s x hut] at hu
      exact hothers u count' timed hut hu

theorem Invariant.move {s : State ι} (h : Invariant count s) {t : ι} {x : Thread}
    (ht : ¬ Critical (s.threads t)) (hx : ¬ Critical x)
    (hwaits : waitsBy x = waitsBy (s.threads t)) (hfine : Fine x)
    (hself : ∀ count' timed, x = .waiting count' timed → s.counter < count')
    (howed : owedBy (s.threads t) ≤ owedBy x) : Invariant count (s.to t x) := by
  have hholder : s.holder ≠ some t := fun hh => ht ((h.critical t).2 hh)
  refine h.change h.nonneg h.small h.balance (by omega) hfine ?_ (fun _ _ => Iff.rfl) hself ?_
  · exact ⟨fun hc => absurd hc hx, fun hh => absurd hh hholder⟩
  · intro u count' timed _ hu
    have := h.enough u count' timed hu
    omega

theorem Invariant.awake {s : State ι} (h : Invariant count s) {t : ι} {x : Thread} {n : ℕ}
    {timed : Bool} (ht : s.threads t = .waiting n timed)
    (hx : x = .woken n timed false ∨ x = .expired n) : Invariant count (s.to t x) := by
  have hfine := h.fine t
  rw [ht] at hfine
  apply h.move
  · rw [ht]
    exact id
  · rcases hx with rfl | rfl <;> exact id
  · rw [ht]
    rcases hx with rfl | rfl <;> rfl
  · rcases hx with rfl | rfl <;> exact hfine
  · rintro _ _ rfl
    rcases hx with hx | hx <;> cases hx
  · rw [ht]
    rcases hx with rfl | rfl <;> exact Int.le_refl _

theorem Invariant.exchange {s : State ι} (h : Invariant count s) {t : ι} {x : Thread}
    {counter waitCount signalled acquired : ℤ} {holder : Option ι}
    (hnonneg : 0 ≤ counter) (hsmall : counter < 2 ^ 63)
    (hbalance : count + signalled = counter + acquired)
    (hwaits : waitCount = s.waitCount - waitsBy (s.threads t) + waitsBy x) (hfine : Fine x)
    (hbefore : s.holder = none ∨ s.holder = some t)
    (hafter : Critical x ∧ holder = some t ∨ ¬ Critical x ∧ holder = none)
    (hself : ∀ count' timed, x = .waiting count' timed → counter < count')
    (howed : counter + owedBy (s.threads t) ≤ s.counter + owedBy x) :
    Invariant count ⟨counter, waitCount, holder, (s.to t x).threads, signalled, acquired⟩ := by
  refine h.change hnonneg hsmall hbalance hwaits hfine ?_ (fun u hu => ?_) hself ?_
  · rcases hafter with ⟨hx, rfl⟩ | ⟨hx, rfl⟩
    · exact ⟨fun _ => rfl, fun _ => hx⟩
    · exact ⟨fun hc => absurd hc hx, fun hh => by cases hh⟩
  · have hholder : holder = none ∨ holder = some t := hafter.elim (.inr ·.2) (.inl ·.2)
    exact some_iff_of_ne hbefore hholder hu
  · intro u count' timed _ hu
    have := h.enough u count' timed hu
    omega

theorem Invariant.take {s : State ι} (h : Invariant count s) {t : ι} {n : ℕ} {waitCount : ℤ}
    (hn : n < 2 ^ 63) (hle : clFixnum n ≤ s.counter)
    (hbefore : s.holder = none ∨ s.holder = some t)
    (hwaits : waitCount = s.waitCount - waitsBy (s.threads t))
    (howed : owedBy (s.threads t) ≤ n) :
    Invariant count { s.take t n with waitCount := waitCount } := by
  have hfixnum : clFixnum n = n := clFixnum_of_lt (by omega) (by omega)
  have hnonneg := h.nonneg
  have hsmall := h.small
  have hbalance := h.balance
  rw [hfixnum] at hle
  have hcounter : clFixnum (s.counter - clFixnum n) = s.counter - n := by
    rw [hfixnum]
    exact clFixnum_of_lt (by omega) (by omega)
  have htake : { s.take t n with waitCount := waitCount } =
      ⟨s.counter - n, waitCount, some t, (s.to t (.leaving (some s.counter))).threads, s.signalled,
        s.acquired + n⟩ := by
    rw [State.take, hcounter]
    rfl
  rw [htake]
  refine h.exchange (by omega) (by omega) (by omega) ?_ trivial hbefore (.inl ⟨trivial, rfl⟩) ?_ ?_
  · rw [hwaits]
    exact (Int.add_zero _).symm
  · exact fun _ _ hw => by cases hw
  · change s.counter - n + owedBy (s.threads t) ≤ s.counter + 0
    omega

theorem Invariant.enter {s : State ι} (h : Invariant count s) {t : ι} {r : Request}
    (ht : s.threads t = .inside r)
    (hok : ∀ n, s.threads t = .inside (.signal n) → s.counter + n < 2 ^ 63) :
    Invariant count (enter s t r) := by
  have hholder : s.holder = some t := (h.critical t).1 (by rw [ht]; trivial)
  have hfine := h.fine t
  have hwaits : waitsBy (s.threads t) = 0 := by
    rw [ht]
    rfl
  have howed : owedBy (s.threads t) = 0 := by
    rw [ht]
    rfl
  have htaken : s.waitCount = s.waitCount - waitsBy (s.threads t) := by
    rw [hwaits]
    exact (Int.sub_zero _).symm
  have hnonneg := h.nonneg
  have hsmall := h.small
  have hbalance := h.balance
  rw [ht] at hfine
  cases r with
  | signal n =>
    have hn : n < 2 ^ 63 := hfine
    have hfixnum : clFixnum n = n := clFixnum_of_lt (by omega) (by omega)
    have hlt := hok n ht
    have hcounter : clFixnum (s.counter + clFixnum n) = s.counter + n := by
      rw [hfixnum]
      exact clFixnum_of_lt (by omega) hlt
    have henter : Semaphores.enter s t (.signal n) =
        ⟨s.counter + n, s.waitCount, s.holder, (s.to t (.signalling n)).threads, s.signalled + n,
          s.acquired⟩ := by
      rw [Semaphores.enter, hcounter, hfixnum]
      rfl
    rw [henter]
    refine h.exchange (by omega) hlt (by omega) ?_ (Int.natCast_nonneg n) (.inr hholder)
      (.inl ⟨trivial, hholder⟩) ?_ ?_
    · rw [hwaits]
      exact ((Int.add_zero _).trans (Int.sub_zero _)).symm
    · exact fun _ _ hw => by cases hw
    · rw [howed]
      exact Int.le_of_eq (Int.add_zero _)
  | wait n timed =>
    have hn : n < 2 ^ 63 := hfine
    simp only [Semaphores.enter]
    split_ifs with hle
    · exact h.take hn hle (.inr hholder) htaken (by omega)
    · rw [clFixnum_of_lt (by omega) (by omega)] at hle
      refine h.exchange hnonneg hsmall hbalance ?_ ⟨by omega, hn⟩ (.inr hholder)
        (.inr ⟨id, rfl⟩) ?_ ?_
      · rw [hwaits]
        exact (congrArg (· + 1) (Int.sub_zero _)).symm
      · intro count' timed' hw
        cases hw
        change s.counter < n
        omega
      · rw [howed]
        exact Int.le_refl _
  | tryGet n =>
    have hn : n < 2 ^ 63 := hfine
    simp only [Semaphores.enter]
    split_ifs with hle
    · exact h.take hn hle (.inr hholder) htaken (by omega)
    · refine h.exchange hnonneg hsmall hbalance ?_ trivial (.inr hholder)
        (.inl ⟨trivial, hholder⟩) ?_ ?_
      · rw [hwaits]
        exact ((Int.add_zero _).trans (Int.sub_zero _)).symm
      · exact fun _ _ hw => by cases hw
      · rw [howed]
        exact Int.le_refl _

/-- A signal adds what the thread that it wakes is to take, and that is one permit at least. -/
theorem Invariant.signal {s s' : State ι} (h : Invariant count s) {t : ι} {n : ℤ}
    (ht : s.threads t = .signalling n) (hn : 0 < n) {who : Option ι}
    (hs : signal s t n who = some s') : Invariant count s' := by
  have hholder : s.holder = some t := (h.critical t).1 (by rw [ht]; trivial)
  cases who with
  | none =>
    simp only [Semaphores.signal] at hs
    split_ifs at hs with hnone
    cases hs
    refine h.change h.nonneg h.small h.balance ?_ ?_ ⟨fun _ => hholder, fun _ => trivial⟩
      (fun _ _ => Iff.rfl) (fun _ _ hw => by cases hw) ?_
    · rw [ht]
      exact ((Int.add_zero _).trans (Int.sub_zero _)).symm
    · change 0 ≤ n - 1
      omega
    · intro u count' timed _ hu
      have := hnone u
      rw [hu] at this
      exact absurd trivial this
  | some u =>
    cases hu : s.threads u with
    | waiting c timed =>
      have hfine : Fine (.waiting c timed) := by
        rw [← hu]
        exact h.fine u
      have htu : t ≠ u := by
        rintro rfl
        rw [ht] at hu
        cases hu
      have hmoved : Invariant count (s.to u (.woken c timed true)) := by
        apply h.move
        · rw [hu]
          exact id
        · exact id
        · rw [hu]
          rfl
        · exact hfine
        · exact fun _ _ hw => by cases hw
        · rw [hu]
          exact Int.natCast_nonneg c
      have ht' : (s.to u (.woken c timed true)).threads t = .signalling n := by
        rw [to_threads_of_ne s _ htu, ht]
      simp only [Semaphores.signal, hu] at hs
      cases hs
      refine hmoved.change h.nonneg h.small h.balance ?_ ?_ ⟨fun _ => hholder, fun _ => trivial⟩
        (fun _ _ => Iff.rfl) (fun _ _ hw => by cases hw) ?_
      · rw [ht']
        exact ((Int.add_zero _).trans (Int.sub_zero _)).symm
      · change 0 ≤ n - 1
        omega
      · intro v count' timed' hv hw
        have hvu : v ≠ u := by
          rintro rfl
          rw [to_threads_self] at hw
          cases hw
        rw [to_threads_of_ne s _ hvu] at hw
        have hlt := h.enough v count' timed' hw
        have hc : owedBy (.woken c timed true) = c := rfl
        have hn' : owedBy (.signalling n) = n ∧ owedBy (.signalling (n - 1)) = n - 1 := ⟨rfl, rfl⟩
        have hw' : owedBy (.waiting c timed) = 0 := rfl
        have hone : 1 ≤ c := hfine.1
        rw [owed_to, ht', hu, hc, hw', hn'.1, hn'.2]
        change s.counter < _
        omega
    | _ =>
      simp only [Semaphores.signal, hu] at hs
      cases hs

theorem Invariant.retake {s s' : State ι} (h : Invariant count s) {t : ι} {late : Bool}
    (hok : Sound s (.retake t late)) (hs : next s (.retake t late) = some s') :
    Invariant count s' := by
  have hnonneg := h.nonneg
  have hsmall := h.small
  have hbalance := h.balance
  have hfine := h.fine t
  simp only [next] at hs
  split_ifs at hs with hholder
  cases ht : s.threads t with
  | woken n timed signalled =>
    rw [ht] at hfine
    obtain ⟨hone, hn⟩ : 1 ≤ n ∧ n < 2 ^ 63 := hfine
    have hfixnum : clFixnum n = n := clFixnum_of_lt (by omega) (by omega)
    have howed : owedBy (s.threads t) ≤ n := by
      rw [ht]
      simp only [owedBy]
      split_ifs <;> omega
    have hwaits : waitsBy (s.threads t) = 1 := by
      rw [ht]
      rfl
    simp only [ht] at hs
    split_ifs at hs with hle hlate
    · cases hs
      exact h.take hn hle (.inl hholder) (by omega) howed
    · cases hs
      rw [hfixnum] at hle
      -- The deadline has passed: what was owed to this thread is owed to nobody.
      refine h.change hnonneg hsmall hbalance ?_ trivial ⟨fun _ => rfl, fun _ => trivial⟩ ?_
        (fun _ _ hw => by cases hw) ?_
      · rw [hwaits]
        exact (Int.add_zero _).symm
      · intro u hu
        rw [hholder]
        exact ⟨fun hh => (by cases hh), fun hh => absurd (Option.some.inj hh).symm hu⟩
      · intro u count' timed' hu hw
        have hthere := h.enough u count' timed' hw
        have hzero : owedBy (.leaving none) = 0 := rfl
        rw [hzero, ht]
        change s.counter < _
        cases signalled with
        | true =>
          have hlt := hok n timed ht (by omega) u count' timed' hw
          have hn' : owedBy (.woken n timed true) = n := rfl
          omega
        | false =>
          have hn' : owedBy (.woken n timed false) = 0 := rfl
          omega
    · cases hs
      rw [hfixnum] at hle
      refine h.change hnonneg hsmall hbalance ?_ ⟨hone, hn⟩ ?_ (fun _ _ => Iff.rfl) ?_ ?_
      · rw [hwaits]
        exact (Int.sub_add_cancel _ _).symm
      · exact ⟨fun hc => hc.elim, fun hh => by rw [hholder] at hh; cases hh⟩
      · intro count' timed' hw
        cases hw
        omega
      · intro u count' timed' hu hw
        have hthere := h.enough u count' timed' hw
        have hzero : owedBy (.waiting n timed) = 0 := rfl
        rw [hzero, ht]
        cases signalled with
        | true =>
          have hlt := hok n timed ht (by omega) u count' timed' hw
          have hn' : owedBy (.woken n timed true) = n := rfl
          omega
        | false =>
          have hn' : owedBy (.woken n timed false) = 0 := rfl
          omega
  | expired n =>
    rw [ht] at hfine
    obtain ⟨-, hn⟩ : 1 ≤ n ∧ n < 2 ^ 63 := hfine
    have howed : owedBy (s.threads t) = 0 := by
      rw [ht]
      rfl
    have hwaits : waitsBy (s.threads t) = 1 := by
      rw [ht]
      rfl
    simp only [ht] at hs
    split_ifs at hs with hle
    · cases hs
      exact h.take hn hle (.inl hholder) (by omega) (by omega)
    · cases hs
      refine h.exchange hnonneg hsmall hbalance ?_ trivial (.inl hholder) (.inl ⟨trivial, rfl⟩)
        (fun _ _ hw => by cases hw) ?_
      · rw [hwaits]
        exact (Int.add_zero _).symm
      · rw [howed]
        exact Int.le_refl _
  | _ =>
    simp only [ht] at hs
    cases hs

theorem Invariant.step {s s' : State ι} {a : Action ι} (h : Invariant count s) (hok : Sound s a)
    (hs : next s a = some s') : Invariant count s' := by
  cases a with
  | call t r =>
    simp only [next] at hs
    split_ifs at hs with ht
    cases hs
    apply h.move
    · rw [ht.1]
      exact id
    · exact id
    · rw [ht.1]
      rfl
    · exact hok
    · exact fun _ _ hw => by cases hw
    · rw [ht.1]
      exact Int.le_refl _
  | lock t =>
    cases ht : s.threads t with
    | locking r =>
      simp only [next, ht] at hs
      split_ifs at hs with hholder
      cases hs
      have hfine := h.fine t
      rw [ht] at hfine
      refine h.exchange h.nonneg h.small h.balance ?_ hfine (.inl hholder) (.inl ⟨trivial, rfl⟩)
        (fun _ _ hw => by cases hw) ?_
      · rw [ht]
        exact ((Int.add_zero _).trans (Int.sub_zero _)).symm
      · rw [ht]
        exact Int.le_refl _
    | _ =>
      simp only [next, ht] at hs
      cases hs
  | enter t =>
    cases ht : s.threads t with
    | inside r =>
      simp only [next, ht] at hs
      cases hs
      exact h.enter ht hok
    | _ =>
      simp only [next, ht] at hs
      cases hs
  | signal t who =>
    cases ht : s.threads t with
    | signalling n =>
      simp only [next, ht] at hs
      split_ifs at hs with hn
      exact h.signal ht hn hs
    | _ =>
      simp only [next, ht] at hs
      cases hs
  | wake t =>
    cases ht : s.threads t with
    | waiting n timed =>
      simp only [next, ht] at hs
      cases hs
      exact h.awake ht (.inl rfl)
    | _ =>
      simp only [next, ht] at hs
      cases hs
  | expire t =>
    cases ht : s.threads t with
    | waiting n timed =>
      simp only [next, ht] at hs
      split_ifs at hs
      cases hs
      exact h.awake ht (.inr rfl)
    | _ =>
      simp only [next, ht] at hs
      cases hs
  | retake t late => exact h.retake hok hs
  | unlock t =>
    cases ht : s.threads t with
    | leaving output =>
      have hholder : s.holder = some t := (h.critical t).1 (by rw [ht]; trivial)
      simp only [next, ht] at hs
      cases hs
      refine h.exchange h.nonneg h.small h.balance ?_ trivial (.inr hholder) (.inr ⟨id, rfl⟩)
        (fun _ _ hw => by cases hw) ?_
      · rw [ht]
        exact ((Int.add_zero _).trans (Int.sub_zero _)).symm
      · rw [ht]
        exact Int.le_refl _
    | signalling n =>
      have hholder : s.holder = some t := (h.critical t).1 (by rw [ht]; trivial)
      simp only [next, ht] at hs
      split_ifs at hs with hn
      cases hs
      refine h.exchange h.nonneg h.small h.balance ?_ trivial (.inr hholder) (.inr ⟨id, rfl⟩)
        (fun _ _ hw => by cases hw) ?_
      · rw [ht]
        exact ((Int.add_zero _).trans (Int.sub_zero _)).symm
      · have hn' : owedBy (.signalling n) = n := rfl
        have hzero : owedBy .idle = 0 := rfl
        rw [ht, hn', hzero]
        change s.counter + n ≤ s.counter + 0
        omega
    | _ =>
      simp only [next, ht] at hs
      cases hs

theorem reached_invariant (hc : count < 2 ^ 63) {s : State ι}
    (h : Reached next Sound (· = makeSemaphore count) s) : Invariant count s := by
  apply h.invariant
  · rintro s rfl
    exact invariant_make hc
  · exact fun s a s' hs hok hnext => hs.step hok hnext

/-- While every awakened thread that finds too little leaves no permits that another thread waits
for, no permit is lost, and no thread waits for permits that are there. -/
theorem semaphores_lose_nothing (hc : count < 2 ^ 63) (s : State ι)
    (h : Reached next Sound (· = makeSemaphore count) s) :
    0 ≤ s.counter ∧ count + s.signalled = s.counter + s.acquired ∧
      s.waitCount = (Finset.univ.filter fun u => InWait (s.threads u) = true).card ∧
      (s.holder = none → (∀ u n timed, s.threads u ≠ .woken n timed true) →
        ∀ u n timed, s.threads u = .waiting n timed → s.counter < n) := by
  have hi := reached_invariant hc h
  refine ⟨hi.nonneg, hi.balance, ?_, fun hholder hwoken u n timed hu => ?_⟩
  · rw [hi.waits, Finset.card_filter]
    push_cast
    rfl
  · have howed : owed s = 0 := by
      apply Finset.sum_eq_zero
      intro v _
      cases hv : s.threads v with
      | woken n timed signalled =>
        cases signalled with
        | true => exact absurd hv (hwoken v n timed)
        | false => rfl
      | signalling n =>
        have := (hi.critical v).1 (by rw [hv]; trivial)
        rw [hholder] at this
        cases this
      | _ => rfl
    have := hi.enough u n timed hu
    omega

/-- A thread waits for one permit of none. -/
theorem semaphores_lose_nothing_waiting : ∃ s : State Bool,
    s.threads true = .waiting 1 false ∧ s.waitCount = 1 ∧ s.counter < 1 :=
  have start : Reached next Sound (· = makeSemaphore 0) (makeSemaphore 0 : State Bool) := .start rfl
  have called := start.step (a := .call true (.wait 1 false)) (by change 1 < 2 ^ 63; decide) rfl
  have locked := called.step (a := .lock true) (by trivial) rfl
  have waiting := locked.step (a := .enter true) (by intro n hn; cases hn) rfl
  ⟨_, rfl, rfl, (semaphores_lose_nothing (by decide) _ waiting).2.2.2 rfl
    (fun u => by cases u <;> exact fun n timed hn => by cases hn) true 1 false rfl⟩

/-- The one signal wakes the thread that asks for two permits. It waits on, and so does the thread
that asks for one. -/
theorem signal_is_swallowed : ∃ s : State (Fin 3),
    Reached next (fun _ _ => True) (· = makeSemaphore 0) s ∧ s.holder = none ∧
      s.threads 0 = .waiting 2 false ∧ s.threads 1 = .waiting 1 false ∧ s.threads 2 = .idle ∧
      s.counter = 1 :=
  have start : Reached next (fun _ _ => True) (· = makeSemaphore 0)
    (makeSemaphore 0 : State (Fin 3)) := .start rfl
  have two := ((start.step (a := .call 0 (.wait 2 false)) trivial rfl).step (a := .lock 0)
    trivial rfl).step (a := .enter 0) trivial rfl
  have one := ((two.step (a := .call 1 (.wait 1 false)) trivial rfl).step (a := .lock 1)
    trivial rfl).step (a := .enter 1) trivial rfl
  have added := ((one.step (a := .call 2 (.signal 1)) trivial rfl).step (a := .lock 2)
    trivial rfl).step (a := .enter 2) trivial rfl
  have signalled := (added.step (a := .signal 2 (some 0)) trivial rfl).step (a := .unlock 2)
    trivial rfl
  have swallowed := signalled.step (a := .retake 0 false) trivial rfl
  ⟨_, swallowed, rfl, rfl, rfl, rfl, rfl⟩

end SemaphoreCorrectness
