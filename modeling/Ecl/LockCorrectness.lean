import Ecl.Runs
import Ecl.Locks

/-! The owner and the counter of a lock agree with its mutex. -/
namespace LockCorrectness

open ConditionalRuns Locks

variable {ι : Type*} [DecidableEq ι] {b : Build}

def counted (depth : ℕ) : Thread → ℕ
  | .counting | .incrementing _ | .clearing | .unlocking => depth - 1
  | _ => depth

def owned (depth : ℕ) : Thread → Bool
  | .counting | .incrementing _ | .owning | .unlocking => depth ≠ 1
  | _ => true

def Inside : Thread → Prop
  | .counting | .incrementing _ | .owning | .decrementing _ => True
  | _ => False

def Neutral : Thread → Prop
  | .idle | .acquiring _ | .releasing | .returning _ => True
  | _ => False

structure Recorded (s : State ι) (h : ι) : Prop where
  depth : 0 < s.mutex.depth
  counter : s.counter = counted s.mutex.depth (s.threads h)
  owner : s.owner = if owned s.mutex.depth (s.threads h) = true then some h else none
  read : ∀ c, s.threads h = .incrementing c ∨ s.threads h = .decrementing c → c = s.counter
  last : s.threads h = .clearing → s.mutex.depth = 1

structure Invariant (s : State ι) : Prop where
  free : s.mutex.holder = none → s.owner = none ∧ s.counter = 0 ∧ s.mutex.depth = 0
  held : ∀ h, s.mutex.holder = some h → Recorded s h
  inside : ∀ u, Inside (s.threads u) → s.mutex.holder = some u

omit [DecidableEq ι] in
theorem invariant_initial : Invariant (initial : State ι) where
  free _ := ⟨rfl, rfl, rfl⟩
  held _ h := by cases h
  inside _ h := h.elim

@[simp] theorem to_threads_self (s : State ι) (t : ι) (thread : Thread) :
    (s.to t thread).threads t = thread := Function.update_self ..

theorem to_threads_of_ne (s : State ι) {t u : ι} (thread : Thread) (h : u ≠ t) :
    (s.to t thread).threads u = s.threads u := Function.update_of_ne h ..

theorem counted_neutral {depth : ℕ} {x : Thread} (h : Neutral x) :
    counted depth x = depth ∧ owned depth x = true := by
  cases x with
  | idle | acquiring wait | releasing | returning o => exact ⟨rfl, rfl⟩
  | _ => exact h.elim

omit [DecidableEq ι] in
theorem recorded_neutral {s : State ι} {h : ι} (hx : Neutral (s.threads h)) :
    Recorded s h ↔ 0 < s.mutex.depth ∧ s.counter = s.mutex.depth ∧ s.owner = some h := by
  obtain ⟨hcounted, howned⟩ := @counted_neutral s.mutex.depth _ hx
  constructor
  · intro hr
    refine ⟨hr.depth, hr.counter.trans hcounted, ?_⟩
    rw [hr.owner, if_pos howned]
  · rintro ⟨hdepth, hcounter, howner⟩
    refine ⟨hdepth, by rw [hcounted, hcounter], by rw [if_pos howned, howner], ?_, ?_⟩
    · rintro c (hc | hc)
      · rw [hc] at hx
        exact hx.elim
      · rw [hc] at hx
        exact hx.elim
    · intro hc
      rw [hc] at hx
      exact hx.elim

theorem Recorded.other {s : State ι} {h t : ι} (hr : Recorded s h) (ht : h ≠ t) (x : Thread) :
    Recorded (s.to t x) h := by
  have hx := to_threads_of_ne s x ht
  exact ⟨hr.depth, by rw [hx]; exact hr.counter, by rw [hx]; exact hr.owner,
    by rw [hx]; exact hr.read, by rw [hx]; exact hr.last⟩

theorem Invariant.move {s : State ι} (h : Invariant s) {t : ι} {x : Thread}
    (hself : s.mutex.holder = some t → Recorded (s.to t x) t)
    (hinside : Inside x → s.mutex.holder = some t) : Invariant (s.to t x) where
  free := h.free
  held u hu := by
    by_cases hut : u = t
    · subst hut
      exact hself hu
    · exact (h.held u hu).other hut x
  inside u hu := by
    by_cases hut : u = t
    · subst hut
      rw [to_threads_self] at hu
      exact hinside hu
    · rw [to_threads_of_ne s x hut] at hu
      exact h.inside u hu

theorem Invariant.neutral {s : State ι} (h : Invariant s) {t : ι} {x : Thread}
    (ht : Neutral (s.threads t)) (hx : Neutral x) : Invariant (s.to t x) := by
  apply h.move
  · intro hholder
    have hr := (recorded_neutral ht).1 (h.held t hholder)
    apply (recorded_neutral (by rw [to_threads_self]; exact hx)).2
    exact hr
  · intro hin
    cases x <;> first | exact hin.elim | exact hx.elim

/-- The holder moves and may write the owner and the counter. -/
theorem Invariant.holder {s : State ι} (h : Invariant s) {t : ι}
    (hholder : s.mutex.holder = some t) (x : Thread) (owner : Option ι) (counter : ℕ)
    (hcounter : counter = counted s.mutex.depth x)
    (howner : owner = if owned s.mutex.depth x = true then some t else none)
    (hread : ∀ c, x = .incrementing c ∨ x = .decrementing c → c = counter)
    (hlast : x = .clearing → s.mutex.depth = 1) :
    Invariant { s.to t x with owner := owner, counter := counter } where
  free hfree := by
    have := hholder.symm.trans hfree
    cases this
  held u hu := by
    obtain rfl : t = u := Option.some.inj (hholder.symm.trans hu)
    have hx := to_threads_self s t x
    refine ⟨(h.held t hholder).depth, ?_, ?_, ?_, ?_⟩
    · simp only [hx]
      exact hcounter
    · simp only [hx]
      exact howner
    · simp only [hx]
      exact hread
    · simp only [hx]
      exact hlast
  inside u hu := by
    by_cases hut : u = t
    · rw [hut]
      exact hholder
    · change Inside ((s.to t x).threads u) at hu
      rw [to_threads_of_ne s x hut] at hu
      exact h.inside u hu

theorem Invariant.acquire {s : State ι} (h : Invariant s) {t : ι} {nests : Bool} {wait : Wait}
    {x : Thread} (ht : s.threads t = .acquiring wait)
    (hx : acquired wait (s.mutex.acquire nests t).1 = some x) :
    Invariant { s.to t x with mutex := (s.mutex.acquire nests t).2 } := by
  have hneutral : Neutral (s.threads t) := by
    rw [ht]
    trivial
  have hself : (s.to t x).threads t = x := to_threads_self s t x
  have hinside (u : ι) (hu : Inside ((s.to t x).threads u)) (hne : u ≠ t) :
      s.mutex.holder = some u := by
    rw [to_threads_of_ne s x hne] at hu
    exact h.inside u hu
  rw [Mutex.acquire] at hx ⊢
  cases hholder : s.mutex.holder with
  | none =>
    obtain ⟨howner, hcounter, -⟩ := h.free hholder
    simp only [hholder] at hx ⊢
    have hcounting : x = .counting := by
      cases wait <;> exact (Option.some.inj hx).symm
    subst hcounting
    refine ⟨fun hfree => (by cases hfree), fun u hu => ?_, fun u hu => ?_⟩
    · cases hu
      refine ⟨Nat.one_pos, ?_, ?_, ?_, ?_⟩
      · simp only [hself]
        exact hcounter
      · simp only [hself]
        exact howner
      · intro c hc
        simp only [hself] at hc
        rcases hc with hc | hc <;> cases hc
      · intro hc
        simp only [hself] at hc
        cases hc
    · by_cases hut : u = t
      · rw [hut]
      · have := hinside u hu hut
        rw [hholder] at this
        cases this
  | some u =>
    simp only [hholder] at hx ⊢
    by_cases hut : u = t
    · subst hut
      obtain ⟨hdepth, hcounter, howner⟩ := (recorded_neutral hneutral).1 (h.held u hholder)
      by_cases hnests : nests = true
      · simp only [if_true, if_pos hnests] at hx ⊢
        have hcounting : x = .counting := by
          cases wait <;> exact (Option.some.inj hx).symm
        subst hcounting
        refine ⟨fun hfree => (by cases hfree), fun v hv => ?_, fun v hv => ?_⟩
        · cases hv
          refine ⟨Nat.succ_pos _, ?_, ?_, ?_, ?_⟩
          · simp only [hself]
            exact hcounter
          · have : owned (s.mutex.depth + 1) .counting = true := by
              simp only [owned]
              simp [Nat.ne_of_gt hdepth]
            simp only [hself, if_pos this]
            exact howner
          · intro c hc
            simp only [hself] at hc
            rcases hc with hc | hc <;> cases hc
          · intro hc
            simp only [hself] at hc
            cases hc
        · by_cases hvu : v = u
          · rw [hvu]
          · have := hinside v hv hvu
            rw [hholder] at this
            exact this
      · simp only [if_true, if_neg hnests] at hx ⊢
        apply h.neutral hneutral
        cases wait <;> (cases hx; trivial)
    · simp only [if_neg hut] at hx ⊢
      apply h.neutral hneutral
      cases wait <;> cases hx
      trivial

theorem Invariant.release {s : State ι} (h : Invariant s) {t : ι}
    (ht : s.threads t = .unlocking) (o : Outcome) :
    Invariant { s.to t (.returning o) with mutex := (s.mutex.release t).2 } := by
  rw [Mutex.release]
  by_cases hholder : s.mutex.holder = some t
  · have hr := h.held t hholder
    have hcounter := hr.counter
    have howner := hr.owner
    have hdepth := hr.depth
    have hothers (u : ι) (hu : Inside ((s.to t (.returning o)).threads u)) : False := by
      by_cases hut : u = t
      · subst hut
        rw [to_threads_self] at hu
        exact hu
      · rw [to_threads_of_ne s _ hut] at hu
        have := h.inside u hu
        rw [hholder] at this
        cases this
        exact hut rfl
    rw [ht] at hcounter howner
    simp only [if_pos hholder]
    by_cases hone : s.mutex.depth = 1
    · simp only [if_pos hone]
      refine ⟨fun _ => ⟨?_, ?_, rfl⟩, fun u hu => (by cases hu), fun u hu => (hothers u hu).elim⟩
      · change s.owner = none
        rw [howner]
        simp [owned, hone]
      · change s.counter = 0
        rw [hcounter]
        simp [counted, hone]
    · simp only [if_neg hone]
      refine ⟨fun hfree => (by cases hfree), fun u hu => ?_, fun u hu => (hothers u hu).elim⟩
      cases hu
      apply (recorded_neutral _).2
      · refine ⟨?_, ?_, ?_⟩
        · change 0 < s.mutex.depth - 1
          omega
        · change s.counter = s.mutex.depth - 1
          rw [hcounter]
          rfl
        · change s.owner = some t
          rw [howner]
          simp [owned, hone]
      · change Neutral ((s.to t (.returning o)).threads t)
        rw [to_threads_self]
        trivial
  · simp only [if_neg hholder]
    apply h.move
    · exact fun hh => absurd hh hholder
    · exact fun hin => hin.elim

theorem Invariant.run {s s' : State ι} (h : Invariant s) {t : ι}
    (hok : GivesUpOwn s (.run t)) (hs : runThread s t (s.threads t) = some s') : Invariant s' := by
  cases ht : s.threads t with
  | idle =>
    rw [ht] at hs
    cases hs
  | acquiring wait =>
    rw [ht] at hs
    cases hs
  | counting =>
    have hholder := h.inside t (by rw [ht]; trivial)
    obtain ⟨-, hcounter, howner, -, -⟩ := h.held t hholder
    rw [ht] at hs hcounter howner
    cases hs
    refine h.holder hholder (.incrementing s.counter) s.owner s.counter hcounter howner ?_ ?_
    · rintro c (hc | hc) <;> cases hc
      rfl
    · exact fun hc => (by cases hc)
  | incrementing c =>
    have hholder := h.inside t (by rw [ht]; trivial)
    obtain ⟨hdepth, hcounter, howner, hread, -⟩ := h.held t hholder
    have hc := hread c (.inl ht)
    rw [ht] at hs hcounter howner
    cases hs
    refine h.holder hholder .owning s.owner (c + 1) ?_ howner ?_ ?_
    · rw [hc, hcounter]
      exact Nat.sub_add_cancel hdepth
    · rintro c' (hc' | hc') <;> cases hc'
    · exact fun hc' => (by cases hc')
  | owning =>
    have hholder := h.inside t (by rw [ht]; trivial)
    obtain ⟨-, hcounter, -, -, -⟩ := h.held t hholder
    rw [ht] at hs hcounter
    cases hs
    refine h.holder hholder (.returning .got) (some t) s.counter hcounter rfl ?_ ?_
    · rintro c (hc | hc) <;> cases hc
    · exact fun hc => (by cases hc)
  | releasing =>
    have hneutral : Neutral (s.threads t) := by
      rw [ht]
      trivial
    rw [ht] at hs
    cases hs
    by_cases hholder : s.mutex.holder = some t
    · obtain ⟨hdepth, hcounter, howner⟩ := (recorded_neutral hneutral).1 (h.held t hholder)
      rw [if_pos (by omega)]
      refine h.holder hholder (.decrementing s.counter) s.owner s.counter hcounter howner ?_ ?_
      · rintro c (hc | hc) <;> cases hc
        rfl
      · exact fun hc => (by cases hc)
    · have hzero := (hok.1 ht).resolve_left hholder
      rw [if_neg (by omega)]
      apply h.move
      · exact fun hh => absurd hh hholder
      · exact fun hin => hin.elim
  | decrementing c =>
    have hholder := h.inside t (by rw [ht]; trivial)
    obtain ⟨hdepth, hcounter, howner, hread, -⟩ := h.held t hholder
    have hc := hread c (.inr ht)
    rw [ht] at hs hcounter howner
    simp only [counted] at hcounter
    cases hs
    by_cases hone : c - 1 = 0
    · rw [if_pos hone]
      refine h.holder hholder .clearing s.owner (c - 1) ?_ howner ?_ ?_
      · rw [hc, hcounter]
        rfl
      · rintro c' (hc' | hc') <;> cases hc'
      · intro _
        omega
    · rw [if_neg hone]
      refine h.holder hholder .unlocking s.owner (c - 1) ?_ ?_ ?_ ?_
      · rw [hc, hcounter]
        rfl
      · have howned : owned s.mutex.depth .unlocking = true := decide_eq_true (by omega)
        rw [if_pos howned]
        exact howner
      · rintro c' (hc' | hc') <;> cases hc'
      · exact fun hc' => (by cases hc')
  | clearing =>
    have hs' := hs
    rw [ht] at hs'
    cases hs'
    by_cases hholder : s.mutex.holder = some t
    · obtain ⟨-, hcounter, -, -, hlast⟩ := h.held t hholder
      have hdepth := hlast ht
      rw [ht] at hcounter
      refine h.holder hholder .unlocking none s.counter hcounter ?_ ?_ ?_
      · rw [hdepth]
        rfl
      · rintro c (hc | hc) <;> cases hc
      · exact fun hc => (by cases hc)
    · have hnone := (hok.2 ht).resolve_left hholder
      have hsame : { s.to t .unlocking with owner := none } = s.to t .unlocking := by
        simp only [State.to, hnone]
      rw [hsame]
      apply h.move
      · exact fun hh => absurd hh hholder
      · exact fun hin => hin.elim
  | unlocking =>
    rw [ht] at hs
    cases hs
    exact h.release ht _
  | returning o =>
    rw [ht] at hs
    cases hs
    apply h.neutral
    · rw [ht]
      trivial
    · trivial

theorem Invariant.step {s s' : State ι} {a : Action ι} (h : Invariant s) (hok : GivesUpOwn s a)
    (hs : next b s a = some s') : Invariant s' := by
  cases a with
  | getLock t wait =>
    simp only [Locks.next] at hs
    split_ifs at hs with ht
    · cases hs
      apply h.neutral
      · rw [ht]
        trivial
      · trivial
    · cases hs
      apply h.neutral
      · rw [ht]
        trivial
      · trivial
  | giveupLock t =>
    simp only [Locks.next] at hs
    split_ifs at hs with ht
    cases hs
    apply h.neutral
    · rw [ht]
      trivial
    · trivial
  | run t =>
    cases ht : s.threads t with
    | acquiring wait =>
      simp only [Locks.next, ht] at hs
      obtain ⟨x, hx, rfl⟩ := Option.map_eq_some_iff.1 hs
      exact h.acquire ht hx
    | _ =>
      simp only [Locks.next, ht] at hs
      rw [← ht] at hs
      exact h.run hok hs
  | expire t =>
    simp only [Locks.next] at hs
    split_ifs at hs with ht
    cases hs
    apply h.neutral
    · rw [ht.1]
      trivial
    · trivial
  | fail t =>
    cases ht : s.threads t with
    | acquiring wait =>
      simp only [Locks.next, ht] at hs
      cases hs
      apply h.neutral
      · rw [ht]
        trivial
      · trivial
    | _ =>
      simp only [Locks.next, ht] at hs
      cases hs

theorem reached_invariant {s : State ι}
    (h : Reached (next b) GivesUpOwn (· = initial) s) : Invariant s := by
  apply h.invariant
  · rintro s rfl
    exact invariant_initial
  · exact fun s a s' hs hok hnext => hs.step hok hnext

theorem Invariant.giveup {s s' : State ι} {t : ι} (h : Invariant s)
    (hok : GivesUpOwn s (.run t)) (ht : GivingUp (s.threads t)) (hholder : s.mutex.holder ≠ some t)
    (hs : next b s (.run t) = some s') :
    s'.owner = s.owner ∧ s'.counter = s.counter ∧
      (s.threads t = .unlocking → s'.threads t = .returning .notOwned) := by
  cases hx : s.threads t with
  | releasing =>
    simp only [Locks.next, hx, runThread] at hs
    cases hs
    exact ⟨rfl, rfl, fun hc => (by cases hc)⟩
  | decrementing c =>
    have := h.inside t (by rw [hx]; trivial)
    exact absurd this hholder
  | clearing =>
    have hnone := (hok.2 hx).resolve_left hholder
    simp only [Locks.next, hx, runThread] at hs
    cases hs
    exact ⟨hnone.symm, rfl, fun hc => (by cases hc)⟩
  | unlocking =>
    simp only [Locks.next, hx, runThread, Mutex.release, if_neg hholder] at hs
    cases hs
    refine ⟨rfl, rfl, fun _ => ?_⟩
    exact to_threads_self s t _
  | _ =>
    rw [hx] at ht
    exact ht.elim

/-- While nobody gives up a lock that somebody else has counted or owns, the owner and the
counter are those of the mutex, and a thread that does not hold the lock gets an error and
changes neither. -/
theorem bookkeeping_is_truthful (b : Build) (s : State ι)
    (h : Reached (next b) GivesUpOwn (· = initial) s) :
    (Quiescent s → s.owner = s.mutex.holder ∧ s.counter = s.mutex.depth) ∧
      ∀ t s', GivesUpOwn s (.run t) → GivingUp (s.threads t) → s.mutex.holder ≠ some t →
        next b s (.run t) = some s' →
        s'.owner = s.owner ∧ s'.counter = s.counter ∧
          (s.threads t = .unlocking → s'.threads t = .returning .notOwned) := by
  have hi := reached_invariant h
  refine ⟨fun hq => ?_, fun t s' hok ht hholder hs => hi.giveup hok ht hholder hs⟩
  cases hholder : s.mutex.holder with
  | none =>
    obtain ⟨howner, hcounter, hdepth⟩ := hi.free hholder
    exact ⟨howner, hcounter.trans hdepth.symm⟩
  | some t =>
    have hneutral : Neutral (s.threads t) := by
      rw [hq t]
      trivial
    obtain ⟨-, hcounter, howner⟩ := (recorded_neutral hneutral).1 (hi.held t hholder)
    exact ⟨howner, hcounter⟩

theorem taken (ok : State Bool → Action Bool → Prop)
    (hok : ∀ s a, (∀ t, s.threads t ≠ .releasing ∧ s.threads t ≠ .clearing) → ok s a) :
    ∃ s : State Bool, Reached (next ⟨false, true⟩) ok (· = initial) s ∧ Quiescent s ∧
      s.mutex = ⟨some true, 1⟩ ∧ s.owner = some true ∧ s.counter = 1 :=
  have start : Reached (next ⟨false, true⟩) ok (· = initial) initial := .start rfl
  have called := start.step (a := .getLock true .forever)
    (hok _ _ fun t => by cases t <;> decide) rfl
  have locked := called.step (a := .run true) (hok _ _ fun t => by cases t <;> decide) rfl
  have counted := (locked.step (a := .run true) (hok _ _ fun t => by cases t <;> decide) rfl).step
    (a := .run true) (hok _ _ fun t => by cases t <;> decide) rfl
  have owned := (counted.step (a := .run true) (hok _ _ fun t => by cases t <;> decide) rfl).step
    (a := .run true) (hok _ _ fun t => by cases t <;> decide) rfl
  ⟨_, owned, fun t => by cases t <;> rfl, rfl, rfl, rfl⟩

/-- The lock is held once, and its owner is the thread that holds it. -/
theorem bookkeeping_is_truthful_taken : ∃ s : State Bool,
    s.mutex = ⟨some true, 1⟩ ∧ s.owner = s.mutex.holder ∧ s.counter = s.mutex.depth :=
  have ⟨s, h, hq, hm, _⟩ := taken GivesUpOwn fun s a ht => by
    cases a with
    | run t => exact ⟨fun hr => absurd hr (ht t).1, fun hc => absurd hc (ht t).2⟩
    | _ => trivial
  ⟨s, hm, (bookkeeping_is_truthful ⟨false, true⟩ s h).1 hq⟩

/-- A giveup-lock that is refused has taken the owner from the thread that holds the lock. -/
theorem refused_giveup_clears : ∃ s s' : State Bool,
    Reached (next ⟨false, true⟩) (fun _ _ => True) (· = initial) s ∧
      s.mutex = ⟨some true, 1⟩ ∧ s.threads false = .returning .notOwned ∧
      next ⟨false, true⟩ s (.run false) = some s' ∧ Quiescent s' ∧
      s'.mutex = ⟨some true, 1⟩ ∧ s'.owner = none ∧ s'.counter = 0 :=
  have start : Reached (next ⟨false, true⟩) (fun _ _ => True) (· = initial)
    (initial : State Bool) := .start rfl
  have locked := (start.step (a := .getLock true .forever) trivial rfl).step (a := .run true)
    trivial rfl
  have counted := (locked.step (a := .run true) trivial rfl).step (a := .run true) trivial rfl
  have owned := (counted.step (a := .run true) trivial rfl).step (a := .run true) trivial rfl
  have called := owned.step (a := .giveupLock false) trivial rfl
  have stored := (called.step (a := .run false) trivial rfl).step (a := .run false) trivial rfl
  have cleared := (stored.step (a := .run false) trivial rfl).step (a := .run false) trivial rfl
  ⟨_, _, cleared, rfl, rfl, rfl, fun t => by cases t <;> rfl, rfl, rfl, rfl⟩

end LockCorrectness
