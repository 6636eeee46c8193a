import Mathlib.Algebra.BigOperators.Ring.Finset

/-! Semaphores of src/c/threads/semaphore.d and the threads that use one of them. A critical
section is one action of the thread that holds the mutex, except for the signals. -/
namespace Semaphores

/-- A number in a cl_fixnum. -/
def clFixnum (z : ℤ) : ℤ := Int.bmod z (2 ^ 64)

theorem clFixnum_of_lt {z : ℤ} (h : 0 ≤ z) (hlt : z < 2 ^ 63) : clFixnum z = z :=
  Int.bmod_eq_of_le (by omega) (by omega)

/-- wait-on-semaphore waits when it has no timeout, or one that is positive; try-get-semaphore has
the timeout 0. -/
inductive Request where
  | signal (count : ℕ)
  | wait (count : ℕ) (timed : Bool)
  | tryGet (count : ℕ)
  deriving DecidableEq

def Request.count : Request → ℕ
  | .signal count => count
  | .wait count _ => count
  | .tryGet count => count

/-- A thread in a condition wait does not have the mutex. One that was woken, by a signal or
without one, or that has waited too long takes it again. -/
inductive Thread where
  | idle
  | locking (r : Request)
  | inside (r : Request)
  | signalling (n : ℤ)
  | waiting (count : ℕ) (timed : Bool)
  | woken (count : ℕ) (timed : Bool) (signalled : Bool)
  | expired (count : ℕ)
  | leaving (output : Option ℤ)
  deriving DecidableEq

/-- signalled and acquired are the sums of the counts of the calls. -/
structure State (ι : Type*) where
  counter : ℤ
  waitCount : ℤ
  holder : Option ι
  threads : ι → Thread
  signalled : ℤ
  acquired : ℤ

def makeSemaphore {ι : Type*} (count : ℕ) : State ι :=
  ⟨clFixnum count, 0, none, fun _ => .idle, 0, 0⟩

/-- late tells that the deadline has passed when the thread has the mutex again. -/
inductive Action (ι : Type*) where
  | call (t : ι) (r : Request)
  | lock (t : ι)
  | enter (t : ι)
  | signal (t : ι) (who : Option ι)
  | wake (t : ι)
  | expire (t : ι)
  | retake (t : ι) (late : Bool)
  | unlock (t : ι)
  deriving DecidableEq

def Waiting : Thread → Prop
  | .waiting _ _ => True
  | _ => False

instance (x : Thread) : Decidable (Waiting x) :=
  match x with
  | .waiting _ _ => isTrue trivial
  | .idle => isFalse id
  | .locking _ => isFalse id
  | .inside _ => isFalse id
  | .signalling _ => isFalse id
  | .woken _ _ _ => isFalse id
  | .expired _ => isFalse id
  | .leaving _ => isFalse id

variable {ι : Type*} [DecidableEq ι] [Fintype ι]

def State.to (s : State ι) (t : ι) (x : Thread) : State ι :=
  { s with threads := Function.update s.threads t x }

def State.take (s : State ι) (t : ι) (count : ℕ) : State ι :=
  { s.to t (.leaving (some s.counter)) with
    counter := clFixnum (s.counter - clFixnum count)
    holder := some t
    acquired := s.acquired + count }

def enter (s : State ι) (t : ι) : Request → State ι
  | .signal count =>
    { s.to t (.signalling (clFixnum count)) with
      counter := clFixnum (s.counter + clFixnum count)
      signalled := s.signalled + count }
  | .wait count timed =>
    if clFixnum count ≤ s.counter then s.take t count
    else { s.to t (.waiting count timed) with waitCount := s.waitCount + 1, holder := none }
  | .tryGet count =>
    if clFixnum count ≤ s.counter then s.take t count else s.to t (.leaving none)

/-- A signal wakes one of the threads that wait, if there is one. -/
def signal (s : State ι) (t : ι) (n : ℤ) : Option ι → Option (State ι)
  | some u =>
    match s.threads u with
    | .waiting count timed => some ((s.to u (.woken count timed true)).to t (.signalling (n - 1)))
    | _ => none
  | none => if ∀ u, ¬ Waiting (s.threads u) then some (s.to t (.signalling (n - 1))) else none

/-- None is an action that cannot happen. -/
def next (s : State ι) : Action ι → Option (State ι)
  | .call t r =>
    if s.threads t = .idle ∧ r.count < 2 ^ 64 then some (s.to t (.locking r)) else none
  | .lock t =>
    match s.threads t with
    | .locking r =>
      if s.holder = none then some { s.to t (.inside r) with holder := some t } else none
    | _ => none
  | .enter t =>
    match s.threads t with
    | .inside r => some (enter s t r)
    | _ => none
  | .signal t who =>
    match s.threads t with
    | .signalling n => if 0 < n then signal s t n who else none
    | _ => none
  | .wake t =>
    match s.threads t with
    | .waiting count timed => some (s.to t (.woken count timed false))
    | _ => none
  | .expire t =>
    match s.threads t with
    | .waiting count timed => if timed = true then some (s.to t (.expired count)) else none
    | _ => none
  | .retake t late =>
    if s.holder = none then
      match s.threads t with
      | .woken count timed _ =>
        if clFixnum count ≤ s.counter then
          some { s.take t count with waitCount := s.waitCount - 1 }
        else if timed = true ∧ late = true then
          some { s.to t (.leaving none) with waitCount := s.waitCount - 1, holder := some t }
        else some (s.to t (.waiting count timed))
      | .expired count =>
        if clFixnum count ≤ s.counter then
          some { s.take t count with waitCount := s.waitCount - 1 }
        else some { s.to t (.leaving none) with waitCount := s.waitCount - 1, holder := some t }
      | _ => none
    else none
  | .unlock t =>
    match s.threads t with
    | .leaving _ => some { s.to t .idle with holder := none }
    | .signalling n => if 0 < n then none else some { s.to t .idle with holder := none }
    | _ => none

def InWait : Thread → Bool
  | .waiting _ _ | .woken _ _ _ | .expired _ => true
  | _ => false

/-- What a thread is still to take after a signal, and the signals that are still to be sent. -/
def owedBy : Thread → ℤ
  | .woken count _ signalled => if signalled = true then count else 0
  | .signalling n => n
  | _ => 0

def owed (s : State ι) : ℤ := ∑ u, owedBy (s.threads u)

/-- Counts are in the range of a cl_fixnum, the sum stays there, and a thread that was signalled
and finds too little leaves no thread waiting that could go on once the others that were signalled
have taken theirs. -/
def Sound (s : State ι) : Action ι → Prop
  | .call _ r => r.count < 2 ^ 63
  | .enter t => ∀ count, s.threads t = .inside (.signal count) → s.counter + count < 2 ^ 63
  | .retake t _ => ∀ count timed, s.threads t = .woken count timed true → s.counter < count →
      ∀ u count' timed', s.threads u = .waiting count' timed' →
        s.counter < count' + (owed s - count)
  | _ => True

end Semaphores
