import Mathlib.Algebra.BigOperators.Group.Finset.Basic
import Mathlib.Data.Fintype.Basic

/-! Barriers of src/c/threads/barrier.d and the threads that use one of them. A critical section
is one action of the thread that holds the mutex. -/
namespace Barriers

inductive Wakeup where
  | no | normal | kill
  deriving DecidableEq

/-- The arguments of barrier-unblock. -/
structure Unblock where
  resetCount : Option ℕ
  disable : Bool
  killWaiting : Bool
  deriving DecidableEq

/-- Where a thread is. The number of one that has arrived is how many releases had begun then. It
has the mutex where it enters the condition wait, and where it comes out of it. -/
inductive Thread where
  | idle
  | arriving
  | entering (g : ℕ)
  | waiting (g : ℕ)
  | woken (g : ℕ)
  | inside (g : ℕ)
  | unblocking (u : Unblock)
  | killed
  deriving DecidableEq

structure State (ι : Type*) where
  count : ℕ
  disabled : Bool
  wakeup : Wakeup
  arriversCount : ℕ
  holder : Option ι
  threads : ι → Thread
  releases : ℕ
  passed : ℕ → ℕ

def makeBarrier {ι : Type*} (count : ℕ) : State ι :=
  ⟨count, false, .no, 0, none, fun _ => .idle, 0, fun _ => 0⟩

/-- A wait may end at any time. A thread that is interrupted there may leave by a non-local
exit. -/
inductive Action (ι : Type*) where
  | barrierWait (t : ι)
  | barrierUnblock (t : ι) (u : Unblock)
  | arrive (t : ι)
  | sleep (t : ι)
  | wake (t : ι)
  | retake (t : ι)
  | test (t : ι)
  | exit (t : ι)
  | unblock (t : ι)
  deriving DecidableEq

def Thread.broadcast : Thread → Thread
  | .waiting g => .woken g
  | x => x

section
variable {ι : Type*} [DecidableEq ι]

def State.to (s : State ι) (t : ι) (x : Thread) : State ι :=
  { s with threads := Function.update s.threads t x }

def State.pass (s : State ι) (g : ℕ) : State ι :=
  { s with passed := Function.update s.passed g (s.passed g + 1) }

def State.release (s : State ι) (wakeup : Wakeup) : State ι :=
  { s with
    wakeup
    threads := fun u => (s.threads u).broadcast
    releases := s.releases + 1 }

/-- The critical section of mp_barrier_wait up to the condition wait. -/
def arrive (s : State ι) (t : ι) : State ι :=
  if s.disabled = true then s.to t .idle
  else if s.wakeup ≠ .no then s
  else if s.arriversCount + 1 = s.count then
    let s := (s.to t .idle).pass s.releases
    if 0 < s.arriversCount then s.release .normal else { s with releases := s.releases + 1 }
  else { s.to t (.entering s.releases) with
    arriversCount := s.arriversCount + 1
    holder := some t }

def test (s : State ι) (t : ι) (g : ℕ) : State ι :=
  if s.wakeup = .no then s.to t (.entering g)
  else
    { (s.to t (if s.wakeup = .kill then .killed else .idle)).pass (s.releases - 1) with
      wakeup := if s.arriversCount - 1 = 0 then .no else s.wakeup
      arriversCount := s.arriversCount - 1
      holder := none }

def unblock (s : State ι) (t : ι) (u : Unblock) : State ι :=
  if s.wakeup ≠ .no then s
  else
    let s := { s.to t .idle with count := u.resetCount.getD s.count, disabled := u.disable }
    if 0 < s.arriversCount then s.release (if u.killWaiting = true then .kill else .normal) else s

/-- None is an action that cannot happen. The mutex refuses to be unlocked by a thread that leaves
without it. -/
def next (s : State ι) : Action ι → Option (State ι)
  | .barrierWait t => if s.threads t = .idle then some (s.to t .arriving) else none
  | .barrierUnblock t u => if s.threads t = .idle then some (s.to t (.unblocking u)) else none
  | .arrive t =>
    if s.threads t = .arriving ∧ s.holder = none then some (arrive s t) else none
  | .sleep t =>
    match s.threads t with
    | .entering g => some { s.to t (.waiting g) with holder := none }
    | _ => none
  | .wake t =>
    match s.threads t with
    | .waiting g => some (s.to t (.woken g))
    | _ => none
  | .retake t =>
    match s.threads t with
    | .woken g => if s.holder = none then some { s.to t (.inside g) with holder := some t } else none
    | _ => none
  | .test t =>
    match s.threads t with
    | .inside g => some (test s t g)
    | _ => none
  | .exit t =>
    match s.threads t with
    | .entering _ | .inside _ =>
      some { s.to t .idle with arriversCount := s.arriversCount - 1, holder := none }
    | .waiting _ | .woken _ => some { s.to t .idle with arriversCount := s.arriversCount - 1 }
    | _ => none
  | .unblock t =>
    match s.threads t with
    | .unblocking u => if s.holder = none then some (unblock s t u) else none
    | _ => none

def Thread.arrival : Thread → Option ℕ
  | .entering g | .waiting g | .woken g | .inside g => some g
  | _ => none

def Orderly (s : State ι) : Action ι → Prop
  | .exit _ => s.wakeup = .no ∨ s.arriversCount ≠ 1
  | _ => True

def Plain (_ : State ι) : Action ι → Prop
  | .barrierUnblock _ _ | .exit _ => False
  | _ => True

def Onward (_ : State ι) : Action ι → Prop
  | .retake _ | .test _ => True
  | _ => False

end

end Barriers
