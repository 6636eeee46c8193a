import Mathlib.Tactic.Common

/-! Locks of src/c/threads/mutex.d: the owner and the counter that are kept beside a mutex of the
system, and the threads that use one of them. Each access to memory is an action. -/
namespace Locks

variable {ι : Type*}

structure Mutex (ι : Type*) where
  holder : Option ι
  depth : ℕ
  deriving DecidableEq

inductive Answer where
  | success | busy | deadlock
  deriving DecidableEq

variable [DecidableEq ι]

def Mutex.acquire (nests : Bool) (t : ι) (m : Mutex ι) : Answer × Mutex ι :=
  match m.holder with
  | none => (.success, ⟨some t, 1⟩)
  | some u =>
    if u = t then
      if nests = true then (.success, ⟨some t, m.depth + 1⟩) else (.deadlock, m)
    else (.busy, m)

def Mutex.release (t : ι) (m : Mutex ι) : Bool × Mutex ι :=
  if m.holder = some t then
    (true, if m.depth = 1 then ⟨none, 0⟩ else ⟨some t, m.depth - 1⟩)
  else (false, m)

inductive Wait where
  | no | forever | timed
  deriving DecidableEq

/-- refused is NIL; the last three are errors. -/
inductive Outcome where
  | got | refused | released | notRecursive | notOwned | unknown
  deriving DecidableEq

inductive Thread where
  | idle
  | acquiring (wait : Wait)
  | counting
  | incrementing (counter : ℕ)
  | owning
  | releasing
  | decrementing (counter : ℕ)
  | clearing
  | unlocking
  | returning (o : Outcome)
  deriving DecidableEq

/-- recursive is a field of the lock. Where ECL_MUTEX_DEADLOCK is not defined, the mutexes of the
system are always recursive. -/
structure Build where
  recursive : Bool
  mutexDeadlock : Bool
  deriving DecidableEq

def Build.nests (b : Build) : Bool := b.recursive || !b.mutexDeadlock

/-- The mutex refuses a depth that is out of range, so that the counter does not overflow. -/
structure State (ι : Type*) where
  mutex : Mutex ι
  owner : Option ι
  counter : ℕ
  threads : ι → Thread

def initial : State ι := ⟨⟨none, 0⟩, none, 0, fun _ => .idle⟩

inductive Action (ι : Type*) where
  | getLock (t : ι) (wait : Wait)
  | giveupLock (t : ι)
  | run (t : ι)
  | expire (t : ι)
  | fail (t : ι)
  deriving DecidableEq

def State.to (s : State ι) (t : ι) (thread : Thread) : State ι :=
  { s with threads := Function.update s.threads t thread }

/-- The answer of the mutex to mp_get_lock_nowait, mp_get_lock_wait and mp_get_lock_timedwait.
None is a call that does not return yet. -/
def acquired : Wait → Answer → Option Thread
  | _, .success => some .counting
  | .no, _ => some (.returning .refused)
  | _, .deadlock => some (.returning .notRecursive)
  | _, .busy => none

/-- mp_get_lock after the mutex was locked, and mp_giveup_lock. -/
def runThread (s : State ι) (t : ι) : Thread → Option (State ι)
  | .idle => none
  | .acquiring _ => none
  | .counting => some (s.to t (.incrementing s.counter))
  | .incrementing counter => some { s.to t .owning with counter := counter + 1 }
  | .owning => some { s.to t (.returning .got) with owner := some t }
  | .releasing =>
    some (s.to t (if 0 < s.counter then .decrementing s.counter else .clearing))
  | .decrementing counter =>
    some { s.to t (if counter - 1 = 0 then .clearing else .unlocking) with counter := counter - 1 }
  | .clearing => some { s.to t .unlocking with owner := none }
  | .unlocking =>
    let r := s.mutex.release t
    some { s.to t (.returning (if r.1 = true then .released else .notOwned)) with mutex := r.2 }
  | .returning _ => some (s.to t .idle)

variable (b : Build)

/-- None is an action that cannot happen. -/
def next (s : State ι) : Action ι → Option (State ι)
  | .getLock t wait =>
    if s.threads t = .idle then
      if b.mutexDeadlock = false ∧ s.owner = some t ∧ b.recursive = false then
        some (s.to t (.returning .notRecursive))
      else some (s.to t (.acquiring wait))
    else none
  | .giveupLock t => if s.threads t = .idle then some (s.to t .releasing) else none
  | .run t =>
    match s.threads t with
    | .acquiring wait =>
      let r := s.mutex.acquire b.nests t
      (acquired wait r.1).map fun thread => { s.to t thread with mutex := r.2 }
    | thread => runThread s t thread
  | .expire t =>
    if s.threads t = .acquiring .timed ∧ (s.mutex.acquire b.nests t).1 = .busy then
      some (s.to t (.returning .refused))
    else none
  | .fail t =>
    match s.threads t with
    | .acquiring _ => some (s.to t (.returning .unknown))
    | _ => none

def Quiescent (s : State ι) : Prop := ∀ t, s.threads t = .idle

/-- Who does not hold the mutex comes to mp_giveup_lock while the counter is 0, and clears no
owner. -/
def GivesUpOwn (s : State ι) : Action ι → Prop
  | .run t =>
    (s.threads t = .releasing → s.mutex.holder = some t ∨ s.counter = 0) ∧
      (s.threads t = .clearing → s.mutex.holder = some t ∨ s.owner = none)
  | _ => True

/-- Inside mp_giveup_lock. -/
def GivingUp : Thread → Prop
  | .releasing | .decrementing _ | .clearing | .unlocking => True
  | _ => False

end Locks
