import Ecl.RingBuffers

/-! Mailboxes of src/c/threads/mailbox.d and the threads that use one of them. A critical section
is one action of the thread that holds the mutex. -/
namespace Mailboxes

/-- An index past the last cell is set to 0 at once. The indices are below the size of a vector
and so do not overflow. -/
structure Mailbox (α : Type*) where
  data : List α
  messageCount : ℕ
  readPointer : ℕ
  writePointer : ℕ
  deriving DecidableEq

section
variable {α : Type*} (nil : α)

def makeMailbox (count : ℕ) : Mailbox α := ⟨List.replicate count nil, 0, 0, 0⟩

def readMessage (mailbox : Mailbox α) : α × Mailbox α :=
  let ndx := mailbox.readPointer
  let readPointer := mailbox.readPointer + 1
  let readPointer := if readPointer ≥ mailbox.data.length then 0 else readPointer
  (mailbox.data.getD ndx nil,
    { mailbox with readPointer, messageCount := mailbox.messageCount - 1 })

def storeMessage (mailbox : Mailbox α) (msg : α) : Mailbox α :=
  let ndx := mailbox.writePointer
  let writePointer := mailbox.writePointer + 1
  let writePointer := if writePointer ≥ mailbox.data.length then 0 else writePointer
  { mailbox with
    data := mailbox.data.set ndx msg
    writePointer
    messageCount := mailbox.messageCount + 1 }

inductive Request (α : Type*) where
  | send (msg : α) (timeout : Bool)
  | trySend (msg : α)
  | read (timeout : Bool)
  | tryRead
  deriving DecidableEq

/-- The values of a call; a read has a message when its second value is T. -/
inductive Outcome (α : Type*) where
  | sent (successp : Bool)
  | received (output : Option α)
  deriving DecidableEq

def Request.timed : Request α → Bool
  | .send _ timeout => timeout
  | .read timeout => timeout
  | _ => false

def Request.failure : Request α → Outcome α
  | .send _ _ => .sent false
  | .trySend _ => .sent false
  | .read _ => .received none
  | .tryRead => .received none

/-- The test of a call in the critical section and what it does there when it need not wait. -/
def attempt (mailbox : Mailbox α) : Request α → Option (Outcome α) × Mailbox α
  | .send msg _ =>
    if mailbox.messageCount = mailbox.data.length then (none, mailbox)
    else (some (.sent true), storeMessage mailbox msg)
  | .trySend msg =>
    if mailbox.messageCount = mailbox.data.length then (some (.sent false), mailbox)
    else (some (.sent true), storeMessage mailbox msg)
  | .read _ =>
    if mailbox.messageCount = 0 then (none, mailbox)
    else
      let r := readMessage nil mailbox
      (some (.received (some r.1)), r.2)
  | .tryRead =>
    if mailbox.messageCount = 0 then (some (.received none), mailbox)
    else
      let r := readMessage nil mailbox
      (some (.received (some r.1)), r.2)

/-- A thread in a condition wait does not have the mutex; when the wait has ended it takes it
again first. -/
inductive Thread (α : Type*) where
  | idle
  | locking (r : Request α)
  | inside (r : Request α)
  | waiting (r : Request α)
  | woken (r : Request α) (timeoutp : Bool)
  | leaving (r : Request α) (o : Outcome α)
  deriving DecidableEq

/-- reports has the calls with their values, in the order in which they release the mutex. -/
structure State (ι α : Type*) where
  mailbox : Mailbox α
  holder : Option ι
  threads : ι → Thread α
  reports : List (Request α × Outcome α)

/-- A wait may end at any time, so what a signal wakes makes no difference to what can happen. -/
inductive Action (ι α : Type*) where
  | call (t : ι) (r : Request α)
  | lock (t : ι)
  | enter (t : ι)
  | wake (t : ι)
  | expire (t : ι)
  | relock (t : ι)
  | unlock (t : ι)
  deriving DecidableEq

variable {ι : Type*} [DecidableEq ι]

def State.to (s : State ι α) (t : ι) (thread : Thread α) : State ι α :=
  { s with threads := Function.update s.threads t thread }

def initial (capacity : ℕ) : State ι α :=
  ⟨makeMailbox nil capacity, none, fun _ => .idle, []⟩

/-- None is an action that cannot happen. -/
def next (s : State ι α) : Action ι α → Option (State ι α)
  | .call t r =>
    match s.threads t with
    | .idle => some (s.to t (.locking r))
    | _ => none
  | .lock t =>
    match s.threads t, s.holder with
    | .locking r, none => some { s.to t (.inside r) with holder := some t }
    | _, _ => none
  | .enter t =>
    match s.threads t with
    | .inside r =>
      match attempt nil s.mailbox r with
      | (some o, mailbox) => some { s.to t (.leaving r o) with mailbox }
      | (none, mailbox) => some { s.to t (.waiting r) with mailbox, holder := none }
    | _ => none
  | .wake t =>
    match s.threads t with
    | .waiting r => some (s.to t (.woken r false))
    | _ => none
  | .expire t =>
    match s.threads t with
    | .waiting r => if r.timed = true then some (s.to t (.woken r true)) else none
    | _ => none
  | .relock t =>
    match s.threads t, s.holder with
    | .woken r timeoutp, none =>
      let thread := if timeoutp = true then .leaving r r.failure else .inside r
      some { s.to t thread with holder := some t }
    | _, _ => none
  | .unlock t =>
    match s.threads t with
    | .leaving r o =>
      some { s.to t .idle with holder := none, reports := s.reports ++ [(r, o)] }
    | _ => none

inductive Reachable (capacity : ℕ) : State ι α → Prop where
  | initial : Reachable capacity (initial nil capacity)
  | step {s s' a} : Reachable capacity s → next nil s a = some s' → Reachable capacity s'

end

section
variable {α : Type*}

def accepted : Request α × Outcome α → Option α
  | (.send msg _, .sent true) => some msg
  | (.trySend msg, .sent true) => some msg
  | _ => none

def delivered : Request α × Outcome α → Option α
  | (_, .received output) => output
  | _ => none

def sent (reports : List (Request α × Outcome α)) : List α := reports.filterMap accepted

def received (reports : List (Request α × Outcome α)) : List α := reports.filterMap delivered

def Mailbox.contents (nil : α) (mailbox : Mailbox α) : List α :=
  RingBuffers.contents nil mailbox.data mailbox.readPointer mailbox.messageCount

end

end Mailboxes
