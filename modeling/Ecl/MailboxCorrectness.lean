import Ecl.Mailboxes

/-! A mailbox is a bounded queue, whatever its threads do. -/
namespace MailboxCorrectness

open Mailboxes RingBuffers

variable {α ι : Type*} {nil : α} {capacity : ℕ}

structure Valid (capacity : ℕ) (m : Mailbox α) : Prop where
  size : m.data.length = capacity
  count_le : m.messageCount ≤ capacity
  read_lt : m.readPointer < capacity
  write_eq : m.writePointer = (m.readPointer + m.messageCount) % capacity

theorem valid_makeMailbox (nil : α) (hc : 0 < capacity) : Valid capacity (makeMailbox nil capacity) where
  size := List.length_replicate
  count_le := Nat.zero_le _
  read_lt := hc
  write_eq := (Nat.zero_mod _).symm

variable (nil) in
theorem readMessage_spec {m : Mailbox α} (h : Valid capacity m) (hm : m.messageCount ≠ 0) :
    Valid capacity (readMessage nil m).2 ∧
      m.contents nil = (readMessage nil m).1 :: (readMessage nil m).2.contents nil := by
  obtain ⟨n, hn⟩ := Nat.exists_eq_succ_of_ne_zero hm
  have hread : (readMessage nil m).2.readPointer = advance m.data.length m.readPointer := rfl
  have hadv : advance m.data.length m.readPointer = (m.readPointer + 1) % capacity := by
    rw [h.size, advance_eq h.read_lt]
  refine ⟨?_, ?_⟩
  · constructor
    · exact h.size
    · exact Nat.le_trans (Nat.sub_le _ _) h.count_le
    · rw [hread, hadv]
      exact Nat.mod_lt _ (Nat.lt_of_le_of_lt (Nat.zero_le _) h.read_lt)
    · have hcount : (readMessage nil m).2.messageCount = n := by
        simp only [readMessage, hn, Nat.succ_eq_add_one, Nat.add_sub_cancel]
      rw [hread, hadv, hcount, Nat.mod_add_mod, Nat.add_assoc, Nat.add_comm 1 n]
      have hwrite := h.write_eq
      rw [hn] at hwrite
      exact hwrite
  · have hcount : (readMessage nil m).2.messageCount = n := by
      simp only [readMessage, hn, Nat.succ_eq_add_one, Nat.add_sub_cancel]
    rw [Mailbox.contents, Mailbox.contents, hcount, hn]
    exact contents_succ nil (by rw [h.size]; exact h.read_lt) n

variable (nil) in
theorem storeMessage_spec {m : Mailbox α} (h : Valid capacity m)
    (hm : m.messageCount ≠ m.data.length) (msg : α) :
    Valid capacity (storeMessage m msg) ∧
      (storeMessage m msg).contents nil = m.contents nil ++ [msg] ∧
      0 < (storeMessage m msg).messageCount := by
  have hsize := h.size
  have hcount := h.count_le
  have hread := h.read_lt
  have hwlt : m.writePointer < capacity := by
    rw [h.write_eq]
    exact Nat.mod_lt _ (by omega)
  have hw : (storeMessage m msg).writePointer = (m.writePointer + 1) % capacity := by
    have := advance_eq hwlt
    rw [← hsize] at this ⊢
    exact this
  refine ⟨?_, ?_, Nat.succ_pos _⟩
  · constructor
    · simp only [storeMessage, List.length_set, hsize]
    · show m.messageCount + 1 ≤ capacity
      omega
    · exact hread
    · rw [hw, h.write_eq, Nat.mod_add_mod]
      rfl
  · have hpush := contents_push nil m.data m.readPointer
      (show m.messageCount < m.data.length by omega) msg
    rw [hsize, ← h.write_eq] at hpush
    exact hpush

structure Moved (nil : α) (capacity : ℕ) (m : Mailbox α) (p : Request α × Outcome α)
    (m' : Mailbox α) : Prop where
  valid : Valid capacity m'
  fifo : m.contents nil ++ (accepted p).toList = (delivered p).toList ++ m'.contents nil
  stored : accepted p ≠ none → 0 < m'.messageCount

theorem moved_nothing {m : Mailbox α} (h : Valid capacity m) {p : Request α × Outcome α}
    (ha : accepted p = none) (hd : delivered p = none) : Moved nil capacity m p m where
  valid := h
  fifo := by rw [ha, hd]; exact List.append_nil _
  stored hn := absurd ha hn

theorem moved_store {m : Mailbox α} (h : Valid capacity m) (hm : m.messageCount ≠ m.data.length)
    {p : Request α × Outcome α} {msg : α} (ha : accepted p = some msg) (hd : delivered p = none) :
    Moved nil capacity m p (storeMessage m msg) := by
  obtain ⟨hv, hc, hp⟩ := storeMessage_spec nil h hm msg
  refine ⟨hv, ?_, fun _ => hp⟩
  rw [ha, hd]
  exact hc.symm

theorem moved_read {m : Mailbox α} (h : Valid capacity m) (hm : m.messageCount ≠ 0)
    {p : Request α × Outcome α} (ha : accepted p = none)
    (hd : delivered p = some (readMessage nil m).1) :
    Moved nil capacity m p (readMessage nil m).2 := by
  obtain ⟨hv, hc⟩ := readMessage_spec nil h hm
  refine ⟨hv, ?_, fun hn => absurd ha hn⟩
  rw [ha, hd]
  exact (List.append_nil _).trans hc

variable (nil) in
theorem attempt_spec {m : Mailbox α} (h : Valid capacity m) (r : Request α) :
    attempt nil m r = (none, m) ∨
      ∃ o m', attempt nil m r = (some o, m') ∧ Moved nil capacity m (r, o) m' := by
  cases r with
  | send msg timeout =>
    by_cases hm : m.messageCount = m.data.length
    · exact Or.inl (if_pos hm)
    · exact Or.inr ⟨_, _, if_neg hm, moved_store h hm rfl rfl⟩
  | trySend msg =>
    by_cases hm : m.messageCount = m.data.length
    · exact Or.inr ⟨_, _, if_pos hm, moved_nothing h rfl rfl⟩
    · exact Or.inr ⟨_, _, if_neg hm, moved_store h hm rfl rfl⟩
  | read timeout =>
    by_cases hm : m.messageCount = 0
    · exact Or.inl (if_pos hm)
    · exact Or.inr ⟨_, _, if_neg hm, moved_read h hm rfl rfl⟩
  | tryRead =>
    by_cases hm : m.messageCount = 0
    · exact Or.inr ⟨_, _, if_pos hm, moved_nothing h rfl rfl⟩
    · exact Or.inr ⟨_, _, if_neg hm, moved_read h hm rfl rfl⟩

def Critical : Thread α → Prop
  | .inside _ => True
  | .leaving _ _ => True
  | _ => False

def values : Thread α → Option (Request α × Outcome α)
  | .leaving r o => some (r, o)
  | _ => none

def pending (s : State ι α) : Option (Request α × Outcome α) :=
  s.holder.bind fun t => values (s.threads t)

def history (s : State ι α) : List (Request α × Outcome α) := s.reports ++ (pending s).toList

structure Invariant (nil : α) (capacity : ℕ) (s : State ι α) : Prop where
  valid : Valid capacity s.mailbox
  owner : ∀ t, Critical (s.threads t) → s.holder = some t
  fifo : sent (history s) = received (history s) ++ s.mailbox.contents nil
  stored : ∀ p, pending s = some p → accepted p ≠ none → 0 < s.mailbox.messageCount

theorem initial_invariant (hc : 0 < capacity) :
    Invariant nil capacity (initial nil capacity : State ι α) where
  valid := valid_makeMailbox nil hc
  owner _ h := False.elim h
  fifo := rfl
  stored _ h := absurd h (by simp [pending, initial])

theorem sent_append (l l' : List (Request α × Outcome α)) : sent (l ++ l') = sent l ++ sent l' :=
  List.filterMap_append

theorem received_append (l l' : List (Request α × Outcome α)) :
    received (l ++ l') = received l ++ received l' := List.filterMap_append

theorem history_of_pending_none {s : State ι α} (h : pending s = none) : history s = s.reports := by
  rw [history, h]
  exact List.append_nil _

theorem sent_singleton (p : Request α × Outcome α) : sent [p] = (accepted p).toList := by
  cases h : accepted p <;> simp [sent, h]

theorem received_singleton (p : Request α × Outcome α) : received [p] = (delivered p).toList := by
  cases h : delivered p <;> simp [received, h]

theorem Invariant.alone {s : State ι α} (h : Invariant nil capacity s) {t : ι}
    (hh : s.holder = none ∨ s.holder = some t) {u : ι} (hu : u ≠ t) : ¬ Critical (s.threads u) := by
  intro hc
  have ho := h.owner u hc
  rcases hh with hh | hh
  · rw [hh] at ho
    exact absurd ho (by simp)
  · rw [hh] at ho
    exact hu (Option.some_inj.mp ho).symm

theorem Invariant.received_sent {s : State ι α} (h : Invariant nil capacity s) :
    received s.reports <+: sent s.reports := by
  have hfifo := h.fifo
  cases hp : pending s with
  | none =>
    rw [history_of_pending_none hp] at hfifo
    exact ⟨_, hfifo.symm⟩
  | some p =>
    rw [history, hp, sent_append, received_append, Option.toList_some, sent_singleton,
      received_singleton] at hfifo
    cases ha : accepted p with
    | none =>
      rw [ha, Option.toList_none, List.append_nil, List.append_assoc] at hfifo
      exact ⟨_, hfifo.symm⟩
    | some msg =>
      have hpos := h.stored p hp (by rw [ha]; simp)
      have hlen : (s.mailbox.contents nil).length = s.mailbox.messageCount := contents_length ..
      have hpre : received s.reports <+: sent s.reports ++ [msg] := by
        rw [ha, Option.toList_some, List.append_assoc] at hfifo
        exact ⟨_, hfifo.symm⟩
      rcases List.prefix_concat_iff.mp hpre with he | he
      · have := congrArg List.length hfifo
        rw [ha, he] at this
        simp only [Option.toList_some, List.length_append, List.length_singleton, hlen] at this
        omega
      · exact he

variable [DecidableEq ι]

@[simp] theorem to_threads_self (s : State ι α) (t : ι) (thread : Thread α) :
    (s.to t thread).threads t = thread := Function.update_self ..

theorem to_threads_of_ne (s : State ι α) {t u : ι} (thread : Thread α) (h : u ≠ t) :
    (s.to t thread).threads u = s.threads u := Function.update_of_ne h ..

theorem Invariant.outside {s : State ι α} (h : Invariant nil capacity s) {t : ι}
    {thread : Thread α} (hs : ¬ Critical (s.threads t)) (hn : ¬ Critical thread) :
    Invariant nil capacity (s.to t thread) := by
  have hpending : pending (s.to t thread) = pending s := by
    simp only [pending]
    cases hh : s.holder with
    | none => simp [State.to, hh]
    | some u =>
      have : (s.to t thread).holder = some u := hh
      rw [this]
      by_cases hu : u = t
      · subst hu
        simp only [Option.bind_some, to_threads_self]
        cases thread <;> cases hc : s.threads u <;> simp_all [Critical, values]
      · simp only [Option.bind_some, to_threads_of_ne s thread hu]
  have hhistory : history (s.to t thread) = history s := by
    rw [history, history, hpending]
    rfl
  constructor
  · exact h.valid
  · intro u hu
    by_cases hut : u = t
    · subst hut
      rw [to_threads_self] at hu
      exact absurd hu hn
    · rw [to_threads_of_ne s thread hut] at hu
      exact h.owner u hu
  · rw [hhistory]
    exact h.fifo
  · rw [hpending]
    exact h.stored

theorem Invariant.take {s : State ι α} (h : Invariant nil capacity s) {t : ι} {thread : Thread α}
    (hh : s.holder = none)
    (hv : ∀ p, values thread = some p → accepted p = none ∧ delivered p = none) :
    Invariant nil capacity { s.to t thread with holder := some t } := by
  have hnone : pending s = none := by rw [pending, hh]; rfl
  have hpending : pending { s.to t thread with holder := some t } = values thread := by
    simp only [pending, Option.bind_some, to_threads_self]
  have hfifo := h.fifo
  rw [history_of_pending_none hnone] at hfifo
  constructor
  · exact h.valid
  · intro u hu
    by_cases hut : u = t
    · rw [hut]
    · rw [to_threads_of_ne s thread hut] at hu
      exact absurd hu (h.alone (Or.inl hh) hut)
  · rw [history, hpending, sent_append, received_append]
    show sent s.reports ++ _ = received s.reports ++ _ ++ s.mailbox.contents nil
    cases hp : values thread with
    | none =>
      rw [Option.toList_none, show sent ([] : List (Request α × Outcome α)) = [] from rfl,
        show received ([] : List (Request α × Outcome α)) = [] from rfl, List.append_nil,
        List.append_nil]
      exact hfifo
    | some p =>
      obtain ⟨ha, hd⟩ := hv p hp
      rw [Option.toList_some, sent_singleton, received_singleton, ha, hd]
      simpa using hfifo
  · intro p hp ha
    rw [hpending] at hp
    exact absurd (hv p hp).1 ha

omit [DecidableEq ι] in
theorem pending_of_inside {s : State ι α} {t : ι} {r : Request α} (hh : s.holder = some t)
    (hs : s.threads t = .inside r) : pending s = none := by
  simp only [pending, hh, Option.bind_some, hs]
  rfl

theorem Invariant.left {s : State ι α} (h : Invariant nil capacity s) {t : ι}
    (hh : s.holder = some t) {thread : Thread α} (hn : ¬ Critical thread) (u : ι) :
    ¬ Critical ((s.to t thread).threads u) := by
  by_cases hut : u = t
  · rwa [hut, to_threads_self]
  · rw [to_threads_of_ne s thread hut]
    exact h.alone (Or.inr hh) hut

theorem Invariant.release {s : State ι α} (h : Invariant nil capacity s) {t : ι} {r : Request α}
    (hs : s.threads t = .inside r) {mailbox : Mailbox α} (hm : mailbox = s.mailbox) :
    Invariant nil capacity { s.to t (.waiting r) with mailbox, holder := none } := by
  have hh : s.holder = some t := h.owner t (by rw [hs]; trivial)
  have hnone : pending s = none := pending_of_inside hh hs
  have hfifo := h.fifo
  rw [history_of_pending_none hnone] at hfifo
  subst hm
  constructor
  · exact h.valid
  · exact fun u hu => absurd hu (h.left hh id u)
  · rw [history_of_pending_none rfl]
    exact hfifo
  · exact fun p hp => absurd hp (by simp [pending])

theorem Invariant.finish {s : State ι α} (h : Invariant nil capacity s) {t : ι} {r : Request α}
    (hs : s.threads t = .inside r) {o : Outcome α} {mailbox : Mailbox α}
    (hm : Moved nil capacity s.mailbox (r, o) mailbox) :
    Invariant nil capacity { s.to t (.leaving r o) with mailbox } := by
  have hh : s.holder = some t := h.owner t (by rw [hs]; trivial)
  have hnone : pending s = none := pending_of_inside hh hs
  have hpending : pending { s.to t (.leaving r o) with mailbox } = some (r, o) := by
    have : ({ s.to t (.leaving r o) with mailbox } : State ι α).holder = some t := hh
    rw [pending, this, Option.bind_some, to_threads_self]
    rfl
  have hfifo := h.fifo
  rw [history_of_pending_none hnone] at hfifo
  constructor
  · exact hm.valid
  · intro u hu
    by_cases hut : u = t
    · rw [hut]
      exact hh
    · rw [to_threads_of_ne s _ hut] at hu
      exact absurd hu (h.alone (Or.inr hh) hut)
  · rw [history, hpending, sent_append, received_append, Option.toList_some, sent_singleton,
      received_singleton]
    show sent s.reports ++ _ = received s.reports ++ _ ++ mailbox.contents nil
    rw [hfifo, List.append_assoc, hm.fifo, List.append_assoc]
  · intro p hp ha
    rw [hpending] at hp
    obtain rfl := Option.some_inj.mp hp
    exact hm.stored ha

theorem Invariant.report {s : State ι α} (h : Invariant nil capacity s) {t : ι} {r : Request α}
    {o : Outcome α} (hs : s.threads t = .leaving r o) :
    Invariant nil capacity
      { s.to t .idle with holder := none, reports := s.reports ++ [(r, o)] } := by
  have hh : s.holder = some t := h.owner t (by rw [hs]; trivial)
  have hpending : pending s = some (r, o) := by
    simp only [pending, hh, Option.bind_some, hs]
    rfl
  have hfifo := h.fifo
  rw [history, hpending] at hfifo
  constructor
  · exact h.valid
  · exact fun u hu => absurd hu (h.left hh id u)
  · rw [history_of_pending_none rfl]
    exact hfifo
  · exact fun p hp => absurd hp (by simp [pending])

theorem Invariant.step {s s' : State ι α} (h : Invariant nil capacity s) {a : Action ι α}
    (hs : next nil s a = some s') : Invariant nil capacity s' := by
  cases a with
  | call t r =>
    simp only [next] at hs
    split at hs
    next ht =>
      obtain rfl := Option.some_inj.mp hs
      exact h.outside (by rw [ht]; exact id) id
    next => exact absurd hs (by simp)
  | lock t =>
    simp only [next] at hs
    split at hs
    next r ht hh =>
      obtain rfl := Option.some_inj.mp hs
      exact h.take hh fun p hp => absurd hp (by simp [values])
    next => exact absurd hs (by simp)
  | enter t =>
    simp only [next] at hs
    split at hs
    next r ht =>
      rcases attempt_spec nil h.valid r with ha | ⟨o, m', ha, hm⟩
      · rw [ha] at hs
        obtain rfl := Option.some_inj.mp hs
        exact h.release ht rfl
      · rw [ha] at hs
        obtain rfl := Option.some_inj.mp hs
        exact h.finish ht hm
    next => exact absurd hs (by simp)
  | wake t =>
    simp only [next] at hs
    split at hs
    next r ht =>
      obtain rfl := Option.some_inj.mp hs
      exact h.outside (by rw [ht]; exact id) id
    next => exact absurd hs (by simp)
  | expire t =>
    simp only [next] at hs
    split at hs
    next r ht =>
      split at hs
      · obtain rfl := Option.some_inj.mp hs
        exact h.outside (by rw [ht]; exact id) id
      · exact absurd hs (by simp)
    next => exact absurd hs (by simp)
  | relock t =>
    simp only [next] at hs
    split at hs
    next r timeoutp ht hh =>
      obtain rfl := Option.some_inj.mp hs
      refine h.take hh fun p hp => ?_
      cases timeoutp with
      | false => exact absurd hp (by simp [values])
      | true =>
        obtain rfl := Option.some_inj.mp hp
        cases r <;> exact ⟨rfl, rfl⟩
    next => exact absurd hs (by simp)
  | unlock t =>
    simp only [next] at hs
    split at hs
    next r o ht =>
      obtain rfl := Option.some_inj.mp hs
      exact h.report ht
    next => exact absurd hs (by simp)

theorem reachable_invariant (hc : 0 < capacity) {s : State ι α} (h : Reachable nil capacity s) :
    Invariant nil capacity s := by
  induction h with
  | initial => exact initial_invariant hc
  | step _ hs ih => exact ih.step hs

/-- Messages are received in the order in which they were sent, and those that were not received
yet are in the mailbox. -/
theorem mailboxes_are_queues (nil : α) (hc : 0 < capacity) (s : State ι α)
    (h : Reachable nil capacity s) :
    received s.reports <+: sent s.reports ∧
      (s.holder = none → sent s.reports = received s.reports ++ s.mailbox.contents nil) ∧
      s.mailbox.messageCount ≤ capacity ∧
      s.mailbox.writePointer = (s.mailbox.readPointer + s.mailbox.messageCount) % capacity := by
  have hi := reachable_invariant hc h
  refine ⟨hi.received_sent, fun hh => ?_, hi.valid.count_le, hi.valid.write_eq⟩
  have hfifo := hi.fifo
  rwa [history_of_pending_none (by rw [pending, hh]; rfl)] at hfifo

theorem reachable_sent_and_read : ∃ s : State Bool ℕ, Reachable 0 1 s ∧
    s.reports = [(.send 5 false, .sent true), (.read true, .received (some 5))] ∧
    s.holder = none :=
  have sent := (((Reachable.initial.step (a := .call true (.send 5 false)) rfl).step
    (a := .lock true) rfl).step (a := .enter true) rfl).step (a := .unlock true) rfl
  have read := (((sent.step (a := .call false (.read true)) rfl).step
    (a := .lock false) rfl).step (a := .enter false) rfl).step (a := .unlock false) rfl
  ⟨_, read, rfl, rfl⟩

theorem mailboxes_are_queues_one_cell :
    ∃ s : State Bool ℕ, received s.reports = [5] ∧ received s.reports <+: sent s.reports ∧
      s.mailbox.messageCount ≤ 1 :=
  have ⟨s, h, hr, _⟩ := reachable_sent_and_read
  ⟨s, by rw [hr]; rfl, (mailboxes_are_queues 0 (by decide) s h).1,
    (mailboxes_are_queues 0 (by decide) s h).2.2.1⟩

end MailboxCorrectness
