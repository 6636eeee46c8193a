import Mathlib.Data.List.Basic
import Mathlib.Data.List.Count

/-! Non-local exits over the contexts a thread is in. Each activation of a form has its own
number, an exit goes to an activation, and on its way runs the cleanup forms it meets. -/
namespace ControlContexts

variable {T R : Type}

inductive Form (T : Type) where
  | block
  | tagbody
  | catching (tag : T)
  | protect
  deriving DecidableEq

structure Frame (T R : Type) where
  act : ℕ
  form : Form T
  saved : R
  deriving DecidableEq

/-- A cleanup form runs after a normal exit, or on the way to an activation. -/
inductive Context (T R : Type) where
  | frame (f : Frame T R)
  | cleanup (goal : Option ℕ)
  deriving DecidableEq

structure Control (T R : Type) where
  contexts : List (Context T R)
  regs : R

inductive Outcome (T R : Type) where
  | normal
  | pushed (f : Frame T R)
  | left (f : Frame T R)
  | control (f : Frame T R)
  | controlError
  deriving DecidableEq

def Form.isProtect : Form T → Bool
  | .protect => true
  | _ => false

def Form.isExit : Form T → Bool
  | .block => true
  | .tagbody => true
  | _ => false

/-- Where an exit goes first: the goal, or the innermost protected form inside it. -/
def unwind (goal : ℕ) : List (Context T R) → Option (Frame T R × List (Context T R))
  | [] => none
  | .cleanup _ :: cs => unwind goal cs
  | .frame f :: cs =>
    if f.act = goal ∨ f.form.isProtect then some (f, cs) else unwind goal cs

/-- The contexts when control is at f: a tagbody stays, a protected form cleans up. -/
def landing (goal : Option ℕ) (f : Frame T R) (cs : List (Context T R)) : List (Context T R) :=
  match f.form with
  | .tagbody => .frame f :: cs
  | .protect => .cleanup goal :: cs
  | _ => cs

def exitTo (goal : ℕ) (c : Control T R) : Outcome T R × Control T R :=
  match unwind goal c.contexts with
  | none => (.controlError, c)
  | some (f, cs) => (.control f, ⟨landing (some goal) f cs, f.saved⟩)

def activeExit (a : ℕ) : List (Context T R) → Bool
  | [] => false
  | .cleanup _ :: cs => activeExit a cs
  | .frame f :: cs => (f.act = a && f.form.isExit) || activeExit a cs

def activeCatch [DecidableEq T] (tag : T) : List (Context T R) → Option ℕ
  | [] => none
  | .cleanup _ :: cs => activeCatch tag cs
  | .frame f :: cs => if f.form = .catching tag then some f.act else activeCatch tag cs

inductive Event (T R : Type) where
  | push (form : Form T)
  | leave
  | exit (a : ℕ)
  | throwing (tag : T)
  | cleanupEnd
  | work (r : R)
  | idle

def step [DecidableEq T] (act : ℕ) (c : Control T R) :
    Event T R → Option (Outcome T R × Control T R)
  | .push form =>
    let f : Frame T R := ⟨act, form, c.regs⟩
    some (.pushed f, { c with contexts := .frame f :: c.contexts })
  | .leave => match c.contexts with
    | .frame f :: cs =>
      some (.left f, { c with contexts := if f.form.isProtect then .cleanup none :: cs else cs })
    | _ => none
  | .exit a =>
    if activeExit a c.contexts then some (exitTo a c) else some (.controlError, c)
  | .throwing tag => match activeCatch tag c.contexts with
    | some a => some (exitTo a c)
    | none => some (.controlError, c)
  | .cleanupEnd => match c.contexts with
    | .cleanup none :: cs => some (.normal, { c with contexts := cs })
    | .cleanup (some goal) :: cs => some (exitTo goal { c with contexts := cs })
    | _ => none
  | .work r => some (.normal, { c with regs := r })
  | .idle => some (.normal, c)

structure System (T R : Type) where
  threads : ℕ → Control T R
  next : ℕ

def Event.pushes : Event T R → ℕ
  | .push _ => 1
  | _ => 0

def System.step [DecidableEq T] (s : System T R) (t : ℕ) (e : Event T R) :
    Option (Outcome T R × System T R) :=
  (ControlContexts.step s.next (s.threads t) e).map fun r =>
    (r.1, ⟨Function.update s.threads t r.2, s.next + e.pushes⟩)

/-- The outcomes of a run, each with its thread, and the system at its end. -/
def System.run [DecidableEq T] (s : System T R) :
    List (ℕ × Event T R) → Option (List (ℕ × Outcome T R) × System T R)
  | [] => some ([], s)
  | (t, e) :: es => match s.step t e with
    | none => none
    | some (o, s) => (s.run es).map fun r => ((t, o) :: r.1, r.2)

def Outcome.opened : Outcome T R → List ℕ
  | .pushed f => if f.form.isProtect then [f.act] else []
  | _ => []

def Outcome.started : Outcome T R → List ℕ
  | .left f => if f.form.isProtect then [f.act] else []
  | .control f => if f.form.isProtect then [f.act] else []
  | _ => []

def protects : List (Context T R) → List ℕ
  | [] => []
  | .cleanup _ :: cs => protects cs
  | .frame f :: cs => if f.form.isProtect then f.act :: protects cs else protects cs

theorem unwind_protects {goal : ℕ} {cs rest : List (Context T R)} {f : Frame T R}
    (h : unwind goal cs = some (f, rest)) :
    protects cs = if f.form.isProtect then f.act :: protects rest else protects rest := by
  induction cs with
  | nil => exact absurd h (by simp [unwind])
  | cons c cs ih =>
    cases c with
    | cleanup g => exact ih h
    | frame g =>
      rw [unwind] at h
      split at h
      case isTrue =>
        obtain ⟨rfl, rfl⟩ := Prod.mk.inj (Option.some.inj h)
        rfl
      case isFalse hg =>
        have hng : ¬ g.form.isProtect := fun hp => hg (Or.inr hp)
        rw [protects, if_neg hng]
        exact ih h

theorem landing_protects (goal : Option ℕ) (f : Frame T R) (cs : List (Context T R)) :
    protects (landing goal f cs) = protects cs := by
  unfold landing
  split
  case h_1 hf => simp [protects, hf, Form.isProtect]
  case h_2 => rfl
  case h_3 => rfl

theorem exitTo_protects {goal : ℕ} {c c' : Control T R} {o : Outcome T R}
    (h : exitTo goal c = (o, c')) :
    o.started ++ protects c'.contexts = o.opened ++ protects c.contexts := by
  unfold exitTo at h
  split at h
  case h_1 =>
    obtain ⟨rfl, rfl⟩ := Prod.mk.inj h
    rfl
  case h_2 f cs hunwind =>
    obtain ⟨rfl, rfl⟩ := Prod.mk.inj h
    rw [unwind_protects hunwind]
    simp only [Outcome.started, Outcome.opened, landing_protects]
    split <;> rfl

theorem step_cases [DecidableEq T] {act : ℕ} {c c' : Control T R} {e : Event T R}
    {o : Outcome T R} (h : step act c e = some (o, c')) :
    (∃ form, e = .push form ∧ o = .pushed ⟨act, form, c.regs⟩ ∧
      c'.contexts = .frame ⟨act, form, c.regs⟩ :: c.contexts) ∨
    (∃ f cs, c.contexts = .frame f :: cs ∧ o = .left f ∧
      c'.contexts = if f.form.isProtect then .cleanup none :: cs else cs) ∨
    (∃ goal c₁, protects c₁.contexts = protects c.contexts ∧ exitTo goal c₁ = (o, c')) ∨
    ((o = .normal ∨ o = .controlError) ∧ protects c'.contexts = protects c.contexts) := by
  cases e with
  | push form =>
    obtain ⟨rfl, rfl⟩ := Prod.mk.inj (Option.some.inj h)
    exact Or.inl ⟨form, rfl, rfl, rfl⟩
  | leave =>
    unfold step at h
    dsimp only at h
    split at h
    case h_1 f cs hcs =>
      obtain ⟨rfl, rfl⟩ := Prod.mk.inj (Option.some.inj h)
      exact Or.inr (Or.inl ⟨f, cs, hcs, rfl, rfl⟩)
    case h_2 => exact absurd h (Option.some_ne_none _).symm
  | exit a =>
    unfold step at h
    dsimp only at h
    split at h
    case isTrue => exact Or.inr (Or.inr (Or.inl ⟨a, c, rfl, Option.some.inj h⟩))
    case isFalse =>
      obtain ⟨rfl, rfl⟩ := Prod.mk.inj (Option.some.inj h)
      exact Or.inr (Or.inr (Or.inr ⟨Or.inr rfl, rfl⟩))
  | throwing tag =>
    unfold step at h
    dsimp only at h
    split at h
    case h_1 a _ => exact Or.inr (Or.inr (Or.inl ⟨a, c, rfl, Option.some.inj h⟩))
    case h_2 =>
      obtain ⟨rfl, rfl⟩ := Prod.mk.inj (Option.some.inj h)
      exact Or.inr (Or.inr (Or.inr ⟨Or.inr rfl, rfl⟩))
  | cleanupEnd =>
    unfold step at h
    dsimp only at h
    split at h
    case h_1 cs hcs =>
      obtain ⟨rfl, rfl⟩ := Prod.mk.inj (Option.some.inj h)
      exact Or.inr (Or.inr (Or.inr ⟨Or.inl rfl, by rw [hcs]; rfl⟩))
    case h_2 goal cs hcs =>
      exact Or.inr (Or.inr (Or.inl ⟨goal, _, by rw [hcs]; rfl, Option.some.inj h⟩))
    case h_3 => exact absurd h (Option.some_ne_none _).symm
  | work r | idle =>
    obtain ⟨rfl, rfl⟩ := Prod.mk.inj (Option.some.inj h)
    exact Or.inr (Or.inr (Or.inr ⟨Or.inl rfl, rfl⟩))

theorem step_protects [DecidableEq T] {act : ℕ} {c c' : Control T R} {e : Event T R}
    {o : Outcome T R} (h : step act c e = some (o, c')) :
    o.started ++ protects c'.contexts = o.opened ++ protects c.contexts := by
  rcases step_cases h with ⟨form, _, rfl, hc⟩ | ⟨f, cs, hcs, rfl, hc⟩ | ⟨goal, c₁, hc, hexit⟩ |
    ⟨ho, hc⟩
  · simp only [Outcome.started, Outcome.opened, hc, protects]
    split <;> rfl
  · simp only [Outcome.started, Outcome.opened, hc, hcs, protects]
    split <;> rfl
  · rw [← hc]
    exact exitTo_protects hexit
  · rcases ho with rfl | rfl
    · exact hc
    · exact hc

def openedBy (t : ℕ) (trace : List (ℕ × Outcome T R)) : List ℕ :=
  trace.flatMap fun r => if r.1 = t then r.2.opened else []

def startedBy (t : ℕ) (trace : List (ℕ × Outcome T R)) : List ℕ :=
  trace.flatMap fun r => if r.1 = t then r.2.started else []

/-- Every protected form opened in a run is either still waiting or has started its cleanup,
each as often as it was opened. -/
theorem run_conserves [DecidableEq T] (t a : ℕ) (es : List (ℕ × Event T R)) :
    ∀ {s s' : System T R} {trace}, s.run es = some (trace, s') →
    (startedBy t trace).count a + (protects (s'.threads t).contexts).count a =
      (openedBy t trace).count a + (protects (s.threads t).contexts).count a := by
  induction es with
  | nil =>
    intro s s' trace h
    obtain ⟨rfl, rfl⟩ := Prod.mk.inj (Option.some.inj h)
    rfl
  | cons e es ih =>
    obtain ⟨u, e⟩ := e
    intro s s' trace h
    rw [System.run] at h
    split at h
    case h_1 => exact absurd h (Option.some_ne_none _).symm
    case h_2 o s₁ hstep =>
      obtain ⟨⟨tail, s₂⟩, htail, hr⟩ := Option.map_eq_some_iff.mp h
      obtain ⟨rfl, rfl⟩ := Prod.mk.inj hr
      obtain ⟨⟨o', c⟩, hc, hs⟩ := Option.map_eq_some_iff.mp hstep
      obtain ⟨rfl, rfl⟩ := Prod.mk.inj hs
      have hrest := ih htail
      simp only [startedBy, openedBy, List.flatMap_cons, List.count_append] at hrest ⊢
      by_cases hu : u = t
      · subst hu
        have hone := congrArg (List.count a) (step_protects hc)
        simp only [List.count_append] at hone
        rw [Function.update_self] at hrest
        rw [if_pos rfl, if_pos rfl]
        omega
      · rw [Function.update_of_ne (Ne.symm hu)] at hrest
        rw [if_neg hu, if_neg hu]
        omega

theorem exitTo_opened (goal : ℕ) (c : Control T R) : (exitTo goal c).1.opened = [] := by
  unfold exitTo
  split <;> rfl

theorem step_opened [DecidableEq T] {act : ℕ} {c c' : Control T R} {e : Event T R}
    {o : Outcome T R} (h : step act c e = some (o, c')) (a : ℕ) :
    o.opened.count a ≤ if act = a then e.pushes else 0 := by
  rcases step_cases h with ⟨form, rfl, rfl, _⟩ | ⟨f, cs, _, rfl, _⟩ | ⟨goal, c₁, _, hexit⟩ |
    ⟨ho, _⟩
  · simp only [Outcome.opened, Event.pushes]
    split
    · rw [List.count_singleton]
      split <;> simp_all
    · exact Nat.zero_le _
  · exact Nat.zero_le _
  · have hopened := exitTo_opened goal c₁
    rw [hexit] at hopened
    simp [hopened]
  · rcases ho with rfl | rfl
    · exact Nat.zero_le _
    · exact Nat.zero_le _

/-- Every protected form opened in a run has a number of its own. -/
theorem run_opens_fresh [DecidableEq T] (a : ℕ) (es : List (ℕ × Event T R)) :
    ∀ {s s' : System T R} {trace}, s.run es = some (trace, s') →
    (trace.flatMap fun r => r.2.opened).count a ≤ if s.next ≤ a then 1 else 0 := by
  induction es with
  | nil =>
    intro s s' trace h
    obtain ⟨rfl, rfl⟩ := Prod.mk.inj (Option.some.inj h)
    simp
  | cons e es ih =>
    obtain ⟨u, e⟩ := e
    intro s s' trace h
    rw [System.run] at h
    split at h
    case h_1 => exact absurd h (Option.some_ne_none _).symm
    case h_2 o s₁ hstep =>
      obtain ⟨⟨tail, s₂⟩, htail, hr⟩ := Option.map_eq_some_iff.mp h
      obtain ⟨rfl, rfl⟩ := Prod.mk.inj hr
      obtain ⟨⟨o', c⟩, hc, hs⟩ := Option.map_eq_some_iff.mp hstep
      obtain ⟨rfl, rfl⟩ := Prod.mk.inj hs
      have hrest := ih htail
      have hone := step_opened hc a
      rw [List.flatMap_cons, List.count_append]
      have hpush : e.pushes ≤ 1 := by cases e <;> simp [Event.pushes]
      dsimp only at hrest ⊢
      split at hone <;> split at hrest <;> split <;> omega

end ControlContexts
