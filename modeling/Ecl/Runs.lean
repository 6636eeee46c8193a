import Mathlib.Algebra.BigOperators.Group.Finset.Basic

/-! States that are reached by steps of which each meets a condition. -/
namespace ConditionalRuns

variable {σ α : Type*}

/-- None is a step that cannot be made. -/
inductive Reached (next : σ → α → Option σ) (ok : σ → α → Prop) (start : σ → Prop) : σ → Prop where
  | start {s} : start s → Reached next ok start s
  | step {s a s'} : Reached next ok start s → ok s a → next s a = some s' →
      Reached next ok start s'

variable {next : σ → α → Option σ} {ok : σ → α → Prop} {start : σ → Prop} {s : σ}

theorem Reached.invariant {P : σ → Prop} (hstart : ∀ s, start s → P s)
    (hstep : ∀ s a s', P s → ok s a → next s a = some s' → P s')
    (h : Reached next ok start s) : P s := by
  induction h with
  | start hs => exact hstart _ hs
  | step _ hok hs ih => exact hstep _ _ _ ih hok hs

theorem Reached.trans {s' : σ} (h : Reached next ok start s) (h' : Reached next ok (· = s) s') :
    Reached next ok start s' := by
  induction h' with
  | start hs =>
    rw [hs]
    exact h
  | step _ hok hs ih => exact ih.step hok hs

end ConditionalRuns

namespace StoppingRuns

variable {Op σ τ ρ : Type}

def run (stops : ρ → Bool) (step : Op → σ → ρ × σ) : List Op → σ → List ρ
  | [], _ => []
  | op :: ops, s =>
    let r := step op s
    if stops r.1 = true then [r.1] else r.1 :: run stops step ops r.2

def Along (stops : ρ → Bool) (step : Op → σ → ρ × σ) (ok : Op → σ → Prop) : List Op → σ → Prop
  | [], _ => True
  | op :: ops, s =>
    ok op s ∧ (stops (step op s).1 = false → Along stops step ok ops (step op s).2)

variable {stops : ρ → Bool} {step : Op → σ → ρ × σ} {step' : Op → τ → ρ × τ}
  {ok : Op → σ → Prop}

theorem run_eq {R : σ → τ → Prop}
    (hstep : ∀ op s t, R s t → ok op s → (step op s).1 = (step' op t).1 ∧
      (stops (step op s).1 = false → R (step op s).2 (step' op t).2))
    {ops : List Op} {s : σ} {t : τ} (hR : R s t) (hok : Along stops step ok ops s) :
    run stops step ops s = run stops step' ops t := by
  induction ops generalizing s t with
  | nil => rfl
  | cons op ops ih =>
    obtain ⟨hop, hrest⟩ := hok
    obtain ⟨hreply, hnext⟩ := hstep op s t hR hop
    simp only [run, ← hreply]
    by_cases hs : stops (step op s).1 = true
    · rw [if_pos hs, if_pos hs]
    · rw [if_neg hs, if_neg hs]
      have hs' : stops (step op s).1 = false := by simpa using hs
      rw [ih (hnext hs') (hrest hs')]

end StoppingRuns

namespace AccessLogs

structure Logged (I α : Type) where
  result : Option α
  accesses : List I
  deriving DecidableEq

namespace Logged

variable {I α β : Type} {P Q : I → Prop}

instance : Monad (Logged I) where
  pure a := ⟨some a, []⟩
  bind m f :=
    match m.result with
    | none => ⟨none, m.accesses⟩
    | some a => ⟨(f a).result, m.accesses ++ (f a).accesses⟩

/-- A read succeeds where the view has a value; it is logged in any case. -/
def read (view : I → Option α) (i : I) : Logged I α := ⟨view i, [i]⟩

def fail : Logged I α := ⟨none, []⟩

def Within (P : I → Prop) (m : Logged I α) : Prop := ∀ i ∈ m.accesses, P i

@[simp] theorem result_pure (a : α) : (pure a : Logged I α).result = some a := rfl

@[simp] theorem result_bind (m : Logged I α) (f : α → Logged I β) :
    (m >>= f).result = m.result.bind fun a => (f a).result := by
  simp only [bind]
  cases m.result <;> rfl

theorem Within.mono {m : Logged I α} (h : m.Within P) (hPQ : ∀ i, P i → Q i) : m.Within Q :=
  fun i hi => hPQ i (h i hi)

theorem within_pure (a : α) : (pure a : Logged I α).Within P := by
  intro i hi
  cases hi

theorem within_fail : (fail : Logged I α).Within P := by
  intro i hi
  cases hi

theorem within_read {view : I → Option α} {i : I} (h : P i) : (read view i).Within P := by
  intro j hj
  rw [List.mem_singleton.mp hj]
  exact h

theorem within_bind {m : Logged I α} {f : α → Logged I β} (hm : m.Within P)
    (hf : ∀ a, m.result = some a → (f a).Within P) : (m >>= f).Within P := by
  intro i hi
  simp only [bind] at hi
  cases hres : m.result with
  | none =>
    rw [hres] at hi
    exact hm i hi
  | some a =>
    rw [hres] at hi
    rcases List.mem_append.mp hi with hi | hi
    · exact hm i hi
    · exact hf a hres i hi

end Logged

end AccessLogs

namespace FailingRuns

variable {ε α β : Type}

theorem bind_ok {x : Except ε α} {f : α → Except ε β} {b : β} (h : x >>= f = .ok b) :
    ∃ a, x = .ok a ∧ f a = .ok b := by
  cases x with
  | error e => cases h
  | ok a => exact ⟨a, rfl, h⟩

end FailingRuns

namespace Holders

variable {ι : Type*}

theorem some_iff_of_ne {before after : Option ι} {t u : ι} (hbefore : before = none ∨ before = some t)
    (hafter : after = none ∨ after = some t) (hu : u ≠ t) : before = some u ↔ after = some u := by
  have hnot : ∀ holder : Option ι, holder = none ∨ holder = some t → holder ≠ some u := by
    rintro holder (rfl | rfl) he
    · cases he
    · exact hu (Option.some.inj he).symm
  exact iff_of_false (hnot before hbefore) (hnot after hafter)

end Holders

namespace Families

variable {ι α M : Type*} [Fintype ι] [DecidableEq ι] [AddCommMonoid M]

theorem sum_update_add (f : α → M) (g : ι → α) (t : ι) (x : α) :
    ∑ u, f (Function.update g t x u) + f (g t) = ∑ u, f (g u) + f x := by
  have hbefore := Finset.add_sum_erase Finset.univ (fun u => f (g u)) (Finset.mem_univ t)
  have hafter := Finset.add_sum_erase Finset.univ (fun u => f (Function.update g t x u))
    (Finset.mem_univ t)
  have hrest : ∑ u ∈ Finset.univ.erase t, f (Function.update g t x u) =
      ∑ u ∈ Finset.univ.erase t, f (g u) := by
    apply Finset.sum_congr rfl
    intro u hu
    rw [Function.update_of_ne (Finset.ne_of_mem_erase hu)]
  rw [← hbefore, ← hafter, hrest, Function.update_self, add_right_comm]
  rw [add_comm (f x), add_right_comm]

end Families
