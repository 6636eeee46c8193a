import Mathlib.Data.List.Basic

/-! Decoders that are given the input piece by piece: a step on what has arrived so far delivers
an item, stops, or asks for more input. -/
namespace IncrementalDecoding

inductive Outcome (σ β γ ε : Type) where
  | more (s : σ) (rest : List β)
  | item (c : γ) (s : σ) (rest : List β)
  | stop (e : ε)
  deriving DecidableEq

structure Text (γ ε : Type) where
  items : List γ
  ending : Option ε
  deriving DecidableEq

def Text.take {γ ε : Type} (n : ℕ) (t : Text γ ε) : Text γ ε :=
  if n ≤ t.items.length then ⟨t.items.take n, none⟩ else t

def Text.cons {γ ε : Type} (c : γ) (t : Text γ ε) : Text γ ε := ⟨c :: t.items, t.ending⟩

theorem Text.cons_inj {γ ε : Type} {c d : γ} {t u : Text γ ε} :
    t.cons c = u.cons d ↔ c = d ∧ t = u := by
  rcases t with ⟨items, ending⟩
  rcases u with ⟨items', ending'⟩
  simp only [Text.cons, Text.mk.injEq, List.cons.injEq, and_assoc]

theorem Text.take_zero {γ ε : Type} (t : Text γ ε) : t.take 0 = ⟨[], none⟩ := by
  rw [Text.take, if_pos (Nat.zero_le _), List.take_zero]

theorem Text.take_cons {γ ε : Type} (n : ℕ) (c : γ) (t : Text γ ε) :
    (t.cons c).take (n + 1) = (t.take n).cons c := by
  simp only [Text.take, Text.cons, List.length_cons, Nat.add_le_add_iff_right]
  split_ifs <;> rfl

theorem Text.take_nil {γ ε : Type} (n : ℕ) (e : Option ε) :
    (⟨[], e⟩ : Text γ ε).take (n + 1) = ⟨[], e⟩ := by
  rw [Text.take, if_neg (by simp)]

theorem Text.take_add {γ ε : Type} {m n : ℕ} {t : Text γ ε} (h : n ≤ t.items.length) :
    t.take (n + m) = ⟨t.items.take n ++ ((⟨t.items.drop n, t.ending⟩ : Text γ ε).take m).items,
      ((⟨t.items.drop n, t.ending⟩ : Text γ ε).take m).ending⟩ := by
  simp only [Text.take, List.length_drop]
  by_cases hm : m ≤ t.items.length - n
  · rw [if_pos (by omega), if_pos hm, List.take_add]
  · rw [if_neg (by omega), if_neg hm]
    simp only [List.take_append_drop]

theorem Text.take_of_short {γ ε : Type} {n : ℕ} {t : Text γ ε} (h : t.items.length < n) :
    t.take n = t := by
  rw [Text.take, if_neg (by omega)]

variable {σ β γ ε : Type}

/-- What a step says about some input, it says about every continuation of it. The input
arrives in units, and less than a unit changes nothing. -/
structure Lawful (step : σ → List β → Outcome σ β γ ε) (unit : σ → ℕ) (bound : ℕ) : Prop where
  item_append : ∀ {s b c s' r}, step s b = .item c s' r →
    ∀ x, step s (b ++ x) = .item c s' (r ++ x)
  stop_append : ∀ {s b e}, step s b = .stop e → ∀ x, step s (b ++ x) = .stop e
  more_append : ∀ {s b s' r}, step s b = .more s' r → ∀ x, step s (b ++ x) = step s' (r ++ x)
  more_again : ∀ {s b s' r}, step s b = .more s' r → step s' r = .more s' r
  more_partial : ∀ {s b s' r}, step s b = .more s' r → ∀ x : List β, x.length < unit s →
    unit s ∣ b.length → ∃ s'' r', step s (b ++ x) = .more s'' r'
  more_unit : ∀ {s b s' r}, step s b = .more s' r → unit s' = unit s
  more_suffix : ∀ {s b s' r}, step s b = .more s' r → r <:+ b
  more_length : ∀ {s b s' r}, step s b = .more s' r →
    b.length < bound ∧ ∃ k, b.length = k * unit s + r.length
  item_unit : ∀ {s b c s' r}, step s b = .item c s' r → unit s' = unit s
  item_suffix : ∀ {s b c s' r}, step s b = .item c s' r → r <:+ b
  item_length : ∀ {s b c s' r}, step s b = .item c s' r →
    b.length ≤ r.length + bound ∧ ∃ k, b.length = (k + 1) * unit s + r.length
  /-- An item takes no unit beyond its last one. -/
  item_minimal : ∀ {s b c s' r x}, step s b = .more s b → unit s ∣ b.length →
    step s (b ++ x) = .item c s' r → x.length = unit s → r = []
  step_nil : ∀ s, step s [] = .more s []
  unit_pos : ∀ s, 0 < unit s

/-- Decode to the end; the fuel counts the items. -/
def run (step : σ → List β → Outcome σ β γ ε) : ℕ → σ → List β → Text γ ε
  | 0, _, _ => ⟨[], none⟩
  | n + 1, s, b => match step s b with
    | .more _ _ => ⟨[], none⟩
    | .item c s' r => (run step n s' r).cons c
    | .stop e => ⟨[], some e⟩

def text (step : σ → List β → Outcome σ β γ ε) (s : σ) (b : List β) : Text γ ε :=
  run step (b.length + 1) s b

section
variable {step : σ → List β → Outcome σ β γ ε} {unit : σ → ℕ} {bound : ℕ}
  (h : Lawful step unit bound)
include h

theorem Lawful.item_shorter {s s' : σ} {b r : List β} {c : γ}
    (hs : step s b = .item c s' r) : r.length < b.length := by
  obtain ⟨-, k, hk⟩ := h.item_length hs
  have hpos : 0 < (k + 1) * unit s := Nat.mul_pos (Nat.succ_pos k) (h.unit_pos s)
  omega

theorem run_fuel {m n : ℕ} {s : σ} {b : List β} (hm : b.length < m) (hn : b.length < n) :
    run step m s b = run step n s b := by
  induction m generalizing n s b with
  | zero => omega
  | succ m ih =>
    obtain ⟨n, rfl⟩ : ∃ k, n = k + 1 := ⟨n - 1, by omega⟩
    rw [run, run]
    cases hs : step s b with
    | more s' r => rfl
    | stop e => rfl
    | item c s' r =>
      have hlt := h.item_shorter hs
      exact congrArg (Text.cons c) (ih (by omega) (by omega))

omit h in
theorem text_of_more {s s' : σ} {b r : List β} (hs : step s b = .more s' r) :
    text step s b = ⟨[], none⟩ := by
  rw [text, run, hs]

omit h in
theorem text_of_stop {s : σ} {b : List β} {e : ε} (hs : step s b = .stop e) :
    text step s b = ⟨[], some e⟩ := by
  rw [text, run, hs]

theorem text_of_item {s s' : σ} {b r : List β} {c : γ} (hs : step s b = .item c s' r) :
    text step s b = (text step s' r).cons c := by
  have hlt := h.item_shorter hs
  rw [text, run, hs]
  exact congrArg (Text.cons c) (run_fuel h hlt (Nat.lt_succ_self _))

omit h in
theorem run_items {I : σ → Prop} {P : γ → Prop}
    (hstep : ∀ {s b c s' r}, I s → step s b = .item c s' r → P c ∧ I s') {n : ℕ} {s : σ}
    {b : List β} (hs : I s) : ∀ c ∈ (run step n s b).items, P c := by
  induction n generalizing s b with
  | zero =>
    intro c hc
    cases hc
  | succ n ih =>
    intro c hc
    rw [run] at hc
    cases hb : step s b with
    | more s' r =>
      rw [hb] at hc
      cases hc
    | stop e =>
      rw [hb] at hc
      cases hc
    | item c' s' r =>
      rw [hb] at hc
      obtain ⟨hP, hI⟩ := hstep hs hb
      rcases List.mem_cons.mp hc with rfl | hmem
      · exact hP
      · exact ih hI c hmem

end

/-- Units of the input are handed over one at a time until an item is there, n of them at
most. -/
def pull (step : σ → List β → Outcome σ β γ ε) (unit : ℕ) : ℕ → σ → List β → List β →
    Outcome σ β γ ε
  | 0, s, _, input => .more s input
  | n + 1, s, pending, input =>
    if input.length < unit then .more s []
    else match step s (pending ++ input.take unit) with
      | .more s' r => pull step unit n s' r (input.drop unit)
      | .item c s' _ => .item c s' (input.drop unit)
      | .stop e => .stop e

section
variable {step : σ → List β → Outcome σ β γ ε} {unit : σ → ℕ} {bound : ℕ}

theorem suffix_of_pull_item {u n : ℕ} {s s' : σ} {pending input r : List β} {c : γ}
    (h : pull step u n s pending input = .item c s' r) : r <:+ input := by
  induction n generalizing s pending input with
  | zero => cases h
  | succ n ih =>
    rw [pull] at h
    by_cases hshort : input.length < u
    · rw [if_pos hshort] at h
      cases h
    · rw [if_neg hshort] at h
      cases hs : step s (pending ++ input.take u) with
      | more s'' r' =>
        rw [hs] at h
        exact (ih h).trans (List.drop_suffix u input)
      | item c' s'' r' =>
        rw [hs] at h
        cases h
        exact List.drop_suffix u input
      | stop e =>
        rw [hs] at h
        cases h

def PullsLike (step : σ → List β → Outcome σ β γ ε) (s : σ) (b : List β)
    (pulled : Outcome σ β γ ε) : Prop :=
  (∀ c s' r, step s b = .item c s' r → pulled = .item c s' r) ∧
  (∀ e, step s b = .stop e → pulled = .stop e) ∧
  (∀ s' r, step s b = .more s' r → ∃ s'', pulled = .more s'' [])

theorem PullsLike.of_item {s s' : σ} {b r : List β} {c : γ} {p : Outcome σ β γ ε}
    (hs : step s b = .item c s' r) (hp : p = .item c s' r) : PullsLike step s b p := by
  refine ⟨?_, ?_, ?_⟩
  · intro c' s'' r' h
    exact hp.trans (hs.symm.trans h)
  · intro e h
    cases hs.symm.trans h
  · intro s'' r' h
    cases hs.symm.trans h

theorem PullsLike.of_stop {s : σ} {b : List β} {e : ε} {p : Outcome σ β γ ε}
    (hs : step s b = .stop e) (hp : p = .stop e) : PullsLike step s b p := by
  refine ⟨?_, ?_, ?_⟩
  · intro c s' r h
    cases hs.symm.trans h
  · intro e' h
    exact hp.trans (hs.symm.trans h)
  · intro s' r h
    cases hs.symm.trans h

theorem PullsLike.of_more {s s' s'' : σ} {b r : List β} {p : Outcome σ β γ ε}
    (hs : step s b = .more s' r) (hp : p = .more s'' []) : PullsLike step s b p := by
  refine ⟨?_, ?_, ?_⟩
  · intro c s₁ r' h
    cases hs.symm.trans h
  · intro e h
    cases hs.symm.trans h
  · intro s₁ r' h
    exact ⟨s'', hp⟩

/-- done is what this pull has taken before, of which pending is left. -/
theorem pull_from (h : Lawful step unit bound) {n : ℕ} {s₀ s : σ} {done pending : List β}
    (hdone : step s₀ done = .more s pending) (hdvd : unit s₀ ∣ done.length)
    (hn : bound ≤ done.length + n * unit s₀) (input : List β) :
    PullsLike step s₀ (done ++ input) (pull step (unit s₀) n s pending input) := by
  induction n generalizing s done pending input with
  | zero =>
    have hlt := (h.more_length hdone).1
    omega
  | succ n ih =>
    rw [pull]
    by_cases hshort : input.length < unit s₀
    · obtain ⟨s'', r', hmore⟩ := h.more_partial hdone input hshort hdvd
      rw [if_pos hshort]
      exact .of_more hmore rfl
    · rw [if_neg hshort]
      -- one more unit arrives
      have hlen : (input.take (unit s₀)).length = unit s₀ := by
        rw [List.length_take]
        omega
      have hsplit : done ++ input = (done ++ input.take (unit s₀)) ++ input.drop (unit s₀) := by
        rw [List.append_assoc, List.take_append_drop]
      have hstep := h.more_append hdone (input.take (unit s₀))
      have hunit := h.more_unit hdone
      rw [hsplit]
      cases hs : step s (pending ++ input.take (unit s₀)) with
      | more s' r =>
        refine ih (hstep.trans hs) ?_ ?_ (input.drop (unit s₀))
        · rw [List.length_append, hlen]
          exact Nat.dvd_add hdvd (Nat.dvd_refl _)
        · rw [List.length_append, hlen]
          rw [Nat.add_mul, Nat.one_mul] at hn
          omega
      | item c s' r =>
        have hpending : unit s ∣ pending.length := by
          obtain ⟨-, k, hk⟩ := h.more_length hdone
          rw [hk] at hdvd
          rw [hunit]
          exact (Nat.dvd_add_iff_right (Nat.dvd_mul_left _ k)).mpr hdvd
        have hr : r = [] :=
          h.item_minimal (h.more_again hdone) hpending hs (hlen.trans hunit.symm)
        have hitem := h.item_append (hstep.trans hs) (input.drop (unit s₀))
        rw [hr, List.nil_append] at hitem
        exact .of_item hitem rfl
      | stop e => exact .of_stop (h.stop_append (hstep.trans hs) _) rfl

theorem pull_whole (h : Lawful step unit bound) {n : ℕ} {s : σ} (hn : bound ≤ n * unit s)
    (input : List β) : PullsLike step s input (pull step (unit s) n s [] input) := by
  have hdvd : unit s ∣ ([] : List β).length := Nat.dvd_zero _
  exact pull_from h (h.step_nil s) hdvd (by simpa using hn) input

theorem Lawful.more_rest (h : Lawful step unit bound) {s s' : σ} {b r : List β}
    (hs : step s b = .more s' r) : b.drop (b.length - r.length) = r :=
  (List.suffix_iff_eq_drop.mp (h.more_suffix hs)).symm

theorem Lawful.item_rest (h : Lawful step unit bound) {s s' : σ} {b r : List β} {c : γ}
    (hs : step s b = .item c s' r) : b.drop (b.length - r.length) = r :=
  (List.suffix_iff_eq_drop.mp (h.item_suffix hs)).symm

end

inductive Switch (σ : Type) where
  | stay
  | turn (s : σ)
  | mark (s : σ)

def marked (step : σ → List β → Outcome σ β γ ε) (switch : σ → γ → Switch σ) (s : σ)
    (b : List β) : Outcome σ β γ ε :=
  match step s b with
  | .item c s' r => match switch s c with
    | .stay => .item c s' r
    | .turn t => .item c t r
    | .mark t => step t r
  | out => out

structure LawfulSwitch (switch : σ → γ → Switch σ) (unit : σ → ℕ) : Prop where
  turn_unit : ∀ {s c t}, switch s c = .turn t → unit t = unit s
  mark_unit : ∀ {s c t}, switch s c = .mark t → unit t = unit s
  mark_stay : ∀ {s c t}, switch s c = .mark t → ∀ c', switch t c' = .stay

section
variable {step : σ → List β → Outcome σ β γ ε} {switch : σ → γ → Switch σ} {unit : σ → ℕ}
  {s s' t : σ} {b r : List β} {c : γ} {bound : ℕ}

theorem marked_of_more (hs : step s b = .more s' r) :
    marked step switch s b = .more s' r := by
  rw [marked, hs]

theorem marked_of_stop {e : ε} (hs : step s b = .stop e) :
    marked step switch s b = .stop e := by
  rw [marked, hs]

theorem marked_of_stay (hs : step s b = .item c s' r) (hc : switch s c = .stay) :
    marked step switch s b = .item c s' r := by
  simp only [marked, hs, hc]

theorem marked_of_turn (hs : step s b = .item c s' r) (hc : switch s c = .turn t) :
    marked step switch s b = .item c t r := by
  simp only [marked, hs, hc]

theorem marked_of_mark (hs : step s b = .item c s' r) (hc : switch s c = .mark t) :
    marked step switch s b = step t r := by
  simp only [marked, hs, hc]

theorem marked_eq_step (hstay : ∀ c, switch s c = .stay) :
    marked step switch s b = step s b := by
  cases hs : step s b with
  | more s' r => exact marked_of_more hs
  | stop e => exact marked_of_stop hs
  | item c s' r => exact marked_of_stay hs (hstay c)

theorem more_of_marked (hs : marked step switch s b = .more s' r) :
    step s b = .more s' r ∨ ∃ c s₁ r₁ t, step s b = .item c s₁ r₁ ∧ switch s c = .mark t ∧
      step t r₁ = .more s' r := by
  cases hb : step s b with
  | more s₁ r₁ => exact .inl ((marked_of_more hb).symm.trans hs)
  | stop e => cases (marked_of_stop hb).symm.trans hs
  | item c s₁ r₁ =>
    cases hc : switch s c with
    | stay => cases (marked_of_stay hb hc).symm.trans hs
    | turn t => cases (marked_of_turn hb hc).symm.trans hs
    | mark t => exact .inr ⟨c, s₁, r₁, t, rfl, hc, (marked_of_mark hb hc).symm.trans hs⟩

theorem item_of_marked (hs : marked step switch s b = .item c s' r) :
    (∃ s₁, step s b = .item c s₁ r ∧ (switch s c = .stay ∧ s' = s₁ ∨ switch s c = .turn s')) ∨
      ∃ c₁ s₁ r₁ t, step s b = .item c₁ s₁ r₁ ∧ switch s c₁ = .mark t ∧
        step t r₁ = .item c s' r := by
  cases hb : step s b with
  | more s₁ r₁ => cases (marked_of_more hb).symm.trans hs
  | stop e => cases (marked_of_stop hb).symm.trans hs
  | item c₁ s₁ r₁ =>
    cases hc : switch s c₁ with
    | stay =>
      cases (marked_of_stay hb hc).symm.trans hs
      exact .inl ⟨s', rfl, .inl ⟨hc, rfl⟩⟩
    | turn t =>
      cases (marked_of_turn hb hc).symm.trans hs
      exact .inl ⟨s₁, rfl, .inr hc⟩
    | mark t => exact .inr ⟨c₁, s₁, r₁, t, rfl, hc, (marked_of_mark hb hc).symm.trans hs⟩

theorem stop_of_marked {e : ε} (hs : marked step switch s b = .stop e) :
    step s b = .stop e ∨ ∃ c s₁ r₁ t, step s b = .item c s₁ r₁ ∧ switch s c = .mark t ∧
      step t r₁ = .stop e := by
  cases hb : step s b with
  | more s₁ r₁ => cases (marked_of_more hb).symm.trans hs
  | stop e' => exact .inl ((marked_of_stop hb).symm.trans hs)
  | item c s₁ r₁ =>
    cases hc : switch s c with
    | stay => cases (marked_of_stay hb hc).symm.trans hs
    | turn t => cases (marked_of_turn hb hc).symm.trans hs
    | mark t => exact .inr ⟨c, s₁, r₁, t, rfl, hc, (marked_of_mark hb hc).symm.trans hs⟩

/-- A lawful decoder that keeps its state stays lawful with marks in front. -/
theorem Lawful.marked (h : Lawful step unit bound) (hw : LawfulSwitch switch unit)
    (hkeep : ∀ {s b s' r}, step s b = .more s' r → s' = s) :
    Lawful (marked step switch) unit (bound + bound) where
  item_append := by
    intro s b c s' r hs x
    rcases item_of_marked hs with ⟨s₁, hb, hc⟩ | ⟨c₁, s₁, r₁, t, hb, hc, ht⟩
    · rcases hc with ⟨hc, rfl⟩ | hc
      · exact marked_of_stay (h.item_append hb x) hc
      · exact marked_of_turn (h.item_append hb x) hc
    · exact (marked_of_mark (h.item_append hb x) hc).trans (h.item_append ht x)
  stop_append := by
    intro s b e hs x
    rcases stop_of_marked hs with hb | ⟨c, s₁, r₁, t, hb, hc, ht⟩
    · exact marked_of_stop (h.stop_append hb x)
    · exact (marked_of_mark (h.item_append hb x) hc).trans (h.stop_append ht x)
  more_append := by
    intro s b s' r hs x
    rcases more_of_marked hs with hb | ⟨c, s₁, r₁, t, hb, hc, ht⟩
    · obtain rfl := hkeep hb
      simp only [IncrementalDecoding.marked, h.more_append hb x]
    · obtain rfl := hkeep ht
      rw [marked_of_mark (h.item_append hb x) hc, h.more_append ht x,
        marked_eq_step (hw.mark_stay hc)]
  more_again := by
    intro s b s' r hs
    rcases more_of_marked hs with hb | ⟨c, s₁, r₁, t, hb, hc, ht⟩
    · exact marked_of_more (h.more_again hb)
    · exact marked_of_more (h.more_again ht)
  more_partial := by
    intro s b s' r hs x hx hdvd
    rcases more_of_marked hs with hb | ⟨c, s₁, r₁, t, hb, hc, ht⟩
    · obtain ⟨s'', r', hmore⟩ := h.more_partial hb x hx hdvd
      exact ⟨s'', r', marked_of_more hmore⟩
    · obtain ⟨-, k, hk⟩ := h.item_length hb
      have hunit := hw.mark_unit hc
      have hdvd' : unit t ∣ r₁.length := by
        rw [hunit, Nat.dvd_add_iff_right (Nat.dvd_mul_left _ (k + 1)), ← hk]
        exact hdvd
      obtain ⟨s'', r', hmore⟩ := h.more_partial ht x (by omega) hdvd'
      exact ⟨s'', r', (marked_of_mark (h.item_append hb x) hc).trans hmore⟩
  more_unit := by
    intro s b s' r hs
    rcases more_of_marked hs with hb | ⟨c, s₁, r₁, t, hb, hc, ht⟩
    · exact h.more_unit hb
    · exact (h.more_unit ht).trans (hw.mark_unit hc)
  more_suffix := by
    intro s b s' r hs
    rcases more_of_marked hs with hb | ⟨c, s₁, r₁, t, hb, -, ht⟩
    · exact h.more_suffix hb
    · exact (h.more_suffix ht).trans (h.item_suffix hb)
  more_length := by
    intro s b s' r hs
    rcases more_of_marked hs with hb | ⟨c, s₁, r₁, t, hb, hc, ht⟩
    · obtain ⟨hlt, hk⟩ := h.more_length hb
      exact ⟨by omega, hk⟩
    · obtain ⟨hle, k, hk⟩ := h.item_length hb
      obtain ⟨hlt, k', hk'⟩ := h.more_length ht
      rw [hw.mark_unit hc] at hk'
      refine ⟨by omega, k + 1 + k', ?_⟩
      rw [hk, hk', Nat.add_mul (k + 1) k', Nat.add_assoc]
  item_unit := by
    intro s b c s' r hs
    rcases item_of_marked hs with ⟨s₁, hb, hc⟩ | ⟨c₁, s₁, r₁, t, hb, hc, ht⟩
    · rcases hc with ⟨-, rfl⟩ | hc
      · exact h.item_unit hb
      · exact hw.turn_unit hc
    · exact (h.item_unit ht).trans (hw.mark_unit hc)
  item_suffix := by
    intro s b c s' r hs
    rcases item_of_marked hs with ⟨s₁, hb, -⟩ | ⟨c₁, s₁, r₁, t, hb, -, ht⟩
    · exact h.item_suffix hb
    · exact (h.item_suffix ht).trans (h.item_suffix hb)
  item_length := by
    intro s b c s' r hs
    rcases item_of_marked hs with ⟨s₁, hb, -⟩ | ⟨c₁, s₁, r₁, t, hb, hc, ht⟩
    · obtain ⟨hle, hk⟩ := h.item_length hb
      exact ⟨by omega, hk⟩
    · obtain ⟨hle, k, hk⟩ := h.item_length hb
      obtain ⟨hle', k', hk'⟩ := h.item_length ht
      rw [hw.mark_unit hc] at hk'
      refine ⟨by omega, k + 1 + k', ?_⟩
      rw [hk, hk', Nat.add_assoc (k + 1) k' 1, Nat.add_mul (k + 1) (k' + 1), Nat.add_assoc]
  item_minimal := by
    intro s b c s' r x hs hdvd hitem hx
    have hb : step s b = .more s b := by
      rcases more_of_marked hs with hb | ⟨c₁, s₁, r₁, t, hb, hc, ht⟩
      · exact hb
      · have hlt := h.item_shorter hb
        obtain ⟨-, k, hk⟩ := h.more_length ht
        omega
    rcases item_of_marked hitem with ⟨s₁, hbx, -⟩ | ⟨c₁, s₁, r₁, t, hbx, hc, ht⟩
    · exact h.item_minimal hb hdvd hbx hx
    · -- a mark that is just complete has nothing behind it
      obtain rfl := h.item_minimal hb hdvd hbx hx
      cases (h.step_nil t).symm.trans ht
  step_nil s := marked_of_more (h.step_nil s)
  unit_pos := h.unit_pos

end
end IncrementalDecoding
