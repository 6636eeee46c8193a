import Ecl.Backquote
import Ecl.Runs

/-! The expander ends on every object, and its forms keep the levels of the commas. -/
namespace BackquoteExpansion

open Backquote BackquoteMeaning
open FailingRuns (bind_ok)

theorem bind_finished {α β : Type} {x x' : Except BackqError α} {f f' : α → Except BackqError β}
    (h : x >>= f ≠ .error .unfinished) (hx : x ≠ .error .unfinished → x' = x)
    (hf : ∀ a, x = .ok a → f a ≠ .error .unfinished → f' a = f a) :
    x' >>= f' = x >>= f := by
  cases hc : x with
  | error e =>
    have hne : x ≠ .error .unfinished := fun hu => h (by rw [hu]; rfl)
    rw [hx hne, hc]
    rfl
  | ok a =>
    rw [hx (by simp [hc]), hc]
    exact hf a hc (by rw [hc] at h; exact h)

theorem backq_deeper (n : ℕ) :
    (∀ x, backqCdr n x ≠ .error .unfinished → backqCdr (n + 1) x = backqCdr n x) ∧
    (∀ x, backqCar n x ≠ .error .unfinished → backqCar (n + 1) x = backqCar n x) := by
  induction n with
  | zero => exact ⟨fun x h => absurd rfl h, fun x h => absurd rfl h⟩
  | succ n ih =>
    refine ⟨fun x h => ?_, fun x h => ?_⟩
    · cases x with
      | cons ax dx =>
        rw [backqCdr] at h ⊢
        rw [backqCdr]
        split_ifs with hu hs
        · rfl
        · rfl
        · rw [if_neg hu, if_neg hs] at h
          refine bind_finished h (ih.2 ax) fun a _ ha => ?_
          exact bind_finished ha (ih.1 dx) fun _ _ _ => rfl
      | _ => rfl
    · cases x with
      | cons ax dx =>
        rw [backqCar] at h ⊢
        rw [backqCar]
        split_ifs with hq hu hs hn
        · rw [if_pos hq] at h
          refine bind_finished h (ih.2 _) fun a _ ha => ?_
          exact bind_finished ha (fun _ => rfl) fun r _ hr => ih.2 r hr
        · rfl
        · rfl
        · rfl
        · rw [if_neg hq, if_neg hu, if_neg hs, if_neg hn] at h
          exact bind_finished h (ih.1 _) fun _ _ _ => rfl
      | _ => rfl

theorem backqCar_deeper {n m : ℕ} {x : Object} (h : backqCar n x ≠ .error .unfinished)
    (hnm : n ≤ m) : backqCar m x = backqCar n x := by
  induction hnm with
  | refl => rfl
  | step _ ih => rw [(backq_deeper _).2 x (by rw [ih]; exact h), ih]

theorem backqCdr_deeper {n m : ℕ} {x : Object} (h : backqCdr n x ≠ .error .unfinished)
    (hnm : n ≤ m) : backqCdr m x = backqCdr n x := by
  induction hnm with
  | refl => rfl
  | step _ ih => rw [(backq_deeper _).1 x (by rw [ih]; exact h), ih]

def commaCode : Comma → CarCode
  | .unquote => .eval
  | .splice => .append
  | .nsplice => .nconc

theorem backqCdr_cases {n : ℕ} {ax dx : Object} {d : CdrCode × Object}
    (h : backqCdr n (.cons ax dx) = .ok d) :
    ∃ m, n = m + 1 ∧ ((ax = .symbol .unquote ∧ d = (.eval, car dx)) ∨
      (¬ IsComma ax ∧ ∃ a e, backqCar m ax = .ok a ∧ backqCdr m dx = .ok e ∧
        d = merge (.cons ax dx) a.1 a.2 e.1 e.2)) := by
  cases n with
  | zero => cases h
  | succ m =>
    refine ⟨m, rfl, ?_⟩
    rw [backqCdr] at h
    by_cases hu : ax = .symbol .unquote
    · rw [if_pos hu] at h
      exact .inl ⟨hu, (Except.ok.inj h).symm⟩
    · rw [if_neg hu] at h
      by_cases hs : ax = .symbol .unquoteSplice ∨ ax = .symbol .unquoteNsplice
      · rw [if_pos hs] at h
        cases h
      · rw [if_neg hs] at h
        obtain ⟨a, ha, h⟩ := bind_ok h
        obtain ⟨e, he, h⟩ := bind_ok h
        refine .inr ⟨?_, a, e, ha, he, (Except.ok.inj h).symm⟩
        rintro ⟨c, hc⟩
        cases c with
        | unquote => exact hu hc
        | splice => exact hs (.inl hc)
        | nsplice => exact hs (.inr hc)

theorem backqCar_cases {n : ℕ} {ax dx : Object} {c : CarCode × Object}
    (h : backqCar n (.cons ax dx) = .ok c) :
    ∃ m, n = m + 1 ∧ ((ax = .symbol .quasiquote ∧ ∃ a r, backqCar m (car dx) = .ok a ∧
        finish a.1 a.2 = .ok r ∧ backqCar m r = .ok c) ∨
      (∃ k : Comma, ax = .symbol k.symbol ∧ c = (commaCode k, car dx)) ∨
      (¬ Mark ax ∧ ∃ d, backqCdr m (.cons ax dx) = .ok d ∧ c = wrap d.1 d.2)) := by
  cases n with
  | zero => cases h
  | succ m =>
    refine ⟨m, rfl, ?_⟩
    rw [backqCar] at h
    by_cases hq : ax = .symbol .quasiquote
    · rw [if_pos hq] at h
      obtain ⟨a, ha, h⟩ := bind_ok h
      obtain ⟨r, hr, h⟩ := bind_ok h
      exact .inl ⟨hq, a, r, ha, hr, h⟩
    · rw [if_neg hq] at h
      by_cases hk : ∃ k : Comma, ax = .symbol k.symbol
      · obtain ⟨k, rfl⟩ := hk
        refine .inr (.inl ⟨k, rfl, ?_⟩)
        cases k with
        | unquote | splice | nsplice => exact (Except.ok.inj h).symm
      · have hu : ax ≠ .symbol .unquote := fun hu => hk ⟨.unquote, hu⟩
        have hs : ax ≠ .symbol .unquoteSplice := fun hs => hk ⟨.splice, hs⟩
        have hn : ax ≠ .symbol .unquoteNsplice := fun hn => hk ⟨.nsplice, hn⟩
        rw [if_neg hu, if_neg hs, if_neg hn] at h
        obtain ⟨d, hd, h⟩ := bind_ok h
        exact .inr (.inr ⟨fun hm => hm.elim hq hk, d, hd, (Except.ok.inj h).symm⟩)

theorem backqCar_atom (n : ℕ) {x : Object} (hx : ∀ a d, x ≠ .cons a d) :
    backqCar (n + 1) x = .ok (.quote, x) := by
  cases x with
  | cons a d => exact absurd rfl (hx a d)
  | _ => rfl

theorem backqCdr_atom (n : ℕ) {x : Object} (hx : ∀ a d, x ≠ .cons a d) :
    backqCdr (n + 1) x = .ok (.quote, x) := by
  cases x with
  | cons a d => exact absurd rfl (hx a d)
  | _ => rfl

def backquotes : Object → ℕ
  | .symbol s => if s = .quasiquote then 1 else 0
  | .cons a d => backquotes a + backquotes d
  | .vector v => backquotes v
  | _ => 0

theorem backquotes_car (x : Object) : backquotes (car x) ≤ backquotes x := by
  cases x with
  | cons a d => exact Nat.le_add_right _ _
  | _ => exact Nat.zero_le _

theorem backquotes_kwote (x : Object) : backquotes (kwote x) = backquotes x := by
  cases x with
  | symbol s => cases s <;> rfl
  | cons a d | vector v => simp [kwote, list2, list1, backquotes]
  | _ => rfl

theorem backquotes_evalQuoted (ax dx : Object) :
    backquotes (evalQuoted ax dx).2 = backquotes ax + backquotes dx := by
  cases dx with
  | cons y d =>
    cases d with
    | nil => simp [evalQuoted, list1, backquotes, backquotes_kwote]
    | _ => simp [evalQuoted, list1, backquotes, kwote, list2]
  | symbol s =>
    simp only [evalQuoted, list1, backquotes, backquotes_kwote, Nat.add_zero]
  | _ => simp [evalQuoted, list1, backquotes, kwote, list2]

theorem backquotes_merge (ax' dx' : Object) (a : CarCode × Object) (d : CdrCode × Object)
    (ha : backquotes a.2 ≤ backquotes ax') (hd : backquotes d.2 ≤ backquotes dx') :
    backquotes (merge (.cons ax' dx') a.1 a.2 d.1 d.2).2 ≤ backquotes (.cons ax' dx') := by
  obtain ⟨a, ax⟩ := a
  obtain ⟨d, dx⟩ := d
  simp only [backquotes] at ha hd ⊢
  cases d with
  | quote =>
    have hnil (code : CdrCode) : backquotes (if dx = .nil then (CdrCode.eval, ax)
        else (code, .cons ax (list1 (kwote dx)))).2 = backquotes ax + backquotes dx := by
      split_ifs with h
      · simp [h, backquotes]
      · simp [list1, backquotes, backquotes_kwote]
    cases a with
    | quote => exact le_rfl
    | eval => exact Nat.le_trans (Nat.le_of_eq (backquotes_evalQuoted ax dx)) (by omega)
    | append => exact Nat.le_trans (Nat.le_of_eq (hnil .append)) (by omega)
    | nconc => exact Nat.le_trans (Nat.le_of_eq (hnil .nconc)) (by omega)
  | _ =>
    cases a <;> simp [merge, backquotes, list1, call, backquotes_kwote] <;> omega

theorem backquotes_wrap (d : CdrCode) (x : Object) : backquotes (wrap d x).2 = backquotes x := by
  cases d <;> simp [wrap, call, backquotes]

theorem backquotes_finish {a : CarCode} {x r : Object} (h : finish a x = .ok r) :
    backquotes r = backquotes x := by
  cases a with
  | quote => rw [← Except.ok.inj h, backquotes_kwote]
  | eval => rw [← Except.ok.inj h]
  | append => cases h
  | nconc => cases h

theorem backquotes_le (n : ℕ) :
    (∀ x d, backqCdr n x = .ok d → backquotes d.2 ≤ backquotes x) ∧
    (∀ x a, backqCar n x = .ok a → backquotes a.2 ≤ backquotes x) := by
  induction n with
  | zero => exact ⟨fun x d h => (by cases h), fun x a h => (by cases h)⟩
  | succ n ih =>
    refine ⟨fun x d h => ?_, fun x a h => ?_⟩
    · by_cases hx : ∀ ax dx, x ≠ .cons ax dx
      · rw [backqCdr_atom n hx] at h
        cases h
        exact le_rfl
      · obtain ⟨ax, dx, rfl⟩ : ∃ ax dx, x = .cons ax dx := by simpa using hx
        obtain ⟨m, hm, ⟨-, rfl⟩ | ⟨-, a, e, ha, he, rfl⟩⟩ := backqCdr_cases h
        · exact Nat.le_trans (backquotes_car dx) (Nat.le_add_left _ _)
        · cases hm
          exact backquotes_merge _ _ _ _ (ih.2 _ _ ha) (ih.1 _ _ he)
    · by_cases hx : ∀ ax dx, x ≠ .cons ax dx
      · rw [backqCar_atom n hx] at h
        cases h
        exact le_rfl
      · obtain ⟨ax, dx, rfl⟩ : ∃ ax dx, x = .cons ax dx := by simpa using hx
        obtain ⟨m, hm, ⟨-, b, r, hb, hr, ha⟩ | ⟨k, -, rfl⟩ | ⟨-, d, hd, rfl⟩⟩ :=
          backqCar_cases h
        · cases hm
          have hle : backquotes r ≤ backquotes (car dx) := by
            rw [backquotes_finish hr]
            exact ih.2 _ _ hb
          exact Nat.le_trans (Nat.le_trans (ih.2 _ _ ha) hle)
            (Nat.le_trans (backquotes_car dx) (Nat.le_add_left _ _))
        · exact Nat.le_trans (backquotes_car dx) (Nat.le_add_left _ _)
        · cases hm
          rw [backquotes_wrap]
          exact ih.1 _ _ hd

def size : Object → ℕ
  | .cons a d => size a + size d + 1
  | _ => 0

def CdrEnds (x : Object) : Prop := ∃ n, backqCdr n x ≠ .error .unfinished

def CarEnds (x : Object) : Prop := ∃ n, backqCar n x ≠ .error .unfinished

theorem CdrEnds.cons {ax dx : Object} (ha : CarEnds ax) (hd : CdrEnds dx) :
    CdrEnds (.cons ax dx) := by
  obtain ⟨n, hn⟩ := ha
  obtain ⟨m, hm⟩ := hd
  have hn' := backqCar_deeper hn (Nat.le_max_left n m)
  have hm' := backqCdr_deeper hm (Nat.le_max_right n m)
  refine ⟨max n m + 1, ?_⟩
  rw [backqCdr]
  split_ifs with hu hs
  · nofun
  · nofun
  · rw [hn', hm']
    cases hx : backqCar n ax with
    | error e => exact fun h => hn (hx.trans (congrArg _ (Except.error.inj h)))
    | ok a =>
      cases hy : backqCdr m dx with
      | error e => exact fun h => hm (hy.trans (congrArg _ (Except.error.inj h)))
      | ok d => nofun

theorem CarEnds.cons {ax dx : Object} (h : ax ≠ .symbol .quasiquote)
    (hd : CdrEnds (.cons ax dx)) : CarEnds (.cons ax dx) := by
  obtain ⟨n, hn⟩ := hd
  refine ⟨n + 1, ?_⟩
  rw [backqCar, if_neg h]
  split_ifs
  · nofun
  · nofun
  · nofun
  · cases hx : backqCdr n (.cons ax dx) with
    | error e => exact fun h => hn (hx.trans (congrArg _ (Except.error.inj h)))
    | ok d => nofun

theorem CarEnds.backquote {dx : Object} (hu : CarEnds (car dx))
    (hr : ∀ n a r, backqCar n (car dx) = .ok a → finish a.1 a.2 = .ok r → CarEnds r) :
    CarEnds (.cons (.symbol .quasiquote) dx) := by
  obtain ⟨n, hn⟩ := hu
  cases hx : backqCar n (car dx) with
  | error e =>
    refine ⟨n + 1, ?_⟩
    rw [backqCar, if_pos rfl, hx]
    exact fun h => hn (hx.trans (congrArg _ (Except.error.inj h)))
  | ok a =>
    cases hf : finish a.1 a.2 with
    | error e =>
      refine ⟨n + 1, ?_⟩
      rw [backqCar, if_pos rfl, hx]
      intro h
      rw [show (Except.ok a >>= fun a => finish a.1 a.2 >>= fun x => backqCar n x)
        = .error e by simp [bind, Except.bind, hf]] at h
      cases a with | mk c y => cases c <;> cases hf <;> cases h
    | ok r =>
      obtain ⟨m, hm⟩ := hr n a r hx hf
      refine ⟨max n m + 1, ?_⟩
      rw [backqCar, if_pos rfl, backqCar_deeper hn (Nat.le_max_left n m), hx]
      intro h
      refine hm ((backqCar_deeper hm (Nat.le_max_right n m)).symm.trans ?_)
      simpa [bind, Except.bind, hf] using h

theorem expander_ends (b : ℕ) : ∀ s x, backquotes x ≤ b → size x ≤ s → CdrEnds x ∧ CarEnds x := by
  induction b using Nat.strong_induction_on with
  | _ b ihb =>
    intro s
    induction s using Nat.strong_induction_on with
    | _ s ihs =>
      intro x hb hs
      by_cases hx : ∀ ax dx, x ≠ .cons ax dx
      · exact ⟨⟨1, by rw [backqCdr_atom 0 hx]; nofun⟩, ⟨1, by rw [backqCar_atom 0 hx]; nofun⟩⟩
      · obtain ⟨ax, dx, rfl⟩ : ∃ ax dx, x = .cons ax dx := by simpa using hx
        simp only [backquotes] at hb
        simp only [size] at hs
        have hax := ihs (size ax) (by omega) ax (by omega) le_rfl
        have hdx := ihs (size dx) (by omega) dx (by omega) le_rfl
        have hcdr := CdrEnds.cons hax.2 hdx.1
        refine ⟨hcdr, ?_⟩
        by_cases hq : ax = .symbol .quasiquote
        · subst hq
          have hone : backquotes (.symbol .quasiquote) = 1 := rfl
          have hcar := backquotes_car dx
          refine CarEnds.backquote (ihb (backquotes (car dx)) (by omega) _ _ le_rfl le_rfl).2 ?_
          intro n a r ha hr
          have hle : backquotes r ≤ backquotes (car dx) := by
            rw [backquotes_finish hr]
            exact (backquotes_le n).2 _ _ ha
          exact (ihb (backquotes r) (by omega) _ _ le_rfl le_rfl).2
        · exact CarEnds.cons hq hcdr

theorem backq_ends (x : Object) : ∃ n, backq n x ≠ .error .unfinished := by
  obtain ⟨n, hn⟩ := (expander_ends _ _ x le_rfl le_rfl).2
  refine ⟨n, ?_⟩
  simp only [backq]
  cases hx : backqCar n x with
  | error e => exact fun h => hn (hx.trans (congrArg _ (Except.error.inj h)))
  | ok a => cases a with | mk c y => cases c <;> nofun

def carForm : CarCode → Object → Object
  | .quote, x => kwote x
  | _, x => x

def cdrForm : CdrCode → Object → Object
  | .quote, x => kwote x
  | .eval, x => x
  | .list, x => call .list x
  | .listx, x => call .listStar x
  | .append, x => call .append x
  | .nconc, x => call .nconc x

def Kept (j l : ℕ) (x : Object) : Prop := level x = l ∧ Built Constant .element j x

/-- The arguments of such a form. -/
def KeptArgs (j l : ℕ) (args : Object) : Prop := level args = l ∧ Built Constant .tail j args

variable {j l m : ℕ}

theorem KeptArgs.cons {a args : Object} (ha : Kept j l a) (hargs : KeptArgs j m args) :
    KeptArgs j (max l m) (.cons a args) :=
  ⟨by rw [level_cons _ ha.2.not_mark, ha.1, hargs.1],
    .cons _ _ _ _ ha.2.not_mark ha.2 hargs.2⟩

theorem KeptArgs.one {a : Object} (ha : Kept j l a) : KeptArgs j l (list1 a) :=
  ⟨by rw [level_list1, ha.1], ha.2.list1⟩

theorem kept_call {f : Symbol} {args : Object} (hf : ¬ Mark (.symbol f)) :
    Kept j l (call f args) ↔ KeptArgs j l args := by
  have hl : level (call f args) = level args := by
    rw [call, level_cons _ hf]
    exact Nat.max_eq_right (Nat.zero_le _)
  refine ⟨fun h => ⟨hl.symm.trans h.1, ?_⟩, fun h => ⟨hl.trans h.1, ?_⟩⟩
  · obtain ⟨hq, -⟩ | ⟨c, u, hc, -⟩ | ⟨-, -, hd⟩ := h.2.cons_cases
    · exact absurd (.inl hq) hf
    · exact absurd (.inr ⟨c, hc⟩) hf
    · exact hd
  · exact .cons _ _ _ _ hf (.atom _ _ _ nofun hf) h.2

theorem kept_list1 {x : Object} : KeptArgs j l (list1 x) ↔ Kept j l x := by
  refine ⟨fun h => ⟨by rw [← h.1, level_list1], ?_⟩, KeptArgs.one⟩
  obtain ⟨-, u, hu, -⟩ | ⟨-, u, -, hu, -⟩ | ⟨-, ha, -⟩ := h.2.cons_cases
  · cases hu
  · cases hu
  · exact ha

theorem kwote_cases (x : Object) : kwote x = list2 (.symbol .quote) x ∨
    (kwote x = x ∧ ((∃ name, x = .symbol (.keyword name)) ∨ (∃ i, x = .fixnum i) ∨
      ∃ i, x = .other i)) := by
  cases x with
  | symbol s =>
    cases s with
    | keyword name => exact .inr ⟨rfl, .inl ⟨name, rfl⟩⟩
    | _ => exact .inl rfl
  | fixnum i => exact .inr ⟨rfl, .inr (.inl ⟨i, rfl⟩)⟩
  | other i => exact .inr ⟨rfl, .inr (.inr ⟨i, rfl⟩)⟩
  | _ => exact .inl rfl

theorem kept_kwote {x : Object} : Kept j l (kwote x) ↔ Kept j l x := by
  obtain h | ⟨h, -⟩ := kwote_cases x
  · rw [h]
    exact (kept_call (f := .quote) (by decide)).trans kept_list1
  · rw [h]

theorem Kept.args2 {a b : Object} (ha : Kept j l a) (hb : Kept j m b) :
    KeptArgs j (max l m) (.cons a (list1 b)) :=
  KeptArgs.cons ha (KeptArgs.one hb)

theorem kept_evalQuoted {ax dx : Object} (ha : Kept j l ax) (hd : Kept j 0 dx) :
    Kept j l (cdrForm (evalQuoted ax dx).1 (evalQuoted ax dx).2) := by
  have hquoted : Kept j l (call .listStar (.cons ax (list1 (kwote dx)))) := by
    have := (kept_call (f := .listStar) (by decide)).2 (Kept.args2 ha (kept_kwote.2 hd))
    rwa [Nat.max_eq_left (Nat.zero_le l)] at this
  cases dx with
  | nil => exact (kept_call (by decide)).2 (KeptArgs.one ha)
  | cons y d =>
    cases d with
    | nil =>
      have hy : Kept j 0 y := by
        refine kept_list1.1 ⟨hd.1, ?_⟩
        obtain ⟨-, u, hu, -⟩ | ⟨-, u, -, hu, -⟩ | ⟨hm, ha, hd⟩ := hd.2.cons_cases
        · cases hu
        · cases hu
        · exact .cons _ _ _ _ hm ha hd
      have := (kept_call (f := .list) (by decide)).2 (Kept.args2 ha (kept_kwote.2 hy))
      rwa [Nat.max_eq_left (Nat.zero_le l)] at this
    | _ => exact hquoted
  | _ => exact hquoted

theorem kept_merge {x : Object} {a : CarCode × Object} {d : CdrCode × Object}
    (ha : Kept j l (carForm a.1 a.2)) (hd : Kept j m (cdrForm d.1 d.2))
    (hquote : d.1 = .quote → m = 0) (hx : a.1 = .quote → d.1 = .quote → Kept j (max l m) x) :
    Kept j (max l m) (cdrForm (merge x a.1 a.2 d.1 d.2).1 (merge x a.1 a.2 d.1 d.2).2) := by
  obtain ⟨a, ax⟩ := a
  obtain ⟨d, dx⟩ := d
  have hcall {f : Symbol} (hf : ¬ Mark (.symbol f)) {l : ℕ} {args : Object}
      (h : KeptArgs j l args) : Kept j l (call f args) := (kept_call hf).2 h
  have hargs {f : Symbol} (hf : ¬ Mark (.symbol f)) {l : ℕ} {args : Object}
      (h : Kept j l (call f args)) : KeptArgs j l args := (kept_call hf).1 h
  cases d with
  | quote =>
    obtain rfl := hquote rfl
    rw [Nat.max_eq_left (Nat.zero_le l)] at hx ⊢
    have hdx : Kept j 0 dx := kept_kwote.1 hd
    have htail {f : Symbol} (hf : ¬ Mark (.symbol f)) (ha : Kept j l ax) :
        Kept j l (call f (.cons ax (list1 (kwote dx)))) := by
      have := hcall hf (Kept.args2 ha (kept_kwote.2 hdx))
      rwa [Nat.max_eq_left (Nat.zero_le l)] at this
    cases a with
    | quote => exact kept_kwote.2 (hx rfl rfl)
    | eval => exact kept_evalQuoted ha hdx
    | append | nconc =>
      simp only [merge]
      split_ifs
      · exact ha
      · exact htail (by decide) ha
  | eval => cases a <;> exact hcall (by decide) (Kept.args2 ha hd)
  | list | listx =>
    have hd' := hargs (by decide) hd
    cases a with
    | quote | eval => exact hcall (by decide) (KeptArgs.cons ha hd')
    | append | nconc => exact hcall (by decide) (Kept.args2 ha hd)
  | append =>
    cases a with
    | append => exact hcall (by decide) (KeptArgs.cons ha (hargs (by decide) hd))
    | _ => exact hcall (by decide) (Kept.args2 ha hd)
  | nconc =>
    cases a with
    | nconc => exact hcall (by decide) (KeptArgs.cons ha (hargs (by decide) hd))
    | _ => exact hcall (by decide) (Kept.args2 ha hd)

theorem evalQuoted_code (ax dx : Object) : (evalQuoted ax dx).1 ≠ .quote := by
  cases dx with
  | cons y d => cases d <;> exact nofun
  | _ => exact nofun

theorem merge_quote (x : Object) (a : CarCode) (ax : Object) (d : CdrCode) (dx : Object) :
    (merge x a ax d dx).1 = .quote ↔ a = .quote ∧ d = .quote := by
  cases d with
  | quote =>
    cases a with
    | quote => exact ⟨fun _ => ⟨rfl, rfl⟩, fun _ => rfl⟩
    | eval => exact ⟨fun h => absurd h (evalQuoted_code ax dx), fun h => nomatch h.1⟩
    | _ => simp only [merge]; split_ifs <;> simp
  | _ => cases a <;> simp [merge]

theorem wrap_quote (d : CdrCode) (x : Object) : (wrap d x).1 = .quote ↔ d = .quote := by
  cases d <;> simp [wrap]

theorem wrap_form (d : CdrCode) (x : Object) :
    carForm (wrap d x).1 (wrap d x).2 = cdrForm d x := by
  cases d <;> rfl

theorem finish_form {a : CarCode} {x r : Object} (h : finish a x = .ok r) : r = carForm a x := by
  cases a with
  | quote => exact (Except.ok.inj h).symm
  | eval => exact (Except.ok.inj h).symm
  | append => cases h
  | nconc => cases h

theorem commaCode_ne (c : Comma) : commaCode c ≠ .quote := by
  cases c <;> exact nofun

theorem carForm_commaCode (c : Comma) (x : Object) : carForm (commaCode c) x = x := by
  cases c <;> rfl

/-- With this fuel _cl_backq_cdr quotes what has no commas, and takes one level from the
others. -/
def CdrKeeps (n : ℕ) : Prop :=
  ∀ k x d, backqCdr n x = .ok d → Built Constant .tail k x → (d.1 = .quote ↔ level x = 0) ∧
    ∀ j, k = j + 1 → Kept j (level x - 1) (cdrForm d.1 d.2)

/-- The same for _cl_backq_car. -/
def CarKeeps (n : ℕ) : Prop :=
  ∀ k x a, backqCar n x = .ok a → Built Constant .element k x → (a.1 = .quote ↔ level x = 0) ∧
    ∀ j, k = j + 1 → Kept j (level x - 1) (carForm a.1 a.2)

theorem kept_of_level {p : Position} {x : Object} (hb : Built Constant p k x)
    (hl : level x = 0) (j : ℕ) : Kept j 0 x :=
  ⟨hl, (hb.shift j (by omega) (by omega)).element⟩

theorem cdrKeeps_succ {n : ℕ} (hcdr : CdrKeeps n) (hcar : CarKeeps n) : CdrKeeps (n + 1) := by
  intro k x d h hb
  by_cases hx : ∀ ax dx, x ≠ .cons ax dx
  · have hl := level_atom hx
    rw [backqCdr_atom n hx] at h
    cases h
    refine ⟨iff_of_true rfl hl, fun j _ => ?_⟩
    rw [hl]
    exact kept_kwote.2 (kept_of_level hb hl j)
  · obtain ⟨ax, dx, rfl⟩ : ∃ ax dx, x = .cons ax dx := by simpa using hx
    obtain ⟨m, hm, ⟨hu, rfl⟩ | ⟨hc, a, e, ha, he, rfl⟩⟩ := backqCdr_cases h
    · obtain ⟨hq, -⟩ | ⟨c, u, rfl, rfl, hj⟩ | ⟨hm', -⟩ := hb.cons_cases
      · rw [hu] at hq
        cases hq
      · change (CdrCode.eval = .quote ↔ level (list2 _ u) = 0) ∧
          ∀ j, k = j + 1 → Kept j (level (list2 _ u) - 1) u
        rw [level_comma]
        exact ⟨iff_of_false nofun (by omega), fun j hk => ⟨rfl, hj j hk⟩⟩
      · exact absurd (.inr ⟨.unquote, hu⟩) hm'
    · cases hm
      obtain ⟨rfl, u, rfl, hbu, ht⟩ | ⟨c, -, hc', -⟩ | ⟨hmark, hba, hbd⟩ := hb.cons_cases
      · have hu : level u = 0 := ht rfl
        have hl : level (.cons (.symbol .quasiquote) (list1 u)) = 0 :=
          (level_backquote u).trans (by omega)
        have he1 : e.1 = .quote := by
          refine (((hcdr (k + 1) _ _ he) hbu.list1).1).2 ?_
          rw [level_list1, hu]
        have ha1 : a.1 = .quote := by
          cases n with
          | zero => cases ha
          | succ n => cases ha; rfl
        have hmerge := (merge_quote (.cons (.symbol .quasiquote) (list1 u)) a.1 a.2 e.1
          e.2).2 ⟨ha1, he1⟩
        refine ⟨iff_of_true hmerge hl, fun j _ => ?_⟩
        rw [hl, ha1, he1]
        exact kept_kwote.2 (kept_of_level hb hl j)
      · exact absurd ⟨c, hc'⟩ hc
      · have iha := hcar k _ _ ha hba
        have ihd := hcdr k _ _ he hbd
        have hl := level_cons dx hmark
        refine ⟨?_, fun j hk => ?_⟩
        · rw [merge_quote, iha.1, ihd.1, hl]
          omega
        · have hmax : level (.cons ax dx) - 1 = max (level ax - 1) (level dx - 1) := by
            rw [hl]
            omega
          rw [hmax]
          refine kept_merge (iha.2 j hk) (ihd.2 j hk) (fun hq => ?_) fun ha1 he1 => ?_
          · rw [ihd.1.1 hq]
          · have hz := iha.1.1 ha1
            have hz' := ihd.1.1 he1
            rw [hz, hz']
            exact kept_of_level hb (by rw [hl]; omega) j

theorem carKeeps_succ {n : ℕ} (hcdr : CdrKeeps n) (hcar : CarKeeps n) : CarKeeps (n + 1) := by
  intro k x a h hb
  by_cases hx : ∀ ax dx, x ≠ .cons ax dx
  · have hl := level_atom hx
    rw [backqCar_atom n hx] at h
    cases h
    refine ⟨iff_of_true rfl hl, fun j _ => ?_⟩
    rw [hl]
    exact kept_kwote.2 (kept_of_level hb hl j)
  · obtain ⟨ax, dx, rfl⟩ : ∃ ax dx, x = .cons ax dx := by simpa using hx
    obtain ⟨m, hm, ⟨hq, b, r, hb', hr, ha⟩ | ⟨c, rfl, rfl⟩ | ⟨hmark, d, hd, rfl⟩⟩ :=
      backqCar_cases h
    · cases hm
      obtain ⟨-, u, rfl, hbu, -⟩ | ⟨c, -, hc, -⟩ | ⟨hm', -⟩ := hb.cons_cases
      · have hku := (hcar (k + 1) u b hb' hbu).2 k rfl
        rw [← finish_form hr] at hku
        have ihr := hcar k r a ha hku.2
        subst hq
        rw [show level (.cons (.symbol .quasiquote) (list1 u)) = level r from
          (level_backquote u).trans hku.1.symm]
        exact ihr
      · rw [hq] at hc
        cases c <;> cases hc
      · exact absurd (.inl hq) hm'
    · obtain ⟨hq, -⟩ | ⟨c', u, -, rfl, hj⟩ | ⟨hm', -⟩ := hb.cons_cases
      · cases c <;> cases hq
      · rw [show level (.cons (.symbol c.symbol) (list1 u)) = level u + 1 from
          level_comma c u]
        refine ⟨iff_of_false (commaCode_ne c) (by omega), fun j hk => ?_⟩
        rw [carForm_commaCode]
        exact ⟨rfl, hj j hk⟩
      · exact absurd (.inr ⟨c, rfl⟩) hm'
    · cases hm
      obtain ⟨hq, -⟩ | ⟨c, -, hc, -⟩ | ⟨-, hba, hbd⟩ := hb.cons_cases
      · exact absurd (.inl hq) hmark
      · exact absurd (.inr ⟨c, hc⟩) hmark
      · have ihd := hcdr k _ _ hd (.cons _ _ _ _ hmark hba hbd)
        rw [wrap_quote, wrap_form]
        exact ihd

theorem expander_keeps (n : ℕ) : CdrKeeps n ∧ CarKeeps n := by
  induction n with
  | zero => exact ⟨fun k x d h => (by cases h), fun k x a h => (by cases h)⟩
  | succ n ih => exact ⟨cdrKeeps_succ ih.1 ih.2, carKeeps_succ ih.1 ih.2⟩

end BackquoteExpansion
