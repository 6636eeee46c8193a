import Ecl.FrameStack

/-! Runs of threads with frame stacks. Identifiers of blocks and catch tags share one search, and
the cleanup code of the C macros keeps a pointer into the stack: exits reach their targets where
these do not meet. -/
namespace FrameStack

open ControlContexts
open FailingRuns (bind_ok)

def translate : Event → ControlContexts.Event Tag Registers
  | .block => .push .block
  | .tagbody => .push .tagbody
  | .catching tag => .push (.catching tag)
  | .protect _ => .push .protect
  | .leave => .leave
  | .returnFrom a => .exit a
  | .go a => .exit a
  | .throwing tag => .throwing tag
  | .cleanupEnd => .cleanupEnd
  | .setLimit _ => .idle
  | .work regs => .work regs

/-- The frames that carry the identifier of activation a are not those of a catch, nor those of
this thread when another one drew it. -/
def ClearExit (w : World) (t a : ℕ) : Prop :=
  ∀ id u, w.records a = some (id, u) → ∀ g ∈ (w.threads t).frames, g.val = id →
    u = t ∧ ∀ tag, g.point.form ≠ .catching tag

def Clear (w : World) (t : ℕ) : Event → Prop
  | .block => (w.threads t).frameId < 2 ^ 62 ∧
      ((w.threads t).limit ≤ (w.threads t).top + 1 → NoPointers (w.threads t))
  | .tagbody => (w.threads t).frameId < 2 ^ 62 ∧
      ((w.threads t).limit ≤ (w.threads t).top + 1 → NoPointers (w.threads t))
  | .catching tag => tag ≠ .protectTag ∧
      ((w.threads t).limit ≤ (w.threads t).top + 1 → NoPointers (w.threads t))
  | .protect _ => (w.threads t).limit ≤ (w.threads t).top + 1 → NoPointers (w.threads t)
  | .setLimit _ => NoPointers (w.threads t)
  | .returnFrom a => ClearExit w t a
  | .go a => ClearExit w t a
  | .throwing tag => tag ≠ .protectTag ∧
      ∀ g ∈ (w.threads t).frames, g.val = tag → g.point.form.isExit = false
  | _ => True

theorem Recorded.fixnums {w : World} (h : Recorded w) : Fixnums w.records := by
  intro a id t hr
  obtain ⟨_, n, _, _, hn⟩ := h.fixnum a id t hr
  exact ⟨n, hn⟩

theorem simulates_thread {w : World} {s : System Tag Registers} (h : Simulates w s) {t : ℕ}
    {th : Thread} {c : Control Tag Registers} (hagrees : Agrees w.records w.next t th c)
    (hid : th.frameId = (w.threads t).frameId) :
    Simulates { w with threads := Function.update w.threads t th }
      ⟨Function.update s.threads t c, s.next + 0⟩ := by
  refine ⟨h.next, fun u => ?_, ⟨fun a id u hr => ?_, h.recorded.injective⟩⟩
  · by_cases hu : u = t
    · subst hu
      simpa using hagrees
    · simpa [Function.update_of_ne hu] using h.threads u
  · obtain ⟨hlt, n, hn, hbound, rfl⟩ := h.recorded.fixnum a id u hr
    refine ⟨hlt, n, ?_, hbound, rfl⟩
    by_cases hu : u = t
    · subst hu
      rwa [show (Function.update w.threads u th u).frameId = th.frameId by simp, hid]
    · dsimp only
      rwa [Function.update_of_ne hu]

theorem inThread_ok {w w' : World} {t : ℕ}
    {f : Thread → Except Fault (Outcome Tag Registers × Thread)} {o : Outcome Tag Registers}
    (h : w.inThread t f = .ok (o, w')) : ∃ th, f (w.threads t) = .ok (o, th) ∧
      w' = { w with threads := Function.update w.threads t th } := by
  obtain ⟨⟨o', th⟩, hf, hok⟩ := bind_ok h
  obtain ⟨rfl, rfl⟩ := Prod.mk.inj (Except.ok.inj hok)
  exact ⟨th, hf, rfl⟩

theorem bind_lost {α β : Type} {x : Except Fault α} {f : α → Except Fault β}
    (hx : x ≠ .error .lost) (hf : ∀ a, x = .ok a → f a ≠ .error .lost) :
    x >>= f ≠ .error .lost := by
  cases x with
  | error e =>
    intro h
    exact hx (congrArg Except.error (Except.error.inj h))
  | ok a => exact hf a rfl

theorem inThread_lost {w : World} {t : ℕ}
    {f : Thread → Except Fault (Outcome Tag Registers × Thread)}
    (hf : f (w.threads t) ≠ .error .lost) : w.inThread t f ≠ .error .lost :=
  bind_lost hf fun _ _ => by simp [pure, Except.pure]

theorem clearExit_iff {w : World} {s : System Tag Registers} (h : Simulates w s) {t a u : ℕ}
    {id : Tag} (hr : w.records a = some (id, u)) (hclear : ClearExit w t a) :
    ∀ g ∈ (w.threads t).frames, g.val = id ↔ g.point.act = a ∧ g.point.form.isExit := by
  intro g hg
  have hproper := (h.threads t).proper g hg
  obtain ⟨n, hn⟩ := h.recorded.fixnums a id u hr
  constructor
  · intro hval
    obtain ⟨rfl, hcatch⟩ := hclear id u hr g hg hval
    cases hform : g.point.form with
    | catching tag => exact absurd hform (hcatch tag)
    | protect =>
      simp only [Proper, hform] at hproper
      rw [hproper, hn] at hval
      exact absurd hval (by simp)
    | block | tagbody =>
      simp only [Proper, hform, hval] at hproper
      exact ⟨h.recorded.injective _ _ _ hproper hr, rfl⟩
  · rintro ⟨rfl, hexit⟩
    cases hform : g.point.form with
    | catching tag => simp [hform, Form.isExit] at hexit
    | protect => simp [hform, Form.isExit] at hexit
    | block | tagbody =>
      simp only [Proper, hform, hr] at hproper
      exact (congrArg Prod.fst (Option.some.inj hproper)).symm

theorem clearThrow_iff {w : World} {s : System Tag Registers} (h : Simulates w s) {t : ℕ}
    {tag : Tag} (htag : tag ≠ .protectTag)
    (hclear : ∀ g ∈ (w.threads t).frames, g.val = tag → g.point.form.isExit = false) :
    ∀ g ∈ (w.threads t).frames, g.val = tag ↔ g.point.form = .catching tag := by
  intro g hg
  have hproper := (h.threads t).proper g hg
  constructor
  · intro hval
    have hexit := hclear g hg hval
    cases hform : g.point.form with
    | catching tag' =>
      simp only [Proper, hform] at hproper
      rw [← hval, hproper.1]
    | protect =>
      simp only [Proper, hform] at hproper
      exact absurd (hval.symm.trans hproper) htag
    | block => simp [hform, Form.isExit] at hexit
    | tagbody => simp [hform, Form.isExit] at hexit
  · intro hform
    simp only [Proper, hform] at hproper
    exact hproper.1

theorem Agrees.later {records records' : ℕ → Option (Tag × ℕ)} {next next' t : ℕ} {th : Thread}
    {c : Control Tag Registers} (h : Agrees records next t th c)
    (hrecords : ∀ a < next, records' a = records a) (hnext : next ≤ next') :
    Agrees records' next' t th c := by
  refine ⟨h.regs, h.contexts, fun g hg => ?_, fun g hg => Nat.lt_of_lt_of_le (h.older g hg) hnext,
    h.distinct⟩
  have hproper := h.proper g hg
  unfold Proper at *
  rwa [hrecords _ (h.older g hg)]

theorem push_simulates {w : World} {s : System Tag Registers} (h : Simulates w s) {t : ℕ}
    (th : Thread) {th' : Thread} {records' : ℕ → Option (Tag × ℕ)} {val : Tag} {form : Form Tag}
    {native : Bool} (hagrees : Agrees records' w.next t th (s.threads t))
    (hrecords : ∀ a < w.next, records' a = w.records a)
    (hroom : th.limit ≤ th.top + 1 → NoPointers th)
    (hproper : Proper records' t ⟨val, ⟨w.next, form, th.regs⟩, native⟩)
    (hpush : frsPush w.margin ⟨val, ⟨w.next, form, th.regs⟩, native⟩ th = .ok th')
    (hrecorded : th'.frameId = th.frameId → Recorded { w with
      threads := Function.update w.threads t th', records := records', next := w.next + 1 }) :
    ∃ s', s.step t (.push form) = some (.pushed ⟨w.next, form, th.regs⟩, s') ∧
      Simulates { w with
        threads := Function.update w.threads t th'
        records := records'
        next := w.next + 1 } s' := by
  obtain ⟨hnew, hid⟩ := frsPush_spec hagrees hroom hproper rfl hpush
  have hstep : s.step t (.push form) = some (.pushed ⟨w.next, form, th.regs⟩,
      ⟨Function.update s.threads t
        ⟨.frame ⟨w.next, form, th.regs⟩ :: (s.threads t).contexts, th.regs⟩, w.next + 1⟩) := by
    rw [System.step, ControlContexts.step, Option.map_some, h.next, hagrees.regs]
    rfl
  rw [hagrees.regs] at hnew
  refine ⟨_, hstep, rfl, fun u => ?_, hrecorded hid⟩
  by_cases hu : u = t
  · subst hu
    simpa only [Function.update_self] using hnew
  · simpa only [Function.update_of_ne hu] using (h.threads u).later hrecords (Nat.le_succ _)

theorem setLimit_fault {margin n : ℕ} {th : Thread} : setLimit margin n th ≠ .error .lost := by
  unfold setLimit
  split <;> simp

theorem frsPush_fault {margin : ℕ} {g : FrsFrame} {th : Thread} :
    frsPush margin g th ≠ .error .lost := by
  refine bind_lost ?_ fun _ _ => by simp [pure, Except.pure]
  split
  case isTrue =>
    unfold frsOverflow
    split
    case isTrue => simp
    case isFalse => exact bind_lost setLimit_fault fun _ _ => setLimit_fault
  case isFalse => simp

theorem enter_simulates {w : World} {s : System Tag Registers} (h : Simulates w s) {t : ℕ}
    {val : Tag} {form : Form Tag} {native : Bool}
    (hroom : (w.threads t).limit ≤ (w.threads t).top + 1 → NoPointers (w.threads t))
    (hproper : ∀ regs, Proper w.records t ⟨val, ⟨w.next, form, regs⟩, native⟩)
    {o : Outcome Tag Registers} {w' : World}
    (hok : w.enter t (w.threads t) val form native = .ok (o, w')) :
    ∃ s', s.step t (.push form) = some (o, s') ∧ Simulates w' s' := by
  obtain ⟨th', hpush, hret⟩ := bind_ok hok
  obtain ⟨rfl, rfl⟩ := Prod.mk.inj (Except.ok.inj hret)
  refine push_simulates h _ (h.threads t) (fun _ _ => rfl) hroom (hproper _) hpush fun hid => ?_
  refine ⟨fun a id u hr => ?_, h.recorded.injective⟩
  obtain ⟨hlt, n, hn, hbound, hfix⟩ := h.recorded.fixnum a id u hr
  refine ⟨Nat.lt_succ_of_lt hlt, n, ?_, hbound, hfix⟩
  by_cases hu : u = t
  · subst hu
    dsimp only
    rwa [Function.update_self, hid]
  · dsimp only
    rwa [Function.update_of_ne hu]

theorem enterExit_simulates {w : World} {s : System Tag Registers} (h : Simulates w s) {t : ℕ}
    {form : Form Tag} (hform : form = .block ∨ form = .tagbody)
    (hfew : (w.threads t).frameId < 2 ^ 62)
    (hroom : (w.threads t).limit ≤ (w.threads t).top + 1 → NoPointers (w.threads t))
    {o : Outcome Tag Registers} {w' : World} (hok : w.enterExit t form = .ok (o, w')) :
    ∃ s', s.step t (.push form) = some (o, s') ∧ Simulates w' s' := by
  obtain ⟨⟨o₁, w₁⟩, henter, hret⟩ := bind_ok hok
  obtain ⟨rfl, rfl⟩ := Prod.mk.inj (Except.ok.inj hret)
  obtain ⟨th', hpush, hret'⟩ := bind_ok henter
  obtain ⟨rfl, rfl⟩ := Prod.mk.inj (Except.ok.inj hret')
  have hid : makeFixnum (w.threads t).frameId = .fixnum (w.threads t).frameId := by
    rw [makeFixnum, Nat.mod_eq_of_lt hfew]
  have hold : ∀ a < w.next, Function.update w.records w.next
      (some (makeFixnum (w.threads t).frameId, t)) a = w.records a :=
    fun a ha => Function.update_of_ne (Nat.ne_of_lt ha) _ _
  have hagrees := (h.threads t).later hold (Nat.le_refl _)
  refine push_simulates h { w.threads t with frameId := (w.threads t).frameId + 1 }
    ⟨hagrees.regs, hagrees.contexts, hagrees.proper, hagrees.older, hagrees.distinct⟩ hold hroom ?_
    hpush fun hframeId => ⟨fun a id u hr => ?_, fun a b r ha hb => ?_⟩
  · rcases hform with rfl | rfl
    · exact Function.update_self _ _ _
    · exact Function.update_self _ _ _
  · dsimp only at hr ⊢
    by_cases ha : a = w.next
    · rw [ha, Function.update_self] at hr
      obtain ⟨rfl, rfl⟩ := Prod.mk.inj (Option.some.inj hr)
      refine ⟨ha ▸ Nat.lt_succ_self _, (w.threads t).frameId, ?_, hfew, hid⟩
      rw [Function.update_self, hframeId]
      exact Nat.lt_succ_self _
    · rw [Function.update_of_ne ha] at hr
      obtain ⟨hlt, n, hn, hbound, hfix⟩ := h.recorded.fixnum a id u hr
      refine ⟨Nat.lt_succ_of_lt hlt, n, ?_, hbound, hfix⟩
      by_cases hu : u = t
      · subst hu
        rw [Function.update_self, hframeId]
        exact Nat.lt_succ_of_lt hn
      · rwa [Function.update_of_ne hu]
  · -- the new identifier is none of those drawn before
    have hnew : ∀ b r, w.records b = some r →
        r ≠ (makeFixnum (w.threads t).frameId, t) := by
      rintro b r hb rfl
      obtain ⟨_, n, hn, _, hfix⟩ := h.recorded.fixnum b _ _ hb
      rw [hid] at hfix
      have heq := Tag.fixnum.inj hfix
      omega
    dsimp only at ha hb
    by_cases han : a = w.next
    · rw [han, Function.update_self] at ha
      by_cases hbn : b = w.next
      · rw [han, hbn]
      · rw [Function.update_of_ne hbn] at hb
        exact absurd (Option.some.inj ha).symm (hnew b r hb)
    · rw [Function.update_of_ne han] at ha
      by_cases hbn : b = w.next
      · rw [hbn, Function.update_self] at hb
        exact absurd (Option.some.inj hb).symm (hnew a r ha)
      · rw [Function.update_of_ne hbn] at hb
        exact h.recorded.injective a b r ha hb

theorem inThread_simulates {w : World} {s : System Tag Registers} (h : Simulates w s) {t : ℕ}
    {f : Thread → Except Fault (Outcome Tag Registers × Thread)}
    {e : ControlContexts.Event Tag Registers} (he : e.pushes = 0)
    (hf : f (w.threads t) ≠ .error .lost ∧ ∀ o th, f (w.threads t) = .ok (o, th) →
      ∃ c, ControlContexts.step s.next (s.threads t) e = some (o, c) ∧
        Agrees w.records w.next t th c ∧ th.frameId = (w.threads t).frameId) :
    w.inThread t f ≠ .error .lost ∧ ∀ o w', w.inThread t f = .ok (o, w') →
      ∃ s', s.step t e = some (o, s') ∧ Simulates w' s' := by
  refine ⟨inThread_lost hf.1, fun o w' hok => ?_⟩
  obtain ⟨th, hth, rfl⟩ := inThread_ok hok
  obtain ⟨c, hc, hagrees, hid⟩ := hf.2 o th hth
  refine ⟨_, ?_, simulates_thread h hagrees hid⟩
  rw [System.step, hc, Option.map_some, he]

theorem exitById_spec {w : World} {s : System Tag Registers} (h : Simulates w s) {t a u : ℕ}
    {id : Tag} (hr : w.records a = some (id, u)) (hclear : ClearExit w t a) :
    exitById id (w.threads t) ≠ .error .lost ∧ ∀ o th, exitById id (w.threads t) = .ok (o, th) →
      ∃ c, ControlContexts.step s.next (s.threads t) (.exit a) = some (o, c) ∧
        Agrees w.records w.next t th c ∧ th.frameId = (w.threads t).frameId := by
  unfold exitById
  rw [ControlContexts.step]
  rcases frsSch_exit (h.threads t).contexts (clearExit_iff h hr hclear) with
    ⟨i, hsch, hactive, hat⟩ | ⟨hsch, hactive⟩
  · obtain ⟨o, th, c, hok, hexit, hagrees, hid⟩ :=
      eclUnwind_spec h.recorded.fixnums (h.threads t) hat
    rw [hsch, hactive]
    dsimp only
    rw [hok]
    refine ⟨by simp, fun o' th' he => ?_⟩
    obtain ⟨rfl, rfl⟩ := Prod.mk.inj (Except.ok.inj he)
    exact ⟨c, congrArg some hexit, hagrees, hid⟩
  · rw [hsch, hactive]
    refine ⟨by simp, fun o' th' he => ?_⟩
    obtain ⟨rfl, rfl⟩ := Prod.mk.inj (Except.ok.inj he)
    exact ⟨_, rfl, h.threads t, rfl⟩

theorem clThrow_spec {w : World} {s : System Tag Registers} (h : Simulates w s) {t : ℕ}
    {tag : Tag} (htag : tag ≠ .protectTag)
    (hclear : ∀ g ∈ (w.threads t).frames, g.val = tag → g.point.form.isExit = false) :
    clThrow tag (w.threads t) ≠ .error .lost ∧ ∀ o th, clThrow tag (w.threads t) = .ok (o, th) →
      ∃ c, ControlContexts.step s.next (s.threads t) (.throwing tag) = some (o, c) ∧
        Agrees w.records w.next t th c ∧ th.frameId = (w.threads t).frameId := by
  unfold clThrow exitById
  rw [ControlContexts.step]
  rcases frsSch_catch (h.threads t).contexts (clearThrow_iff h htag hclear) with
    ⟨i, a, hsch, hactive, hat⟩ | ⟨hsch, hactive⟩
  · obtain ⟨o, th, c, hok, hexit, hagrees, hid⟩ :=
      eclUnwind_spec h.recorded.fixnums (h.threads t) hat
    rw [hsch, hactive]
    dsimp only
    rw [hok]
    refine ⟨by simp, fun o' th' he => ?_⟩
    obtain ⟨rfl, rfl⟩ := Prod.mk.inj (Except.ok.inj he)
    exact ⟨c, congrArg some hexit, hagrees, hid⟩
  · rw [hsch, hactive]
    refine ⟨by simp, fun o' th' he => ?_⟩
    obtain ⟨rfl, rfl⟩ := Prod.mk.inj (Except.ok.inj he)
    exact ⟨_, rfl, h.threads t, rfl⟩

theorem exitRecord_simulates {w : World} {s : System Tag Registers} (h : Simulates w s) {t a : ℕ}
    (hclear : ClearExit w t a) :
    w.exitRecord t a ≠ .error .lost ∧ ∀ o w', w.exitRecord t a = .ok (o, w') →
      ∃ s', s.step t (.exit a) = some (o, s') ∧ Simulates w' s' := by
  unfold World.exitRecord
  split
  case h_1 => exact ⟨by simp, fun _ _ he => absurd he (by simp)⟩
  case h_2 id u hr => exact inThread_simulates h rfl (exitById_spec h hr hclear)

theorem enter_fault {w : World} {t : ℕ} {th : Thread} {val : Tag} {form : Form Tag}
    {native : Bool} : w.enter t th val form native ≠ .error .lost :=
  bind_lost frsPush_fault fun _ _ => by simp [pure, Except.pure]

theorem enterExit_fault {w : World} {t : ℕ} {form : Form Tag} :
    w.enterExit t form ≠ .error .lost :=
  bind_lost enter_fault fun _ _ => by simp [pure, Except.pure]

theorem leave_fault {th : Thread} : leave th ≠ .error .lost := by
  unfold leave
  split
  case h_1 => simp
  case h_2 => split <;> simp

theorem step_simulates {w : World} {s : System Tag Registers} (h : Simulates w s) {t : ℕ}
    {e : Event} (hclear : Clear w t e) :
    step w t e ≠ .error .lost ∧ ∀ o w', step w t e = .ok (o, w') →
      ∃ s', s.step t (translate e) = some (o, s') ∧ Simulates w' s' := by
  cases e with
  | block =>
    exact ⟨enterExit_fault, fun o w' => enterExit_simulates h (Or.inl rfl) hclear.1 hclear.2⟩
  | tagbody =>
    exact ⟨enterExit_fault, fun o w' => enterExit_simulates h (Or.inr rfl) hclear.1 hclear.2⟩
  | catching tag =>
    have hproper : ∀ regs, Proper w.records t ⟨tag, ⟨w.next, .catching tag, regs⟩, false⟩ :=
      fun _ => ⟨rfl, hclear.1⟩
    exact ⟨enter_fault, fun o w' => enter_simulates h hclear.2 hproper⟩
  | protect native =>
    have hproper : ∀ regs, Proper w.records t ⟨.protectTag, ⟨w.next, .protect, regs⟩, native⟩ :=
      fun _ => rfl
    exact ⟨enter_fault, fun o w' => enter_simulates h hclear hproper⟩
  | leave =>
    exact inThread_simulates (e := .leave) h rfl
      ⟨leave_fault, fun o th hok => leave_spec (h.threads t) hok _⟩
  | returnFrom a => exact exitRecord_simulates h hclear
  | go a => exact exitRecord_simulates h hclear
  | throwing tag => exact inThread_simulates h rfl (clThrow_spec h hclear.1 hclear.2)
  | cleanupEnd =>
    exact inThread_simulates h rfl (cleanupEnd_spec h.recorded.fixnums (h.threads t) s.next)
  | setLimit n =>
    refine inThread_simulates (f := askLimit w.margin n) (e := .idle) h rfl ⟨?_, fun o th hok => ?_⟩
    · unfold askLimit
      split <;> simp
    · unfold askLimit at hok
      split at hok
      case h_1 th₁ hset =>
        obtain ⟨rfl, rfl⟩ := Prod.mk.inj (Except.ok.inj hok)
        obtain ⟨hagrees, _, _, hid⟩ := setLimit_spec (h.threads t) hclear hset
        exact ⟨_, rfl, hagrees, hid⟩
      case h_2 =>
        obtain ⟨rfl, rfl⟩ := Prod.mk.inj (Except.ok.inj hok)
        exact ⟨_, rfl, h.threads t, rfl⟩
  | work regs =>
    refine inThread_simulates (f := work regs) (e := .work regs) h rfl
      ⟨by simp [work], fun o th hok => ?_⟩
    obtain ⟨rfl, rfl⟩ := Prod.mk.inj (Except.ok.inj hok)
    have hth := h.threads t
    exact ⟨_, rfl, ⟨rfl, hth.contexts, hth.proper, hth.older, hth.distinct⟩, rfl⟩

def AllClear : World → List (ℕ × Event) → Prop
  | _, [] => True
  | w, (t, e) :: es => Clear w t e ∧ ∀ o w', step w t e = .ok (o, w') → AllClear w' es

theorem run_simulates (es : List (ℕ × Event)) : ∀ {w : World} {s : System Tag Registers},
    Simulates w s → AllClear w es → run w es ≠ .error .lost ∧
    ∀ trace w', run w es = .ok (trace, w') →
      ∃ s', s.run (es.map fun e => (e.1, translate e.2)) = some (trace, s') ∧
        Simulates w' s' := by
  induction es with
  | nil =>
    intro w s h _
    refine ⟨by simp [run], fun trace w' hok => ?_⟩
    obtain ⟨rfl, rfl⟩ := Prod.mk.inj (Except.ok.inj hok)
    exact ⟨s, rfl, h⟩
  | cons e es ih =>
    obtain ⟨t, e⟩ := e
    intro w s h hclear
    obtain ⟨hnot, hstep⟩ := step_simulates h hclear.1
    constructor
    · refine bind_lost hnot fun r hr => ?_
      obtain ⟨o, w₁⟩ := r
      obtain ⟨s₁, _, hs₁⟩ := hstep o w₁ hr
      exact bind_lost (ih hs₁ (hclear.2 o w₁ hr)).1 fun _ _ => by simp [pure, Except.pure]
    · intro trace w' hok
      obtain ⟨⟨o, w₁⟩, hr, hrest⟩ := bind_ok hok
      obtain ⟨⟨tail, w₂⟩, htail, hret⟩ := bind_ok hrest
      obtain ⟨rfl, rfl⟩ := Prod.mk.inj (Except.ok.inj hret)
      obtain ⟨s₁, hs, hs₁⟩ := hstep o w₁ hr
      obtain ⟨s₂, hrun, hs₂⟩ := (ih hs₁ (hclear.2 o w₁ hr)).2 tail w₂ htail
      refine ⟨s₂, ?_, hs₂⟩
      rw [List.map_cons, System.run, hs]
      dsimp only
      rw [hrun]
      rfl

structure Initial (w : World) : Prop where
  frames : ∀ t, (w.threads t).frames = []
  cleanups : ∀ t, (w.threads t).cleanups = []
  records : ∀ a, w.records a = none

def World.system (w : World) : System Tag Registers :=
  ⟨fun t => ⟨[], (w.threads t).regs⟩, w.next⟩

theorem initial_simulates {w : World} (h : Initial w) : Simulates w w.system := by
  refine ⟨rfl, fun t => ⟨rfl, ?_, ?_, ?_, ?_⟩, ⟨fun a id t hr => ?_, fun a b r hr => ?_⟩⟩
  · rw [h.frames, h.cleanups]
    exact .nil
  · rw [h.frames]
    exact fun g hg => absurd hg List.not_mem_nil
  · rw [h.frames]
    exact fun g hg => absurd hg List.not_mem_nil
  · rw [h.frames]
    exact List.nodup_nil
  · rw [h.records] at hr
    exact absurd hr (Option.some_ne_none _).symm
  · rw [h.records] at hr
    exact absurd hr (Option.some_ne_none _).symm

def Reaches (w : World) (es : List (ℕ × Event)) : Prop :=
  run w es ≠ .error .lost ∧ ∀ trace w', run w es = .ok (trace, w') →
    ∃ s', w.system.run (es.map fun e => (e.1, translate e.2)) = some (trace, s')

/-- In a run of clear events every exit of every thread reaches its target over its cleanup
forms, with the registers saved there, and each protected form entered is still waiting or has
started its cleanup once. -/
theorem exits_reach_targets (w : World) (h : Initial w) (es : List (ℕ × Event))
    (hclear : AllClear w es) :
    run w es ≠ .error .lost ∧ ∀ trace w', run w es = .ok (trace, w') →
      ∃ s', w.system.run (es.map fun e => (e.1, translate e.2)) = some (trace, s') ∧
        Simulates w' s' ∧
        ∀ t a, (startedBy t trace).count a + (protects (s'.threads t).contexts).count a =
            (openedBy t trace).count a ∧
          (trace.flatMap fun r => r.2.opened).count a ≤ 1 := by
  obtain ⟨hnot, hrun⟩ := run_simulates es (initial_simulates h) hclear
  refine ⟨hnot, fun trace w' hok => ?_⟩
  obtain ⟨s', hs, hsim⟩ := hrun trace w' hok
  refine ⟨s', hs, hsim, fun t a => ⟨?_, ?_⟩⟩
  · have hconserved := run_conserves t a _ hs
    simpa [World.system, protects] using hconserved
  · have hfresh := run_opens_fresh a _ hs
    split at hfresh <;> omega

def newThread : Thread := ⟨[], 0, 8, 16, 8, 0, ⟨0, 0, 0⟩, []⟩

def newWorld : World := ⟨fun _ => newThread, fun _ => none, 0, 4⟩

theorem newWorld_initial : Initial newWorld := ⟨fun _ => rfl, fun _ => rfl, fun _ => rfl⟩

/-- A block left from inside an UNWIND-PROTECT. -/
def protectedBlock : List (ℕ × Event) :=
  [(0, .block), (0, .protect true), (0, .work ⟨3, 4, 5⟩), (0, .returnFrom 0), (0, .cleanupEnd)]

theorem exits_reach_targets_protectedBlock :
    ∃ trace w', run newWorld protectedBlock = .ok (trace, w') ∧
      Reaches newWorld protectedBlock ∧ (startedBy 0 trace).count 1 = 1 := by
  have hclear : AllClear newWorld protectedBlock := by
    refine ⟨⟨by decide, fun h => absurd h (by decide)⟩, fun o w h => ?_⟩
    obtain ⟨rfl, rfl⟩ := Prod.mk.inj (Except.ok.inj h)
    refine ⟨fun h => absurd h (by decide), fun o w h => ?_⟩
    obtain ⟨rfl, rfl⟩ := Prod.mk.inj (Except.ok.inj h)
    refine ⟨trivial, fun o w h => ?_⟩
    obtain ⟨rfl, rfl⟩ := Prod.mk.inj (Except.ok.inj h)
    refine ⟨fun id u hr g hg _ => ?_, fun o w h => ⟨trivial, fun _ _ _ => trivial⟩⟩
    obtain ⟨rfl, rfl⟩ := Prod.mk.inj (Option.some.inj hr)
    rcases List.mem_cons.mp hg with rfl | hg
    · have hne : ∀ tag : Tag, Form.protect ≠ .catching tag := by simp
      exact ⟨rfl, hne⟩
    · obtain rfl := List.mem_singleton.mp hg
      have hne : ∀ tag : Tag, Form.block ≠ .catching tag := by simp
      exact ⟨rfl, hne⟩
  obtain ⟨hnot, hall⟩ := exits_reach_targets newWorld newWorld_initial protectedBlock hclear
  refine ⟨_, _, rfl, ⟨hnot, fun trace w' hok => ?_⟩, by decide⟩
  obtain ⟨s', hs, _⟩ := hall trace w' hok
  exact ⟨s', hs⟩

/-- A block with the number that a catch inside it has as its tag. -/
def sharedNumber : List (ℕ × Event) := [(0, .block), (0, .catching (.fixnum 0)), (0, .returnFrom 0)]

def otherThread : List (ℕ × Event) := [(0, .block), (1, .block), (1, .returnFrom 0)]

def movedStack : List (ℕ × Event) :=
  [(0, .block), (0, .protect true), (0, .returnFrom 0), (0, .setLimit 20), (0, .cleanupEnd)]

theorem Reaches.outcomes {w : World} {es : List (ℕ × Event)} (h : Reaches w es)
    (trace : List (ℕ × Outcome Tag Registers))
    (hrun : (run w es).toOption.map Prod.fst = some trace) :
    (w.system.run (es.map fun e => (e.1, translate e.2))).map Prod.fst = some trace := by
  cases hr : run w es with
  | error f => simp [hr, Except.toOption] at hrun
  | ok r =>
    obtain ⟨trace', w'⟩ := r
    obtain ⟨s', hs⟩ := h.2 trace' w' hr
    rw [hr] at hrun
    rw [hs]
    exact hrun

theorem exits_miss_targets :
    (¬ ∀ w, Initial w → ∀ es, Reaches w es) ∧ ¬ Reaches newWorld sharedNumber ∧
      ¬ Reaches newWorld otherThread ∧ ¬ Reaches newWorld movedStack := by
  have hshared : ¬ Reaches newWorld sharedNumber := by
    intro h
    have hout := h.outcomes [(0, .pushed ⟨0, .block, ⟨0, 0, 0⟩⟩),
      (0, .pushed ⟨1, .catching (.fixnum 0), ⟨0, 0, 0⟩⟩),
      (0, .control ⟨1, .catching (.fixnum 0), ⟨0, 0, 0⟩⟩)] (by decide)
    revert hout
    decide
  refine ⟨fun h => hshared (h newWorld newWorld_initial _), hshared, ?_, ?_⟩
  · intro h
    have hout := h.outcomes [(0, .pushed ⟨0, .block, ⟨0, 0, 0⟩⟩),
      (1, .pushed ⟨1, .block, ⟨0, 0, 0⟩⟩), (1, .control ⟨1, .block, ⟨0, 0, 0⟩⟩)] (by decide)
    revert hout
    decide
  · exact fun h => h.1 rfl

end FrameStack
