import Ecl.Runs
import Ecl.DispatchAnswers

/-! Calls are answered as with empty caches while redefinitions leave alone what the caches hold. -/
namespace DispatchCaches

open GenericFunctions DispatchKeys
open MethodCache (Cache Value makeCache)

variable {O C G N S M : Type} {im : Image O C N M} [DecidableEq O] [DecidableEq C] [DecidableEq G]
  [DecidableEq N] [DecidableEq S] [DecidableEq M]

omit [DecidableEq G] in
theorem Valid.changed {s s' : System im G S} (h : Valid s) (hc : Changed s s')
    (hu : s.Unaffected s') : Valid s' where
  methods := by
    apply h.methods.replace hc.methodTable hc.methodList
    intro i k keys methods hkey hk hright g args vector hfill hkeys hsuits
    obtain ⟨rest, hg⟩ := keys_of_fill hfill g
    obtain ⟨rfl, rfl⟩ := List.cons.inj (hkeys.trans hg)
    have hf : s'.functions g = s.functions g := hc.functions g (Or.inl hk)
    rw [hf] at hfill
    rw [System.sys, Hierarchy.fill_congr s'.hierarchy s.hierarchy] at hfill
    rw [hu.methods g args vector hfill ⟨i, by rw [hkey, hg], by simpa [hg] using hk⟩]
    apply hright g args vector hfill hkeys
    simpa only [System.Suits, hf] using hsuits
  slots := by
    apply h.slots.replace hc.slotTable hc.slotList
    intro i k keys index hkey hk hright g args self ha hkeys
    obtain ⟨rfl, rfl⟩ := List.cons.inj hkeys
    have hf : s'.functions g = s.functions g := hc.functions g (Or.inr hk)
    rw [hf] at ha
    rw [System.sys, Hierarchy.dispatch_congr s'.hierarchy s.hierarchy] at ha
    rw [hu.slots g args self ha ⟨i, hkey, by simpa [accessorKeys] using hk⟩]
    exact hright g args self ha rfl
  frames := by
    rw [hc.frames, hc.stamps]
    exact h.frames
  ran := by
    rw [hc.ran]
    exact h.ran

omit [DecidableEq C] [DecidableEq G] in
theorem Live.inl_not_mem {V : Type} {c : Cache (Word G C) V} {g : G} {keys : List (Word G C)}
    (h : Live c (.inl g :: keys)) : .inl g ∉ c.clearList := by
  obtain ⟨i, -, hk⟩ := h
  exact hk _ rfl

theorem change_unaffected (s : System im G S) (g : G) (f : Function im S) :
    s.Unaffected (s.change g f) where
  methods g' args vector hfill hlive := by
    obtain ⟨rest, hkeys⟩ := keys_of_fill hfill g'
    rw [hkeys] at hlive
    have hf := (changed_change s g f).functions g' (Or.inl hlive.inl_not_mem)
    simp only [System.computeApplicableMethod, hf]
    rfl
  slots g' args self _ hlive := by
    have hf := (changed_change s g f).functions g' (Or.inr hlive.inl_not_mem)
    simp only [System.slotMethodIndex, System.slotMethodName, hf]
    rfl

omit [DecidableEq G] in
theorem obsolete_unaffected (s : System im G S) {c : C} {r : ClassRecord G N}
    (hr : s.classes c = some r) (stamp nextStamp : ℕ) : s.Unaffected { s with
      classes := Function.update s.classes c (some { r with stamp := stamp })
      nextStamp := nextStamp } where
  methods g args vector _ _ := rfl
  slots g args self _ _ := by
    have hlocation : ∀ name, ({ s with
        classes := Function.update s.classes c (some { r with stamp := stamp })
        nextStamp := nextStamp } : System im G S).slotLocation (im.classOf self) name =
          s.slotLocation (im.classOf self) name := by
      intro name
      by_cases hself : im.classOf self = c
      · simp only [System.slotLocation, hself, Function.update_self, hr, Option.bind_some]
      · simp only [System.slotLocation, Function.update_of_ne hself]
    have hfun := funext hlocation
    simp only [System.slotMethodIndex, hfun]
    rfl

omit [DecidableEq G] in
/-- An accessor that accesses a slot accesses the one that SLOT-VALUE finds. -/
theorem accessorAnswer_slot {s : System im G S} {g : G} {args : List O} {self : O}
    {value : Value (Index N)}
    (ha : accessedInstance ((s.functions g).dispatch s.sys) args = some self)
    (h : s.accessorAnswer g self args = .slot value) :
    ∃ index, value = .object index ∧ s.slotValue g args = some index := by
  unfold System.accessorAnswer at h
  by_cases hself : s.stamps self = none
  · simp [hself] at h
  rcases hindex : s.slotMethodIndex g self args with err | _ | index
  · simp [hself, hindex] at h
  · simp [hself, hindex] at h
  by_cases hobs : s.obsolete self = true
  · simp [hself, hindex, hobs] at h
  · simp only [if_neg hself, hindex, if_neg hobs] at h
    refine ⟨index, (Answer.slot.inj h).symm, ?_⟩
    cases hname : s.slotMethodName g args with
    | error e => simp [System.slotMethodIndex, hname, Except.map] at hindex
    | ok name =>
      simp only [System.slotMethodIndex, hname, Except.map, Except.ok.injEq] at hindex
      obtain ⟨name, rfl, hlocation⟩ := Option.bind_eq_some_iff.mp hindex
      simp [System.slotValue, ha, hname, hlocation, Except.toOption]

omit [DecidableEq G] in
theorem answer_slot {s : System im G S} {g : G} {args : List O} {value : Value (Index N)}
    (h : s.answer g args = .slot value) :
    ∃ index, value = .object index ∧ s.slotValue g args = some index := by
  have hmethod : ∀ (r : Except (Error O C) (Option (List M))),
      methodAnswer r ≠ (.slot value : Answer O C N M) := by
    rintro (err | _ | methods) <;> exact nofun
  have hstandard : s.standardAnswer g args ≠ .slot value := by
    unfold System.standardAnswer
    split
    · exact nofun
    · exact hmethod _
  simp only [System.answer] at h
  cases hd : (s.functions g).dispatch s.sys with
  | computed =>
    rw [hd] at h
    exact absurd h (hmethod _)
  | generic | restricted =>
    rw [hd] at h
    exact absurd h hstandard
  | reader =>
    rw [hd] at h
    cases ha : accessedInstance .reader args with
    | none => simp [ha] at h
    | some self =>
      simp only [ha] at h
      exact accessorAnswer_slot (hd.symm ▸ ha) h
  | writer =>
    rw [hd] at h
    cases ha : accessedInstance .writer args with
    | none => simp [ha] at h
    | some self =>
      simp only [ha] at h
      exact accessorAnswer_slot (hd.symm ▸ ha) h

theorem log_right {s : System im G S} {hash : List (Word G C) → ℕ} {g : G} {args : List O}
    (h : Valid s) (hsuits : s.Suits g args) : (s.log hash g args (s.answer g args)).Right where
  fresh := by
    obtain ⟨⟨s', a⟩, hcall⟩ := Option.isSome_iff_exists.mp (emptied_call_isSome hash s g args)
    have ha : a = s.answer g args := (call_spec (valid_emptied h) hsuits hcall).1
    simp only [System.log, hcall, Option.map_some, ha]
  slotValue _ hvalue := answer_slot hvalue

variable {hash : List (Word G C) → ℕ}

theorem Valid.resume {s : System im G S} {f : Frame O G} {frames : List (Frame O G)} (h : Valid s)
    (hframes : s.frames = f :: frames) (hok : s.Ok .resume) : Valid { s with
      frames := frames
      ran := s.log hash f.gf f.args (s.readIndex f.record) :: s.ran } := by
  obtain ⟨hkey, hlive, ha, hobs⟩ := hok f (by rw [hframes]; rfl)
  obtain ⟨index, hvalue, hright⟩ := h.slots f.record _ _ hkey hlive
  have hself : s.stamps f.self ≠ none := h.frames f (by rw [hframes]; exact List.mem_cons_self)
  have hindex := hright f.gf f.args f.self ha rfl
  have hanswer : s.answer f.gf f.args = s.readIndex f.record := by
    have haccessor : s.accessorAnswer f.gf f.self f.args = s.readIndex f.record := by
      simp only [System.accessorAnswer, if_neg hself, hindex, hobs, System.readIndex, hvalue]
      rfl
    rcases accessedInstance_some ha with ⟨hd, -⟩ | ⟨hd, -⟩
    · rw [hd] at ha
      simp only [System.answer, hd, ha, haccessor]
    · rw [hd] at ha
      simp only [System.answer, hd, ha, haccessor]
  have hsuits : s.Suits f.gf f.args := by
    intro _ hnil
    rcases accessedInstance_some ha with ⟨hd, -⟩ | ⟨hd, -⟩
    · exact absurd hnil (dispatch_reader hd).1
    · exact absurd hnil (dispatch_writer hd).1
  refine { h with frames := fun f' hf' => ?_, ran := ?_ }
  · exact h.frames f' (by rw [hframes]; exact List.mem_cons_of_mem f hf')
  · rw [← hanswer]
    exact List.forall_mem_cons.mpr ⟨log_right h hsuits, h.ran⟩

theorem Valid.next {s s' : System im G S} {e : Event im G S} (h : Valid s) (hok : s.Ok e)
    (hs : s.next hash e = some s') : Valid s' := by
  cases e with
  | call g args =>
    obtain ⟨⟨u, a⟩, hcall, hlog⟩ := Option.bind_eq_some_iff.mp hs
    obtain ⟨rfl, hu⟩ := call_spec h hok hcall
    by_cases ha : s.answer g args = .updateInstance
    · simp only [if_pos ha] at hlog
      exact Option.some.inj hlog ▸ hu
    · simp only [if_neg ha] at hlog
      rw [← Option.some.inj hlog]
      exact { hu with ran := List.forall_mem_cons.mpr ⟨log_right h hok, h.ran⟩ }
  | resume =>
    simp only [System.next] at hs
    cases hframes : s.frames with
    | nil =>
      rw [hframes] at hs
      cases hs
    | cons f frames =>
      rw [hframes] at hs
      exact Option.some.inj hs ▸ h.resume hframes hok
  | abandon =>
    simp only [System.next] at hs
    cases hframes : s.frames with
    | nil =>
      rw [hframes] at hs
      cases hs
    | cons f frames =>
      rw [hframes] at hs
      rw [← Option.some.inj hs]
      refine { h with frames := fun f' hf' => h.frames f' ?_ }
      rw [hframes]
      exact List.mem_cons_of_mem f hf'
  | allocate self =>
    obtain ⟨r, -, hs⟩ := Option.bind_eq_some_iff.mp hs
    rw [← Option.some.inj hs]
    refine { h with frames := fun f hf => ?_ }
    by_cases he : f.self = self
    · simp [he]
    · simpa [Function.update_of_ne he] using h.frames f hf
  | makeInstancesObsolete c =>
    obtain ⟨r, hr, hs⟩ := Option.bind_eq_some_iff.mp hs
    rw [← Option.some.inj hs]
    exact h.changed { Changed.refl s with } (obsolete_unaffected s hr _ _)
  | changeMethods g f =>
    rw [← Option.some.inj hs]
    exact h.changed (changed_change s g f) (change_unaffected s g f)
  | redefine c hierarchy finalized => exact h.changed (redefine_changed hs) (hok s' hs)

/-- NIL and an instance, the classes T, NULL, A, B and M, and one method, the reader of the slot
false. -/
def twoObjects : Image Bool (Fin 5) Bool Unit where
  classOf self := if self then 3 else 1
  t := 0
  methodClass _ := .reader false
  qualified _ := false

def precedenceList (m : Bool) (c : Fin 5) : List (Fin 5) :=
  if c = 0 then [0] else if c = 3 then if m then [3, 2, 4, 0] else [3, 2, 0] else [c, 0]

def hierarchyOf (m : Bool) : Hierarchy twoObjects where
  classOf self := if self then 3 else 1
  precedenceList := precedenceList m
  nil := false
  null := 1
  t := 0
  classOf_nil := rfl
  head := by cases m <;> decide
  nodup := by cases m <;> decide
  mem := by cases m <;> decide
  ordered := by cases m <;> decide
  classOf_eq := rfl
  t_eq := rfl
  t_mem := by cases m <;> decide

def readerOfA : Function twoObjects Unit where
  gf := {
    required := [()]
    argumentPrecedenceOrder := [()]
    methods := [()]
    specializers := fun _ => [.cls 2]
    required_nodup := List.nodup_singleton ()
    perm := List.Perm.refl [()]
    methods_nodup := List.nodup_singleton ()
    congruent := fun _ _ => rfl }
  standardClass := true
  accessors _ _ := rfl

def slotAt (name : Bool) (location : ℕ) : SlotLayouts.Slot Bool :=
  ⟨name, .index (some location), .standardEffective⟩

/-- A and B have the slot false, M has the slot true; the instance is one of B. -/
def beforeCalls : System twoObjects Unit Unit where
  hierarchy := hierarchyOf false
  classes c :=
    if c = 2 then some ⟨[slotAt false 0], true, [()], [], 0⟩
    else if c = 3 then some ⟨[slotAt false 0], true, [()], [], 1⟩
    else if c = 4 then some ⟨[slotAt true 0], true, [], [], 2⟩
    else none
  functions _ := readerOfA
  stamps self := if self then some 1 else none
  nextStamp := 3
  methodCache := makeCache 4096
  slotCache := makeCache 4096
  frames := []
  ran := []

theorem starts_beforeCalls : beforeCalls.Starts := ⟨rfl, rfl, rfl, rfl⟩

/-- A gets the slot true before the slot false, and so does B; the reader is made again. -/
def addSlot : Event twoObjects Unit Unit :=
  .redefine 2 (hierarchyOf false) [⟨3, [slotAt true 0, slotAt false 1], true, [()], [], [], []⟩,
    ⟨2, [slotAt true 0, slotAt false 1], true, [()], [], [((), ())], []⟩]

/-- B gets the superclass M, and with it the slot true before the slot false; the reader stays. -/
def addSuperclass : Event twoObjects Unit Unit :=
  .redefine 3 (hierarchyOf true) [⟨3, [slotAt true 0, slotAt false 1], true, [()], [], [], []⟩]

end DispatchCaches
