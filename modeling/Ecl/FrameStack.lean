import Ecl.ControlContexts
import Ecl.Runs
import Mathlib.Algebra.Ring.Nat

/-! The frame stacks of the threads, from src/c/stacks.d, src/c/cmpaux.d, src/h/stacks.h and the
frame instructions of src/c/interpreter.d. An activation number stands for the jump buffer of
a frame: it says whose code a long jump resumes. -/
namespace FrameStack

open ControlContexts

/-- Objects compared by EQ with frs_val. -/
inductive Tag where
  | fixnum (word : ℕ)
  | object (address : ℕ)
  | protectTag
  | dummyTag
  deriving DecidableEq

/-- A frame identifier has two bits less than a machine word. -/
def makeFixnum (n : ℕ) : Tag := .fixnum (n % 2 ^ 62)

/-- frs_ihs, frs_bds_ndx and frs_run_ndx, and what they save. -/
structure Registers where
  ihs : ℕ
  bds : ℕ
  run : ℕ
  deriving DecidableEq

/-- A frame; native tells the cleanup code of the C macros from that of the interpreter. -/
structure FrsFrame where
  val : Tag
  point : Frame Tag Registers
  native : Bool

/-- A pointer into the frame stack: the block of memory, and the offset from its start. -/
structure Pointer where
  block : ℕ
  index : ℤ
  deriving DecidableEq

/-- What a cleanup form keeps to go on afterwards: __next_fr in the C macros, the offset from
the top in the interpreter. -/
inductive Resume where
  | normal
  | pointer (fr : Pointer)
  | offset (n : ℤ)
  | garbage
  deriving DecidableEq

structure Cleanup where
  depth : ℕ
  resume : Resume
  deriving DecidableEq

/-- The frames of a thread, innermost first, so that org is the last one. -/
structure Thread where
  frames : List FrsFrame
  block : ℕ
  limit : ℕ
  size : ℕ
  limitSize : ℕ
  frameId : ℕ
  regs : Registers
  cleanups : List Cleanup

structure World where
  threads : ℕ → Thread
  /-- The identifier in the record of a block or tagbody, and the thread that drew it. -/
  records : ℕ → Option (Tag × ℕ)
  next : ℕ
  margin : ℕ

inductive Fault where
  | internalError
  | cannotShrink
  | notNow
  | lost
  deriving DecidableEq

def Thread.top (t : Thread) : ℤ := t.frames.length - 1

/-- si_set_limit and ecl_frs_set_limit, for the frame stack: the frames move to a new block. -/
def setLimit (margin newLimSize : ℕ) (t : Thread) : Except Fault Thread :=
  if t.top < 0 ∨ newLimSize < t.top then .error .cannotShrink
  else .ok { t with
    block := t.block + 1
    limit := newLimSize
    size := newLimSize + 2 * margin
    limitSize := newLimSize }

/-- frs_overflow, when the error is continued. What its handlers do is events before this one. -/
def frsOverflow (margin : ℕ) (t : Thread) : Except Fault Thread :=
  if t.size ≤ t.limit then .error .internalError
  else do
    let limitSize := t.limitSize
    let t ← setLimit margin limitSize { t with limit := t.limit + margin }
    setLimit margin (limitSize + limitSize / 2) t

/-- ecl_frs_push. -/
def frsPush (margin : ℕ) (frame : FrsFrame) (t : Thread) : Except Fault Thread := do
  let t ← (if t.limit ≤ t.top + 1 then frsOverflow margin t else .ok t : Except Fault Thread)
  return { t with frames := frame :: t.frames }

/-- frs_sch, with the offset of the frame found. -/
def frsSch (frameId : Tag) : List FrsFrame → Option ℤ
  | [] => none
  | f :: fs => if f.val = frameId then some fs.length else frsSch frameId fs

/-- The loop of ecl_unwind: the frame jumped to and those below it. It does not end well when
the stack has no such frame. -/
def scan (fr : Pointer) (block : ℕ) : List FrsFrame → Option (FrsFrame × List FrsFrame)
  | [] => none
  | f :: fs => if fr = ⟨block, fs.length⟩ ∨ f.val = .protectTag then some (f, fs)
    else scan fr block fs

/-- ecl_unwind, and what the code of the frame does first: a block or a catch pops its frame, a
tagbody keeps it, and UNWIND-PROTECT pops it and saves where the exit goes. -/
def eclUnwind (fr : Pointer) (t : Thread) : Except Fault (Outcome Tag Registers × Thread) :=
  match scan fr t.block t.frames with
  | none => .error .lost
  | some (f, fs) =>
    -- the long jump abandons the cleanup forms that were at work further in
    let t := { t with
      cleanups := t.cleanups.dropWhile (fs.length < ·.depth)
      regs := f.point.saved }
    let t := match f.point.form with
      | .tagbody => { t with frames := f :: fs }
      | .protect => { t with
        frames := fs
        cleanups := ⟨fs.length,
          if f.native then .pointer fr
          else if fr.block = t.block then .offset (fr.index - (fs.length - 1))
          else .garbage⟩ :: t.cleanups }
      | _ => { t with frames := fs }
    .ok (.control f.point, t)

/-- cl_return_from and cl_go: they differ in the values they pass and in the error text. -/
def exitById (id : Tag) (t : Thread) : Except Fault (Outcome Tag Registers × Thread) :=
  match frsSch id t.frames with
  | none => .ok (.controlError, t)
  | some index => eclUnwind ⟨t.block, index⟩ t

def clThrow (tag : Tag) (t : Thread) : Except Fault (Outcome Tag Registers × Thread) :=
  exitById tag t

/-- The end of a cleanup form: ECL_UNWIND_PROTECT_END or OP_PROTECT_EXIT. -/
def cleanupEnd (t : Thread) : Except Fault (Outcome Tag Registers × Thread) :=
  match t.cleanups with
  | [] => .error .notNow
  | c :: cs =>
    if c.depth ≠ t.frames.length then .error .notNow
    else
      let t := { t with cleanups := cs }
      match c.resume with
      | .normal => .ok (.normal, t)
      | .pointer fr => eclUnwind fr t
      | .offset n => eclUnwind ⟨t.block, t.top + n⟩ t
      | .garbage => .error .lost

/-- The normal exit from the innermost form. The bindings that OP_PROTECT_NORMAL undoes first
are work of the thread. -/
def leave (t : Thread) : Except Fault (Outcome Tag Registers × Thread) :=
  match t.frames with
  | [] => .error .notNow
  | f :: fs =>
    if (t.cleanups.head?.map Cleanup.depth) = some t.frames.length then .error .notNow
    else
      let t := { t with frames := fs }
      let t := if f.point.form.isProtect
        then { t with cleanups := ⟨fs.length, .normal⟩ :: t.cleanups } else t
      .ok (.left f.point, t)

/-- A call of si_set_limit. Its error that the limit is too small changes nothing. -/
def askLimit (margin newLimSize : ℕ) (t : Thread) :
    Except Fault (Outcome Tag Registers × Thread) :=
  match setLimit margin newLimSize t with
  | .ok t => .ok (.normal, t)
  | .error _ => .ok (.normal, t)

def work (regs : Registers) (t : Thread) : Except Fault (Outcome Tag Registers × Thread) :=
  .ok (.normal, { t with regs := regs })

inductive Event where
  | block
  | tagbody
  | catching (tag : Tag)
  | protect (native : Bool)
  | leave
  | returnFrom (a : ℕ)
  | go (a : ℕ)
  | throwing (tag : Tag)
  | cleanupEnd
  | setLimit (newLimSize : ℕ)
  | work (regs : Registers)
  deriving DecidableEq

def World.enter (w : World) (t : ℕ) (thread : Thread) (val : Tag) (form : Form Tag)
    (native : Bool) : Except Fault (Outcome Tag Registers × World) := do
  let point : Frame Tag Registers := ⟨w.next, form, thread.regs⟩
  let thread ← frsPush w.margin ⟨val, point, native⟩ thread
  return (.pushed point,
    { w with threads := Function.update w.threads t thread, next := w.next + 1 })

/-- BLOCK and TAGBODY: ECL_NEW_FRAME_ID, the record of the activation, and the frame. -/
def World.enterExit (w : World) (t : ℕ) (form : Form Tag) :
    Except Fault (Outcome Tag Registers × World) := do
  let thread := w.threads t
  let id := makeFixnum thread.frameId
  let (o, w') ← w.enter t { thread with frameId := thread.frameId + 1 } id form false
  return (o, { w' with records := Function.update w.records w.next (some (id, t)) })

def World.inThread (w : World) (t : ℕ)
    (f : Thread → Except Fault (Outcome Tag Registers × Thread)) :
    Except Fault (Outcome Tag Registers × World) := do
  let (o, thread) ← f (w.threads t)
  return (o, { w with threads := Function.update w.threads t thread })

def World.exitRecord (w : World) (t a : ℕ) : Except Fault (Outcome Tag Registers × World) :=
  match w.records a with
  | none => .error .notNow
  | some (id, _) => w.inThread t (exitById id)

def step (w : World) (t : ℕ) : Event → Except Fault (Outcome Tag Registers × World)
  | .block => w.enterExit t .block
  | .tagbody => w.enterExit t .tagbody
  | .catching tag => w.enter t (w.threads t) tag (.catching tag) false
  | .protect native => w.enter t (w.threads t) .protectTag .protect native
  | .leave => w.inThread t leave
  | .returnFrom a => w.exitRecord t a
  | .go a => w.exitRecord t a
  | .throwing tag => w.inThread t (clThrow tag)
  | .cleanupEnd => w.inThread t cleanupEnd
  | .setLimit n => w.inThread t (askLimit w.margin n)
  | .work regs => w.inThread t (work regs)

def run (w : World) : List (ℕ × Event) →
    Except Fault (List (ℕ × Outcome Tag Registers) × World)
  | [] => .ok ([], w)
  | (t, e) :: es => do
    let (o, w) ← step w t e
    let (trace, w) ← run w es
    return ((t, o) :: trace, w)

end FrameStack

namespace FrameStack

open ControlContexts
open FailingRuns (bind_ok)

def At (fs : List FrsFrame) (i : ℤ) (a : ℕ) : Prop :=
  ∃ above g below, fs = above ++ g :: below ∧ (below.length : ℤ) = i ∧ g.point.act = a ∧
    g.point.form.isProtect = false

def Resumes (block : ℕ) (fs : List FrsFrame) : Resume → Option ℕ → Prop
  | .normal, none => True
  | .pointer fr, some a => fr.block = block ∧ At fs fr.index a
  | .offset n, some a => At fs (fs.length - 1 + n) a
  | _, _ => False

inductive Matches (block : ℕ) :
    List (Context Tag Registers) → List FrsFrame → List Cleanup → Prop where
  | nil : Matches block [] [] []
  | frame {cs fs cl} (g : FrsFrame) (h : Matches block cs fs cl) :
      Matches block (.frame g.point :: cs) (g :: fs) cl
  | cleanup {cs fs cl goal c} (h : Matches block cs fs cl) (hdepth : c.depth = fs.length)
      (hresume : Resumes block fs c.resume goal) :
      Matches block (.cleanup goal :: cs) fs (c :: cl)

def Proper (records : ℕ → Option (Tag × ℕ)) (t : ℕ) (g : FrsFrame) : Prop :=
  match g.point.form with
  | .catching tag => g.val = tag ∧ tag ≠ .protectTag
  | .protect => g.val = .protectTag
  | _ => records g.point.act = some (g.val, t)

structure Recorded (w : World) : Prop where
  fixnum : ∀ a id t, w.records a = some (id, t) →
    a < w.next ∧ ∃ n < (w.threads t).frameId, n < 2 ^ 62 ∧ id = .fixnum n
  injective : ∀ a b r, w.records a = some r → w.records b = some r → a = b

structure Agrees (records : ℕ → Option (Tag × ℕ)) (next t : ℕ) (th : Thread)
    (c : Control Tag Registers) : Prop where
  regs : c.regs = th.regs
  contexts : Matches th.block c.contexts th.frames th.cleanups
  proper : ∀ g ∈ th.frames, Proper records t g
  older : ∀ g ∈ th.frames, g.point.act < next
  distinct : (th.frames.map (·.point.act)).Nodup

structure Simulates (w : World) (s : System Tag Registers) : Prop where
  next : s.next = w.next
  threads : ∀ t, Agrees w.records w.next t (w.threads t) (s.threads t)
  recorded : Recorded w

variable {block : ℕ} {cs : List (Context Tag Registers)} {fs : List FrsFrame}
  {cl : List Cleanup}

theorem Matches.depth_le (h : Matches block cs fs cl) : ∀ c ∈ cl, c.depth ≤ fs.length := by
  induction h with
  | nil => exact fun c hc => absurd hc List.not_mem_nil
  | frame g h ih => exact fun c hc => Nat.le_succ_of_le (ih c hc)
  | cleanup h hdepth _ ih =>
    intro c hc
    rcases List.mem_cons.mp hc with rfl | hc
    · exact Nat.le_of_eq hdepth
    · exact ih c hc

theorem Matches.dropWhile_eq (h : Matches block cs fs cl) :
    cl.dropWhile (fs.length < ·.depth) = cl := by
  cases cl with
  | nil => rfl
  | cons c cl =>
    have hle := h.depth_le c List.mem_cons_self
    rw [List.dropWhile_cons_of_neg]
    simpa using hle

theorem At.cons {g : FrsFrame} {i : ℤ} {a : ℕ} (h : At fs i a) : At (g :: fs) i a := by
  obtain ⟨above, f, below, rfl, hi, ha⟩ := h
  exact ⟨g :: above, f, below, rfl, hi, ha⟩

theorem At.self {g : FrsFrame} {a : ℕ} (ha : g.point.act = a)
    (hg : g.point.form.isProtect = false) : At (g :: fs) fs.length a :=
  ⟨[], g, fs, rfl, rfl, ha, hg⟩

theorem At.cases {g : FrsFrame} {i : ℤ} {a : ℕ} (h : At (g :: fs) i a) :
    (i = fs.length ∧ g.point.act = a ∧ g.point.form.isProtect = false) ∨
      (i < fs.length ∧ At fs i a) := by
  obtain ⟨above, f, below, heq, hlen, ha⟩ := h
  cases above with
  | nil =>
    obtain ⟨rfl, rfl⟩ := List.cons.inj heq
    exact Or.inl ⟨hlen.symm, ha⟩
  | cons g' above =>
    obtain ⟨_, rfl⟩ := List.cons.inj heq
    refine Or.inr ⟨?_, above, f, below, rfl, hlen, ha⟩
    simp
    omega

theorem At.mem {i : ℤ} {a : ℕ} (h : At fs i a) : a ∈ fs.map (·.point.act) := by
  obtain ⟨above, f, below, rfl, _, rfl, _⟩ := h
  simp

theorem proper_protect {records : ℕ → Option (Tag × ℕ)} {t : ℕ} {g : FrsFrame}
    (hfix : ∀ a id t, records a = some (id, t) → ∃ n, id = .fixnum n)
    (h : Proper records t g) : g.val = .protectTag ↔ g.point.form.isProtect := by
  unfold Proper at h
  split at h
  case h_1 tag hform =>
    rw [hform]
    simp only [Form.isProtect, h.1]
    simp [h.2]
  case h_2 hform => simp [hform, h, Form.isProtect]
  case h_3 hcatch hprotect =>
    obtain ⟨n, hn⟩ := hfix _ _ _ h
    cases hform : g.point.form with
    | block => simp [hn, Form.isProtect]
    | tagbody => simp [hn, Form.isProtect]
    | catching tag => exact absurd hform (hcatch tag)
    | protect => exact absurd hform hprotect

/-- The loop of ecl_unwind stops at the context where the exit goes first. -/
theorem scan_unwind (h : Matches block cs fs cl) {i : ℤ} {a : ℕ}
    (hprotect : ∀ g ∈ fs, g.val = .protectTag ↔ g.point.form.isProtect)
    (hnodup : (fs.map (·.point.act)).Nodup) (hat : At fs i a) :
    ∃ f rest cs', scan ⟨block, i⟩ block fs = some (f, rest) ∧
      unwind a cs = some (f.point, cs') ∧
      Matches block cs' rest (cl.dropWhile (rest.length < ·.depth)) ∧
      (∃ above, fs = above ++ f :: rest) ∧ (f.point.form.isProtect → At rest i a) := by
  induction h with
  | nil =>
    obtain ⟨above, g, below, heq, _⟩ := hat
    simp at heq
  | @frame cs fs cl g h ih =>
    have hnodup' := List.nodup_cons.mp hnodup
    by_cases hstop : g.point.act = a ∨ g.point.form.isProtect
    · refine ⟨g, fs, cs, ?_, ?_, ?_, ⟨[], rfl⟩, ?_⟩
      · rw [scan, if_pos]
        rcases hstop with ha | hp
        · rcases hat.cases with ⟨rfl, _⟩ | ⟨_, hrest⟩
          · exact Or.inl rfl
          · exact absurd hrest.mem (ha ▸ hnodup'.1)
        · exact Or.inr ((hprotect g List.mem_cons_self).mpr hp)
      · rw [unwind, if_pos hstop]
      · rw [h.dropWhile_eq]
        exact h
      · intro hp
        rcases hat.cases with ⟨_, _, hnot⟩ | ⟨_, hrest⟩
        · rw [hnot] at hp
          exact absurd hp Bool.false_ne_true
        · exact hrest
    · rcases hat.cases with ⟨_, ha, _⟩ | ⟨hi, hrest⟩
      · exact absurd (Or.inl ha) hstop
      · obtain ⟨f, rest, cs', hscan, hunwind, hm, ⟨above, hfs⟩, hland⟩ := ih
          (fun g' hg' => hprotect g' (List.mem_cons_of_mem _ hg')) hnodup'.2 hrest
        refine ⟨f, rest, cs', ?_, ?_, hm, ⟨g :: above, by rw [hfs]; rfl⟩, hland⟩
        · rw [scan, if_neg, hscan]
          rintro (hfr | hp)
          · exact absurd (congrArg Pointer.index hfr) (Int.ne_of_lt hi)
          · exact hstop (Or.inr ((hprotect g List.mem_cons_self).mp hp))
        · rw [unwind, if_neg hstop, hunwind]
  | @cleanup cs fs cl goal c h hdepth _ ih =>
    obtain ⟨f, rest, cs', hscan, hunwind, hm, ⟨above, hfs⟩, hland⟩ := ih hprotect hnodup hat
    refine ⟨f, rest, cs', hscan, hunwind, ?_, ⟨above, hfs⟩, hland⟩
    rw [List.dropWhile_cons_of_pos]
    · exact hm
    · rw [hdepth, hfs]
      simp
      omega

variable {records : ℕ → Option (Tag × ℕ)} {next t : ℕ} {th : Thread}
  {c : Control Tag Registers}

def Fixnums (records : ℕ → Option (Tag × ℕ)) : Prop :=
  ∀ a id t, records a = some (id, t) → ∃ n, id = .fixnum n

theorem Agrees.suffix (h : Agrees records next t th c) {above fs : List FrsFrame}
    (hfs : th.frames = above ++ fs) {th' : Thread} (hframes : th'.frames = fs)
    {c' : Control Tag Registers} (hregs : c'.regs = th'.regs)
    (hcontexts : Matches th'.block c'.contexts th'.frames th'.cleanups) :
    Agrees records next t th' c' := by
  have hmem : ∀ g ∈ th'.frames, g ∈ th.frames := by
    intro g hg
    rw [hfs]
    exact List.mem_append_right above (hframes ▸ hg)
  refine ⟨hregs, hcontexts, fun g hg => h.proper g (hmem g hg),
    fun g hg => h.older g (hmem g hg), ?_⟩
  have hnodup := h.distinct
  rw [hfs, List.map_append] at hnodup
  rw [hframes]
  exact (List.nodup_append.mp hnodup).2.1

/-- ecl_unwind goes where an exit to the activation of its target goes. -/
theorem eclUnwind_spec (hfix : Fixnums records) (h : Agrees records next t th c) {i : ℤ} {a : ℕ}
    (hat : At th.frames i a) :
    ∃ o th' c', eclUnwind ⟨th.block, i⟩ th = .ok (o, th') ∧ exitTo a c = (o, c') ∧
      Agrees records next t th' c' ∧ th'.frameId = th.frameId := by
  obtain ⟨f, rest, cs', hscan, hunwind, hm, ⟨above, hfs⟩, hland⟩ := scan_unwind h.contexts
    (fun g hg => proper_protect hfix (h.proper g hg)) h.distinct hat
  have hfs' : th.frames = (above ++ [f]) ++ rest := by simp [hfs]
  unfold eclUnwind exitTo
  rw [hscan, hunwind]
  refine ⟨_, _, _, rfl, rfl, ?_, ?_⟩
  · cases hform : f.point.form with
    | tagbody =>
      refine h.suffix hfs rfl rfl ?_
      simp only [landing, hform]
      exact Matches.frame f hm
    | protect =>
      have hrest := hland (by rw [hform]; rfl)
      refine h.suffix hfs' rfl rfl ?_
      simp only [landing, hform]
      refine Matches.cleanup hm rfl ?_
      dsimp only
      split
      · exact ⟨rfl, hrest⟩
      · have hi : (rest.length : ℤ) - 1 + (i - (rest.length - 1)) = i := by omega
        rw [if_pos trivial]
        change At rest (rest.length - 1 + (i - (rest.length - 1))) a
        rwa [hi]
    | block | catching tag =>
      refine h.suffix hfs' rfl rfl ?_
      simp only [landing, hform]
      exact hm
  · dsimp only
    split <;> rfl

theorem frsSch_exit (h : Matches block cs fs cl) {id : Tag} {a : ℕ}
    (hid : ∀ g ∈ fs, g.val = id ↔ g.point.act = a ∧ g.point.form.isExit) :
    (∃ i, frsSch id fs = some i ∧ activeExit a cs ∧ At fs i a) ∨
      (frsSch id fs = none ∧ activeExit a cs = false) := by
  induction h with
  | nil => exact Or.inr ⟨rfl, rfl⟩
  | @frame cs fs cl g h ih =>
    rw [frsSch, activeExit]
    by_cases hg : g.val = id
    · obtain ⟨ha, hexit⟩ := (hid g List.mem_cons_self).mp hg
      refine Or.inl ⟨fs.length, if_pos hg, by simp [ha, hexit], At.self ha ?_⟩
      cases hform : g.point.form <;> simp_all [Form.isExit, Form.isProtect]
    · have hno : (decide (g.point.act = a) && g.point.form.isExit) = false := by
        by_contra hyes
        exact hg ((hid g List.mem_cons_self).mpr (by simpa using hyes))
      rw [if_neg hg, hno, Bool.false_or]
      refine (ih fun g' hg' => hid g' (List.mem_cons_of_mem _ hg')).imp ?_ fun h => h
      rintro ⟨i, hsch, hactive, hat⟩
      exact ⟨i, hsch, hactive, hat.cons⟩
  | cleanup h _ _ ih =>
    rw [activeExit]
    exact ih hid

theorem frsSch_catch (h : Matches block cs fs cl) {tag : Tag}
    (htag : ∀ g ∈ fs, g.val = tag ↔ g.point.form = .catching tag) :
    (∃ i a, frsSch tag fs = some i ∧ activeCatch tag cs = some a ∧ At fs i a) ∨
      (frsSch tag fs = none ∧ activeCatch tag cs = none) := by
  induction h with
  | nil => exact Or.inr ⟨rfl, rfl⟩
  | @frame cs fs cl g h ih =>
    rw [frsSch, activeCatch]
    by_cases hg : g.val = tag
    · have hform := (htag g List.mem_cons_self).mp hg
      refine Or.inl ⟨fs.length, g.point.act, if_pos hg, if_pos hform, At.self rfl ?_⟩
      rw [hform]
      rfl
    · have hno : g.point.form ≠ .catching tag := fun hf => hg ((htag g List.mem_cons_self).mpr hf)
      rw [if_neg hg, if_neg hno]
      refine (ih fun g' hg' => htag g' (List.mem_cons_of_mem _ hg')).imp ?_ fun h => h
      rintro ⟨i, a, hsch, hactive, hat⟩
      exact ⟨i, a, hsch, hactive, hat.cons⟩
  | cleanup h _ _ ih =>
    rw [activeCatch]
    exact ih htag

def NoPointers (th : Thread) : Prop := ∀ c ∈ th.cleanups, ∀ fr, c.resume ≠ .pointer fr

theorem Matches.move (h : Matches block cs fs cl) (hno : ∀ c ∈ cl, ∀ fr, c.resume ≠ .pointer fr)
    (block' : ℕ) : Matches block' cs fs cl := by
  induction h with
  | nil => exact .nil
  | frame g h ih => exact .frame g (ih hno)
  | @cleanup cs fs cl goal c h hdepth hresume ih =>
    refine .cleanup (ih fun c hc => hno c (List.mem_cons_of_mem _ hc)) hdepth ?_
    cases hr : c.resume with
    | pointer fr => exact absurd hr (hno c List.mem_cons_self fr)
    | normal | offset n | garbage =>
      rw [hr] at hresume
      cases goal <;> exact hresume

theorem setLimit_spec (h : Agrees records next t th c) (hno : NoPointers th)
    {margin n : ℕ} {th' : Thread} (hset : setLimit margin n th = .ok th') :
    Agrees records next t th' c ∧ th'.frames = th.frames ∧ th'.cleanups = th.cleanups ∧
      th'.frameId = th.frameId := by
  unfold setLimit at hset
  split at hset
  case isTrue => exact absurd hset (by simp)
  case isFalse =>
    obtain rfl := Except.ok.inj hset
    exact ⟨⟨h.regs, h.contexts.move hno _, h.proper, h.older, h.distinct⟩, rfl, rfl, rfl⟩

theorem frsOverflow_spec (h : Agrees records next t th c) (hno : NoPointers th) {margin : ℕ}
    {th' : Thread} (hover : frsOverflow margin th = .ok th') :
    Agrees records next t th' c ∧ th'.frames = th.frames ∧ th'.frameId = th.frameId := by
  unfold frsOverflow at hover
  split at hover
  case isTrue => exact absurd hover (by simp)
  case isFalse =>
    obtain ⟨th₁, hone, htwo⟩ := bind_ok hover
    have hlimit : Agrees records next t { th with limit := th.limit + margin } c :=
      ⟨h.regs, h.contexts, h.proper, h.older, h.distinct⟩
    obtain ⟨h₁, hframes₁, hcleanups₁, hid₁⟩ := setLimit_spec hlimit hno hone
    have hno₁ : NoPointers th₁ := by
      unfold NoPointers
      rw [hcleanups₁]
      exact hno
    obtain ⟨h₂, hframes₂, _, hid₂⟩ := setLimit_spec h₁ hno₁ htwo
    exact ⟨h₂, hframes₂.trans hframes₁, hid₂.trans hid₁⟩

theorem frsPush_spec (h : Agrees records next t th c) {margin : ℕ} {g : FrsFrame}
    (hroom : th.limit ≤ th.top + 1 → NoPointers th) (hproper : Proper records t g)
    (hact : g.point.act = next) {th' : Thread} (hpush : frsPush margin g th = .ok th') :
    Agrees records (next + 1) t th' { c with contexts := .frame g.point :: c.contexts } ∧
      th'.frameId = th.frameId := by
  unfold frsPush at hpush
  obtain ⟨th₁, hone, htwo⟩ := bind_ok hpush
  obtain rfl := Except.ok.inj htwo
  have h₁ : Agrees records next t th₁ c ∧ th₁.frames = th.frames ∧ th₁.frameId = th.frameId := by
    split at hone
    case isTrue hfull => exact frsOverflow_spec h (hroom hfull) hone
    case isFalse =>
      obtain rfl := Except.ok.inj hone
      exact ⟨h, rfl, rfl⟩
  obtain ⟨h₁, hframes, hid⟩ := h₁
  refine ⟨⟨h₁.regs, .frame g h₁.contexts, ?_, ?_, ?_⟩, hid⟩
  · intro f hf
    rcases List.mem_cons.mp hf with rfl | hf
    · exact hproper
    · exact h₁.proper f hf
  · intro f hf
    rcases List.mem_cons.mp hf with rfl | hf
    · exact hact ▸ Nat.lt_succ_self _
    · exact Nat.lt_succ_of_lt (h₁.older f hf)
  · rw [List.map_cons, List.nodup_cons]
    refine ⟨fun hmem => ?_, h₁.distinct⟩
    obtain ⟨f, hf, hfact⟩ := List.mem_map.mp hmem
    have hlt := h₁.older f hf
    rw [hfact, hact] at hlt
    exact Nat.lt_irrefl _ hlt

theorem leave_spec (h : Agrees records next t th c) {o : Outcome Tag Registers} {th' : Thread}
    (hleave : leave th = .ok (o, th')) (act : ℕ) :
    ∃ c', ControlContexts.step act c .leave = some (o, c') ∧ Agrees records next t th' c' ∧
      th'.frameId = th.frameId := by
  unfold leave at hleave
  split at hleave
  case h_1 => exact absurd hleave (by simp)
  case h_2 f fs hframes =>
    split at hleave
    case isTrue => exact absurd hleave (by simp)
    case isFalse hnot =>
      obtain ⟨rfl, rfl⟩ := Prod.mk.inj (Except.ok.inj hleave)
      have hcontexts := h.contexts
      rw [hframes] at hcontexts hnot
      generalize hcs : c.contexts = cs at hcontexts
      generalize hcl : th.cleanups = cl at hcontexts hnot
      cases hcontexts with
      | cleanup hm hdepth => exact absurd (by rw [List.head?_cons, Option.map_some, hdepth]) hnot
      | frame g hm =>
        simp only [ControlContexts.step, hcs]
        have habove : th.frames = [f] ++ fs := hframes
        refine ⟨_, rfl, ?_, ?_⟩
        · refine h.suffix habove ?_ ?_ ?_
          · split <;> rfl
          · rw [h.regs]
            split <;> rfl
          · split
            · exact .cleanup (hcl ▸ hm) rfl trivial
            · exact hcl ▸ hm
        · split <;> rfl

theorem cleanupEnd_spec (hfix : Fixnums records) (h : Agrees records next t th c) (act : ℕ) :
    cleanupEnd th ≠ .error .lost ∧ ∀ o th', cleanupEnd th = .ok (o, th') →
      ∃ c', ControlContexts.step act c .cleanupEnd = some (o, c') ∧
        Agrees records next t th' c' ∧ th'.frameId = th.frameId := by
  have hcontexts := h.contexts
  unfold cleanupEnd
  split
  case h_1 => exact ⟨by simp, fun _ _ he => absurd he (by simp)⟩
  case h_2 k cl hcl =>
    split
    case isTrue => exact ⟨by simp, fun _ _ he => absurd he (by simp)⟩
    case isFalse hdepth =>
      rw [hcl] at hcontexts
      generalize hcs : c.contexts = cs at hcontexts
      generalize hfs : th.frames = fs at hcontexts
      cases hcontexts with
      | frame g hm =>
        have hle := hm.depth_le k List.mem_cons_self
        rw [hfs, List.length_cons] at hdepth
        exact absurd (not_not.mp hdepth) (by omega)
      | @cleanup cs fs cl goal c' hm _ hresume =>
        subst hfs
        have hrest : Agrees records next t { th with cleanups := cl } { c with contexts := cs } :=
          ⟨h.regs, hm, h.proper, h.older, h.distinct⟩
        simp only [ControlContexts.step, hcs]
        cases hr : k.resume with
        | normal =>
          rw [hr] at hresume
          cases goal with
          | some a => exact absurd hresume (by simp [Resumes])
          | none =>
            refine ⟨by simp, fun o th' hok => ?_⟩
            obtain ⟨rfl, rfl⟩ := Prod.mk.inj (Except.ok.inj hok)
            exact ⟨_, rfl, hrest, rfl⟩
        | pointer fr =>
          rw [hr] at hresume
          cases goal with
          | none => exact absurd hresume (by simp [Resumes])
          | some a =>
            obtain ⟨hblock, hat⟩ := hresume
            obtain ⟨o, th₁, c₁, hok, hexit, hagrees, hid⟩ :=
              eclUnwind_spec hfix hrest hat
            obtain ⟨b, i⟩ := fr
            obtain rfl : b = th.block := hblock
            refine ⟨?_, fun o' th' hok' => ?_⟩
            · intro hlost
              exact absurd (hok.symm.trans hlost) (by simp)
            · obtain ⟨rfl, rfl⟩ := Prod.mk.inj (Except.ok.inj (hok.symm.trans hok'))
              exact ⟨c₁, congrArg some hexit, hagrees, hid⟩
        | offset n =>
          rw [hr] at hresume
          cases goal with
          | none => exact absurd hresume (by simp [Resumes])
          | some a =>
            have hat : At th.frames (th.top + n) a := hresume
            obtain ⟨o, th₁, c₁, hok, hexit, hagrees, hid⟩ := eclUnwind_spec hfix hrest hat
            refine ⟨?_, fun o' th' hok' => ?_⟩
            · intro hlost
              exact absurd (hok.symm.trans hlost) (by simp)
            · obtain ⟨rfl, rfl⟩ := Prod.mk.inj (Except.ok.inj (hok.symm.trans hok'))
              exact ⟨c₁, congrArg some hexit, hagrees, hid⟩
        | garbage =>
          rw [hr] at hresume
          cases goal <;> exact absurd hresume (by simp [Resumes])

end FrameStack
