import Ecl.MethodCache
import Mathlib.Data.List.Forall2

/-! Calls of generic functions by one thread, _ecl_standard_dispatch of src/c/clos/gfun.d, while
methods change. A method set is known by its version, and so is an effective method by the version
of the set that it was computed from. -/
namespace MethodDispatch

open MethodCache

variable {K : Type}

/-- A call that has missed the cache and computes its effective method. since is the version of the
method set whose change and invalidation were complete when the call started; read is the version
that the call has found. -/
structure Frame (K : Type) where
  gf : K
  classes : List K
  record : ℕ
  since : ℕ
  read : Option ℕ
  deriving DecidableEq

def Frame.keys (f : Frame K) : List K := f.gf :: f.classes

structure Ran (K : Type) where
  gf : K
  since : ℕ
  version : ℕ
  deriving DecidableEq

/-- keys is the vector that all calls of the thread fill; frames are the calls that compute, the
innermost first; announced are the versions whose invalidation has been queued. -/
structure System (K : Type) where
  cache : Cache K ℕ
  keys : List K
  methods : K → ℕ
  announced : K → ℕ
  frames : List (Frame K)
  ran : List (Ran K)

def System.start (size : ℕ) : System K :=
  ⟨makeCache size, [], fun _ => 0, fun _ => 0, [], []⟩

inductive Event (K : Type) where
  | change (gf : K)
  | clear (gf : K)
  | call (gf : K) (classes : List K)
  | compute
  | finish
  | leave
  deriving DecidableEq

section
variable [DecidableEq K] (hash : List K → ℕ)

/-- A function that is found is called; for a value that is no function that is no-applicable-method. -/
def System.runs (s : System K) (gf : K) (since : ℕ) : Value ℕ → System K
  | .object version => { s with ran := ⟨gf, since, version⟩ :: s.ran }
  | _ => s

/-- The part of _ecl_standard_dispatch up to the computation. -/
def System.dispatch (s : System K) (gf : K) (classes : List K) : Option (System K) := do
  let (e, cache) ← s.cache.search hash (gf :: classes)
  let s := { s with cache := cache, keys := gf :: classes }
  if (cache.table e).key = none then
    return { s with frames := ⟨gf, classes, e, s.announced gf, none⟩ :: s.frames }
  else return s.runs gf (s.announced gf) (cache.table e).value

/-- The record is searched again where it has been filled, with the keys that the last call has
left in the vector. -/
def System.recordFor (s : System K) (f : Frame K) : Option (ℕ × Cache K ℕ) :=
  if (s.cache.table f.record).key = none then some (f.record, s.cache)
  else s.cache.search hash s.keys

def System.finish (s : System K) (f : Frame K) (frames : List (Frame K)) (version : ℕ) :
    Option (System K) := do
  let (e, cache) ← s.recordFor hash f
  let s := { s with cache := cache.store e f.keys version, frames := frames }
  return s.runs f.gf f.since (.object version)

def System.step (s : System K) : Event K → Option (System K)
  | .change gf => some { s with methods := Function.update s.methods gf (s.methods gf + 1) }
  | .clear gf =>
    some { s with
      cache := s.cache.removeOne gf
      announced := Function.update s.announced gf (s.methods gf) }
  | .call gf classes => s.dispatch hash gf classes
  | .compute =>
    match s.frames with
    | [] => none
    | f :: frames =>
      if f.read = none then some { s with frames := { f with read := some (s.methods f.gf) } :: frames }
      else none
  | .finish =>
    match s.frames with
    | [] => none
    | f :: frames => f.read.bind fun version => s.finish hash f frames version
  | .leave =>
    match s.frames with
    | [] => none
    | _ :: frames => some { s with frames := frames }

def System.run : System K → List (Event K) → Option (System K)
  | s, [] => some s
  | s, e :: events => (s.step hash e).bind fun s => s.run events

end

def System.Searches (s : System K) : Event K → Prop
  | .call _ _ => True
  | .finish => ∃ f, s.frames.head? = some f ∧ (s.cache.table f.record).key ≠ none
  | _ => False

/-- No search applies an invalidation that came after a call still computing has read the methods
of its function. -/
def System.NoneOvertaken (s : System K) (e : Event K) : Prop :=
  s.Searches e → ∀ f ∈ s.frames, ∀ version, f.read = some version →
    f.gf ∈ s.cache.clearList → s.announced f.gf ≤ version

def System.NeverOvertaken [DecidableEq K] (hash : List K → ℕ) : System K → List (Event K) → Prop
  | _, [] => True
  | s, e :: events =>
    s.NoneOvertaken e ∧ ∀ s', s.step hash e = some s' → s'.NeverOvertaken hash events

/-- Every call has run a method computed from the set after the changes that were complete when it
started. -/
def System.Coherent (s : System K) : Prop := ∀ r ∈ s.ran, r.since ≤ r.version

section
variable {V : Type}

def Within (table table' : ℕ → Record K V) : Prop :=
  ∀ i key, (table i).key = some key → (table' i).key = some key ∧ (table i).value = (table' i).value

theorem Within.trans {t t' t'' : ℕ → Record K V} (h : Within t t') (h' : Within t' t'') :
    Within t t'' := by
  intro i key hkey
  obtain ⟨hkey', hvalue⟩ := h i key hkey
  obtain ⟨hkey'', hvalue'⟩ := h' i key hkey'
  exact ⟨hkey'', hvalue.trans hvalue'⟩

theorem within_shift (c : Cache K V) : Within c.shift.table c.table := by
  intro i key hkey
  simp only [Cache.shift, shiftRecord] at hkey ⊢
  split at hkey
  · cases hkey
  · next hlive =>
    rw [if_neg hlive]
    exact ⟨hkey, rfl⟩

theorem within_set (c : Cache K V) (i : ℕ) {e : Record K V}
    (he : ∀ key, e.key = some key → (c.table i).key = some key ∧ e.value = (c.table i).value) :
    Within (c.set i e).table c.table := by
  intro j key hkey
  by_cases hj : j = i
  · subst hj
    simp only [Cache.set, Function.update_self] at hkey ⊢
    exact he key hkey
  · have hsame : (c.set i e).table j = c.table j := Function.update_of_ne hj ..
    rw [hsame] at hkey ⊢
    exact ⟨hkey, rfl⟩

theorem within_refresh (c : Cache K V) (i : ℕ) : Within (c.refresh i).table c.table := by
  have hset := within_set c i (e := { c.table i with gen := c.generation }) fun _ hkey => ⟨hkey, Eq.refl _⟩
  rw [Cache.refresh]
  split
  · exact (within_shift _).trans hset
  · exact hset

variable [DecidableEq K] {hash : List K → ℕ}

theorem search_within {c c' : Cache K V} {keys : List K} {i : ℕ}
    (h : c.search hash keys = some (i, c')) :
    c'.clearList = [] ∧ Within c'.table c.applyClearList.table := by
  have hrefresh : ∀ d : Cache K V, (d.refresh i).clearList = d.clearList := by
    intro d
    rw [Cache.refresh]
    split <;> rfl
  have hlist : c.applyClearList.clearList = [] := by
    rw [Cache.applyClearList]
    split
    · next hnil => exact hnil
    · rfl
  obtain ⟨-, rfl⟩ | rfl := search_cases h
  · exact ⟨by rw [hrefresh, hlist], within_refresh _ i⟩
  · refine ⟨by rw [hrefresh]; exact hlist, (within_refresh _ i).trans ?_⟩
    exact within_set c.applyClearList i nofun

theorem search_key {c c' : Cache K V} {keys : List K} {i : ℕ}
    (h : c.search hash keys = some (i, c')) (hkey : (c'.table i).key ≠ none) :
    (c'.table i).key = some keys := by
  obtain ⟨key, hsome⟩ := Option.ne_none_iff_exists'.mp hkey
  obtain ⟨hfound, rfl⟩ | rfl := search_cases h
  · have hold := (within_refresh _ i i key hsome).1
    rw [hfound] at hold
    rw [hsome, hold]
  · have hold := (within_refresh _ i i key hsome).1
    simp [Cache.set] at hold

theorem applyClearList_key {c : Cache K V} {i : ℕ} {k : K} {keys : List K}
    (h : (c.applyClearList.table i).key = some (k :: keys)) :
    k ∉ c.clearList ∧ (c.table i).key = some (k :: keys) ∧
      (c.applyClearList.table i).value = (c.table i).value := by
  rw [Cache.applyClearList] at h ⊢
  split at h
  · next hnil =>
    rw [if_pos hnil, hnil]
    exact ⟨List.not_mem_nil, h, rfl⟩
  · next hnil =>
    rw [if_neg hnil]
    simp only [Cache.clearListFromCache, clearRecord] at h ⊢
    split at h
    · split at h
      · cases h
      · next hkey hmem =>
        rw [hkey] at h
        cases h
        exact ⟨hmem, hkey, by simp [hmem]⟩
    · next hother => exact absurd h (hother k keys)

end

def System.Fresh (s : System K) (gf : K) (version : ℕ) : Prop :=
  s.announced gf ≤ version ∨ gf ∈ s.cache.clearList

structure System.Valid (s : System K) : Prop where
  announced : ∀ gf, s.announced gf ≤ s.methods gf
  cached : ∀ i gf classes version, (s.cache.table i).key = some (gf :: classes) →
    (s.cache.table i).value = .object version → s.Fresh gf version
  started : ∀ f ∈ s.frames, f.since ≤ s.methods f.gf
  read : ∀ f ∈ s.frames, ∀ version, f.read = some version →
    f.since ≤ version ∧ s.Fresh f.gf version
  coherent : s.Coherent

theorem System.valid_start (size : ℕ) : (start size : System K).Valid where
  announced := fun _ => Nat.le_refl 0
  cached := fun _ _ _ _ hkey => nomatch hkey
  started := fun _ hf => nomatch hf
  read := fun _ hf => nomatch hf
  coherent := fun _ hr => nomatch hr

theorem System.Valid.runs {s : System K} (h : s.Valid) {gf : K} {since : ℕ} {value : Value ℕ}
    (hvalue : ∀ version, value = .object version → since ≤ version) :
    (s.runs gf since value).Valid := by
  cases value with
  | objnull => exact h
  | nil => exact h
  | object version =>
    refine ⟨h.announced, h.cached, h.started, h.read, fun r hr => ?_⟩
    rcases List.mem_cons.mp hr with rfl | hr
    · exact hvalue version rfl
    · exact h.coherent r hr

theorem System.Valid.store {s : System K} (h : s.Valid) (e : ℕ) {gf : K} (classes : List K)
    {version : ℕ} (hfresh : s.Fresh gf version) :
    ({ s with cache := s.cache.store e (gf :: classes) version } : System K).Valid := by
  refine ⟨h.announced, ?_, h.started, h.read, h.coherent⟩
  intro i gf' classes' version' hkey hvalue
  by_cases hi : i = e
  · subst hi
    simp only [Cache.store, Cache.set, Function.update_self] at hkey hvalue
    cases hkey
    cases hvalue
    exact hfresh
  · simp only [Cache.store, Cache.set, Function.update_of_ne hi] at hkey hvalue
    exact h.cached i gf' classes' version' hkey hvalue

theorem System.Valid.pop {s : System K} (h : s.Valid) {f : Frame K} {frames : List (Frame K)}
    (hframes : s.frames = f :: frames) : ({ s with frames := frames } : System K).Valid := by
  have hmem : ∀ g ∈ frames, g ∈ s.frames := by
    intro g hg
    rw [hframes]
    exact List.mem_cons_of_mem f hg
  exact ⟨h.announced, h.cached, fun g hg => h.started g (hmem g hg),
    fun g hg => h.read g (hmem g hg), h.coherent⟩

section
variable [DecidableEq K] {hash : List K → ℕ}

theorem System.Valid.search {s : System K} (h : s.Valid) {keys : List K} {e : ℕ} {c : Cache K ℕ}
    (hsearch : s.cache.search hash keys = some (e, c))
    (hnone : ∀ f ∈ s.frames, ∀ version, f.read = some version →
      f.gf ∈ s.cache.clearList → s.announced f.gf ≤ version) (filled : List K) :
    ({ s with cache := c, keys := filled } : System K).Valid := by
  obtain ⟨-, hwithin⟩ := search_within hsearch
  refine ⟨h.announced, ?_, h.started, ?_, h.coherent⟩
  · intro i gf classes version hkey hvalue
    obtain ⟨hkey', hvalue'⟩ := hwithin i _ hkey
    obtain ⟨hnew, hold, hsame⟩ := applyClearList_key hkey'
    have hobject : (s.cache.table i).value = .object version := by rw [← hsame, ← hvalue', hvalue]
    exact Or.inl ((h.cached i gf classes version hold hobject).resolve_right hnew)
  · intro f hf version hread
    obtain ⟨hsince, hfresh⟩ := h.read f hf version hread
    refine ⟨hsince, Or.inl ?_⟩
    rcases hfresh with hle | hmem
    · exact hle
    · exact hnone f hf version hread hmem

theorem System.Valid.dispatch {s s' : System K} (h : s.Valid) {gf : K} {classes : List K}
    (hnone : s.NoneOvertaken (.call gf classes)) (hstep : s.dispatch hash gf classes = some s') :
    s'.Valid := by
  obtain ⟨⟨e, c⟩, hsearch, hrest⟩ := Option.bind_eq_some_iff.mp hstep
  have hvalid := h.search hsearch (hnone trivial) (gf :: classes)
  obtain ⟨hlist, -⟩ := search_within hsearch
  by_cases hkey : (c.table e).key = none
  · simp only [if_pos hkey] at hrest
    cases hrest
    refine ⟨hvalid.announced, hvalid.cached, fun f hf => ?_, fun f hf version hread => ?_,
      hvalid.coherent⟩
    · rcases List.mem_cons.mp hf with rfl | hf
      · exact h.announced gf
      · exact hvalid.started f hf
    · rcases List.mem_cons.mp hf with rfl | hf
      · cases hread
      · exact hvalid.read f hf version hread
  · simp only [if_neg hkey] at hrest
    cases hrest
    refine hvalid.runs fun version hvalue => ?_
    have hfound := search_key hsearch hkey
    have hfresh := hvalid.cached e gf classes version hfound hvalue
    exact hfresh.resolve_right (by rw [hlist]; exact List.not_mem_nil)

theorem System.Valid.finish {s s' : System K} (h : s.Valid) {f : Frame K} {frames : List (Frame K)}
    {version : ℕ} (hframes : s.frames = f :: frames) (hread : f.read = some version)
    (hnone : s.NoneOvertaken .finish) (hstep : s.finish hash f frames version = some s') :
    s'.Valid := by
  have hmem : f ∈ s.frames := by
    rw [hframes]
    exact List.mem_cons_self
  -- The record stays or is searched again; the method is fresh in either case.
  have hlast : ∀ t : System K, t.Valid → t.frames = f :: frames → ∀ e,
      (({ t with cache := t.cache.store e f.keys version, frames := frames } : System K).runs
        f.gf f.since (.object version)).Valid := by
    intro t ht htframes e
    have htmem : f ∈ t.frames := by
      rw [htframes]
      exact List.mem_cons_self
    obtain ⟨hsince, hfresh⟩ := ht.read f htmem version hread
    refine System.Valid.runs ?_ fun _ hvalue => ?_
    · exact (ht.store e f.classes hfresh).pop htframes
    · cases hvalue
      exact hsince
  obtain ⟨⟨e, c⟩, hrecord, hrest⟩ := Option.bind_eq_some_iff.mp hstep
  cases hrest
  by_cases hkey : (s.cache.table f.record).key = none
  · rw [System.recordFor, if_pos hkey] at hrecord
    cases hrecord
    exact hlast s h hframes f.record
  · rw [System.recordFor, if_neg hkey] at hrecord
    have hvalid := h.search hrecord (hnone ⟨f, by rw [hframes]; rfl, hkey⟩) s.keys
    exact hlast { s with cache := c, keys := s.keys } hvalid hframes e

theorem System.Valid.step {s s' : System K} {e : Event K} (h : s.Valid)
    (hnone : s.NoneOvertaken e) (hstep : s.step hash e = some s') : s'.Valid := by
  cases e with
  | change gf =>
    cases hstep
    have hgrow : ∀ g, s.methods g ≤ Function.update s.methods gf (s.methods gf + 1) g := by
      intro g
      by_cases hg : g = gf
      · rw [hg, Function.update_self]
        exact Nat.le_succ _
      · exact Nat.le_of_eq (Function.update_of_ne hg ..).symm
    exact ⟨fun g => Nat.le_trans (h.announced g) (hgrow g), h.cached,
      fun f hf => Nat.le_trans (h.started f hf) (hgrow f.gf), h.read, h.coherent⟩
  | clear gf =>
    cases hstep
    have hother : ∀ g, g ≠ gf → Function.update s.announced gf (s.methods gf) g = s.announced g :=
      fun g hg => Function.update_of_ne hg ..
    have hfresh : ∀ g version, s.Fresh g version → ({ s with
        cache := s.cache.removeOne gf
        announced := Function.update s.announced gf (s.methods gf) } : System K).Fresh g version := by
      intro g version hg
      by_cases hgf : g = gf
      · rw [hgf]
        exact Or.inr List.mem_cons_self
      · rcases hg with hle | hmem
        · exact Or.inl (Nat.le_trans (Nat.le_of_eq (hother g hgf)) hle)
        · exact Or.inr (List.mem_cons_of_mem gf hmem)
    refine ⟨fun g => ?_, fun i g classes version hkey hvalue =>
      hfresh g version (h.cached i g classes version hkey hvalue), h.started,
      fun f hf version hread => ?_, h.coherent⟩
    · by_cases hg : g = gf
      · rw [hg]
        exact Nat.le_of_eq (Function.update_self ..)
      · exact Nat.le_trans (Nat.le_of_eq (hother g hg)) (h.announced g)
    · obtain ⟨hsince, hold⟩ := h.read f hf version hread
      exact ⟨hsince, hfresh f.gf version hold⟩
  | call gf classes => exact h.dispatch hnone hstep
  | compute =>
    simp only [System.step] at hstep
    split at hstep
    · cases hstep
    · next f frames hframes =>
      split at hstep
      · cases hstep
        have hmem : ∀ g ∈ f :: frames, g ∈ s.frames := fun g hg => by rw [hframes]; exact hg
        refine ⟨h.announced, h.cached, fun g hg => ?_, fun g hg version hread => ?_, h.coherent⟩
        · rcases List.mem_cons.mp hg with rfl | hg
          · exact h.started f (hmem f List.mem_cons_self)
          · exact h.started g (hmem g (List.mem_cons_of_mem f hg))
        · rcases List.mem_cons.mp hg with rfl | hg
          · cases hread
            exact ⟨h.started f (hmem f List.mem_cons_self), Or.inl (h.announced f.gf)⟩
          · exact h.read g (hmem g (List.mem_cons_of_mem f hg)) version hread
      · cases hstep
  | finish =>
    simp only [System.step] at hstep
    split at hstep
    · cases hstep
    · next f frames hframes =>
      obtain ⟨version, hread, hfinish⟩ := Option.bind_eq_some_iff.mp hstep
      exact h.finish hframes hread hnone hfinish
  | leave =>
    simp only [System.step] at hstep
    split at hstep
    · cases hstep
    · next f frames hframes =>
      cases hstep
      exact h.pop hframes

theorem System.Valid.run {s s' : System K} {events : List (Event K)} (h : s.Valid)
    (hnever : s.NeverOvertaken hash events) (hrun : s.run hash events = some s') : s'.Valid := by
  induction events generalizing s with
  | nil =>
    cases hrun
    exact h
  | cons e events ih =>
    obtain ⟨t, hstep, hrest⟩ := Option.bind_eq_some_iff.mp hrun
    exact ih (h.step hnever.1 hstep) (hnever.2 t hstep) hrest

end

end MethodDispatch
