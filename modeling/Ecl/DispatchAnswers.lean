import Ecl.AccessorArguments

/-! What a call is answered while the caches hold what is right. -/
namespace DispatchCaches

open GenericFunctions DispatchKeys
open MethodCache (Cache sound_makeCache search_isSome search_start)

variable {O C G N S M : Type} {im : Image O C N M}

theorem word_inj {g g' : G} {k k' : Key C} (h : word g k = word g' k') : k = k' := by
  cases k with
  | gf =>
    cases k' with
    | gf => rfl
    | cell position length => cases h
    | cls c => cases h
  | cell position length =>
    cases k' with
    | gf => cases h
    | cell position' length' => exact Sum.inr.inj h
    | cls c => cases h
  | cls c =>
    cases k' with
    | gf => cases h
    | cell position length => cases h
    | cls c' => exact Sum.inr.inj h

theorem map_word_inj {g g' : G} {v v' : List (Key C)} (h : v.map (word g) = v'.map (word g')) :
    v = v' := by
  induction v generalizing v' with
  | nil =>
    cases v' with
    | nil => rfl
    | cons k v' => cases h
  | cons k v ih =>
    cases v' with
    | nil => cases h
    | cons k' v' =>
      obtain ⟨hk, hv⟩ := List.cons.inj h
      rw [word_inj hk, ih hv]

variable [DecidableEq O] [DecidableEq C]

theorem keys_of_fill {sys : ClassSystem O C} {gf : GenericFunction O C S M} {args : List O}
    {vector : List (Key C)} (h : fillSpecVector sys gf 64 args = .ok vector) (g : G) :
    ∃ rest, vector.map (word g) = .inl g :: rest := by
  obtain ⟨rest, -, rfl⟩ := fillSpecVector_ok sys h
  exact ⟨rest.map (word g), rfl⟩

omit [DecidableEq O] [DecidableEq C] in
theorem accessorKeys_inj {g g' : G} {self self' : O}
    (h : accessorKeys im g self = accessorKeys im g' self') :
    g = g' ∧ im.classOf self = im.classOf self' := by
  simpa [accessorKeys] using h

variable [DecidableEq G] [DecidableEq N] [DecidableEq S] [DecidableEq M]

def System.MethodRight (s : System im G S) (keys : List (Word G C)) (methods : List M) : Prop :=
  ∀ g args vector, fillSpecVector s.sys (s.functions g).gf 64 args = .ok vector →
    keys = vector.map (word g) → s.Suits g args →
    s.computeApplicableMethod g args = .ok (some methods)

def System.SlotRight (s : System im G S) (keys : List (Word G C)) (index : Index N) : Prop :=
  ∀ g args self, accessedInstance ((s.functions g).dispatch s.sys) args = some self →
    keys = accessorKeys im g self → s.slotMethodIndex g self args = .ok (some index)

structure Valid (s : System im G S) : Prop where
  methods : s.methodCache.Sound s.MethodRight
  slots : s.slotCache.Sound s.SlotRight
  frames : ∀ f ∈ s.frames, s.stamps f.self ≠ none
  ran : ∀ r ∈ s.ran, r.Right

omit [DecidableEq G] [DecidableEq N] in
theorem methodRight_of_compute {s : System im G S} {g : G} {args : List O} {vector : List (Key C)}
    {methods : List M} (hfill : fillSpecVector s.sys (s.functions g).gf 64 args = .ok vector)
    (h : s.computeApplicableMethod g args = .ok (some methods)) :
    s.MethodRight (vector.map (word g)) methods := by
  intro g' args' vector' hfill' hkeys hsuits
  obtain ⟨rest, hg⟩ := keys_of_fill hfill g
  obtain ⟨rest', hg'⟩ := keys_of_fill hfill' g'
  have hhead : (Sum.inl g : Word G C) :: rest = .inl g' :: rest' := by rw [← hg, ← hg', hkeys]
  obtain rfl : g = g' := Sum.inl.inj (List.cons.inj hhead).1
  obtain rfl := map_word_inj hkeys
  exact computeApplicableMethod_congr hfill hfill' hsuits h

omit [DecidableEq G] in
theorem slotRight_of_index {s : System im G S} {g : G} {args : List O} {self : O} {index : Index N}
    (ha : accessedInstance ((s.functions g).dispatch s.sys) args = some self)
    (h : s.slotMethodIndex g self args = .ok (some index)) :
    s.SlotRight (accessorKeys im g self) index := by
  intro g' args' self' ha' hkeys
  obtain ⟨rfl, hclass⟩ := accessorKeys_inj hkeys
  rw [← h]
  exact (slotMethodIndex_congr ha ha' hclass).symm

def System.standardAnswer (s : System im G S) (g : G) (args : List O) : Answer O C N M :=
  match fillSpecVector s.sys (s.functions g).gf 64 args with
  | .error e => .fillError e
  | .ok _ => methodAnswer (s.computeApplicableMethod g args)

def System.accessorAnswer (s : System im G S) (g : G) (self : O) (args : List O) :
    Answer O C N M :=
  if s.stamps self = none then .noApplicableMethod
  else
    match s.slotMethodIndex g self args with
    | .error e => .error e
    | .ok none => .noApplicableMethod
    | .ok (some index) => if s.obsolete self then .updateInstance else .slot (.object index)

def System.answer (s : System im G S) (g : G) (args : List O) : Answer O C N M :=
  match (s.functions g).dispatch s.sys with
  | .computed => s.discriminate g args
  | .generic | .restricted => s.standardAnswer g args
  | dispatch =>
    match accessedInstance dispatch args with
    | some self => s.accessorAnswer g self args
    | none => .fillError .wrongNumArguments

variable {hash : List (Word G C) → ℕ}

theorem standardDispatch_spec {s s' : System im G S} {g : G} {args : List O} {a : Answer O C N M}
    (h : Valid s) (hsuits : s.Suits g args) (hd : s.standardDispatch hash g args = some (s', a)) :
    a = s.standardAnswer g args ∧ Valid s' := by
  unfold System.standardDispatch at hd
  unfold System.standardAnswer
  cases hfill : fillSpecVector s.sys (s.functions g).gf 64 args with
  | error e =>
    simp only [hfill, Option.some.injEq, Prod.mk.injEq] at hd ⊢
    obtain ⟨rfl, rfl⟩ := hd
    exact ⟨rfl, h⟩
  | ok vector =>
    simp only [hfill, Option.bind_eq_bind, Option.bind_eq_some_iff] at hd ⊢
    obtain ⟨⟨e, cache⟩, hsearch, hd⟩ := hd
    obtain ⟨rest, hkeys⟩ := keys_of_fill hfill g
    have hsound : cache.Sound s.MethodRight := h.methods.search hsearch
    have hvalid : Valid { s with methodCache := cache } := { h with methods := hsound }
    by_cases hkey : (cache.table e).key = none
    · simp only [hkey, if_true] at hd
      rcases hc : s.computeApplicableMethod g args with err | _ | methods
      · rw [hc] at hd
        obtain ⟨rfl, rfl⟩ := Prod.mk.inj (Option.some.inj hd)
        exact ⟨rfl, hvalid⟩
      · rw [hc] at hd
        obtain ⟨rfl, rfl⟩ := Prod.mk.inj (Option.some.inj hd)
        exact ⟨rfl, hvalid⟩
      · rw [hc] at hd
        obtain ⟨rfl, rfl⟩ := Prod.mk.inj (Option.some.inj hd)
        exact ⟨rfl, { h with methods := hsound.store e (methodRight_of_compute hfill hc) }⟩
    · simp only [hkey, if_false] at hd
      obtain ⟨rfl, rfl⟩ := Prod.mk.inj (Option.some.inj hd)
      rw [hkeys] at hsearch
      obtain ⟨methods, hvalue, hright⟩ := h.methods.hit hsearch hkey
      have hc := hright g args vector hfill hkeys.symm hsuits
      rw [hvalue, hc]
      exact ⟨rfl, hvalid⟩

omit [DecidableEq G] in
theorem access_spec {s : System im G S} {g : G} {args : List O} {self : O} {index : Index N} {e : ℕ}
    (h : Valid s) (hself : s.stamps self ≠ none)
    (hindex : s.slotMethodIndex g self args = .ok (some index))
    (hvalue : (s.slotCache.table e).value = .object index) :
    (s.access g self args e).2 = s.accessorAnswer g self args ∧
      Valid (s.access g self args e).1 := by
  simp only [System.access, System.accessorAnswer, if_neg hself, hindex]
  by_cases hobs : s.obsolete self = true
  · simp only [hobs, if_true]
    refine ⟨trivial, { h with frames := fun f hf => ?_ }⟩
    have hclass : ((s.classes (im.classOf self)).map ClassRecord.stamp) ≠ none := by
      intro hnone
      rw [Option.map_eq_none_iff] at hnone
      simp [System.obsolete, hnone] at hobs
    by_cases he : f.self = self
    · simp only [he, Function.update_self]
      exact hclass
    · simp only [Function.update_of_ne he]
      rcases List.mem_cons.mp hf with rfl | hf
      · exact absurd rfl he
      · exact h.frames f hf
  · simp only [hobs, System.readIndex, hvalue]
    exact ⟨rfl, h⟩

theorem accessorDispatch_spec {s s' : System im G S} {g : G} {args : List O} {self : O}
    {a : Answer O C N M} (h : Valid s)
    (ha : accessedInstance ((s.functions g).dispatch s.sys) args = some self)
    (hd : s.accessorDispatch hash g self args = some (s', a)) :
    a = s.accessorAnswer g self args ∧ Valid s' := by
  unfold System.accessorDispatch at hd
  by_cases hself : s.stamps self = none
  · rw [if_pos hself, Option.some.injEq, Prod.mk.injEq] at hd
    obtain ⟨rfl, rfl⟩ := hd
    exact ⟨(if_pos hself).symm, h⟩
  simp only [if_neg hself, Option.bind_eq_bind, Option.bind_eq_some_iff] at hd
  obtain ⟨⟨e, cache⟩, hsearch, hd⟩ := hd
  have hsound : cache.Sound s.SlotRight := h.slots.search hsearch
  have hvalid : Valid { s with slotCache := cache } := { h with slots := hsound }
  have hsame : ({ s with slotCache := cache } : System im G S).slotMethodIndex g self args =
    s.slotMethodIndex g self args := rfl
  by_cases hkey : (cache.table e).key = none
  · simp only [hkey, if_true, hsame] at hd
    rcases hc : s.slotMethodIndex g self args with err | _ | index
    · rw [hc] at hd
      obtain ⟨rfl, rfl⟩ := Prod.mk.inj (Option.some.inj hd)
      exact ⟨by simp only [System.accessorAnswer, if_neg hself, hc], hvalid⟩
    · rw [hc] at hd
      obtain ⟨rfl, rfl⟩ := Prod.mk.inj (Option.some.inj hd)
      exact ⟨by simp only [System.accessorAnswer, if_neg hself, hc], hvalid⟩
    · rw [hc] at hd
      simp only [Option.bind_eq_some_iff] at hd
      obtain ⟨⟨e', cache'⟩, hsearch', hd⟩ := hd
      have hstored : Valid { s with slotCache := cache'.store e' (accessorKeys im g self) index } :=
        { h with slots := (hsound.search hsearch').store e' (slotRight_of_index ha hc) }
      have hvalue : ((cache'.store e' (accessorKeys im g self) index).table e').value =
          .object index := by
        simp [Cache.store, Cache.set]
      obtain ⟨hanswer, hresult⟩ := access_spec hstored hself hc hvalue
      obtain ⟨hstate, hused⟩ := Prod.ext_iff.mp (Option.some.inj hd)
      exact ⟨hused.symm.trans hanswer, by rw [← show _ = s' from hstate]; exact hresult⟩
  · simp only [hkey, if_false] at hd
    obtain ⟨index, hvalue, hright⟩ := h.slots.hit hsearch hkey
    have hc := hright g args self ha rfl
    obtain ⟨hanswer, hresult⟩ := access_spec hvalid hself hc hvalue
    obtain ⟨hstate, hused⟩ := Prod.ext_iff.mp (Option.some.inj hd)
    exact ⟨hused.symm.trans hanswer, by rw [← show _ = s' from hstate]; exact hresult⟩

theorem call_spec {s s' : System im G S} {g : G} {args : List O} {a : Answer O C N M} (h : Valid s)
    (hsuits : s.Suits g args) (hcall : s.call hash g args = some (s', a)) :
    a = s.answer g args ∧ Valid s' := by
  have haccessor : ∀ d, (s.functions g).dispatch s.sys = d →
      (match accessedInstance d args with
        | some self => s.accessorDispatch hash g self args
        | none => some (s, .fillError .wrongNumArguments)) = some (s', a) →
      a = (match accessedInstance d args with
        | some self => s.accessorAnswer g self args
        | none => .fillError .wrongNumArguments) ∧ Valid s' := by
    intro d hdispatch hd
    cases ha : accessedInstance d args with
    | none =>
      rw [ha] at hd
      obtain ⟨rfl, rfl⟩ := Prod.mk.inj (Option.some.inj hd)
      exact ⟨rfl, h⟩
    | some self =>
      rw [ha] at hd
      exact accessorDispatch_spec h (hdispatch ▸ ha) hd
  simp only [System.call, System.answer] at hcall ⊢
  cases hdispatch : (s.functions g).dispatch s.sys with
  | computed =>
    rw [hdispatch] at hcall
    obtain ⟨rfl, rfl⟩ := Prod.mk.inj (Option.some.inj hcall)
    exact ⟨rfl, h⟩
  | generic | restricted =>
    rw [hdispatch] at hcall
    exact standardDispatch_spec h hsuits hcall
  | reader =>
    rw [hdispatch] at hcall
    exact haccessor .reader hdispatch hcall
  | writer =>
    rw [hdispatch] at hcall
    exact haccessor .writer hdispatch hcall

omit [DecidableEq G] in
theorem valid_emptied {s : System im G S} (h : Valid s) : Valid s.emptied where
  methods := sound_makeCache _ _
  slots := sound_makeCache _ _
  frames := h.frames
  ran := h.ran

theorem emptied_call_isSome (hash : List (Word G C) → ℕ) (s : System im G S) (g : G)
    (args : List O) : (s.emptied.call hash g args).isSome = true := by
  have hstandard : (s.emptied.standardDispatch hash g args).isSome = true := by
    unfold System.standardDispatch
    cases hfill : fillSpecVector s.emptied.sys (s.emptied.functions g).gf 64 args with
    | error e => rfl
    | ok vector =>
      obtain ⟨⟨e, cache⟩, hsearch⟩ := Option.isSome_iff_exists.mp
        (@search_isSome _ _ s.emptied.methodCache _ hash (vector.map (word g)) rfl rfl)
      simp only [hsearch, Option.bind_eq_bind, Option.bind_some]
      by_cases hkey : (cache.table e).key = none
      · simp only [hkey, if_true]
        rcases s.emptied.computeApplicableMethod g args with err | _ | methods <;> rfl
      · simp only [hkey, if_false]
        rfl
  have haccessor : ∀ self, (s.emptied.accessorDispatch hash g self args).isSome = true := by
    intro self
    unfold System.accessorDispatch
    by_cases hself : s.emptied.stamps self = none
    · rw [if_pos hself]
      rfl
    obtain ⟨⟨e, cache⟩, hsearch⟩ := Option.isSome_iff_exists.mp
      (@search_isSome _ _ s.emptied.slotCache _ hash (accessorKeys im g self) rfl rfl)
    obtain ⟨hlist, hstart⟩ := search_start rfl rfl hsearch
    obtain ⟨⟨e', cache'⟩, hsearch'⟩ := Option.isSome_iff_exists.mp (search_isSome hlist hstart)
    simp only [if_neg hself, hsearch, Option.bind_eq_bind, Option.bind_some]
    by_cases hkey : (cache.table e).key = none
    · simp only [hkey, if_true]
      rcases ({ s.emptied with slotCache := cache } : System im G S).slotMethodIndex g self args with
        err | _ | index
      · rfl
      · rfl
      · simp only [hsearch']
        rfl
    · simp only [hkey, if_false]
      rfl
  unfold System.call
  cases (s.emptied.functions g).dispatch s.emptied.sys with
  | computed => rfl
  | generic => exact hstandard
  | restricted => exact hstandard
  | reader =>
    simp only
    cases accessedInstance .reader args with
    | none => rfl
    | some self => exact haccessor self
  | writer =>
    simp only
    cases accessedInstance .writer args with
    | none => rfl
    | some self => exact haccessor self

end DispatchCaches
