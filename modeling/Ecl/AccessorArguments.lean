import Ecl.DispatchCaches
import Ecl.MethodOrdering

/-! Arguments with equal keys of one cache have the same effective method, or the same slot. -/
namespace DispatchCaches

open GenericFunctions DispatchKeys SpecializerOrder MethodOrdering

variable {O C G N S M : Type} [DecidableEq O] [DecidableEq C]

section
variable {sys : ClassSystem O C}

/-- Classes count only where the specializers differ. -/
theorem compareSpecializersLists_congr {names : List S} {specs specs' : S → Option (Specializer O C)}
    {classes classes' : S → Option C} (hs : ∀ p ∈ names, ∃ spec, specs p = some spec)
    (hs' : ∀ p ∈ names, ∃ spec, specs' p = some spec) (hc : ∀ p ∈ names, ∃ c, classes p = some c)
    (hc' : ∀ p ∈ names, ∃ c, classes' p = some c)
    (h : ∀ p ∈ names, specs p = specs' p ∨ classes p = classes' p) :
    compareSpecializersLists sys (names.filterMap specs) (names.filterMap specs')
        (names.filterMap classes) =
      compareSpecializersLists sys (names.filterMap specs) (names.filterMap specs')
        (names.filterMap classes') := by
  induction names with
  | nil => rfl
  | cons p names ih =>
    obtain ⟨spec, hspec⟩ := hs p List.mem_cons_self
    obtain ⟨spec', hspec'⟩ := hs' p List.mem_cons_self
    obtain ⟨c, hclass⟩ := hc p List.mem_cons_self
    obtain ⟨c', hclass'⟩ := hc' p List.mem_cons_self
    have hrest := ih (fun q hq => hs q (List.mem_cons_of_mem p hq))
      (fun q hq => hs' q (List.mem_cons_of_mem p hq)) (fun q hq => hc q (List.mem_cons_of_mem p hq))
      (fun q hq => hc' q (List.mem_cons_of_mem p hq)) fun q hq => h q (List.mem_cons_of_mem p hq)
    simp only [List.filterMap_cons_some hspec, List.filterMap_cons_some hspec',
      List.filterMap_cons_some hclass, List.filterMap_cons_some hclass', compareSpecializersLists]
    rcases h p List.mem_cons_self with he | he
    · rw [hspec, hspec', Option.some.injEq] at he
      subst he
      rw [compareSpecializers_same, compareSpecializers_same]
      exact hrest
    · rw [hclass, hclass', Option.some.injEq] at he
      subst he
      cases compareSpecializers sys spec spec' c with
      | first => rfl
      | second => rfl
      | same => exact hrest
      | neither => rfl

variable [DecidableEq S] [DecidableEq M] {gf : GenericFunction O C S M} {args args' : List O}

theorem stdComputeApplicableMethods_congr (hargs : gf.required.length ≤ args.length)
    (hargs' : gf.required.length ≤ args'.length)
    (happ : ∀ m ∈ gf.methods, applicableMethodP sys (gf.specializers m) args =
      applicableMethodP sys (gf.specializers m) args')
    (hdiff : ∀ m ∈ gf.methods, ∀ m' ∈ gf.methods, ∀ p ∈ gf.required,
      gf.at (gf.specializers m) p = gf.at (gf.specializers m') p ∨
        gf.at (args.map sys.classOf) p = gf.at (args'.map sys.classOf) p) :
    stdComputeApplicableMethods sys gf args = stdComputeApplicableMethods sys gf args' := by
  have hmethods : applicableMethods sys gf args = applicableMethods sys gf args' :=
    List.filter_congr happ
  have hat : ∀ args : List O, gf.required.length ≤ args.length → ∀ p ∈ gf.argumentPrecedenceOrder,
      ∃ c, gf.at (args.map sys.classOf) p = some c := by
    intro args hargs p hp
    apply at_some _ (gf.perm.subset hp)
    rw [List.length_map]
    exact hargs
  have hspecs : ∀ m ∈ gf.methods, ∀ p ∈ gf.argumentPrecedenceOrder,
      ∃ spec, gf.at (gf.specializers m) p = some spec := fun m hm p hp =>
    at_some (Nat.le_of_eq (gf.congruent m hm).symm) (gf.perm.subset hp)
  simp only [stdComputeApplicableMethods, sort_eq _ hargs, sort_eq _ hargs', hmethods]
  apply SelectionSorting.sort_congr
  intro m hm m' hm'
  have hm := (List.mem_filter.mp hm).1
  have hm' := (List.mem_filter.mp hm').1
  have hcompare := @compareSpecializersLists_congr O C S _ _ sys gf.argumentPrecedenceOrder _ _ _ _
    (hspecs m hm) (hspecs m' hm') (hat args hargs) (hat args' hargs') fun p hp =>
      hdiff m hm m' hm' p (gf.perm.subset hp)
  simp only [beats, compareMethods_eq hm hm', specsInOrder, ← inOrder_map]
  exact congrArg (fun c => c >>= fun c => pure (decide (c = .second))) hcompare

theorem sortApplicableMethods_nil {specs : List (Specializer O C)} {l : List M}
    (h : sortApplicableMethods sys gf [] specs = .ok l) : l = [] := by
  unfold sortApplicableMethods at h
  cases hreorder : gf.reorder (O := O) (C := C)
      ((specs.take gf.argumentPrecedenceOrder.length).map (argClass sys)) with
  | error e =>
    rw [hreorder] at h
    cases h
  | ok classes =>
    rw [hreorder] at h
    exact (Except.ok.inj h).symm

theorem sortApplicableMethods_nil_of_required {specs : List (Specializer O C)}
    (h : gf.argumentPrecedenceOrder = gf.required ∨ gf.required.length ≤ specs.length) :
    sortApplicableMethods sys gf [] specs = .ok [] := by
  have hreorder : ∃ classes, gf.reorder (O := O) (C := C)
      ((specs.take gf.argumentPrecedenceOrder.length).map (argClass sys)) = .ok classes := by
    rcases h with h | h
    · exact ⟨_, if_pos h⟩
    · refine ⟨_, reorder_eq ?_⟩
      rw [List.length_map, gf.perm.length_eq, List.length_take_of_le h]
  obtain ⟨classes, hclasses⟩ := hreorder
  unfold sortApplicableMethods
  rw [hclasses]
  rfl

end

variable {im : Image O C N M}

omit [DecidableEq O] [DecidableEq C] in
theorem Hierarchy.classOf_congr (h : Hierarchy im) {self self' : O}
    (hc : im.classOf self = im.classOf self') :
    h.toClassSystem.classOf self = h.toClassSystem.classOf self' := by
  rw [h.classOf_eq]
  exact hc

omit [DecidableEq O] in
theorem fits_of_isReader {t : C} {k : MethodClass N} {specs : List (Specializer O C)}
    (hk : k.isReader = true) (h : k.fits t specs = true) : ∃ c, specs = [.cls c] := by
  unfold MethodClass.fits at h
  split at h
  · next c => exact ⟨c, rfl⟩
  · cases hk
  · cases hk
  · cases h

omit [DecidableEq O] in
theorem fits_of_isWriter {t : C} {k : MethodClass N} {specs : List (Specializer O C)}
    (hk : k.isWriter = true) (h : k.fits t specs = true) : ∃ c, specs = [.cls t, .cls c] := by
  unfold MethodClass.fits at h
  split at h
  · cases hk
  · next c =>
    rw [of_decide_eq_true h]
    exact ⟨c, rfl⟩
  · cases hk
  · cases h

omit [DecidableEq O] in
theorem dispatch_reader {sys : ClassSystem O C} {f : Function im S} (h : f.dispatch sys = .reader) :
    f.gf.methods ≠ [] ∧ ∀ m ∈ f.gf.methods, ∃ c, f.gf.specializers m = [.cls c] := by
  unfold Function.dispatch at h
  split_ifs at h with _ _ hreader
  exact ⟨hreader.1, fun m hm => fits_of_isReader (hreader.2 m hm) (f.accessors m hm)⟩

omit [DecidableEq O] in
theorem dispatch_writer {sys : ClassSystem O C} {f : Function im S} (h : f.dispatch sys = .writer) :
    f.gf.methods ≠ [] ∧ ∀ m ∈ f.gf.methods, ∃ c, f.gf.specializers m = [.cls im.t, .cls c] := by
  unfold Function.dispatch at h
  split_ifs at h with _ _ _ hwriter
  exact ⟨hwriter.1, fun m hm => fits_of_isWriter (hwriter.2 m hm) (f.accessors m hm)⟩

variable [DecidableEq S] [DecidableEq M]

theorem reader_congr {h : Hierarchy im} {f : Function im S}
    (hreader : f.dispatch h.toClassSystem = .reader) {self self' : O}
    (hc : im.classOf self = im.classOf self') :
    stdComputeApplicableMethods h.toClassSystem f.gf [self] =
      stdComputeApplicableMethods h.toClassSystem f.gf [self'] := by
  obtain ⟨hne, hspecs⟩ := dispatch_reader hreader
  obtain ⟨m, hm⟩ := List.exists_mem_of_ne_nil f.gf.methods hne
  obtain ⟨c, hmc⟩ := hspecs m hm
  have hlen : f.gf.required.length = 1 := by rw [← f.gf.congruent m hm, hmc]; rfl
  have hclass := h.classOf_congr hc
  apply stdComputeApplicableMethods_congr (Nat.le_of_eq hlen) (Nat.le_of_eq hlen)
  · intro m hm
    obtain ⟨c, hmc⟩ := hspecs m hm
    simp only [hmc, applicableMethodP, List.zip_cons_cons, List.all_cons, accepts,
      ClassSystem.ofClassP, hclass, List.zip_nil_right]
  · intro m _ m' _ p _
    apply Or.inr
    simp only [List.map_cons, hclass, List.map_nil]

theorem writer_congr {h : Hierarchy im} {f : Function im S}
    (hwriter : f.dispatch h.toClassSystem = .writer) (value value' : O) {self self' : O}
    (hc : im.classOf self = im.classOf self') :
    stdComputeApplicableMethods h.toClassSystem f.gf [value, self] =
      stdComputeApplicableMethods h.toClassSystem f.gf [value', self'] := by
  obtain ⟨hne, hspecs⟩ := dispatch_writer hwriter
  obtain ⟨m, hm⟩ := List.exists_mem_of_ne_nil f.gf.methods hne
  obtain ⟨c, hmc⟩ := hspecs m hm
  have hlen : f.gf.required.length = 2 := by rw [← f.gf.congruent m hm, hmc]; rfl
  have hclass := h.classOf_congr hc
  have ht : ∀ value, h.toClassSystem.ofClassP value im.t = true := fun value => by
    simp [ClassSystem.ofClassP, h.t_mem]
  apply stdComputeApplicableMethods_congr (Nat.le_of_eq hlen) (Nat.le_of_eq hlen)
  · intro m hm
    obtain ⟨c, hmc⟩ := hspecs m hm
    simp only [hmc, applicableMethodP, List.zip_cons_cons, List.all_cons, accepts, ht]
    simp only [ClassSystem.ofClassP, hclass, List.zip_nil_right]
  · intro m hm m' hm' p hp
    obtain ⟨c, hmc⟩ := hspecs m hm
    obtain ⟨c', hmc'⟩ := hspecs m' hm'
    have hidx : f.gf.required.idxOf p < 2 := hlen ▸ List.idxOf_lt_length_of_mem hp
    simp only [GenericFunction.at, hmc, hmc', List.map_cons, List.map_nil, hclass]
    -- the value, then the instance
    cases hi : f.gf.required.idxOf p with
    | zero => exact Or.inl rfl
    | succ i =>
      obtain rfl : i = 0 := by omega
      exact Or.inr rfl

omit [DecidableEq O] [DecidableEq C] [DecidableEq S] [DecidableEq M] in
theorem accessedInstance_some {d : Dispatch} {args : List O} {self : O}
    (h : accessedInstance d args = some self) :
    d = .reader ∧ args = [self] ∨ d = .writer ∧ ∃ value, args = [value, self] := by
  unfold accessedInstance at h
  split at h
  · obtain rfl := Option.some.inj h
    exact Or.inl ⟨rfl, rfl⟩
  · obtain rfl := Option.some.inj h
    exact Or.inr ⟨rfl, _, rfl⟩
  · cases h

theorem slotMethodIndex_congr [DecidableEq N] {s : System im G S} {g : G} {args args' : List O} {self self' : O}
    (ha : accessedInstance ((s.functions g).dispatch s.sys) args = some self)
    (ha' : accessedInstance ((s.functions g).dispatch s.sys) args' = some self')
    (hc : im.classOf self = im.classOf self') :
    s.slotMethodIndex g self args = s.slotMethodIndex g self' args' := by
  have hstd : stdComputeApplicableMethods s.sys (s.functions g).gf args =
      stdComputeApplicableMethods s.sys (s.functions g).gf args' := by
    rcases accessedInstance_some ha with ⟨hd, rfl⟩ | ⟨hd, value, rfl⟩
    · rcases accessedInstance_some ha' with ⟨-, rfl⟩ | ⟨hd', -⟩
      · exact reader_congr hd hc
      · cases hd.symm.trans hd'
    · rcases accessedInstance_some ha' with ⟨hd', -⟩ | ⟨-, value', rfl⟩
      · cases hd.symm.trans hd'
      · exact writer_congr hd value value' hc
  simp only [System.slotMethodIndex, System.slotMethodName, hstd, hc]

theorem computeApplicableMethod_congr {s : System im G S} {g : G} {args args' : List O}
    {vector : List (Key C)} {methods : List M}
    (hfill : fillSpecVector s.sys (s.functions g).gf 64 args = .ok vector)
    (hfill' : fillSpecVector s.sys (s.functions g).gf 64 args' = .ok vector)
    (hsuits : s.Suits g args') (h : s.computeApplicableMethod g args = .ok (some methods)) :
    s.computeApplicableMethod g args' = .ok (some methods) := by
  have halike := alike_of_keys s.sys hfill hfill'
  by_cases hne : (s.functions g).gf.methods = []
  · have hstd : ∀ args, stdComputeApplicableMethods s.sys (s.functions g).gf args =
        sortApplicableMethods s.sys (s.functions g).gf [] (args.map fun arg => .cls (s.sys.classOf arg)) := by
      intro args
      simp only [stdComputeApplicableMethods, applicableMethods, hne, List.filter_nil]
    have husing : ∀ args : List O,
        stdComputeApplicableMethodsUsingClasses s.sys (s.functions g).gf (args.map s.sys.classOf) =
          some (sortApplicableMethods s.sys (s.functions g).gf []
            ((args.map s.sys.classOf).map .cls)) := by
      intro args
      simp only [stdComputeApplicableMethodsUsingClasses, hne, collectUsingClasses]
      rfl
    cases hclass : (s.functions g).standardClass with
    | true =>
      simp only [System.computeApplicableMethod, hclass, if_true, hstd] at h
      cases hsort : sortApplicableMethods s.sys (s.functions g).gf []
          (args.map fun arg => .cls (s.sys.classOf arg)) with
      | error e =>
        rw [hsort] at h
        cases h
      | ok l =>
        rw [hsort, sortApplicableMethods_nil hsort] at h
        cases h
    | false =>
      simp only [System.computeApplicableMethod, hclass, husing] at h ⊢
      cases hsort : sortApplicableMethods s.sys (s.functions g).gf []
          ((args.map s.sys.classOf).map .cls) with
      | error e =>
        rw [hsort] at h
        cases h
      | ok l =>
        rw [hsort, sortApplicableMethods_nil hsort] at h
        rw [sortApplicableMethods_nil_of_required]
        · exact h
        · simpa only [List.length_map] using hsuits hclass hne
  · rw [← h]
    simp only [System.computeApplicableMethod, halike.std_eq hne, halike.usingClasses_eq hne]

end DispatchCaches
