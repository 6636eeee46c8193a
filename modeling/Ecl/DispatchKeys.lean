import Ecl.GenericFunctions
import Mathlib.Data.List.TakeWhile

/-! The keys of the method cache: the specialization profile of a generic function,
compute-g-f-spec-list of src/clos/kernel.lsp, and the vector that fill_spec_vector of
src/c/clos/gfun.d makes of the arguments by it. -/
namespace DispatchKeys

open GenericFunctions

variable {O C S M : Type}

/-- (CLASS-SPECIALIZED-P . EQL-SPECIALIZERS) -/
structure ArgProfile (O : Type) where
  classSpecialized : Bool
  eqlSpecializers : List O
  deriving DecidableEq

/-- What the vector holds: the generic function, a cons cell of a list of EQL objects, or a class. A
cell is known by the position whose list it belongs to and by the length of the list from it. -/
inductive Key (C : Type) where
  | gf
  | cell (position length : ℕ)
  | cls (c : C)
  deriving DecidableEq

inductive FillError where
  | wrongNumArguments
  /-- Too many arguments to fill_spec_vector(). -/
  | internal
  deriving DecidableEq

section
variable [DecidableEq C] (sys : ClassSystem O C)

def ArgProfile.make : Specializer O C → ArgProfile O
  | .eql object => ⟨false, [object]⟩
  | .cls spec => if spec = sys.t then ⟨false, []⟩ else ⟨true, []⟩

def ArgProfile.update (p : ArgProfile O) : Specializer O C → ArgProfile O
  | .eql object => { p with eqlSpecializers := object :: p.eqlSpecializers }
  | .cls spec => if !p.classSpecialized && spec ≠ sys.t then { p with classSpecialized := true } else p

def updateEach : List (ArgProfile O) → List (Specializer O C) → List (ArgProfile O)
  | p :: profile, spec :: specs => p.update sys spec :: updateEach profile specs
  | profile, _ => profile

def nupdateProfile (specHowList : List (ArgProfile O)) (specs : List (Specializer O C)) :
    List (ArgProfile O) :=
  if specHowList = [] then specs.map (ArgProfile.make sys) else updateEach sys specHowList specs

/-- The list that compute-g-f-spec-list leaves in the generic function. -/
def computeSpecList (gf : GenericFunction O C S M) : List (ArgProfile O) :=
  gf.methods.foldl (fun profile m => nupdateProfile sys profile (gf.specializers m)) []

variable [DecidableEq O]

/-- ecl_memql: the cell with the object. -/
def memql (x : O) (l : List O) : List O := l.dropWhile (· ≠ x)

/-- The loop of fill_spec_vector from an element of the vector, with dim elements. -/
def fillSpecs (dim : ℕ) : ℕ → List (ArgProfile O) → List O → Except FillError (List (Key C))
  | _, [], _ => .ok []
  | _, _ :: _, [] => .error .wrongNumArguments
  | specNo, p :: profile, arg :: args => do
    if dim ≤ specNo then throw .internal
    let key :=
      match memql arg p.eqlSpecializers with
      | [] => .cls (sys.classOf arg)
      | cell => .cell specNo cell.length
    let keys ← fillSpecs dim (specNo + 1) profile args
    return key :: keys

def fillSpecVector (gf : GenericFunction O C S M) (dim : ℕ) (args : List O) :
    Except FillError (List (Key C)) := do
  let keys ← fillSpecs sys dim 1 (computeSpecList sys gf) args
  return .gf :: keys

/-- The methods in the dispatch of a generic function that is not restricted to the standard
methods of COMPUTE-APPLICABLE-METHODS, generic_compute_applicable_method. -/
def genericComputeApplicableMethods [DecidableEq S] [DecidableEq M] (gf : GenericFunction O C S M)
    (args : List O) : Except (Error O C) (List M) :=
  (stdComputeApplicableMethodsUsingClasses sys gf (args.map sys.classOf)).getD
    (stdComputeApplicableMethods sys gf args)

end

section
variable [DecidableEq C] (sys : ClassSystem O C)

/-- The object of an EQL specializer is in the profile. -/
def Covered (p : ArgProfile O) (spec : Specializer O C) : Prop :=
  ∀ object, spec = .eql object → object ∈ p.eqlSpecializers

theorem covered_make (spec : Specializer O C) : Covered (ArgProfile.make sys spec) spec := by
  intro object hspec
  simp [hspec, ArgProfile.make]

theorem covered_update_self (p : ArgProfile O) (spec : Specializer O C) :
    Covered (p.update sys spec) spec := by
  intro object hspec
  simp [hspec, ArgProfile.update]

theorem mem_update {p : ArgProfile O} {object : O} (spec : Specializer O C)
    (h : object ∈ p.eqlSpecializers) : object ∈ (p.update sys spec).eqlSpecializers := by
  cases spec with
  | eql o => exact List.mem_cons_of_mem o h
  | cls c =>
    simp only [ArgProfile.update]
    split_ifs
    · exact h
    · exact h

theorem updateEach_keeps {profile : List (ArgProfile O)} {specs : List (Specializer O C)}
    (h : List.Forall₂ Covered profile specs) (specs' : List (Specializer O C)) :
    List.Forall₂ Covered (updateEach sys profile specs') specs := by
  induction h generalizing specs' with
  | nil => exact List.Forall₂.nil
  | cons hp hrest ih =>
    cases specs' with
    | nil => exact List.Forall₂.cons hp hrest
    | cons spec' specs' =>
      exact List.Forall₂.cons (fun o ho => mem_update sys spec' (hp o ho)) (ih specs')

theorem updateEach_covers {profile : List (ArgProfile O)} {specs : List (Specializer O C)}
    (h : profile.length = specs.length) :
    List.Forall₂ Covered (updateEach sys profile specs) specs := by
  induction profile generalizing specs with
  | nil =>
    rw [List.eq_nil_of_length_eq_zero h.symm]
    exact List.Forall₂.nil
  | cons p profile ih =>
    cases specs with
    | nil => cases h
    | cons spec specs =>
      exact List.Forall₂.cons (covered_update_self sys p spec) (ih (Nat.succ.inj h))

theorem map_make_covers (specs : List (Specializer O C)) :
    List.Forall₂ Covered (specs.map (ArgProfile.make sys)) specs := by
  induction specs with
  | nil => exact List.Forall₂.nil
  | cons spec specs ih => exact List.Forall₂.cons (covered_make sys spec) ih

theorem nupdateProfile_spec {profile : List (ArgProfile O)} {specs : List (Specializer O C)}
    (h : profile = [] ∨ profile.length = specs.length) :
    (nupdateProfile sys profile specs).length = specs.length ∧
      List.Forall₂ Covered (nupdateProfile sys profile specs) specs ∧
      ∀ specs' : List (Specializer O C), specs'.length = specs.length →
        List.Forall₂ Covered profile specs' →
        List.Forall₂ Covered (nupdateProfile sys profile specs) specs' := by
  unfold nupdateProfile
  by_cases hp : profile = []
  · rw [if_pos hp]
    refine ⟨by simp, map_make_covers sys specs, fun specs' hlen hcov => ?_⟩
    have hnil : specs' = [] := by simpa [hp] using hcov
    have hspecs : specs = [] := by simpa [hnil, eq_comm] using hlen
    simp [hnil, hspecs]
  · rw [if_neg hp]
    have hcov := updateEach_covers sys (h.resolve_left hp)
    exact ⟨hcov.length_eq, hcov, fun specs' _ hcov' => updateEach_keeps sys hcov' specs⟩

theorem foldl_covers (specializers : M → List (Specializer O C)) {n : ℕ} {methods : List M}
    (hn : ∀ m ∈ methods, (specializers m).length = n) {profile : List (ArgProfile O)}
    (hp : profile = [] ∨ profile.length = n) {seen : List M}
    (hseen : ∀ m ∈ seen, (specializers m).length = n ∧
      List.Forall₂ Covered profile (specializers m)) :
    ∀ m, m ∈ seen ∨ m ∈ methods → List.Forall₂ Covered
      (methods.foldl (fun profile m => nupdateProfile sys profile (specializers m)) profile)
      (specializers m) := by
  induction methods generalizing profile seen with
  | nil => exact fun m hm => (hseen m (by simpa using hm)).2
  | cons m' methods ih =>
    intro m hm
    have hm' : (specializers m').length = n := hn m' List.mem_cons_self
    obtain ⟨hlen, hself, hkeep⟩ := nupdateProfile_spec sys (hm'.symm ▸ hp)
    apply @ih (fun m hm => hn m (List.mem_cons_of_mem m' hm)) _ (Or.inr (hlen.trans hm')) (m' :: seen)
    · intro m hm
      rcases List.mem_cons.mp hm with rfl | hm
      · exact ⟨hm', hself⟩
      · exact ⟨(hseen m hm).1, hkeep _ ((hseen m hm).1.trans hm'.symm) (hseen m hm).2⟩
    · rcases hm with hm | hm
      · exact Or.inl (List.mem_cons_of_mem m' hm)
      rcases List.mem_cons.mp hm with rfl | hm
      · exact Or.inl List.mem_cons_self
      · exact Or.inr hm

theorem computeSpecList_covers (gf : GenericFunction O C S M) {m : M} (hm : m ∈ gf.methods) :
    List.Forall₂ Covered (computeSpecList sys gf) (gf.specializers m) :=
  @foldl_covers O C M _ sys gf.specializers _ _ gf.congruent [] (Or.inl rfl) []
    (fun _ hm => absurd hm List.not_mem_nil) m (Or.inr hm)

variable [DecidableEq O]

theorem memql_eq_nil {x : O} {l : List O} (h : memql x l = []) : x ∉ l := by
  intro hx
  have hall := List.dropWhile_eq_nil_iff.mp h x hx
  simp at hall

theorem head_memql {x y : O} {l rest : List O} (h : memql x l = y :: rest) : y = x := by
  have hhead := List.head?_dropWhile_not (fun y => decide (y ≠ x)) l
  rw [← memql, h] at hhead
  simpa using hhead

theorem memql_inj {x y : O} {l : List O} (hx : memql x l ≠ [])
    (h : (memql x l).length = (memql y l).length) : x = y := by
  have hsx : memql x l <:+ l := List.dropWhile_suffix _
  have hsy : memql y l <:+ l := List.dropWhile_suffix _
  have he : memql x l = memql y l :=
    (List.suffix_of_suffix_length_le hsx hsy (Nat.le_of_eq h)).eq_of_length h
  obtain ⟨z, rest, hz⟩ := List.exists_cons_of_ne_nil hx
  exact (head_memql hz).symm.trans (head_memql (he ▸ hz))

inductive Alike : List (ArgProfile O) → List O → List O → Prop where
  | nil (args args' : List O) : Alike [] args args'
  | cons {p profile arg arg' args args'} : sys.classOf arg = sys.classOf arg' →
      (∀ object ∈ p.eqlSpecializers, arg = object ↔ arg' = object) → Alike profile args args' →
      Alike (p :: profile) (arg :: args) (arg' :: args')

omit [DecidableEq C] in
theorem key_alike {specNo : ℕ} {arg arg' : O} {l : List O}
    (h : (match memql arg l with
      | [] => Key.cls (sys.classOf arg)
      | cell => .cell specNo cell.length) = match memql arg' l with
      | [] => Key.cls (sys.classOf arg')
      | cell => .cell specNo cell.length) :
    sys.classOf arg = sys.classOf arg' ∧ ∀ object ∈ l, arg = object ↔ arg' = object := by
  cases hm : memql arg l with
  | nil =>
    cases hm' : memql arg' l with
    | nil =>
      have hn := memql_eq_nil hm
      have hn' := memql_eq_nil hm'
      simp only [hm, hm', Key.cls.injEq] at h
      refine ⟨h, fun object ho => ⟨?_, ?_⟩⟩
      · rintro rfl
        exact absurd ho hn
      · rintro rfl
        exact absurd ho hn'
    | cons x rest => simp [hm, hm'] at h
  | cons x rest =>
    cases hm' : memql arg' l with
    | nil => simp [hm, hm'] at h
    | cons y rest' =>
      have hlen : (memql arg l).length = (memql arg' l).length := by
        rw [hm, hm']
        simpa [hm, hm'] using h
      have he : arg = arg' := memql_inj (by simp [hm]) hlen
      simp [he]

omit [DecidableEq C] in
theorem fillSpecs_alike {dim specNo : ℕ} {profile : List (ArgProfile O)} {args args' : List O}
    {keys : List (Key C)} (h : fillSpecs sys dim specNo profile args = .ok keys)
    (h' : fillSpecs sys dim specNo profile args' = .ok keys) : Alike sys profile args args' := by
  induction profile generalizing specNo args args' keys with
  | nil => exact Alike.nil args args'
  | cons p profile ih =>
    cases args with
    | nil => cases h
    | cons arg args =>
      cases args' with
      | nil => cases h'
      | cons arg' args' =>
        simp only [fillSpecs] at h h'
        by_cases hd : dim ≤ specNo
        · simp [hd, throw, throwThe, MonadExceptOf.throw, bind, Except.bind] at h
        cases hf : fillSpecs sys dim (specNo + 1) profile args with
        | error e => simp [hd, hf, bind, Except.bind] at h
        | ok rest =>
          cases hf' : fillSpecs sys dim (specNo + 1) profile args' with
          | error e => simp [hd, hf', bind, Except.bind] at h'
          | ok rest' =>
            simp only [hd, hf, if_false, bind, Except.bind, pure, Except.pure,
              Except.ok.injEq] at h
            simp only [hd, hf', if_false, bind, Except.bind, pure, Except.pure,
              Except.ok.injEq] at h'
            obtain ⟨hkey, hrest⟩ := List.cons.inj (h.trans h'.symm)
            obtain ⟨hclass, heql⟩ := key_alike sys hkey
            exact Alike.cons hclass heql (ih hf (hrest ▸ hf'))

theorem Alike.applicableMethodP_eq {profile : List (ArgProfile O)} {args args' : List O}
    (h : Alike sys profile args args') {specs : List (Specializer O C)}
    (hs : List.Forall₂ Covered profile specs) :
    applicableMethodP sys specs args = applicableMethodP sys specs args' := by
  unfold applicableMethodP
  induction h generalizing specs with
  | nil args args' =>
    cases hs
    rfl
  | cons hclass heql _ ih =>
    cases hs with
    | cons hp hrest =>
      rename_i spec specs
      simp only [List.zip_cons_cons, List.all_cons, ih hrest]
      congr 1
      cases spec with
      | eql object => simp only [accepts, heql object (hp object rfl)]
      | cls c => simp only [accepts, ClassSystem.ofClassP, hclass]

omit [DecidableEq C] [DecidableEq O] in
theorem Alike.classes_eq {profile : List (ArgProfile O)} {args args' : List O}
    (h : Alike sys profile args args') :
    (args.take profile.length).map sys.classOf = (args'.take profile.length).map sys.classOf := by
  induction h with
  | nil args args' => rfl
  | cons hclass _ _ ih => simp [hclass, ih]

omit [DecidableEq O] in
theorem applicableUsingClassesP_take (specs : List (Specializer O C)) (classes : List C)
    (eqlSpecP : Bool) : applicableUsingClassesP sys eqlSpecP specs (classes.take specs.length) =
      applicableUsingClassesP sys eqlSpecP specs classes := by
  induction specs generalizing classes eqlSpecP with
  | nil => cases classes <;> rfl
  | cons spec specs ih =>
    cases classes with
    | nil => rfl
    | cons c classes =>
      cases spec with
      | eql object | cls d =>
        simp only [List.length_cons, List.take_succ_cons, applicableUsingClassesP, ih]

omit [DecidableEq O] in
theorem collectUsingClasses_congr {specializers : M → List (Specializer O C)} {n : ℕ}
    {classes classes' : List C} (hc : classes.take n = classes'.take n) {methods : List M}
    (hn : ∀ m ∈ methods, (specializers m).length = n) :
    collectUsingClasses sys specializers classes methods =
      collectUsingClasses sys specializers classes' methods := by
  induction methods with
  | nil => rfl
  | cons m methods ih =>
    have hm : (specializers m).length = n := hn m List.mem_cons_self
    have happ : applicableUsingClassesP sys false (specializers m) classes =
        applicableUsingClassesP sys false (specializers m) classes' := by
      rw [← applicableUsingClassesP_take, ← applicableUsingClassesP_take sys _ classes', hm, hc]
    simp only [collectUsingClasses, happ, ih fun m hm => hn m (List.mem_cons_of_mem _ hm)]

variable [DecidableEq S] [DecidableEq M]

theorem sortApplicableMethods_congr (gf : GenericFunction O C S M) (applicable : List M)
    {specs specs' : List (Specializer O C)}
    (h : specs.take gf.required.length = specs'.take gf.required.length) :
    sortApplicableMethods sys gf applicable specs =
      sortApplicableMethods sys gf applicable specs' := by
  simp only [sortApplicableMethods, gf.perm.length_eq, h]

omit [DecidableEq S] [DecidableEq M] in
theorem fillSpecVector_ok {gf : GenericFunction O C S M} {dim : ℕ} {args : List O}
    {keys : List (Key C)} (h : fillSpecVector sys gf dim args = .ok keys) :
    ∃ rest, fillSpecs sys dim 1 (computeSpecList sys gf) args = .ok rest ∧ .gf :: rest = keys := by
  unfold fillSpecVector at h
  cases hf : fillSpecs sys dim 1 (computeSpecList sys gf) args with
  | error e => simp [hf, bind, Except.bind] at h
  | ok rest => exact ⟨rest, rfl, by simpa [hf, bind, Except.bind, pure, Except.pure] using h⟩

omit [DecidableEq S] [DecidableEq M] in
theorem alike_of_keys {gf : GenericFunction O C S M} {dim : ℕ} {args args' : List O}
    {keys : List (Key C)} (h : fillSpecVector sys gf dim args = .ok keys)
    (h' : fillSpecVector sys gf dim args' = .ok keys) :
    Alike sys (computeSpecList sys gf) args args' := by
  obtain ⟨rest, hrest, hkeys⟩ := fillSpecVector_ok sys h
  obtain ⟨rest', hrest', hkeys'⟩ := fillSpecVector_ok sys h'
  have hsame : rest = rest' := (List.cons.inj (hkeys.trans hkeys'.symm)).2
  exact fillSpecs_alike sys hrest (hsame ▸ hrest')

section
variable {sys} {gf : GenericFunction O C S M} {args args' : List O}

omit [DecidableEq S] [DecidableEq M] in
theorem Alike.applicableMethods_eq (h : Alike sys (computeSpecList sys gf) args args') :
    applicableMethods sys gf args = applicableMethods sys gf args' := by
  apply List.filter_congr
  intro m hm
  exact h.applicableMethodP_eq sys (computeSpecList_covers sys gf hm)

omit [DecidableEq O] [DecidableEq S] [DecidableEq M] in
theorem Alike.required_eq (h : Alike sys (computeSpecList sys gf) args args')
    (hne : gf.methods ≠ []) : (args.take gf.required.length).map sys.classOf =
      (args'.take gf.required.length).map sys.classOf := by
  obtain ⟨m, hm⟩ := List.exists_mem_of_ne_nil gf.methods hne
  have hlen : (computeSpecList sys gf).length = gf.required.length :=
    (computeSpecList_covers sys gf hm).length_eq.trans (gf.congruent m hm)
  exact hlen ▸ h.classes_eq sys

theorem Alike.std_eq (h : Alike sys (computeSpecList sys gf) args args') (hne : gf.methods ≠ []) :
    stdComputeApplicableMethods sys gf args = stdComputeApplicableMethods sys gf args' := by
  have hspecs : ∀ args : List O,
      (args.map fun arg => (.cls (sys.classOf arg) : Specializer O C)).take gf.required.length =
        ((args.take gf.required.length).map sys.classOf).map .cls := by
    intro args
    rw [← List.map_take, List.map_map]
    rfl
  simp only [stdComputeApplicableMethods, h.applicableMethods_eq]
  apply sortApplicableMethods_congr
  rw [hspecs, hspecs, h.required_eq hne]

theorem Alike.usingClasses_eq (h : Alike sys (computeSpecList sys gf) args args')
    (hne : gf.methods ≠ []) :
    stdComputeApplicableMethodsUsingClasses sys gf (args.map sys.classOf) =
      stdComputeApplicableMethodsUsingClasses sys gf (args'.map sys.classOf) := by
  have htake : (args.map sys.classOf).take gf.required.length =
      (args'.map sys.classOf).take gf.required.length := by
    simpa only [List.map_take] using h.required_eq hne
  have hcollect := collectUsingClasses_congr sys htake gf.congruent
  have hsort : ∀ methods, sortApplicableMethods sys gf methods
      ((args.map sys.classOf).map .cls) =
        sortApplicableMethods sys gf methods ((args'.map sys.classOf).map .cls) := by
    intro methods
    apply sortApplicableMethods_congr
    simpa only [List.map_take] using congrArg (List.map Specializer.cls) htake
  simp only [stdComputeApplicableMethodsUsingClasses, hcollect, hsort]

end

/-- Argument lists with equal keys have the same applicable methods, in the same order, whether
they are found from the arguments or first from their classes. -/
theorem equal_keys_same_methods (gf : GenericFunction O C S M) {dim : ℕ} {args args' : List O}
    {keys : List (Key C)} (h : fillSpecVector sys gf dim args = .ok keys)
    (h' : fillSpecVector sys gf dim args' = .ok keys) :
    applicableMethods sys gf args = applicableMethods sys gf args' ∧
      (gf.methods ≠ [] →
        stdComputeApplicableMethods sys gf args = stdComputeApplicableMethods sys gf args' ∧
        genericComputeApplicableMethods sys gf args =
          genericComputeApplicableMethods sys gf args') := by
  have halike := alike_of_keys sys h h'
  refine ⟨halike.applicableMethods_eq, fun hne => ?_⟩
  have hstd := halike.std_eq hne
  exact ⟨hstd, by simp only [genericComputeApplicableMethods, hstd, halike.usingClasses_eq hne]⟩

/-- Methods on (EQL 1) and on T. -/
def oneObject : GenericFunction (Fin 4) (Fin 3) Bool Bool :=
  oneArgument false (.eql anInstance) (.cls threeClasses.t)

theorem equal_keys_of_instances : oneObject.methods ≠ [] ∧
    fillSpecVector threeClasses oneObject 64 [2] = .ok [.gf, .cls 1] ∧
    stdComputeApplicableMethods threeClasses oneObject [2] =
      stdComputeApplicableMethods threeClasses oneObject [3] :=
  ⟨by decide, by rfl, ((@equal_keys_same_methods _ _ _ _ _ threeClasses _ _ _ oneObject 64 [2] [3]
    [.gf, .cls 1] (by rfl) (by rfl)).2 (by decide)).1⟩

end
end DispatchKeys
