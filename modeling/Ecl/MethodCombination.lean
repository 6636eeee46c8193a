import Ecl.EffectiveMethods

/-! The functions that STANDARD-COMPUTE-EFFECTIVE-METHOD builds call methods in the order of CLHS
7.6.6.2, whatever the methods do with the next methods. -/
namespace MethodCombination

open EffectiveMethods

variable {S : Signature}

def Standard (m : Method S) : Prop :=
  m.qualifiers = [] ∨ m.qualifiers = [.before] ∨ m.qualifiers = [.after] ∨ m.qualifiers = [.around]

instance (m : Method S) : Decidable (Standard m) :=
  inferInstanceAs (Decidable (_ ∨ _ ∨ _ ∨ _))

/-- The error for a method with other qualifiers. -/
def refusal (m : Method S) : Option (Exit S) :=
  if Standard m then none
  else some (.errorQualifier m.name
    (match m.qualifiers with
    | [q] => .inr q
    | qs => .inl qs))

theorem standard_of_findSome {methods : List (Method S)}
    (h : methods.findSome? refusal = none) : ∀ m ∈ methods, Standard m := by
  intro m hm
  have hnone := List.findSome?_eq_none_iff.mp h m hm
  by_contra hs
  simp [refusal, hs] at hnone

structure StandardMethods (S : Signature) where
  methods : List (Method S)
  standard : ∀ m ∈ methods, Standard m
  primary_exists : ∃ m ∈ methods, m.qualifiers = []

def qualified (qualifiers : List Qualifier) (methods : List (Method S)) : List (Method S) :=
  methods.filter fun m => m.qualifiers = qualifiers

namespace StandardMethods
variable (ms : StandardMethods S)

def arounds : List (Method S) := qualified [.around] ms.methods

def befores : List (Method S) := qualified [.before] ms.methods

def primaries : List (Method S) := qualified [] ms.methods

def afters : List (Method S) := qualified [.after] ms.methods

theorem primaries_ne_nil : ms.primaries ≠ [] := by
  obtain ⟨m, hm, hq⟩ := ms.primary_exists
  apply List.ne_nil_of_mem
  exact List.mem_filter.mpr ⟨hm, by simp [hq]⟩

def first : Method S := ms.primaries.head ms.primaries_ne_nil

def rest : List (Method S) := ms.primaries.tail

theorem primaries_eq : ms.primaries = ms.first :: ms.rest :=
  (List.cons_head_tail ms.primaries_ne_nil).symm

end StandardMethods

/-- What is left for a method's CALL-NEXT-METHOD: for an around method the less specific around
methods and the main part, for a primary method the less specific primary methods. -/
inductive Next (S : Signature) where
  | nothing
  | around (rest : List (Method S)) (ms : StandardMethods S)
  | primary (rest : List (Method S))

inductive Part (S : Signature) where
  | method (m : Method S) (next : Next S)
  | main (ms : StandardMethods S)

def aroundPart (ms : StandardMethods S) : List (Method S) → Part S
  | [] => .main ms
  | m :: rest => .method m (.around rest ms)

def Next.found : Next S → Option (Part S)
  | .nothing => none
  | .around rest ms => some (aroundPart ms rest)
  | .primary [] => none
  | .primary (m :: rest) => some (.method m (.primary rest))

structure Course (S : Signature) where
  world : S.World
  invoked : List (S.MethodName × List S.Object)
  kept : List (List S.Object × Next S)

section
variable (enter : Invocation S (Next S) (Course S)) (args : List S.Object)

def inTurn : List (Method S) → Course S → Result S (Course S)
  | [], t => some (.values [], t)
  | m :: ms, t => (enter m args .nothing t).andThen fun _ t => inTurn ms t

/-- The main part: before methods, the most specific primary method, after methods in reverse. -/
def mainPart (ms : StandardMethods S) (t : Course S) : Result S (Course S) :=
  (inTurn enter args ms.befores t).andThen fun _ t =>
    (enter ms.first args (.primary ms.rest) t).andThen fun vs t =>
      (inTurn enter args ms.afters.reverse t).andThen fun _ t => some (.values vs, t)

def perform : Part S → Course S → Result S (Course S)
  | .method m next, t => enter m args next t
  | .main ms, t => mainPart enter args ms t

end

section
variable (enter : Invocation S (Next S) (Course S))

def callNext (inClosure : Bool) (args own : List S.Object) (next : Next S) (t : Course S) :
    Result S (Course S) :=
  match next.found with
  | none => some (.exit (noNextMethod inClosure), t)
  | some part => perform enter (orArgs args own) part t

def laterNext (closure : ℕ) (args : List S.Object) (t : Course S) : Result S (Course S) :=
  match t.kept[closure]? with
  | none => some (.exit (.undefinedFunction closure), t)
  | some kept => callNext enter true args kept.1 kept.2 t

/-- A call with standard methods: the most specific around method, or the main part. -/
def callMethods (ms : StandardMethods S) (args : List S.Object) (t : Course S) :
    Result S (Course S) :=
  perform enter args (aroundPart ms ms.arounds) t

/-- A call of a generic function by a method, also where its methods are not standard ones. -/
def callFunction (gf : S.GenericFunction) (args : List S.Object) (methods : List (Method S))
    (t : Course S) : Result S (Course S) :=
  if methods.isEmpty then some (.exit (.noApplicableMethod gf args), t)
  else
    match h : methods.findSome? refusal with
    | some e => some (.exit e, t)
    | none =>
      if hp : ∃ m ∈ methods, m.qualifiers = [] then
        callMethods enter ⟨methods, standard_of_findSome h, hp⟩ args t
      else some (.exit (.noPrimaryMethod gf args), t)

variable (dispatch : S.GenericFunction → List S.Object → List (Method S))

def course {inClosure : Bool} (own : List S.Object) (next : Next S) :
    Body S inClosure → Course S → Result S (Course S)
  | .values vs, t => some (.values vs, t)
  | .exit e, t => some (.exit e, t)
  | .effect f rest, t => course own next (rest (f t.world)) { t with world := f t.world }
  | .nextMethodP rest, t => course own next (rest next.found.isSome) t
  | .callNextMethod args rest, t =>
    (callNext enter inClosure args own next t).resume fun o t => course own next (rest o) t
  | .keepClosure _ rest, t =>
    course own next (rest t.kept.length) { t with kept := t.kept ++ [(own, next)] }
  | .callKept closure args rest, t =>
    (laterNext enter closure args t).resume fun o t => course own next (rest o) t
  | .askKept closure rest, t =>
    course own next (rest (t.kept[closure]?.any fun kept => kept.2.found.isSome)) t
  | .callGeneric gf args rest, t =>
    (callFunction enter gf args (dispatch gf args) t).resume fun o t => course own next (rest o) t

end

/-- Method invocations in the order prescribed, nesting at most depth deep. -/
def enter (dispatch : S.GenericFunction → List S.Object → List (Method S)) :
    ℕ → Invocation S (Next S) (Course S)
  | 0 => fun _ _ _ _ => none
  | depth + 1 => fun m args next t =>
    course (enter dispatch depth) dispatch args next (m.function args)
      { t with invoked := t.invoked ++ [(m.name, args)] }

def StandardMethods.mainFunctions (ms : StandardMethods S) : List (Function S) :=
  if ms.befores.isEmpty && ms.afters.isEmpty then (ms.first :: ms.rest).map .method
  else [.main ms.befores ms.first ms.rest ms.afters.reverse]

def Next.functions : Next S → List (Function S)
  | .nothing => []
  | .around rest ms => rest.map .method ++ ms.mainFunctions
  | .primary rest => rest.map .method

def Course.machine (t : Course S) (own : List S.Object) (next : List (Function S)) : Machine S where
  world := t.world
  invoked := t.invoked
  kept := t.kept.map fun kept => (kept.1, kept.2.functions)
  combinedMethodArgs := own
  nextMethods := next

section
variable {T U V : Type}

theorem onState_resume {f : T → U} {r : Result S T} {rest : Outcome S → T → Result S T}
    {rest' : Outcome S → U → Result S U} (h : ∀ o t, rest' o (f t) = (rest o t).onState f) :
    (r.onState f).resume rest' = (r.resume rest).onState f := by
  cases r with
  | none => rfl
  | some p => exact h p.1 p.2

theorem onState_andThen {f : T → U} {r : Result S T}
    {rest : List S.Object → T → Result S T} {rest' : List S.Object → U → Result S U}
    (h : ∀ vs t, rest' vs (f t) = (rest vs t).onState f) :
    (r.onState f).andThen rest' = (r.andThen rest).onState f := by
  apply onState_resume
  intro o t
  cases o with
  | values vs => exact h vs t
  | exit e => rfl

theorem onState_onState (f : T → U) (g : U → V) (r : Result S T) :
    (r.onState f).onState g = r.onState fun t => g (f t) := by
  cases r <;> rfl

theorem andThen_values (r : Result S T) :
    r.andThen (fun vs t => some (.values vs, t)) = r := by
  cases r with
  | none => rfl
  | some p =>
    obtain ⟨o, t⟩ := p
    cases o <;> rfl

end

def addRoles (roles : Roles S) (methods : List (Method S)) : Roles S where
  before := (qualified [.before] methods).reverse ++ roles.before
  primary := (qualified [] methods).reverse ++ roles.primary
  after := (qualified [.after] methods).reverse ++ roles.after
  around := (qualified [.around] methods).reverse ++ roles.around

theorem pushMethod_standard (roles : Roles S) {m : Method S} (h : Standard m) :
    pushMethod roles m = .ok (addRoles roles [m]) := by
  rcases h with h | h | h | h <;>
    simp [pushMethod, h, addRoles, qualified]

theorem pushMethod_refusal (roles : Roles S) {m : Method S} {e : Exit S}
    (h : refusal m = some e) : pushMethod roles m = .error e := by
  obtain ⟨name, qualifiers, inClosure, function⟩ := m
  rcases qualifiers with _ | ⟨q, _ | ⟨q', qs⟩⟩
  · simp [refusal, Standard] at h
  · cases q with
    | other name =>
      simp only [refusal, Standard] at h
      simpa [pushMethod] using h
    | _ => simp [refusal, Standard] at h
  · simp only [refusal, Standard] at h
    simpa [pushMethod] using h

theorem addRoles_cons (roles : Roles S) (m : Method S) (methods : List (Method S)) :
    addRoles (addRoles roles [m]) methods = addRoles roles (m :: methods) := by
  have h : ∀ qualifiers, qualified qualifiers (m :: methods) =
      qualified qualifiers [m] ++ qualified qualifiers methods := by
    intro qualifiers
    exact List.filter_append [m] methods
  simp [addRoles, h]

theorem foldlM_pushMethod (roles : Roles S) {methods : List (Method S)}
    (h : ∀ m ∈ methods, Standard m) :
    methods.foldlM pushMethod roles = .ok (addRoles roles methods) := by
  induction methods generalizing roles with
  | nil => rfl
  | cons m methods ih =>
    obtain ⟨hm, hmethods⟩ := List.forall_mem_cons.mp h
    rw [List.foldlM_cons, pushMethod_standard roles hm]
    have hrest := ih (addRoles roles [m]) hmethods
    rwa [addRoles_cons] at hrest

theorem foldlM_refusal (roles : Roles S) {methods : List (Method S)} {e : Exit S}
    (h : methods.findSome? refusal = some e) :
    methods.foldlM pushMethod roles = .error e := by
  induction methods generalizing roles with
  | nil => cases h
  | cons m methods ih =>
    rw [List.foldlM_cons]
    cases hm : refusal m with
    | some e' =>
      have he : e' = e := by simpa [List.findSome?_cons, hm] using h
      rw [pushMethod_refusal roles hm, he]
      rfl
    | none =>
      have hs : Standard m := @standard_of_findSome S [m] (by simp [hm]) m (by simp)
      rw [pushMethod_standard roles hs]
      apply ih
      simpa [List.findSome?_cons, hm] using h

def StandardMethods.function (ms : StandardMethods S) : Function S :=
  match ms.arounds with
  | around :: arounds => .combined around (arounds.map .method ++ ms.mainFunctions)
  | [] =>
    if ms.befores.isEmpty && ms.afters.isEmpty then .combined ms.first (ms.rest.map .method)
    else .main ms.befores ms.first ms.rest ms.afters.reverse

theorem standardComputeEffectiveMethod_refusal (gf : S.GenericFunction)
    {methods : List (Method S)} {e : Exit S} (h : methods.findSome? refusal = some e) :
    standardComputeEffectiveMethod gf methods = .error e := by
  unfold standardComputeEffectiveMethod
  rw [foldlM_refusal {} h]
  rfl

theorem standardComputeEffectiveMethod_noPrimary (gf : S.GenericFunction)
    {methods : List (Method S)} (h : methods.findSome? refusal = none)
    (hp : ¬ ∃ m ∈ methods, m.qualifiers = []) :
    standardComputeEffectiveMethod gf methods = .ok (.noPrimaryMethod gf) := by
  have hprimary : qualified [] methods = [] := by
    simpa [qualified] using hp
  unfold standardComputeEffectiveMethod
  rw [foldlM_pushMethod {} (standard_of_findSome h)]
  simp only [Except.bind, bind, addRoles, List.append_nil, List.reverse_reverse, hprimary]

theorem standardComputeEffectiveMethod_standard (gf : S.GenericFunction)
    (ms : StandardMethods S) :
    standardComputeEffectiveMethod gf ms.methods = .ok ms.function := by
  have hfold : ms.methods.foldlM pushMethod {} = .ok (addRoles {} ms.methods) :=
    foldlM_pushMethod {} ms.standard
  have hprimary : qualified [] ms.methods = ms.first :: ms.rest := ms.primaries_eq
  unfold standardComputeEffectiveMethod StandardMethods.function StandardMethods.mainFunctions
    StandardMethods.befores StandardMethods.afters StandardMethods.arounds
  rw [hfold]
  simp only [Except.bind, bind, addRoles, List.append_nil, List.reverse_reverse, hprimary]
  cases qualified [.around] ms.methods with
  | nil =>
    simp only [List.isEmpty_reverse]
    split <;> rfl
  | cons around arounds => simp only [List.isEmpty_reverse]

theorem functions_isEmpty (next : Next S) : next.functions.isEmpty = !next.found.isSome := by
  cases next with
  | nothing => rfl
  | primary rest => cases rest <;> rfl
  | around rest ms =>
    have hmain : ms.mainFunctions ≠ [] := by
      unfold StandardMethods.mainFunctions
      split <;> simp
    simp [Next.functions, Next.found, hmain]

def Follows (inv : Invocation S (List (Function S)) (Machine S))
    (ent : Invocation S (Next S) (Course S)) : Prop :=
  ∀ m args next t own functions,
    inv m args (Next.functions next) (t.machine own functions) =
      (ent m args next t).onState fun t => t.machine own functions

theorem mainPart_primary (ent : Invocation S (Next S) (Course S)) (ms : StandardMethods S)
    (hb : ms.befores = []) (ha : ms.afters = []) (args : List S.Object) (t : Course S) :
    mainPart ent args ms t = ent ms.first args (.primary ms.rest) t := by
  simp only [mainPart, hb, ha, List.reverse_nil, inTurn]
  exact andThen_values _

section
variable (ent : Invocation S (Next S) (Course S)) (gf : S.GenericFunction) (args : List S.Object)
  (t : Course S)

theorem callFunction_refusal {methods : List (Method S)} {e : Exit S}
    (h : methods.findSome? refusal = some e) :
    callFunction ent gf args methods t = some (.exit e, t) := by
  have hmethods : ¬ methods.isEmpty := by
    intro hnone
    rw [List.isEmpty_iff.mp hnone] at h
    cases h
  rw [callFunction, if_neg hmethods]
  split
  · rename_i e' he
    rw [h] at he
    cases he
    rfl
  · rename_i he
    rw [h] at he
    cases he

theorem callFunction_noPrimary {methods : List (Method S)} (hmethods : ¬ methods.isEmpty)
    (h : methods.findSome? refusal = none) (hp : ¬ ∃ m ∈ methods, m.qualifiers = []) :
    callFunction ent gf args methods t = some (.exit (.noPrimaryMethod gf args), t) := by
  rw [callFunction, if_neg hmethods]
  split
  · rename_i e he
    rw [h] at he
    cases he
  · rw [dif_neg hp]

theorem callFunction_standard (ms : StandardMethods S) :
    callFunction ent gf args ms.methods t = callMethods ent ms args t := by
  have hmethods : ¬ ms.methods.isEmpty := by
    obtain ⟨m, hm, _⟩ := ms.primary_exists
    intro hnone
    rw [List.isEmpty_iff.mp hnone] at hm
    cases hm
  rw [callFunction, if_neg hmethods]
  split
  · rename_i e he
    obtain ⟨m, hm, hrefusal⟩ := List.exists_of_findSome?_eq_some he
    simp [refusal, ms.standard m hm] at hrefusal
  · rw [dif_pos ms.primary_exists]

end

section
variable {inv : Invocation S (List (Function S)) (Machine S)}
  {ent : Invocation S (Next S) (Course S)} (hinv : Follows inv ent)

include hinv

theorem callEach_inTurn (methods : List (Method S)) (args : List S.Object)
    (functions : List (Function S)) (t : Course S) :
    callEach inv methods (t.machine args functions) =
      (inTurn ent args methods t).onState fun t => t.machine args functions := by
  induction methods generalizing t with
  | nil => rfl
  | cons m methods ih =>
    have hm : inv m args [] (t.machine args functions) = _ := hinv m args .nothing t args functions
    simp only [callEach, inTurn]
    change (inv m args [] (t.machine args functions)).andThen _ = _
    rw [hm]
    apply onState_andThen
    intro _ t
    exact ih t

theorem standardMain_mainPart (ms : StandardMethods S) (args : List S.Object)
    (functions : List (Function S)) (t : Course S) :
    standardMain inv ms.befores ms.first ms.rest ms.afters.reverse (t.machine args functions) =
      (mainPart ent args ms t).onState fun t => t.machine args functions := by
  simp only [standardMain, mainPart]
  rw [callEach_inTurn hinv]
  apply onState_andThen
  intro _ t
  have hprimary : inv ms.first args (ms.rest.map .method) (t.machine args functions) = _ :=
    hinv _ args (.primary ms.rest) t args functions
  change (if ms.afters.reverse.isEmpty then inv _ args _ (t.machine args functions) else
    (inv _ args _ (t.machine args functions)).andThen _) = _
  rw [hprimary]
  by_cases hafter : ms.afters.reverse.isEmpty
  · rw [if_pos hafter]
    have hnone : ms.afters.reverse = [] := List.isEmpty_iff.mp hafter
    simp only [hnone, inTurn]
    exact congrArg (Result.onState _) (andThen_values _).symm
  · rw [if_neg hafter]
    apply onState_andThen
    intro vs t
    rw [callEach_inTurn hinv]
    apply onState_andThen
    intro _ t
    rfl

theorem funcall_main (ms : StandardMethods S) (args own : List S.Object)
    (next functions : List (Function S)) (t : Course S) :
    funcall inv (.main ms.befores ms.first ms.rest ms.afters.reverse) args next
        (t.machine own functions) =
      (mainPart ent args ms t).onState fun t => t.machine own functions := by
  have hmain := standardMain_mainPart hinv ms args functions t
  simp only [funcall]
  change (standardMain inv _ _ _ _ (t.machine args functions)).onState _ = _
  rw [hmain, onState_onState]
  rfl

theorem callNextMethod_callNext (inClosure : Bool) (args own : List S.Object) (next : Next S)
    (functions : List (Function S)) (t : Course S) (current : List S.Object) :
    callNextMethod inv inClosure args own next.functions (t.machine current functions) =
      (callNext ent inClosure args own next t).onState fun t => t.machine current functions := by
  cases next with
  | nothing => rfl
  | primary rest =>
    cases rest with
    | nil => rfl
    | cons m rest => exact hinv m (orArgs args own) (.primary rest) t current functions
  | around rest ms =>
    cases rest with
    | cons m rest => exact hinv m (orArgs args own) (.around rest ms) t current functions
    | nil =>
      change callNextMethod inv inClosure args own ms.mainFunctions _ =
        (mainPart ent (orArgs args own) ms t).onState _
      unfold StandardMethods.mainFunctions
      split
      · rename_i hboth
        rw [Bool.and_eq_true, List.isEmpty_iff, List.isEmpty_iff] at hboth
        rw [mainPart_primary ent ms hboth.1 hboth.2]
        exact hinv ms.first (orArgs args own) (.primary ms.rest) t current functions
      · exact funcall_main hinv ms (orArgs args own) current [] functions t

theorem funcall_function (ms : StandardMethods S) (args own : List S.Object)
    (next functions : List (Function S)) (t : Course S) :
    funcall inv ms.function args next (t.machine own functions) =
      (callMethods ent ms args t).onState fun t => t.machine own functions := by
  have hcombined : ∀ m next,
      funcall inv (.combined m (Next.functions next)) args [] (t.machine own functions) =
        (ent m args next t).onState fun t => t.machine own functions := by
    intro m next
    have hm := hinv m args next t args functions
    simp only [funcall]
    change (inv m args _ (t.machine args functions)).onState _ = _
    rw [hm, onState_onState]
    rfl
  unfold StandardMethods.function callMethods
  cases ms.arounds with
  | cons around arounds => exact hcombined around (.around arounds ms)
  | nil =>
    change funcall inv (if _ then _ else _) args next _ = (mainPart ent args ms t).onState _
    split
    · rename_i hboth
      rw [Bool.and_eq_true, List.isEmpty_iff, List.isEmpty_iff] at hboth
      rw [mainPart_primary ent ms hboth.1 hboth.2]
      exact hcombined ms.first (.primary ms.rest)
    · exact funcall_main hinv ms args own next functions t

theorem callGeneric_callFunction (gf : S.GenericFunction) (args own : List S.Object)
    (methods : List (Method S)) (functions : List (Function S)) (t : Course S) :
    callGeneric inv gf args methods (t.machine own functions) =
      (callFunction ent gf args methods t).onState fun t => t.machine own functions := by
  by_cases hmethods : methods.isEmpty
  · rw [callGeneric, if_pos hmethods, callFunction, if_pos hmethods]
    rfl
  rw [callGeneric, if_neg hmethods]
  cases h : methods.findSome? refusal with
  | some e =>
    rw [standardComputeEffectiveMethod_refusal gf h, callFunction_refusal ent gf args t h]
    rfl
  | none =>
    by_cases hp : ∃ m ∈ methods, m.qualifiers = []
    · let ms : StandardMethods S := ⟨methods, standard_of_findSome h, hp⟩
      have hcompute : standardComputeEffectiveMethod gf methods = .ok ms.function :=
        standardComputeEffectiveMethod_standard gf ms
      have hcall : callFunction ent gf args methods t = callMethods ent ms args t :=
        callFunction_standard ent gf args t ms
      rw [hcompute, hcall]
      exact funcall_function hinv ms args own [] functions t
    · rw [standardComputeEffectiveMethod_noPrimary gf h hp,
        callFunction_noPrimary ent gf args t hmethods h hp]
      rfl

theorem callKept_laterNext (closure : ℕ) (args own : List S.Object)
    (functions : List (Function S)) (t : Course S) :
    callKept inv closure args (t.machine own functions) =
      (laterNext ent closure args t).onState fun t => t.machine own functions := by
  simp only [callKept, laterNext, Course.machine, List.getElem?_map]
  cases t.kept[closure]? with
  | none => rfl
  | some kept => exact callNextMethod_callNext hinv true args kept.1 kept.2 functions t own

variable (dispatch : S.GenericFunction → List S.Object → List (Method S))

theorem runBody_course {inClosure : Bool} (own : List S.Object) (next : Next S)
    (body : Body S inClosure) (t : Course S) :
    runBody inv dispatch own next.functions body (t.machine own next.functions) =
      (course ent dispatch own next body t).onState fun t => t.machine own next.functions := by
  induction body generalizing t with
  | values vs => rfl
  | exit e => rfl
  | effect f rest ih => exact ih (f t.world) { t with world := f t.world }
  | nextMethodP rest ih =>
    have hnext : (if inClosure then next.functions else
        (t.machine own next.functions).nextMethods).isEmpty = !next.found.isSome := by
      rw [← functions_isEmpty, Course.machine, ite_self]
    simp only [runBody, course, hnext, Bool.not_not]
    exact ih _ t
  | callNextMethod args rest ih =>
    have hcall : (if inClosure then
        callNextMethod inv true args own next.functions (t.machine own next.functions)
        else callNextMethod inv false args own next.functions (t.machine own next.functions)) =
        (callNext ent inClosure args own next t).onState fun t => t.machine own next.functions := by
      cases inClosure <;> exact callNextMethod_callNext hinv _ args own next next.functions t own
    simp only [runBody, course]
    change Result.resume (ite _ (callNextMethod inv true args own next.functions _)
      (callNextMethod inv false args own next.functions _)) _ = _
    rw [hcall]
    apply onState_resume
    intro o t
    exact ih o t
  | keepClosure captured rest ih =>
    simp only [runBody, course]
    have hkept : (t.machine own next.functions).kept.length = t.kept.length := List.length_map _
    rw [hkept]
    have hlater := ih t.kept.length { t with kept := t.kept ++ [(own, next)] }
    simp only [Course.machine, List.map_append] at hlater
    exact hlater
  | callKept closure args rest ih =>
    simp only [runBody, course]
    rw [callKept_laterNext hinv]
    apply onState_resume
    intro o t
    exact ih o t
  | askKept closure rest ih =>
    have hkept : ((t.machine own next.functions).kept[closure]?.any fun kept => !kept.2.isEmpty) =
        t.kept[closure]?.any fun kept => kept.2.found.isSome := by
      simp only [Course.machine, List.getElem?_map, Option.any_map, functions_isEmpty, Bool.not_not]
    simp only [runBody, course, hkept]
    exact ih _ t
  | callGeneric gf args rest ih =>
    simp only [runBody, course]
    rw [callGeneric_callFunction hinv]
    apply onState_resume
    intro o t
    exact ih o t

theorem methodFunction_follows :
    Follows (methodFunction inv dispatch) fun m args next t =>
      course ent dispatch args next (m.function args)
        { t with invoked := t.invoked ++ [(m.name, args)] } := by
  intro m args next t own functions
  have hbody := runBody_course hinv dispatch args next (m.function args)
    { t with invoked := t.invoked ++ [(m.name, args)] }
  simp only [methodFunction]
  change (runBody inv dispatch args next.functions (m.function args)
    (Course.machine { t with invoked := t.invoked ++ [(m.name, args)] } args
      next.functions)).onState _ = _
  rw [hbody, onState_onState]
  rfl

end

theorem invoke_follows (dispatch : S.GenericFunction → List S.Object → List (Method S))
    (depth : ℕ) : Follows (invoke dispatch depth) (enter dispatch depth) := by
  induction depth with
  | zero =>
    intro m args next t own functions
    rfl
  | succ depth ih => exact methodFunction_follows ih dispatch

def Plain {inClosure : Bool} : Body S inClosure → Prop
  | .values _ => True
  | .exit _ => True
  | .effect _ rest => ∀ world, Plain (rest world)
  | .nextMethodP rest => ∀ found, Plain (rest found)
  | .callNextMethod _ rest => ∀ o, Plain (rest o)
  | .keepClosure _ rest => ∀ closure, Plain (rest closure)
  | .callKept _ _ _ => False
  | .askKept _ rest => ∀ found, Plain (rest found)
  | .callGeneric _ _ _ => False

def AllPlain (methods : List (Method S)) : Prop :=
  ∀ m ∈ methods, ∀ args, Plain (m.function args)

theorem allPlain_qualified {methods : List (Method S)} (h : AllPlain methods)
    (qualifiers : List Qualifier) : AllPlain (qualified qualifiers methods) :=
  fun m hm => h m (List.mem_filter.mp hm).1

def PlainNext : Next S → Prop
  | .nothing => True
  | .around rest ms => AllPlain rest ∧ AllPlain ms.methods
  | .primary rest => AllPlain rest

def Next.depth : Next S → ℕ
  | .nothing => 0
  | .around rest ms => rest.length + ms.primaries.length
  | .primary rest => rest.length

theorem isSome_resume {T : Type} {r : Result S T} {rest : Outcome S → T → Result S T}
    (h : r.isSome) (hrest : ∀ o t, (rest o t).isSome) : (r.resume rest).isSome := by
  obtain ⟨p, rfl⟩ := Option.isSome_iff_exists.mp h
  exact hrest p.1 p.2

theorem isSome_andThen {T : Type} {r : Result S T} {rest : List S.Object → T → Result S T}
    (h : r.isSome) (hrest : ∀ vs t, (rest vs t).isSome) : (r.andThen rest).isSome := by
  apply isSome_resume h
  intro o t
  cases o with
  | values vs => exact hrest vs t
  | exit e => rfl

section
variable {ent : Invocation S (Next S) (Course S)} {depth : ℕ}
  (hreturns : ∀ m next, (∀ args, Plain (m.function args)) → PlainNext next → next.depth < depth →
    ∀ args t, (ent m args next t).isSome)

include hreturns

theorem inTurn_returns (hdepth : 0 < depth) (args : List S.Object) {methods : List (Method S)}
    (hplain : AllPlain methods) (t : Course S) : (inTurn ent args methods t).isSome := by
  induction methods generalizing t with
  | nil => rfl
  | cons m methods ih =>
    obtain ⟨hm, hmethods⟩ := List.forall_mem_cons.mp hplain
    apply isSome_andThen (hreturns m .nothing hm trivial hdepth args t)
    intro _ t
    exact ih hmethods t

theorem mainPart_returns (args : List S.Object) (ms : StandardMethods S)
    (hplain : AllPlain ms.methods) (hdepth : ms.primaries.length ≤ depth) (t : Course S) :
    (mainPart ent args ms t).isSome := by
  have hprimaries : AllPlain (ms.first :: ms.rest) :=
    ms.primaries_eq ▸ allPlain_qualified hplain []
  obtain ⟨hfirst, hrest⟩ := List.forall_mem_cons.mp hprimaries
  rw [ms.primaries_eq, List.length_cons] at hdepth
  have hpos : 0 < depth := by omega
  have hafters : AllPlain ms.afters.reverse :=
    fun m hm => allPlain_qualified hplain [.after] m (List.mem_reverse.mp hm)
  apply isSome_andThen
  · exact inTurn_returns hreturns hpos args (allPlain_qualified hplain [.before]) t
  intro _ t
  apply isSome_andThen (hreturns ms.first (.primary ms.rest) hfirst hrest hdepth args t)
  intro vs t
  apply isSome_andThen (inTurn_returns hreturns hpos args hafters t)
  intro _ t
  rfl

theorem aroundPart_returns (args : List S.Object) (ms : StandardMethods S)
    (rest : List (Method S)) (hrest : AllPlain rest) (hplain : AllPlain ms.methods)
    (hdepth : rest.length + ms.primaries.length ≤ depth) (t : Course S) :
    (perform ent args (aroundPart ms rest) t).isSome := by
  cases rest with
  | nil =>
    apply mainPart_returns hreturns args ms hplain _ t
    simpa using hdepth
  | cons m rest =>
    obtain ⟨hm, hrest⟩ := List.forall_mem_cons.mp hrest
    rw [List.length_cons] at hdepth
    apply hreturns m (.around rest ms) hm ⟨hrest, hplain⟩
    simp only [Next.depth]
    omega

theorem callNext_returns (inClosure : Bool) (args own : List S.Object) {next : Next S}
    (hplain : PlainNext next) (hdepth : next.depth ≤ depth) (t : Course S) :
    (callNext ent inClosure args own next t).isSome := by
  cases next with
  | nothing => rfl
  | around rest ms =>
    exact aroundPart_returns hreturns (orArgs args own) ms rest hplain.1 hplain.2 hdepth t
  | primary rest =>
    cases rest with
    | nil => rfl
    | cons m rest =>
      obtain ⟨hm, hrest⟩ := List.forall_mem_cons.mp hplain
      exact hreturns m (.primary rest) hm hrest hdepth (orArgs args own) t

theorem course_returns (dispatch : S.GenericFunction → List S.Object → List (Method S))
    {inClosure : Bool} (own : List S.Object) {next : Next S} (hnext : PlainNext next)
    (hdepth : next.depth ≤ depth) (body : Body S inClosure) (hplain : Plain body) (t : Course S) :
    (course ent dispatch own next body t).isSome := by
  induction body generalizing t with
  | values vs => rfl
  | exit e => rfl
  | effect f rest ih => exact ih (f t.world) (hplain (f t.world)) { t with world := f t.world }
  | nextMethodP rest ih => exact ih next.found.isSome (hplain next.found.isSome) t
  | callNextMethod args rest ih =>
    apply isSome_resume (callNext_returns hreturns inClosure args own hnext hdepth t)
    intro o t
    exact ih o (hplain o) t
  | keepClosure captured rest ih => exact ih t.kept.length (hplain t.kept.length) _
  | callKept closure args rest ih => exact hplain.elim
  | askKept closure rest ih => exact ih _ (hplain _) t
  | callGeneric gf args rest ih => exact hplain.elim

end

theorem enter_returns (dispatch : S.GenericFunction → List S.Object → List (Method S)) (depth : ℕ)
    (m : Method S) (next : Next S) (hm : ∀ args, Plain (m.function args)) (hnext : PlainNext next)
    (hdepth : next.depth < depth) (args : List S.Object) (t : Course S) :
    (enter dispatch depth m args next t).isSome := by
  induction depth generalizing m next args t with
  | zero => omega
  | succ depth ih =>
    have hless : next.depth ≤ depth := by omega
    exact course_returns ih dispatch args hnext hless (m.function args) (hm args) _

theorem roles_length (methods : List (Method S)) :
    (qualified [.around] methods).length + (qualified [] methods).length ≤ methods.length := by
  induction methods with
  | nil => simp [qualified]
  | cons m methods ih =>
    simp only [qualified, List.filter_cons, decide_eq_true_eq] at ih ⊢
    by_cases ha : m.qualifiers = [.around]
    · have hp : ¬ m.qualifiers = [] := by simp [ha]
      rw [if_pos ha, if_neg hp]
      simp only [List.length_cons]
      omega
    · rw [if_neg ha]
      split <;> simp only [List.length_cons] <;> omega

/-- The function that is built for standard methods calls them in the prescribed order. Unless the
methods call generic functions or closures that were kept, the calls nest no deeper than there are
methods. -/
theorem effectiveMethod_order (dispatch : S.GenericFunction → List S.Object → List (Method S))
    (gf : S.GenericFunction) (methods : List (Method S)) (hstandard : ∀ m ∈ methods, Standard m)
    (hprimary : ∃ m ∈ methods, m.qualifiers = []) :
    ∃ f, standardComputeEffectiveMethod gf methods = .ok f ∧
      (∀ depth args next t own functions,
        funcall (invoke dispatch depth) f args next (t.machine own functions) =
          (callMethods (enter dispatch depth) ⟨methods, hstandard, hprimary⟩ args t).onState
            fun t => t.machine own functions) ∧
      (AllPlain methods → ∀ depth args next t own functions, methods.length ≤ depth →
        (funcall (invoke dispatch depth) f args next (Course.machine t own functions)).isSome) := by
  let ms : StandardMethods S := ⟨methods, hstandard, hprimary⟩
  have horder : ∀ depth args next t own functions,
      funcall (invoke dispatch depth) ms.function args next (Course.machine t own functions) =
        (callMethods (enter dispatch depth) ms args t).onState
          fun t => t.machine own functions := by
    intro depth args next t own functions
    exact funcall_function (invoke_follows dispatch depth) ms args own next functions t
  refine ⟨ms.function, standardComputeEffectiveMethod_standard gf ms, horder, ?_⟩
  intro hplain depth args next t own functions hdepth
  have hnested : ms.arounds.length + ms.primaries.length ≤ depth :=
    Nat.le_trans (roles_length methods) hdepth
  have hreturns := aroundPart_returns (enter_returns dispatch depth) args ms ms.arounds
    (allPlain_qualified hplain [.around]) hplain hnested t
  rw [horder, Result.onState, Option.isSome_map]
  exact hreturns

def letters : Signature where
  Object := Char
  World := String
  GenericFunction := Unit
  MethodName := Char

def callingNext (inClosure : Bool) (args : List Char) : Body letters inClosure :=
  .nextMethodP fun found =>
    if found then
      .callNextMethod ['x'] fun o =>
        match o with
        | .values vs => .values vs
        | .exit e => .exit e
    else .values args

def letterMethods : List (Method letters) :=
  [⟨'p', [], false, callingNext false⟩, ⟨'f', [.after], false, callingNext false⟩,
    ⟨'a', [.around], true, callingNext true⟩, ⟨'q', [], true, callingNext true⟩,
    ⟨'g', [.after], false, callingNext false⟩, ⟨'b', [.before], false, callingNext false⟩]

theorem effectiveMethod_order_letters :
    ∃ f, standardComputeEffectiveMethod (S := letters) () letterMethods = .ok f ∧
      (funcall (invoke (fun _ _ => []) 3) f ['o'] []
          (Course.machine ⟨"", [], []⟩ [] [])).map (fun p => (p.1, p.2.invoked)) =
        some (.values ['x'],
          [('a', ['o']), ('b', ['x']), ('p', ['x']), ('q', ['x']), ('g', ['x']),
            ('f', ['x'])]) := by
  obtain ⟨f, hf, horder, _⟩ := effectiveMethod_order (fun _ _ => []) () letterMethods
    (by decide) (by decide)
  refine ⟨f, hf, ?_⟩
  rw [horder]
  rfl

end MethodCombination
