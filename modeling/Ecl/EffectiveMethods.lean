import Mathlib.Data.List.Basic

/-! Standard method combination: the effective methods of src/clos/combin.lsp and the method lambdas
of src/clos/method.lsp. A method is what it does with the world and with the calls it makes; each
method has the next methods that were current when it was entered, kept in two special variables. -/
namespace EffectiveMethods

/-- The types that a run is about: the objects passed around, the state the methods act on, and
the names of generic functions and of methods. -/
structure Signature where
  Object : Type
  World : Type
  GenericFunction : Type
  MethodName : Type

inductive Qualifier where
  | before
  | after
  | around
  | other (name : String)
  deriving DecidableEq

/-- What a non-local exit carries: the conditions of this code, or an object of the methods' own. -/
inductive Exit (S : Signature) where
  | simpleError (control : String)
  | errorQualifier (m : S.MethodName) (qualifier : List Qualifier ⊕ Qualifier)
  | noPrimaryMethod (gf : S.GenericFunction) (args : List S.Object)
  | noApplicableMethod (gf : S.GenericFunction) (args : List S.Object)
  | undefinedFunction (closure : ℕ)
  | thrown (object : S.Object)

inductive Outcome (S : Signature) where
  | values (vs : List S.Object)
  | exit (e : Exit S)

/-- A method's code. Each step goes on with the answer it gets; a call answers with its values or
with the exit it was left by, which the method may catch. A closure over CALL-NEXT-METHOD and
NEXT-METHOD-P may be kept and called at any later time, under the number it was given. Only a
lambda that WALK-METHOD-LAMBDA finds to need it makes closures. -/
inductive Body (S : Signature) (inClosure : Bool) where
  | values (vs : List S.Object)
  | exit (e : Exit S)
  | effect (f : S.World → S.World) (rest : S.World → Body S inClosure)
  | nextMethodP (rest : Bool → Body S inClosure)
  | callNextMethod (args : List S.Object) (rest : Outcome S → Body S inClosure)
  | keepClosure (captured : inClosure = true) (rest : ℕ → Body S inClosure)
  | callKept (closure : ℕ) (args : List S.Object) (rest : Outcome S → Body S inClosure)
  | askKept (closure : ℕ) (rest : Bool → Body S inClosure)
  | callGeneric (gf : S.GenericFunction) (args : List S.Object)
      (rest : Outcome S → Body S inClosure)

structure Method (S : Signature) where
  name : S.MethodName
  qualifiers : List Qualifier
  inClosure : Bool
  function : List S.Object → Body S inClosure

variable {S : Signature}

/-- The result of a run on states of type T, or none where the calls nest deeper than allowed. -/
abbrev Result (S : Signature) (T : Type) := Option (Outcome S × T)

section
variable {T U : Type}

def Result.resume (r : Result S T) (rest : Outcome S → T → Result S T) : Result S T :=
  r.bind fun p => rest p.1 p.2

def Result.andThen (r : Result S T) (rest : List S.Object → T → Result S T) : Result S T :=
  r.resume fun o t =>
    match o with
    | .values vs => rest vs t
    | .exit e => some (Outcome.exit e, t)

def Result.onState (f : T → U) (r : Result S T) : Result S U :=
  r.map fun p => (p.1, f p.2)

end

/-- The functions that effective methods are made of: METHOD-FUNCTION of a method, the closures of
STANDARD-MAIN-EFFECTIVE-METHOD over (first . rest) and of COMBINE-METHOD-FUNCTIONS, and the
function that calls NO-PRIMARY-METHOD. -/
inductive Function (S : Signature) where
  | method (m : Method S)
  | main (before : List (Method S)) (first : Method S) (rest : List (Method S))
      (after : List (Method S))
  | combined (method : Method S) (restMethods : List (Function S))
  | noPrimaryMethod (gf : S.GenericFunction)

/-- The world, the invocations so far, the closures kept so far with what they were made over
(.closed-combined-method-args. and .next-methods.), and the special variables. -/
structure Machine (S : Signature) where
  world : S.World
  invoked : List (S.MethodName × List S.Object)
  kept : List (List S.Object × List (Function S))
  combinedMethodArgs : List S.Object
  nextMethods : List (Function S)

abbrev Invocation (S : Signature) (N T : Type) :=
  Method S → List S.Object → N → T → Result S T

def orArgs (args own : List S.Object) : List S.Object :=
  if args.isEmpty then own else args

/-- The texts of the function CALL-NEXT-METHOD and of the local one. -/
def noNextMethod (inClosure : Bool) : Exit S :=
  .simpleError (if inClosure then "No next method" else "No next method.")

/-- The accumulators of STANDARD-COMPUTE-EFFECTIVE-METHOD. -/
structure Roles (S : Signature) where
  before : List (Method S) := []
  primary : List (Method S) := []
  after : List (Method S) := []
  around : List (Method S) := []

def pushMethod (roles : Roles S) (m : Method S) : Except (Exit S) (Roles S) :=
  match m.qualifiers with
  | [] => .ok { roles with primary := m :: roles.primary }
  | [.before] => .ok { roles with before := m :: roles.before }
  | [.after] => .ok { roles with after := m :: roles.after }
  | [.around] => .ok { roles with around := m :: roles.around }
  | [.other name] => .error (.errorQualifier m.name (.inr (.other name)))
  | q :: q' :: qs => .error (.errorQualifier m.name (.inl (q :: q' :: qs)))

def standardComputeEffectiveMethod (gf : S.GenericFunction) (methods : List (Method S)) :
    Except (Exit S) (Function S) := do
  let roles ← methods.foldlM pushMethod {}
  match roles.primary.reverse with
  | [] => .ok (.noPrimaryMethod gf)
  | first :: rest =>
    let before := roles.before.reverse
    match roles.around.reverse with
    | around :: arounds =>
      let main :=
        if before.isEmpty && roles.after.isEmpty then (first :: rest).map .method
        else [.main before first rest roles.after]
      .ok (.combined around (arounds.map .method ++ main))
    | [] =>
      if before.isEmpty && roles.after.isEmpty then .ok (.combined first (rest.map .method))
      else .ok (.main before first rest roles.after)

section
variable (invoke : Invocation S (List (Function S)) (Machine S))

/-- DOLIST over functions called on .combined-method-args. without next methods. -/
def callEach : List (Method S) → Machine S → Result S (Machine S)
  | [], s => some (.values [], s)
  | m :: ms, s => (invoke m s.combinedMethodArgs [] s).andThen fun _ s => callEach ms s

/-- The body of the closure of STANDARD-MAIN-EFFECTIVE-METHOD. -/
def standardMain (before : List (Method S)) (first : Method S) (rest after : List (Method S))
    (s : Machine S) : Result S (Machine S) :=
  (callEach invoke before s).andThen fun _ s =>
    let primary := invoke first s.combinedMethodArgs (rest.map .method) s
    if after.isEmpty then primary
    else primary.andThen fun vs s =>
      (callEach invoke after s).andThen fun _ s => some (.values vs, s)

/-- FUNCALL. The parameter .combined-method-args. of the closures is a special variable, bound
while they run. -/
def funcall : Function S → List S.Object → List (Function S) → Machine S → Result S (Machine S)
  | .method m, args, next, s => invoke m args next s
  | .main before first rest after, args, _, s =>
    (standardMain invoke before first rest after { s with combinedMethodArgs := args }).onState
      fun s' => { s' with combinedMethodArgs := s.combinedMethodArgs }
  | .combined m rest, args, _, s =>
    (invoke m args rest { s with combinedMethodArgs := args }).onState
      fun s' => { s' with combinedMethodArgs := s.combinedMethodArgs }
  | .noPrimaryMethod gf, args, _, s => some (.exit (.noPrimaryMethod gf args), s)

/-- CALL-NEXT-METHOD, as the function, its compiler macro and the local function have it. -/
def callNextMethod (inClosure : Bool) (args own : List S.Object) :
    List (Function S) → Machine S → Result S (Machine S)
  | [], s => some (.exit (noNextMethod inClosure), s)
  | f :: rest, s => funcall invoke f (orArgs args own) rest s

/-- A call of the local function CALL-NEXT-METHOD, kept when its method was running. -/
def callKept (closure : ℕ) (args : List S.Object) (s : Machine S) : Result S (Machine S) :=
  match s.kept[closure]? with
  | none => some (.exit (.undefinedFunction closure), s)
  | some kept => callNextMethod invoke true args kept.1 kept.2 s

/-- A call of a generic function: its effective method, called without next methods. -/
def callGeneric (gf : S.GenericFunction) (args : List S.Object) (methods : List (Method S))
    (s : Machine S) : Result S (Machine S) :=
  if methods.isEmpty then some (.exit (.noApplicableMethod gf args), s)
  else
    match standardComputeEffectiveMethod gf methods with
    | .error e => some (.exit e, s)
    | .ok f => funcall invoke f args [] s

variable (dispatch : S.GenericFunction → List S.Object → List (Method S))

/-- The lambda of a method that was entered with own and next. A method without closures reads the
special variables whenever it needs them; another one has read them when it was entered. -/
def runBody {inClosure : Bool} (own : List S.Object) (next : List (Function S)) :
    Body S inClosure → Machine S → Result S (Machine S)
  | .values vs, s => some (.values vs, s)
  | .exit e, s => some (.exit e, s)
  | .effect f rest, s => runBody own next (rest (f s.world)) { s with world := f s.world }
  | .nextMethodP rest, s =>
    runBody own next (rest !(if inClosure then next else s.nextMethods).isEmpty) s
  | .callNextMethod args rest, s =>
    (if inClosure then callNextMethod invoke true args own next s
      else callNextMethod invoke false args s.combinedMethodArgs s.nextMethods s).resume
      fun o s => runBody own next (rest o) s
  | .keepClosure _ rest, s =>
    runBody own next (rest s.kept.length) { s with kept := s.kept ++ [(own, next)] }
  | .callKept closure args rest, s =>
    (callKept invoke closure args s).resume fun o s => runBody own next (rest o) s
  | .askKept closure rest, s =>
    runBody own next (rest (s.kept[closure]?.any fun kept => !kept.2.isEmpty)) s
  | .callGeneric gf args rest, s =>
    (callGeneric invoke gf args (dispatch gf args) s).resume fun o s => runBody own next (rest o) s

/-- The lambda of MAKE-METHOD-LAMBDA: it binds both special variables around the method's own. -/
def methodFunction (m : Method S) (args : List S.Object) (next : List (Function S))
    (s : Machine S) : Result S (Machine S) :=
  (runBody invoke dispatch args next (m.function args)
    { s with
      invoked := s.invoked ++ [(m.name, args)]
      combinedMethodArgs := args
      nextMethods := next }).onState
    fun s' => { s' with combinedMethodArgs := s.combinedMethodArgs, nextMethods := s.nextMethods }

end

def invoke (dispatch : S.GenericFunction → List S.Object → List (Method S)) :
    ℕ → Invocation S (List (Function S)) (Machine S)
  | 0 => fun _ _ _ _ => none
  | depth + 1 => methodFunction (invoke dispatch depth) dispatch

end EffectiveMethods
