import Ecl.Sorting
import Mathlib.Data.List.Perm.Basic

/-! The applicable methods of standard generic functions, src/clos/kernel.lsp. Objects are taken up
to EQL, by which alone they are compared here; an EQL specializer is interned by its object. -/
namespace GenericFunctions

variable {O C S M : Type}

/-- What dispatch sees of the classes. A precedence list begins with its class, and no class stands
in it after a superclass of its own. null is the class with that name. -/
structure ClassSystem (O C : Type) where
  classOf : O → C
  precedenceList : C → List C
  nil : O
  null : C
  t : C
  classOf_nil : classOf nil = null
  head : ∀ c, (precedenceList c).head? = some c
  nodup : ∀ c, (precedenceList c).Nodup
  mem : ∀ c, ∀ d ∈ precedenceList c, ∀ e ∈ precedenceList d, e ∈ precedenceList c
  ordered : ∀ c, ∀ d ∈ precedenceList c, ∀ e ∈ precedenceList d, e ≠ d →
    [d, e].Sublist (precedenceList c)

inductive Specializer (O C : Type) where
  | eql (object : O)
  | cls (c : C)
  deriving DecidableEq

/-- A generic function by the parameters that its lambda list requires. Methods are known by
identity. add-method refuses methods of other lambda lists, and shared-initialize an argument
precedence order that lacks a parameter or has one twice. -/
structure GenericFunction (O C S M : Type) where
  required : List S
  argumentPrecedenceOrder : List S
  methods : List M
  specializers : M → List (Specializer O C)
  required_nodup : required.Nodup
  perm : argumentPrecedenceOrder.Perm required
  methods_nodup : methods.Nodup
  congruent : ∀ m ∈ methods, (specializers m).length = required.length

inductive Error (O C : Type) where
  /-- The type specifiers ~S and ~S can not be disambiguated with respect to the argument
  specializer: ~S. -/
  | ambiguous (spec1 spec2 : Specializer O C) (argClass : C)
  /-- A list that destructuring-bind refuses. -/
  | arguments
  deriving DecidableEq

section
variable [DecidableEq O] [DecidableEq C] (sys : ClassSystem O C)

/-- si::subclassp. -/
def ClassSystem.subclassp (low high : C) : Bool := low = high || high ∈ sys.precedenceList low

/-- si::of-class-p. -/
def ClassSystem.ofClassP (object : O) (c : C) : Bool :=
  sys.classOf object = c || c ∈ sys.precedenceList (sys.classOf object)

def accepts : Specializer O C → O → Bool
  | .eql object, arg => arg = object
  | .cls c, arg => sys.ofClassP arg c

def applicableMethodP (specializers : List (Specializer O C)) (args : List O) : Bool :=
  (specializers.zip args).all fun p => accepts sys p.1 p.2

def fastSubtypep : Specializer O C → Specializer O C → Bool
  | .eql object1, .eql object2 => object1 = object2
  | .eql object, .cls c => sys.ofClassP object c
  -- the only class with a single element is NULL
  | .cls c, .eql object => object = sys.nil && c = sys.null
  | .cls c1, .cls c2 => sys.subclassp c1 c2

def Specializer.eqlFlag : Specializer O C → Bool
  | .eql _ => true
  | .cls _ => false

def listed (l : List C) : Specializer O C → Bool
  | .eql _ => false
  | .cls c => c ∈ l

/-- MEMBER: the tail that begins with the specializer. -/
def memberTail (cpl : List C) : Specializer O C → List C
  | .eql _ => []
  | .cls c => cpl.dropWhile (· ≠ c)

/-- What a comparison says: 1, 2, = or NIL. -/
inductive Comparison where
  | first
  | second
  | same
  | neither
  deriving DecidableEq

def compareSpecializers (spec1 spec2 : Specializer O C) (argClass : C) : Comparison :=
  let cpl := sys.precedenceList argClass
  if spec1 = spec2 then .same
  else if fastSubtypep sys spec1 spec2 then .first
  else if fastSubtypep sys spec2 spec1 then .second
  else if spec1.eqlFlag then .first
  else if spec2.eqlFlag then .second
  else if listed (memberTail cpl spec2) spec1 then .second
  else if listed (memberTail cpl spec1) spec2 then .first
  else .neither

/-- NIL at the end of the lists. Lists of different lengths do not come here. -/
def compareSpecializersLists :
    List (Specializer O C) → List (Specializer O C) → List C → Except (Error O C) Comparison
  | [], [], _ => .ok .neither
  | spec1 :: specs1, spec2 :: specs2, argClass :: argsClasses =>
    match compareSpecializers sys spec1 spec2 argClass with
    | .first => .ok .first
    | .second => .ok .second
    | .same => compareSpecializersLists specs1 specs2 argsClasses
    | .neither => .error (.ambiguous spec1 spec2 argClass)
  | _, _, _ => .error .arguments

section
variable [DecidableEq S] [DecidableEq M] (gf : GenericFunction O C S M)

def GenericFunction.at {α : Type} (l : List α) (parameter : S) : Option α :=
  l[gf.required.idxOf parameter]?

/-- The function that compute-g-f-spec-list leaves when the argument precedence order is not that
of the lambda list: destructuring-bind with a list of the parameters in the other order. -/
def GenericFunction.apoFunction {α : Type} (l : List α) : Except (Error O C) (List α) :=
  if l.length = gf.required.length then .ok (gf.argumentPrecedenceOrder.filterMap (gf.at l))
  else .error .arguments

/-- The list in argument precedence order. -/
def GenericFunction.reorder {α : Type} (l : List α) : Except (Error O C) (List α) :=
  if gf.argumentPrecedenceOrder = gf.required then .ok l else gf.apoFunction l

def compareMethods (method1 method2 : M) (argsClasses : List C) :
    Except (Error O C) Comparison := do
  let specs1 ← gf.reorder (gf.specializers method1)
  let specs2 ← gf.reorder (gf.specializers method2)
  compareSpecializersLists sys specs1 specs2 argsClasses

/-- The class that stands for an argument. -/
def argClass : Specializer O C → C
  | .eql object => sys.classOf object
  | .cls c => c

def sortApplicableMethods (applicable : List M) (argsSpecializers : List (Specializer O C)) :
    Except (Error O C) (List M) := do
  let argsClasses ← gf.reorder
    ((argsSpecializers.take gf.argumentPrecedenceOrder.length).map (argClass sys))
  let beats mostSpecific method := do
    return (← compareMethods sys gf mostSpecific method argsClasses) = .second
  SelectionSorting.sort beats applicable

def applicableMethods (args : List O) : List M :=
  gf.methods.filter fun m => applicableMethodP sys (gf.specializers m) args

def stdComputeApplicableMethods (args : List O) : Except (Error O C) (List M) :=
  sortApplicableMethods sys gf (applicableMethods sys gf args)
    (args.map fun arg => .cls (sys.classOf arg))

/-- The loop of applicable-method-p in std-compute-applicable-methods-using-classes; none is the
return from the whole function. -/
def applicableUsingClassesP : Bool → List (Specializer O C) → List C → Option Bool
  | _, .eql object :: specs, c :: classes =>
    if sys.ofClassP object c then applicableUsingClassesP true specs classes else some false
  | eqlSpecP, .cls spec :: specs, c :: classes =>
    if sys.subclassp c spec then applicableUsingClassesP eqlSpecP specs classes else some false
  | eqlSpecP, _, _ => if eqlSpecP then none else some true

def collectUsingClasses (specializers : M → List (Specializer O C)) (classes : List C) :
    List M → Option (List M)
  | [] => some []
  | m :: methods => do
    let applicable ← applicableUsingClassesP sys false (specializers m) classes
    let rest ← collectUsingClasses specializers classes methods
    return if applicable then m :: rest else rest

/-- none is the second value NIL. -/
def stdComputeApplicableMethodsUsingClasses (classes : List C) :
    Option (Except (Error O C) (List M)) := do
  let methods ← collectUsingClasses sys gf.specializers classes gf.methods
  return sortApplicableMethods sys gf methods (classes.map .cls)

end
end

/-- NIL and instances of one class: the classes NULL, that one and T. -/
def threeClasses : ClassSystem (Fin 4) (Fin 3) where
  classOf object := if object = 0 then 0 else 1
  precedenceList c := if c = 2 then [2] else [c, 2]
  nil := 0
  null := 0
  t := 2
  classOf_nil := rfl
  head := by decide
  nodup := by decide
  mem := by decide
  ordered := by decide

def anInstance : Fin 4 := 1
def instanceClass : Fin 3 := 1

/-- Two methods on one argument, in the order in which they are stored. -/
def oneArgument {O C : Type} (first : Bool) (onTrue onFalse : Specializer O C) :
    GenericFunction O C Bool Bool where
  required := [true]
  argumentPrecedenceOrder := [true]
  methods := [first, !first]
  specializers m := if m then [onTrue] else [onFalse]
  required_nodup := List.nodup_singleton _
  perm := List.Perm.refl _
  methods_nodup := by cases first <;> decide
  congruent m _ := by cases m <;> rfl

end GenericFunctions
