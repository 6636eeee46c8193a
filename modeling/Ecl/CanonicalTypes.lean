import Ecl.TypeSpecifiers

/-! # `canonical-type`, `subtypep` and `type=`

Catching, signalling and running out of stack are outcomes of a computation that carries
the type database and the result cache along. Every entry of the cache also remembers the
query it was stored in, which the code does not keep: the condition under which answers do
not depend on earlier queries is stated with it. -/
namespace TypeTags

/-- How a computation ends without a value: `throw` to `+canonical-type-failure+`, an
error, or a stack overflow. -/
inductive Stop where
  | failure
  | error
  | exhausted
  deriving DecidableEq

/-- The query during which something happens: its number, its environment, and whether
the `subtypep` meant is one that the decision procedure itself has asked. -/
structure Origin where
  serial : ℕ
  environment : Env
  nested : Bool

structure Entry where
  t1 : Spec
  t2 : Spec
  test : Bool
  confident : Bool
  origin : Origin

structure Hit where
  found : Origin
  wanted : Origin

abbrev Cache := Fin 256 → Option Entry

structure State where
  database : Database
  cache : Cache
  hits : List Hit

def TypeM (α : Type) : Type := State → Except Stop α × State

namespace TypeM

protected def pure {α : Type} (a : α) : TypeM α := fun s => (.ok a, s)

protected def bind {α β : Type} (x : TypeM α) (f : α → TypeM β) : TypeM β := fun s =>
  match x s with
  | (.ok a, s) => f a s
  | (.error e, s) => (.error e, s)

instance : Monad TypeM where
  pure := TypeM.pure
  bind := TypeM.bind

def stop {α : Type} (e : Stop) : TypeM α := fun s => (.error e, s)

/-- `(catch '+canonical-type-failure+ …)`; what is thrown there is never a number. -/
def catching {α : Type} (x : TypeM α) : TypeM (Option α) := fun s =>
  match x s with
  | (.ok a, s) => (.ok (some a), s)
  | (.error .failure, s) => (.ok none, s)
  | (.error e, s) => (.error e, s)

def onDatabase {α : Type} (f : Database → α × Database) : TypeM α := fun s =>
  (.ok (f s.database).1, { s with database := (f s.database).2 })

def withTypeDatabase {α : Type} (x : TypeM α) : TypeM α := fun s =>
  let r := x { s with database := s.database.enter }
  (r.1, { r.2 with database := s.database.leave r.2.database })

def lookUp (slot : Fin 256) (t1 t2 : Spec) (wanted : Origin) :
    TypeM (Option (Bool × Bool)) := fun s =>
  match s.cache slot with
  | none => (.ok none, s)
  | some e =>
    if e.t1.eql t1 && e.t2.eql t2 then
      (.ok (some (e.test, e.confident)), { s with hits := ⟨e.origin, wanted⟩ :: s.hits })
    else (.ok none, s)

def store (slot : Fin 256) (e : Entry) : TypeM Unit := fun s =>
  (.ok (), { s with cache := Function.update s.cache slot (some e) })

end TypeM

open TypeM

/-- What the decision procedure calls itself on: a specifier, or the arguments of a
complex type. -/
inductive Goal where
  | type (s : Spec)
  | complexType (arguments : List Spec)

section Procedure

variable (w : World) (serial : ℕ) (env : Env)

def typeInEnv (name : Sym) : Env → Option Definition
  | [] => none
  | .type name' definition :: env =>
    if name' = name then some definition else typeInEnv name env
  | .complexFloat _ :: env => typeInEnv name env

def searchTypeInEnv (type : Spec) : Except Unit Spec :=
  let named (name : Sym) (arguments : List Spec) : Except Unit Spec :=
    match typeInEnv name env with
    | some (.constant s) => .ok s
    | some (.function f) => f arguments
    | none => .ok type
  match type, w.uncons type with
  | .symbol s, _ => named s []
  | _, some (.symbol s, arguments) => named s arguments
  | _, _ => .ok type

def complexFloatFeature : Env → Bool
  | [] => true
  | .complexFloat on :: _ => on
  | .type _ _ :: env => complexFloatFeature env

/-- The value of a function of the user, or the error it signals. -/
def expanded : Except Unit Spec → TypeM Spec
  | .ok s => pure s
  | .error _ => stop .error

def orError {α : Type} : Option α → TypeM α
  | some a => pure a
  | none => stop .error

section Calls

variable (call : Goal → TypeM ℤ)

def findRegisteredTag (test : Elementary → Bool) : TypeM (Option ℤ) :=
  onDatabase fun d => (d.findRegisteredTag test, d)

def safeCanonicalType (type : Spec) : TypeM (Option ℤ) := catching (call (.type type))

/-- Once both types have a tag they are canonicalized again, for the second may have
retagged what the first is made of. -/
def fastSubtypep (t1 t2 : Spec) : TypeM (Bool × Bool) :=
  if t1.eql t2 then pure (true, true)
  else do
    let tag1 ← safeCanonicalType call t1
    let tag2 ← safeCanonicalType call t2
    if tag1.isSome && tag2.isSome then
      let tag1 ← safeCanonicalType call t1
      let tag2 ← safeCanonicalType call t2
      match tag1, tag2 with
      | some tag1, some tag2 => pure (Int.ldiff tag1 tag2 == 0, true)
      | _, _ => pure (false, false)
    else pure (false, false)

def bothClasses : Spec → Spec → Option (ℕ × ℕ)
  | .thing c1, .thing c2 => if w.isClass c1 && w.isClass c2 then some (c1, c2) else none
  | _, _ => none

/-- The part of `subtypep` after its two easy cases. -/
def cachedSubtypep (nested : Bool) (t1 t2 : Spec) : TypeM (Bool × Bool) := do
  let origin : Origin := ⟨serial, env, nested⟩
  let elt ← lookUp (w.hashEql t1 t2) t1 t2 origin
  match elt with
  | some answer => pure answer
  | none =>
    withTypeDatabase do
      let answer ← fastSubtypep call t1 t2
      store (w.hashEql t1 t2) ⟨t1, t2, answer.1, answer.2, origin⟩
      pure answer

def subtypep (nested : Bool) (t1 t2 : Spec) : TypeM (Bool × Bool) :=
  if t1.eql t2 then pure (true, true)
  else
    match bothClasses w t1 t2 with
    | some (c1, c2) => pure (w.subclassp c1 c2, true)
    | none => cachedSubtypep w serial env call nested t1 t2

def firstSupertype (realType : Spec) : List (Sym × Sym) → TypeM Sym
  | [] => stop .error
  | (type, answer) :: types => do
    let answers ← subtypep w serial env call true realType (.symbol type)
    if answers.1 then pure answer else firstSupertype realType types

def upgradedComplexPartType (realType : Spec) : TypeM Sym :=
  firstSupertype w serial env call realType
    (if complexFloatFeature env then
      [(.null, .nil), (.rational, .rational), (.singleFloat, .singleFloat),
        (.doubleFloat, .doubleFloat), (.longFloat, .longFloat), (.float, .float),
        (.real, .real)]
    else [(.null, .nil), (.real, .real)])

def tagUnion : List Goal → TypeM ℤ
  | [] => pure 0
  | g :: goals => do
    let tag ← call g
    let others ← tagUnion goals
    pure (Int.lor tag others)

def tagIntersection : List Goal → TypeM ℤ
  | [] => pure (-1)
  | g :: goals => do
    let tag ← call g
    let others ← tagIntersection goals
    pure (Int.land tag others)

def complexGoals (parts : List Sym) : List Goal :=
  parts.map fun part => .complexType [.symbol part]

def canonicalComplexType (arguments : List Spec) : TypeM ℤ := do
  let realType ← orError (match arguments with
    | [] => some (.symbol .real)
    | [.symbol .star] => some (.symbol .real)
    | [realType] => some realType
    | _ => none)
  let upgraded ← upgradedComplexPartType w serial env call realType
  let registered ← findRegisteredTag (· == .complex upgraded)
  match registered with
  | some tag => pure tag
  | none =>
    if complexFloatFeature env && upgraded == .real then
      tagUnion call (complexGoals [.singleFloat, .doubleFloat, .longFloat, .rational])
    else if complexFloatFeature env && upgraded == .float then
      tagUnion call (complexGoals [.singleFloat, .doubleFloat, .longFloat])
    else onDatabase fun d => d.registerComplexType w upgraded

/-- `find-built-in-tag`, with `none` for a name that is not built in. -/
def findBuiltInTag (name : Sym) : TypeM (Option ℤ) :=
  if name = .t then pure (some (-1))
  else if name = .nil then pure (some 0)
  else
    match builtInAlias name, builtInSupertype name with
    | some synonym, _ => do
      let tag ← call (.type synonym)
      pure (some tag)
    | none, some supertype => do
      let supertypeTag ← call (.type (.symbol supertype))
      let tag ← onDatabase fun d =>
        d.registerBuiltIn w name (if supertype = .t then none else some supertypeTag)
      pure (some tag)
    | none, none => pure none

/-- The second clause of `register-class`: the tag of the name of a class that has its
proper name. -/
def tagOfName (c : ℕ) : TypeM (Option ℤ) :=
  match w.className c with
  | none => pure none
  | some name =>
    if w.findClass name = some c then do
      let registered ← findRegisteredTag (· == .builtIn name)
      match registered with
      | some tag => pure (some tag)
      | none => findBuiltInTag w call name
    else pure none

def registerClass (c : ℕ) : TypeM ℤ := do
  let registered ← findRegisteredTag (· == .cls c)
  match registered with
  | some tag => pure tag
  | none =>
    let named ← tagOfName w call c
    match named with
    | some tag => pure tag
    | none =>
      if w.finalized c then
        onDatabase fun d => d.registerType w (.cls c) classOrNameP w.classLe
      else stop .failure

/-- The loop of `fast-upgraded-array-element-type`. -/
def firstElementType (type : Spec) : List Sym → TypeM Sym
  | [] => pure .t
  | other :: types => do
    let answers ← fastSubtypep call type (.symbol other)
    if answers.1 then pure other else firstElementType type types

/-- `none` stands for `*`. -/
def fastUpgradedArrayElementType : Spec → TypeM (Option Sym)
  | .symbol .star => pure none
  | type => do
    match type with
    | .symbol s =>
      if s ∈ upgradedArrayElementTypes then pure (some s)
      else do
        let elt ← firstElementType call type upgradedArrayElementTypes
        pure (some elt)
    | _ => do
      let elt ← firstElementType call type upgradedArrayElementTypes
      pure (some elt)

def parseArrayType (arguments : List Spec) : TypeM (Option Sym × Dims) := do
  let elt ← fastUpgradedArrayElementType call (arguments.headD (.symbol .star))
  let dims ← orError (if arguments.length ≤ 2 then
    w.dimsOf (arguments.getD 1 (.symbol .star)) else none)
  pure (elt, dims)

def Dims.spec : Dims → Spec
  | .any => .symbol .star
  | .sizes [] => .symbol .nil
  | .sizes l => .fresh (l.map fun size =>
      match size with
      | none => .symbol .star
      | some n => .number (.integer n))

def registerArrayType (k : ArrayClass) (arguments : List Spec) : TypeM ℤ := do
  let (elt, dims) ← parseArrayType w call arguments
  match elt with
  | none =>
    call (.type (.fresh (.symbol .or :: upgradedArrayElementTypes.map fun type =>
      .fresh [.symbol k.name, .symbol type, dims.spec])))
  | some elt =>
    onDatabase fun d => d.registerType w (.array k elt dims) arrayTypeP arrayTypeLe

def canonicalIntervalType (kind : IntervalKind) (arguments : List Spec) : TypeM ℤ := do
  let low ← orError (w.boundOf (arguments.getD 0 (.symbol .star)))
  let high ← orError (if arguments.length ≤ 2 then
    w.boundOf (arguments.getD 1 (.symbol .star)) else none)
  onDatabase fun d => d.canonicalIntervalType w kind low high

def registerMemberTypes : List Spec → TypeM ℤ
  | [] => pure 0
  | object :: objects => do
    let tag ← onDatabase fun d => d.registerMemberType w object
    let others ← registerMemberTypes objects
    pure (Int.lor tag others)

def consPartTag : Option Spec → TypeM ℤ
  | none => pure (-1)
  | some (.symbol .star) => pure (-1)
  | some type => call (.type type)

def registerConsType (arguments : List Spec) : TypeM ℤ :=
  if 2 < arguments.length then stop .error
  else do
    let carTag ← consPartTag call arguments[0]?
    let cdrTag ← consPartTag call arguments[1]?
    if carTag = 0 ∨ cdrTag = 0 then pure 0
    else if carTag = -1 ∧ cdrTag = -1 then call (.type (.symbol .cons))
    else stop .failure

/-- The clauses of `canonical-type` for a list that is not registered. -/
def canonicalCompound (head : Spec) (arguments : List Spec) : TypeM ℤ :=
  let others (heads : List Sym) : Goal :=
    .type (.fresh (.symbol .or :: heads.map fun h => .fresh (.symbol h :: arguments)))
  match head with
  | .symbol .and => tagIntersection call (arguments.map .type)
  | .symbol .or => tagUnion call (arguments.map .type)
  | .symbol .not => do
    let tag ← call (.type (arguments.headD (.symbol .nil)))
    pure (Int.lnot tag)
  | .symbol .eql => registerMemberTypes w arguments
  | .symbol .member => registerMemberTypes w arguments
  | .symbol .satisfies => stop .failure
  | .symbol .integer => canonicalIntervalType w .integer arguments
  | .symbol .ratio => canonicalIntervalType w .ratio arguments
  | .symbol .singleFloat => canonicalIntervalType w (.float .single) arguments
  | .symbol .doubleFloat => canonicalIntervalType w (.float .double) arguments
  | .symbol .longFloat => canonicalIntervalType w (.float .long) arguments
  | .symbol .float => call (others [.singleFloat, .doubleFloat, .longFloat])
  | .symbol .real => call (others [.integer, .ratio, .singleFloat, .doubleFloat, .longFloat])
  | .symbol .rational => call (others [.integer, .ratio])
  | .symbol .complex => call (.complexType arguments)
  | .symbol .cons => registerConsType call arguments
  | .symbol .array =>
    do
      let complexTag ← registerArrayType w call .complexArray arguments
      let simpleTag ← registerArrayType w call .simpleArray arguments
      pure (Int.lor complexTag simpleTag)
  | .symbol .complexArray => registerArrayType w call .complexArray arguments
  | .symbol .simpleArray => registerArrayType w call .simpleArray arguments
  | .symbol .function => call (.type (.symbol .function))
  | head => do
    match head with
    | .symbol s =>
      match w.deftype s with
      | some expander => do
        let type ← expanded (expander arguments env)
        call (.type type)
      | none => registeredHead head
    | head => registeredHead head
where
  registeredHead (head : Spec) : TypeM ℤ := do
    let registered ← findRegisteredTag (World.eqlSpec head)
    match registered with
    | some tag => pure tag
    | none => stop .failure

/-- The clause of `canonical-type` for a symbol that is not registered. -/
def canonicalSymbol (s : Sym) : TypeM ℤ :=
  match w.deftype s with
  | some expander => do
    let type ← expanded (expander [] env)
    call (.type type)
  | none => do
    let tag ← findBuiltInTag w call s
    match tag with
    | some tag => pure tag
    | none =>
      match w.findClass s with
      | some c => registerClass w call c
      | none => stop .failure

/-- The first two lines of `canonical-type`. -/
def typeInForce (type : Spec) : TypeM Spec :=
  if env.isEmpty then pure type else expanded (searchTypeInEnv w env type)

def canonicalType (type : Spec) : TypeM ℤ := do
  let type ← typeInForce w env type
  let registered ← findRegisteredTag (w.equalSpec type)
  match registered with
  | some tag => pure tag
  | none =>
    match type, w.uncons type with
    | .symbol .t, _ => pure (-1)
    | .symbol .nil, _ => pure 0
    | .symbol s, _ => canonicalSymbol w env call s
    | .thing c, _ => if w.isClass c then registerClass w call c else stop .error
    | _, some (head, arguments) => canonicalCompound w env call head arguments
    | _, none => stop .error

/-- `complex` is left undecided; comparing with its tag is an error when it has none. -/
def fastTypeEqual (t1 t2 : Spec) : TypeM (Bool × Bool) :=
  if t1.eql t2 then pure (true, true)
  else do
    let tag1 ← safeCanonicalType call t1
    let tag2 ← safeCanonicalType call t2
    let tag3 ← safeCanonicalType call (.symbol .complex)
    match tag1, tag2 with
    | some _, some tag2 => do
      let tag3 ← orError tag3
      if tag2 = tag3 then pure (false, false)
      else do
        let tag1 ← safeCanonicalType call t1
        let tag2 ← safeCanonicalType call t2
        match tag1, tag2 with
        | some tag1, some tag2 =>
          if tag2 = tag3 then pure (false, false) else pure (tag1 == tag2, true)
        | _, _ => pure (false, false)
    | _, _ => pure (false, false)

end Calls

def canonical : ℕ → Goal → TypeM ℤ
  | 0, _ => stop .exhausted
  | n + 1, .type s => canonicalType w env (canonical n) s
  | n + 1, .complexType arguments => canonicalComplexType w serial env (canonical n) arguments

end Procedure

end TypeTags
