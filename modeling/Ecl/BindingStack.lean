import Mathlib.Algebra.Order.Ring.Nat

/-! The binding stack of one thread, from src/c/stacks.d and src/h/stacks.h, as configured
with ECL_THREADS. Pointers into the stack are offsets from its origin, so that top starts at -1
and moving the stack leaves them; the thread-local table is a numbered block of memory, and a
pointer into it names the block. An absent value is ECL_NO_TL_BINDING. -/
namespace BindingStack

/-- struct ecl_bds_frame. Memory never written holds no symbol. -/
structure Slot (S V : Type) where
  symbol : Option S
  value : Option V

structure Env (S V : Type) where
  slots : ℤ → Slot S V
  top : ℤ
  limit : ℤ
  size : ℕ
  limitSize : ℕ
  blocks : ℕ → ℕ → Option V
  tlBindings : ℕ
  tlBindingsSize : ℕ
  nextBlock : ℕ
  /-- The field binding of the symbols, none when ECL_MISSING_SPECIAL_BINDING. -/
  binding : S → Option ℕ
  value : S → V
  constant : S → Bool
  lastVarIndex : ℕ
  reusedIndices : List ℕ
  margin : ℕ

inductive Fault where
  | internalError
  | cannotShrink
  deriving DecidableEq

variable {S V : Type} [DecidableEq S]

/-- *location = o. -/
def Env.store (env : Env S V) (block index : ℕ) (o : Option V) : Env S V :=
  { env with
    blocks := Function.update env.blocks block (Function.update (env.blocks block) index o) }

/-- ecl_new_binding_index. -/
def newBindingIndex (env : Env S V) (s : S) : Env S V × ℕ :=
  match env.binding s with
  | some i => (env, i)
  | none => match env.reusedIndices with
    | i :: rest =>
      ({ env with reusedIndices := rest, binding := Function.update env.binding s (some i) }, i)
    | [] =>
      let i := env.lastVarIndex + 1
      ({ env with lastVarIndex := i, binding := Function.update env.binding s (some i) }, i)

/-- invalid_or_too_large_binding_index. The product by 1.25 is cut to an integer. -/
def invalidOrTooLargeBindingIndex (env : Env S V) (s : S) : Env S V × ℕ :=
  let (env, index) := newBindingIndex env s
  if index < env.tlBindingsSize then (env, index)
  else
    let osize := env.tlBindingsSize
    let nsize := env.lastVarIndex * 5 / 4
    let vector := env.blocks env.tlBindings
    ({ env with
      blocks := Function.update env.blocks env.nextBlock
        (fun i => if i < osize then vector i else none)
      tlBindings := env.nextBlock
      nextBlock := env.nextBlock + 1
      tlBindingsSize := nsize }, index)

/-- Whether the binding index of s is below tl_bindings_size, as an unsigned comparison. -/
def inTable (env : Env S V) (s : S) : Option ℕ :=
  (env.binding s).filter (· < env.tlBindingsSize)

/-- si_set_limit and ecl_bds_set_limit, for the binding stack. -/
def setLimit (env : Env S V) (newLimSize : ℕ) : Except Fault (Env S V) :=
  -- the current size is unsigned, and so too large when the stack is empty
  if env.top < 0 ∨ newLimSize < env.top then .error .cannotShrink
  else
    let nsize := newLimSize + 2 * env.margin
    .ok { env with
      slots := fun i => if 0 ≤ i ∧ i < env.size ∧ i < nsize then env.slots i else ⟨none, none⟩
      limit := newLimSize
      size := nsize
      limitSize := newLimSize }

/-- CEstack_overflow. What runs between the signal and the restart that continues it, and the
unwinding on the way, is handlers. -/
def ceStackOverflow (handlers : Env S V → Except Fault (Env S V)) (limit : ℕ) (env : Env S V) :
    Except Fault (Env S V) := do
  let env ← handlers env
  let env ← setLimit env limit
  setLimit env (limit + limit / 2)

/-- ecl_bds_overflow, which returns the top of the stack. -/
def bdsOverflow (handlers : Env S V → Except Fault (Env S V)) (env : Env S V) :
    Except Fault (Env S V × ℤ) :=
  if env.size ≤ env.limit then .error .internalError
  else do
    let size := env.size
    let env ← ceStackOverflow handlers size { env with limit := env.limit + env.margin }
    return (env, env.top)

/-- The common part of ecl_bds_bind and ecl_bds_push, from the location on: the new value may
depend on the value that location has. -/
def bdsSave (handlers : Env S V → Except Fault (Env S V)) (env : Env S V) (s : S) (index : ℕ)
    (new : Env S V → Option V → V) : Except Fault (Env S V) := do
  let block := env.tlBindings
  let (env, slot) ←
    if env.limit ≤ env.top + 1 then bdsOverflow handlers env else pure (env, env.top + 1)
  let old := env.blocks block index
  let env' := { env with
    top := env.top + 1
    slots := Function.update env.slots slot ⟨some s, old⟩ }
  return env'.store block index (some (new env old))

def bindValue (v : V) (_ : Env S V) (_ : Option V) : V := v

def pushValue (s : S) (env : Env S V) (old : Option V) : V := old.getD (env.value s)

def bdsIndex (env : Env S V) (s : S) : Env S V × ℕ :=
  match inTable env s with
  | some index => (env, index)
  | none => invalidOrTooLargeBindingIndex env s

def bdsBind (handlers : Env S V → Except Fault (Env S V)) (env : Env S V) (s : S) (v : V) :
    Except Fault (Env S V) :=
  bdsSave handlers (bdsIndex env s).1 s (bdsIndex env s).2 (bindValue v)

def bdsPush (handlers : Env S V → Except Fault (Env S V)) (env : Env S V) (s : S) :
    Except Fault (Env S V) :=
  bdsSave handlers (bdsIndex env s).1 s (bdsIndex env s).2 (pushValue s)

def bdsBindInl (handlers : Env S V → Except Fault (Env S V)) (env : Env S V) (s : S) (v : V) :
    Except Fault (Env S V) :=
  match inTable env s with
  | none => bdsBind handlers env s v
  | some index => bdsSave handlers env s index (bindValue v)

def bdsPushInl (handlers : Env S V → Except Fault (Env S V)) (env : Env S V) (s : S) :
    Except Fault (Env S V) :=
  match inTable env s with
  | none => bdsPush handlers env s
  | some index => bdsSave handlers env s index (pushValue s)

/-- ecl_bds_unwind1. A record of no symbol is memory that the stack never wrote. -/
def bdsUnwind1 (env : Env S V) : Env S V :=
  let record := env.slots env.top
  let env := { env with top := env.top - 1 }
  match record.symbol.bind env.binding with
  | none => env
  | some index => env.store env.tlBindings index record.value

def bdsUnwindN : ℕ → Env S V → Env S V
  | 0, env => env
  | n + 1, env => bdsUnwindN n (bdsUnwind1 env)

/-- ecl_bds_unwind to the index of an earlier top. -/
def bdsUnwind (env : Env S V) (newBdsNdx : ℤ) : Env S V :=
  { bdsUnwindN (env.top - newBdsNdx).toNat env with top := newBdsNdx }

def bdsRead (env : Env S V) (s : S) : V :=
  match inTable env s with
  | some index => match env.blocks env.tlBindings index with
    | some x => x
    | none => env.value s
  | none => env.value s

/-- ecl_bds_set: an assignment through ecl_bds_ref. -/
def bdsSet (env : Env S V) (s : S) (v : V) : Env S V :=
  let setGlobal : Env S V := { env with value := Function.update env.value s v }
  match inTable env s with
  | some index => match env.blocks env.tlBindings index with
    | some _ => env.store env.tlBindings index (some v)
    | none => setGlobal
  | none => setGlobal

/-- A list as PROGV gets it: its elements, and whether it ends in NIL. -/
structure LispList (α : Type) where
  items : List α
  proper : Bool

inductive ProgvError where
  | illegalVariableName
  | bindingAConstant
  | improperList
  deriving DecidableEq

/-- The loop of ecl_progv. A variable is none when it is not a symbol. -/
def progvLoop (handlers : Env S V → Except Fault (Env S V)) (objnull : V) (proper : Bool)
    (valuesProper : Bool) : List (Option S) → List V → Env S V →
    Except Fault (Env S V × Option ProgvError)
  | [], values, env =>
    if proper ∧ (values ≠ [] ∨ valuesProper) then .ok (env, none)
    else .ok (env, some .improperList)
  | var :: vars, values, env =>
    if values = [] ∧ ¬ valuesProper then .ok (env, some .improperList)
    else match var with
      | none => .ok (env, some .illegalVariableName)
      | some s =>
        if env.constant s then .ok (env, some .bindingAConstant)
        else do
          let env ← bdsBind handlers env s (values.head?.getD objnull)
          progvLoop handlers objnull proper valuesProper vars values.tail env

/-- ecl_progv, with the index it returns. -/
def progv (handlers : Env S V → Except Fault (Env S V)) (objnull : V) (env : Env S V)
    (vars : LispList (Option S)) (values : LispList V) :
    Except Fault (Env S V × Except ProgvError ℤ) := do
  let (env', error) ←
    progvLoop handlers objnull vars.proper values.proper vars.items values.items env
  return (env', match error with
    | none => .ok env.top
    | some e => .error e)

inductive Op (S V : Type) where
  | bind (s : S) (v : V)
  | push (s : S)
  | set (s : S) (v : V)
  | unwind1
  | unwind (ndx : ℤ)
  | progv (vars : LispList (Option S)) (values : LispList V)

def step (handlers : Env S V → Except Fault (Env S V)) (objnull : V) (env : Env S V) :
    Op S V → Except Fault (Env S V)
  | .bind s v => bdsBind handlers env s v
  | .push s => bdsPush handlers env s
  | .set s v => .ok (bdsSet env s v)
  | .unwind1 => .ok (bdsUnwind1 env)
  | .unwind ndx => .ok (bdsUnwind env ndx)
  | .progv vars values => (progv handlers objnull env vars values).map Prod.fst

def run (handlers : Env S V → Except Fault (Env S V)) (objnull : V) (env : Env S V)
    (ops : List (Op S V)) : Except Fault (Env S V) := ops.foldlM (step handlers objnull) env

end BindingStack
