import Mathlib.Data.Int.Basic
import Mathlib.Tactic.Common

/-! The backquote expander of src/c/backq.d, and the vectors that the reader of
src/c/reader/rtab_cl.d builds inside a backquote. -/
namespace Backquote

/-- The symbols that the expander knows; keywords evaluate to themselves. -/
inductive Symbol where
  | quote | list | listStar | append | nconc | makeBackqVector
  | quasiquote | unquote | unquoteSplice | unquoteNsplice
  | keyword (name : ℕ)
  | named (name : ℕ)
  deriving DecidableEq

/-- A vector holds the list of its elements; other objects evaluate to themselves. -/
inductive Object where
  | nil
  | symbol (s : Symbol)
  | cons (car cdr : Object)
  | vector (elements : Object)
  | fixnum (n : ℕ)
  | other (id : ℕ)
  deriving DecidableEq

inductive BackqError where
  | illegalPosition
  | vectorLarger
  | notAList
  | unfinished
  deriving DecidableEq

def car : Object → Object
  | .cons a _ => a
  | _ => .nil

def list1 (x : Object) : Object := .cons x .nil

def list2 (x y : Object) : Object := .cons x (list1 y)

def call (f : Symbol) (args : Object) : Object := .cons (.symbol f) args

def kwote : Object → Object
  | .symbol (.keyword name) => .symbol (.keyword name)
  | .symbol s => list2 (.symbol .quote) (.symbol s)
  | .nil => list2 (.symbol .quote) .nil
  | .cons a d => list2 (.symbol .quote) (.cons a d)
  | .vector v => list2 (.symbol .quote) (.vector v)
  | x => x

/-- What _cl_backq_car returns. -/
inductive CarCode where
  | quote | eval | append | nconc
  deriving DecidableEq

/-- What _cl_backq_cdr returns. -/
inductive CdrCode where
  | quote | eval | list | listx | append | nconc
  deriving DecidableEq

def evalQuoted (ax : Object) : Object → CdrCode × Object
  | .nil => (.list, list1 ax)
  | .cons y .nil => (.list, .cons ax (list1 (kwote y)))
  | dx => (.listx, .cons ax (list1 (kwote dx)))

/-- The part of _cl_backq_cdr that follows the two calls, for the cons x. -/
def merge (x : Object) (a : CarCode) (ax : Object) (d : CdrCode) (dx : Object) :
    CdrCode × Object :=
  match d, a with
  | .quote, .quote => (.quote, x)
  | .quote, .eval => evalQuoted ax dx
  | .quote, .append => if dx = .nil then (.eval, ax) else (.append, .cons ax (list1 (kwote dx)))
  | .quote, .nconc => if dx = .nil then (.eval, ax) else (.nconc, .cons ax (list1 (kwote dx)))
  | .eval, .quote => (.listx, .cons (kwote ax) (list1 dx))
  | .eval, .eval => (.listx, .cons ax (list1 dx))
  | .eval, .append => (.append, .cons ax (list1 dx))
  | .eval, .nconc => (.nconc, .cons ax (list1 dx))
  | .list, .quote => (.list, .cons (kwote ax) dx)
  | .list, .eval => (.list, .cons ax dx)
  | .list, .append => (.append, .cons ax (list1 (call .list dx)))
  | .list, .nconc => (.nconc, .cons ax (list1 (call .list dx)))
  | .listx, .quote => (.listx, .cons (kwote ax) dx)
  | .listx, .eval => (.listx, .cons ax dx)
  | .listx, .append => (.append, .cons ax (list1 (call .listStar dx)))
  | .listx, .nconc => (.nconc, .cons ax (list1 (call .listStar dx)))
  | .append, .quote => (.listx, .cons (kwote ax) (list1 (call .append dx)))
  | .append, .eval => (.listx, .cons ax (list1 (call .append dx)))
  | .append, .append => (.append, .cons ax dx)
  | .append, .nconc => (.nconc, .cons ax (list1 (call .append dx)))
  | .nconc, .quote => (.listx, .cons (kwote ax) (list1 (call .nconc dx)))
  | .nconc, .eval => (.listx, .cons ax (list1 (call .nconc dx)))
  | .nconc, .append => (.append, .cons ax (list1 (call .nconc dx)))
  | .nconc, .nconc => (.nconc, .cons ax dx)

/-- The end of _cl_backq_car. -/
def wrap (d : CdrCode) (x : Object) : CarCode × Object :=
  match d with
  | .quote => (.quote, x)
  | .eval => (.eval, x)
  | .list => (.eval, call .list x)
  | .listx => (.eval, call .listStar x)
  | .append => (.eval, call .append x)
  | .nconc => (.eval, call .nconc x)

def finish (a : CarCode) (x : Object) : Except BackqError Object :=
  match a with
  | .append => .error .illegalPosition
  | .nconc => .error .illegalPosition
  | .quote => .ok (kwote x)
  | .eval => .ok x

mutual

/-- The number bounds the depth of the recursion. -/
def backqCdr : ℕ → Object → Except BackqError (CdrCode × Object)
  | 0, _ => .error .unfinished
  | n + 1, .cons ax dx =>
    if ax = .symbol .unquote then .ok (.eval, car dx)
    else if ax = .symbol .unquoteSplice ∨ ax = .symbol .unquoteNsplice then
      .error .illegalPosition
    else do
      let a ← backqCar n ax
      let d ← backqCdr n dx
      .ok (merge (.cons ax dx) a.1 a.2 d.1 d.2)
  | _ + 1, x => .ok (.quote, x)

def backqCar : ℕ → Object → Except BackqError (CarCode × Object)
  | 0, _ => .error .unfinished
  | n + 1, .cons ax dx =>
    if ax = .symbol .quasiquote then do
      let a ← backqCar n (car dx)
      let x ← finish a.1 a.2
      backqCar n x
    else if ax = .symbol .unquote then .ok (.eval, car dx)
    else if ax = .symbol .unquoteSplice then .ok (.append, car dx)
    else if ax = .symbol .unquoteNsplice then .ok (.nconc, car dx)
    else do
      let d ← backqCdr n (.cons ax dx)
      .ok (wrap d.1 d.2)
  | _ + 1, x => .ok (.quote, x)

end

def backq (n : ℕ) (x : Object) : Except BackqError Object := do
  let a ← backqCar n x
  finish a.1 a.2

/-- The loop of si_make_backq_vector, which repeats the last element. -/
def fillVector : ℕ → Object → Object → Except BackqError Object
  | 0, _, .nil => .ok .nil
  | 0, _, _ => .error .vectorLarger
  | dim + 1, last, .nil => do .ok (.cons last (← fillVector dim last .nil))
  | dim + 1, _, .cons a data => do .ok (.cons a (← fillVector dim a data))
  | _ + 1, _, _ => .error .notAList

def length : Object → Except BackqError ℕ
  | .nil => .ok 0
  | .cons _ d => do .ok ((← length d) + 1)
  | _ => .error .notAList

def makeBackqVector (d : Option ℕ) (data : Object) : Except BackqError Object := do
  let dim ← d.elim (length data) .ok
  .ok (.vector (← fillVector dim .nil data))

/-- The dimension as an argument of the form. -/
def dimension (d : Option ℕ) : Object := d.elim .nil .fixnum

/-- sharp_left_parenthesis_reader in a backquote, after the list of elements. -/
def sharpLeftParenthesis (n : ℕ) (d : Option ℕ) (x : Object) : Except BackqError Object := do
  let a ← backqCar n x
  if a.1 = .quote then makeBackqVector d a.2
  else .ok (list2 (.symbol .unquote)
    (call .makeBackqVector (.cons (dimension d) (list2 a.2 .nil))))

end Backquote

namespace BackquoteMeaning

open Backquote

inductive Position where
  | element | tail
  deriving DecidableEq

inductive Comma where
  | unquote | splice | nsplice
  deriving DecidableEq

def Comma.symbol : Comma → Symbol
  | .unquote => .unquote
  | .splice => .unquoteSplice
  | .nsplice => .unquoteNsplice

/-- The outermost level of a template. The forms after its commas and the contents of its
inner backquotes are objects that the reader has already built. -/
inductive Template where
  | atom (x : Object)
  | comma (c : Comma) (form : Object)
  | backquote (contents : Object)
  | cons (car cdr : Template)
  | vector (dimension : Option ℕ) (elements : Template)

/-- The object that comma_reader, backquote_reader, left_parenthesis_reader and
sharp_left_parenthesis_reader build for a template. -/
def object (n : ℕ) : Template → Except BackqError Object
  | .atom x => .ok x
  | .comma c form => .ok (list2 (.symbol c.symbol) form)
  | .backquote contents => .ok (list2 (.symbol .quasiquote) contents)
  | .cons a d => do .ok (.cons (← object n a) (← object n d))
  | .vector dim elements => do sharpLeftParenthesis n dim (← object n elements)

def template : Object → Template
  | .cons (.symbol .quasiquote) (.cons u .nil) => .backquote u
  | .cons (.symbol .unquote) (.cons u .nil) => .comma .unquote u
  | .cons (.symbol .unquoteSplice) (.cons u .nil) => .comma .splice u
  | .cons (.symbol .unquoteNsplice) (.cons u .nil) => .comma .nsplice u
  | .cons a d => .cons (template a) (template d)
  | x => .atom x

def Listed : Template → Prop
  | .atom x => x = .nil
  | .cons _ d => Listed d
  | _ => False

def IsComma (x : Object) : Prop := ∃ c : Comma, x = .symbol c.symbol

instance (x : Object) : Decidable (IsComma x) :=
  decidable_of_iff (x = .symbol .unquote ∨ x = .symbol .unquoteSplice ∨ x = .symbol .unquoteNsplice)
    ⟨fun h => by
      rcases h with h | h | h
      · exact ⟨.unquote, h⟩
      · exact ⟨.splice, h⟩
      · exact ⟨.nsplice, h⟩,
    fun ⟨c, h⟩ => by cases c <;> simp [h, Comma.symbol]⟩

def Mark (x : Object) : Prop := x = .symbol .quasiquote ∨ IsComma x

instance (x : Object) : Decidable (Mark x) := inferInstanceAs (Decidable (_ ∨ _))

def level : Object → ℕ
  | .cons a (.cons u d) =>
    if a = .symbol .quasiquote then level u - 1
    else if IsComma a then level u + 1
    else max (level a) (level (.cons u d))
  | .cons a d => max (level a) (level d)
  | _ => 0

/-- The objects that the reader builds at a depth of further backquotes. What stands after a
comma of depth zero is any Lisp form. The condition is on the backquotes in dotted tails. -/
inductive Built (tails : Object → Prop) : Position → ℕ → Object → Prop
  | atom (p : Position) (k : ℕ) (x : Object) : (∀ a d, x ≠ .cons a d) → ¬ Mark x →
      Built tails p k x
  | backquote (p : Position) (k : ℕ) (u : Object) : Built tails .element (k + 1) u →
      (p = .tail → tails u) → Built tails p k (list2 (.symbol .quasiquote) u)
  | outermost (p : Position) (c : Comma) (u : Object) :
      Built tails p 0 (list2 (.symbol c.symbol) u)
  | comma (p : Position) (k : ℕ) (c : Comma) (u : Object) : Built tails .element k u →
      Built tails p (k + 1) (list2 (.symbol c.symbol) u)
  | cons (p : Position) (k : ℕ) (a d : Object) : ¬ Mark a → Built tails .element k a →
      Built tails .tail k d → Built tails p k (.cons a d)

def Read (tails : Object → Prop) : Position → Template → Prop
  | _, .atom x => (∀ a d, x ≠ .cons a d) ∧ ¬ Mark x
  | _, .comma _ _ => True
  | p, .backquote u => Built tails .element 1 u ∧ (p = .tail → tails u)
  | _, .cons a d => Read tails .element a ∧ Read tails .tail d
  | _, .vector _ t => Read tails .tail t ∧ Listed t

def Constant (u : Object) : Prop := level u = 0

theorem level_atom {x : Object} (hx : ∀ a d, x ≠ .cons a d) : level x = 0 := by
  cases x with
  | cons a d => exact absurd rfl (hx a d)
  | _ => rfl

@[simp] theorem level_list1 (x : Object) : level (list1 x) = level x := by
  simp [list1, level]

@[simp] theorem level_backquote (u : Object) :
    level (list2 (.symbol .quasiquote) u) = level u - 1 := by
  simp [list2, list1, level]

@[simp] theorem level_comma (c : Comma) (u : Object) :
    level (list2 (.symbol c.symbol) u) = level u + 1 := by
  have hq : Object.symbol c.symbol ≠ .symbol .quasiquote := by cases c <;> simp [Comma.symbol]
  have hc : IsComma (.symbol c.symbol) := ⟨c, rfl⟩
  simp only [list2, list1, level, if_neg hq, if_pos hc]

theorem level_cons {a : Object} (d : Object) (h : ¬ Mark a) :
    level (.cons a d) = max (level a) (level d) := by
  cases d with
  | cons u d =>
    rw [level, if_neg fun hq => h (.inl hq), if_neg fun hc => h (.inr hc)]
  | _ => rfl

variable {tails : Object → Prop} {p : Position} {k : ℕ}

theorem Built.not_mark {x : Object} (h : Built tails p k x) : ¬ Mark x := by
  cases h with
  | atom _ _ _ _ hm => exact hm
  | _ => rintro (h | ⟨c, h⟩) <;> cases h

theorem Built.cons_cases {a d : Object} (h : Built tails p k (.cons a d)) :
    (a = .symbol .quasiquote ∧ ∃ u, d = list1 u ∧ Built tails .element (k + 1) u ∧
      (p = .tail → tails u)) ∨
    (∃ (c : Comma) (u : Object), a = .symbol c.symbol ∧ d = list1 u ∧
      ∀ j, k = j + 1 → Built tails .element j u) ∨
    (¬ Mark a ∧ Built tails .element k a ∧ Built tails .tail k d) := by
  cases h with
  | atom _ _ _ hx _ => exact absurd rfl (hx a d)
  | backquote _ _ u hu ht => exact .inl ⟨rfl, u, rfl, hu, ht⟩
  | outermost _ c u => exact .inr (.inl ⟨c, u, rfl, rfl, fun j hj => by omega⟩)
  | comma _ k c u hu => exact .inr (.inl ⟨c, u, rfl, rfl, fun j hj => by cases hj; exact hu⟩)
  | cons _ _ _ _ hm ha hd => exact .inr (.inr ⟨hm, ha, hd⟩)

theorem Built.element {x : Object} (h : Built tails p k x) : Built tails .element k x := by
  cases h with
  | atom _ _ _ hx hm => exact .atom _ _ _ hx hm
  | backquote _ _ u hu _ => exact .backquote _ _ u hu nofun
  | outermost _ c u => exact .outermost _ c u
  | comma _ k c u hu => exact .comma _ k c u hu
  | cons _ _ _ _ hm ha hd => exact .cons _ _ _ _ hm ha hd

theorem Built.shift {x : Object} (h : Built tails p k x) :
    ∀ i, level x ≤ k → level x ≤ i → Built tails p i x := by
  induction h with
  | atom p k x hx hm => exact fun i _ _ => .atom p i x hx hm
  | backquote p k u _ ht ih =>
    intro i hk hi
    rw [level_backquote] at hk hi
    exact .backquote p i u (ih (i + 1) (by omega) (by omega)) ht
  | outermost p c u =>
    intro i hk _
    rw [level_comma] at hk
    omega
  | comma p k c u _ ih =>
    intro i hk hi
    rw [level_comma] at hk hi
    obtain ⟨j, rfl⟩ : ∃ j, i = j + 1 := ⟨i - 1, by omega⟩
    exact .comma p j c u (ih j (by omega) (by omega))
  | cons p k a d hm _ _ iha ihd =>
    intro i hk hi
    rw [level_cons d hm] at hk hi
    exact .cons p i a d hm (iha i (by omega) (by omega)) (ihd i (by omega) (by omega))

theorem Built.list1 {x : Object} (h : Built tails .element k x) :
    Built tails .tail k (list1 x) :=
  .cons _ _ _ _ h.not_mark h (.atom _ _ _ nofun (by decide))

def joined : Object → Object → Option Object
  | .nil, w => some w
  | .cons a d, w => (joined d w).map (.cons a)
  | _, _ => none

structure Lawful (ev : Object → Option Object) : Prop where
  nil : ev .nil = some .nil
  keyword : ∀ name, ev (.symbol (.keyword name)) = some (.symbol (.keyword name))
  fixnum : ∀ i, ev (.fixnum i) = some (.fixnum i)
  other : ∀ i, ev (.other i) = some (.other i)
  quote : ∀ x, ev (list2 (.symbol .quote) x) = some x
  list_nil : ev (call .list .nil) = some .nil
  list_cons : ∀ a args v w, ev a = some v → ev (call .list args) = some w →
    ev (call .list (.cons a args)) = some (.cons v w)
  listStar_one : ∀ a, ev (call .listStar (list1 a)) = ev a
  listStar_cons : ∀ a b args v w, ev a = some v → ev (call .listStar (.cons b args)) = some w →
    ev (call .listStar (.cons a (.cons b args))) = some (.cons v w)
  append_one : ∀ a, ev (call .append (list1 a)) = ev a
  append_cons : ∀ a b args l w v, ev a = some l → ev (call .append (.cons b args)) = some w →
    joined l w = some v → ev (call .append (.cons a (.cons b args))) = some v
  nconc_one : ∀ a, ev (call .nconc (list1 a)) = ev a
  nconc_cons : ∀ a b args l w v, ev a = some l → ev (call .nconc (.cons b args)) = some w →
    joined l w = some v → ev (call .nconc (.cons a (.cons b args))) = some v
  makeBackqVector : ∀ d a l v, ev a = some l → makeBackqVector d l = .ok v →
    ev (call .makeBackqVector (.cons (dimension d) (list2 a .nil))) = some v

def ofList : List Object → Object
  | [] => .nil
  | v :: vs => .cons v (ofList vs)

def starred : List Object → Option Object
  | [] => none
  | [v] => some v
  | v :: vs => (starred vs).map (.cons v)

def appended : List Object → Option Object
  | [] => some .nil
  | [v] => some v
  | l :: ls => (appended ls).bind (joined l)

def vectorOf : List Object → Option Object
  | [.nil, l, .nil] => (makeBackqVector none l).toOption
  | [.fixnum dim, l, .nil] => (makeBackqVector (some dim) l).toOption
  | _ => none

def apply : Symbol → List Object → Option Object
  | .list, vs => some (ofList vs)
  | .listStar, vs => starred vs
  | .append, vs => appended vs
  | .nconc, vs => appended vs
  | .makeBackqVector, vs => vectorOf vs
  | _, _ => none

mutual

def value (env : ℕ → Option Object) : Object → Option Object
  | .symbol (.named name) => env name
  | .symbol (.keyword name) => some (.symbol (.keyword name))
  | .symbol _ => none
  | .cons (.symbol .quote) (.cons x .nil) => some x
  | .cons (.symbol f) args => (values env args).bind (apply f)
  | .cons _ _ => none
  | x => some x

def values (env : ℕ → Option Object) : Object → Option (List Object)
  | .nil => some []
  | .cons a d => (value env a).bind fun v => (values env d).map (v :: ·)
  | _ => none

end

theorem value_call (env : ℕ → Option Object) {f : Symbol} (hf : f ≠ .quote) (args : Object) :
    value env (call f args) = (values env args).bind (apply f) := by
  cases f <;> first | rfl | exact absurd rfl hf

theorem starred_cons {vs : List Object} (hvs : vs ≠ []) (v : Object) :
    starred (v :: vs) = (starred vs).map (.cons v) := by
  cases vs with
  | nil => exact absurd rfl hvs
  | cons _ _ => rfl

theorem appended_cons {ls : List Object} (hls : ls ≠ []) (l : Object) :
    appended (l :: ls) = (appended ls).bind (joined l) := by
  cases ls with
  | nil => exact absurd rfl hls
  | cons _ _ => rfl

theorem values_cons {env : ℕ → Option Object} {a v : Object} (h : value env a = some v)
    (args : Object) : values env (.cons a args) = (values env args).map (v :: ·) := by
  simp only [values, h, Option.bind_some]

theorem value_one {env : ℕ → Option Object} {f : Symbol} (hf : f ≠ .quote)
    (hone : ∀ v, apply f [v] = some v) (a : Object) :
    value env (call f (list1 a)) = value env a := by
  rw [value_call env hf, list1]
  simp only [values]
  cases value env a with
  | none => rfl
  | some v => exact hone v

theorem value_append_cons {env : ℕ → Option Object} {f : Symbol} (hf : f ≠ .quote)
    (happly : ∀ vs, apply f vs = appended vs) (a b args l w v : Object)
    (ha : value env a = some l) (hw : value env (call f (.cons b args)) = some w)
    (hv : joined l w = some v) : value env (call f (.cons a (.cons b args))) = some v := by
  rw [value_call env hf] at hw ⊢
  obtain ⟨vs, hvs, hw⟩ := Option.bind_eq_some_iff.1 hw
  have hne : vs ≠ [] := by
    rintro rfl
    simp only [values] at hvs
    obtain ⟨u, -, hu⟩ := Option.bind_eq_some_iff.1 hvs
    simp at hu
  rw [values_cons ha, hvs]
  rw [happly] at hw
  simp only [Option.map_some, Option.bind_some, happly, appended_cons hne, hw, hv]

theorem lawful_value (env : ℕ → Option Object) : Lawful (value env) where
  nil := rfl
  keyword _ := rfl
  fixnum _ := rfl
  other _ := rfl
  quote _ := rfl
  list_nil := rfl
  list_cons a args v w ha hw := by
    rw [value_call env (by decide)] at hw ⊢
    obtain ⟨vs, hvs, hw⟩ := Option.bind_eq_some_iff.1 hw
    rw [values_cons ha, hvs]
    cases hw
    rfl
  listStar_one a := value_one (by decide) (fun _ => rfl) a
  listStar_cons a b args v w ha hw := by
    rw [value_call env (by decide)] at hw ⊢
    obtain ⟨vs, hvs, hw⟩ := Option.bind_eq_some_iff.1 hw
    have hne : vs ≠ [] := by
      rintro rfl
      cases hw
    rw [values_cons ha, hvs]
    simp only [apply] at hw
    simp only [Option.map_some, Option.bind_some, apply, starred_cons hne, hw]
  append_one a := value_one (by decide) (fun _ => rfl) a
  append_cons a b args l w v := value_append_cons (by decide) (fun _ => rfl) a b args l w v
  nconc_one a := value_one (by decide) (fun _ => rfl) a
  nconc_cons a b args l w v := value_append_cons (by decide) (fun _ => rfl) a b args l w v
  makeBackqVector d a l v ha hv := by
    have hd : value env (dimension d) = some (dimension d) := by cases d <;> rfl
    have hnil : values env (list1 .nil) = some [.nil] := rfl
    have hargs : values env (.cons (dimension d) (list2 a .nil)) = some [dimension d, l, .nil] := by
      rw [values_cons hd, list2, values_cons ha, hnil]
      rfl
    rw [value_call env (by decide), hargs]
    cases d <;> simp [apply, vectorOf, dimension, hv, Except.toOption]

def Expands (u form : Object) : Prop := ∃ n, backq n u = .ok form

inductive Meaning where
  | one (v : Object)
  | many (l : Object)

def Meaning.before : Meaning → Object → Option Object
  | .one v, w => some (.cons v w)
  | .many l, w => joined l w

/-- The value of a template. Inner backquotes are replaced by their forms first; the commas
that are left in such a form belong to this level. -/
inductive Denotes (ev : Object → Option Object) : Position → Template → Meaning → Prop
  | atom (p : Position) (x : Object) : Denotes ev p (.atom x) (.one x)
  | unquote (p : Position) (form v : Object) : ev form = some v →
      Denotes ev p (.comma .unquote form) (.one v)
  | splice (form l : Object) : ev form = some l →
      Denotes ev .element (.comma .splice form) (.many l)
  | nsplice (form l : Object) : ev form = some l →
      Denotes ev .element (.comma .nsplice form) (.many l)
  | backquote (p : Position) (u form : Object) (m : Meaning) : Expands u form →
      Denotes ev p (template form) m → Denotes ev p (.backquote u) m
  | cons (p : Position) (a d : Template) (m : Meaning) (w v : Object) :
      Denotes ev .element a m → Denotes ev .tail d (.one w) → m.before w = some v →
      Denotes ev p (.cons a d) (.one v)
  | vector (p : Position) (dim : Option ℕ) (t : Template) (l v : Object) :
      Denotes ev .tail t (.one l) → makeBackqVector dim l = .ok v →
      Denotes ev p (.vector dim t) (.one v)

mutual

inductive Alike : Object → Object → Prop
  | refl (x : Object) : Alike x x
  | cons (a d a' d' : Object) : Alike a a' → Alike d d' → Alike (.cons a d) (.cons a' d')
  | vector (v w : Object) : AlikeElements v w → Alike (.vector v) (.vector w)
  | backquote (u form w : Object) : Expands u form → Alike form w →
      Alike (list2 (.symbol .quasiquote) u) w

inductive AlikeElements : Object → Object → Prop
  | nil : AlikeElements .nil .nil
  | cons (a d a' d' : Object) : Alike a a' → AlikeElements d d' →
      AlikeElements (.cons a d) (.cons a' d')

end

end BackquoteMeaning
