import Ecl.PackageCorrectness

/-! The registry of packages of src/c/package.d: names, nicknames, local nicknames, and the
packages announced by the loader, around the symbol tables and use lists of Packages. -/
namespace PackageSystem

open Packages (State PackageError)

/-- The fields of a package besides those of Packages.Package. -/
structure Names where
  nicknames : List String
  localNicknames : List (String × ℕ)
  nicknamedby : List ℕ

def noNames : Names := ⟨[], [], []⟩

/-- The list of all packages, the packages to be created, the value of *PACKAGE*, and the
next package to be allocated. -/
structure System where
  core : State
  names : ℕ → Names
  registered : List ℕ
  pending : List (String × ℕ)
  current : ℕ
  nextPackage : ℕ

inductive Designator where
  | package (p : ℕ)
  | name (n : String)
  deriving DecidableEq

inductive SystemError where
  | core (e : PackageError)
  | noPackage (d : Designator)
  | alreadyExists (other : ℕ) (name : String)
  | notFound (d : Designator)
  | lockedRename (p : ℕ)
  | nameTaken (p : ℕ) (name : String)
  | lockedNickname (actual target : ℕ)
  | nicknameTaken (nickname : String) (actual old : ℕ)
  | lockedRemoveNickname (nickname : String) (target : ℕ)
  deriving DecidableEq

/-- An operation returns, signals an error that ends it, or loops for ever. -/
inductive Result (α : Type) where
  | returns (a : α) (s : System)
  | fails (e : SystemError) (s : System)
  | hangs (s : System)

def Result.bind {α β : Type} : Result α → (α → System → Result β) → Result β
  | .returns a s, f => f a s
  | .fails e s, _ => .fails e s
  | .hangs s, _ => .hangs s

def System.modifyNames (s : System) (p : ℕ) (f : Names → Names) : System :=
  { s with names := Function.update s.names p (f (s.names p)) }

/-- CEpackage_error, with what follows when the caller continues. -/
def cePackageError {α : Type} (e : SystemError) (s : System) (continued : System → Result α) :
    Result α :=
  match s.core.answers with
  | true :: rest => continued { s with core := { s.core with answers := rest } }
  | _ => .fails e { s with core := { s.core with answers := s.core.answers.tail } }

def checkLock {α : Type} (e : SystemError) (p : ℕ) (s : System) (body : System → Result α) :
    Result α :=
  if (s.core.packages p).locked && !s.core.ignoreLocks then cePackageError e s body else body s

def ofCore (s : System) : Packages.Result → Result Unit
  | .done c => .returns () { s with core := c }
  | .failed e c => .fails (.core e) { s with core := c }

section find

def System.bears (s : System) (name : String) (p : ℕ) : Bool :=
  (s.core.packages p).name = some name || name ∈ (s.names p).nicknames

def findLocalNicknamePackage (name : String) (s : System) : Option ℕ :=
  ((s.names s.current).localNicknames.find? fun cell => cell.1 = name).map Prod.snd

def findGlobal (name : String) (s : System) : Option ℕ := s.registered.find? (s.bears name)

def eclFindPackageNolock (name : String) (s : System) : Option ℕ :=
  (findLocalNicknamePackage name s).or (findGlobal name s)

def findPackage : Designator → System → Option ℕ
  | .package p, _ => some p
  | .name n, s => eclFindPackageNolock n s

/-- si_coerce_to_package. -/
def siCoerceToPackage {α : Type} (d : Designator) (s : System) (body : ℕ → Result α) : Result α :=
  (findPackage d s).elim (.fails (.noPackage d) s) body

def processPackageList (s : System) : List Designator → Except Designator (List ℕ)
  | [] => .ok []
  | d :: ds => match findPackage d s with
    | none => .error d
    | some p => (processPackageList s ds).map fun ps => p :: ps

def processLocalNicknames (s : System) :
    List (String × Designator) → Except Designator (List (String × ℕ))
  | [] => .ok []
  | (n, d) :: cells => match findPackage d s with
    | none => .error d
    | some p => (processLocalNicknames s cells).map fun ps => (n, p) :: ps

end find

section make

def allocPackage (name : String) (s : System) : System :=
  { s with
    nextPackage := s.nextPackage + 1
    core := s.core.modify s.nextPackage fun _ => Packages.allocPackage name
    names := Function.update s.names s.nextPackage noNames }

def packageToBeCreated (name : String) (s : System) : Result Unit :=
  if (eclFindPackageNolock name s).isSome || (s.pending.lookup name).isSome then .returns () s
  else .returns () { allocPackage name s with pending := (name, s.nextPackage) :: s.pending }

/-- find_pending_package; its name is one of those asked for. -/
def findPendingPackage (name : String) (nicknames : List String) (s : System) :
    Option (String × ℕ) :=
  s.pending.find? fun pair => pair.1 = name || pair.1 ∈ nicknames

/-- The package to be filled, announced or new, unless one of that name exists. -/
def obtainPackage (name : String) (nicknames : List String) (s : System) : ℕ ⊕ (ℕ × System) :=
  match findPendingPackage name nicknames s with
  | some pair => .inr (pair.2, { s with pending := s.pending.erase pair })
  | none => match eclFindPackageNolock name s with
    | some other => .inl other
    | none => .inr (s.nextPackage, allocPackage name s)

def addNicknames (x : ℕ) : List String → System → Option (ℕ × String) × System
  | [], s => (none, s)
  | nick :: rest, s => match eclFindPackageNolock nick s with
    | some other => (some (other, nick), s)
    | none => addNicknames x rest
        (s.modifyNames x fun n => { n with nicknames := nick :: n.nicknames })

def linkUses (x : ℕ) : List ℕ → System → System
  | [], s => s
  | y :: ys, s => linkUses x ys { s with
      core := s.core.relink x y (y :: (s.core.packages x).uses) (x :: (s.core.packages y).usedby) }

def linkLocalNicknames (x : ℕ) : List (String × ℕ) → System → System
  | [], s => s
  | cell :: cells, s => linkLocalNicknames x cells
      ((s.modifyNames x fun n => { n with localNicknames := cell :: n.localNicknames }).modifyNames
        cell.2 fun n => { n with nicknamedby := x :: n.nicknamedby })

def returnExisting (other : ℕ) (name : String) (s : System) : Result ℕ :=
  cePackageError (.alreadyExists other name) s fun s => .returns other s

/-- The package x gets its nicknames, its use list and its local nicknames, and is registered. -/
def fillPackage (x : ℕ) (nicknames : List String) (uses : List ℕ) (locals : List (String × ℕ))
    (s : System) : Result ℕ :=
  match addNicknames x nicknames s with
  | (some (other, nick), s) => returnExisting other nick s
  | (none, s) =>
    let s := linkLocalNicknames x locals (linkUses x uses s)
    .returns x { s with registered := x :: s.registered }

def eclMakePackage (name : String) (nicknames : List String) (useList : List Designator)
    (locals : List (String × Designator)) (s : System) : Result ℕ :=
  match processPackageList s useList with
  | .error d => .fails (.noPackage d) s
  | .ok uses => match processLocalNicknames s locals with
    | .error d => .fails (.noPackage d) s
    | .ok locals => match obtainPackage name nicknames s with
      | .inl other => returnExisting other name s
      | .inr (x, s) => fillPackage x nicknames uses locals s

def otherBearer (x : ℕ) (names : List String) (s : System) : Option String :=
  names.find? fun name => (eclFindPackageNolock name s).any (· ≠ x)

def eclRenamePackage (x : Designator) (name : String) (nicknames : List String) (s : System) :
    Result ℕ :=
  siCoerceToPackage x s fun x => checkLock (.lockedRename x) x s fun s =>
    match otherBearer x (name :: nicknames) s with
    | some taken => .fails (.nameTaken x taken) s
    | none => .returns x { s.modifyNames x fun n => { n with nicknames := nicknames } with
        core := s.core.modify x fun pack => { pack with name := some name } }

end make

section links

def eclUsePackage (x p : Designator) (s : System) : Result Unit :=
  siCoerceToPackage x s fun x => siCoerceToPackage p s fun p => ofCore s (Packages.usePackage x p s.core)

def eclUnusePackage (x p : Designator) (s : System) : Result Unit :=
  siCoerceToPackage x s fun x => siCoerceToPackage p s fun p => ofCore s (Packages.unusePackage x p s.core)

def siAddPackageLocalNickname (nickname : String) (actual target : Designator) (s : System) :
    Result ℕ :=
  siCoerceToPackage actual s fun actual => siCoerceToPackage target s fun target =>
    let cell := (s.names target).localNicknames.find? fun cell => cell.1 = nickname
    checkLock (.lockedNickname actual target) target s fun s => match cell with
      | some cell =>
        if cell.2 ≠ actual then .fails (.nicknameTaken nickname actual cell.2) s
        else .returns target s
      | none => .returns target
          ((s.modifyNames target fun n =>
            { n with localNicknames := (nickname, actual) :: n.localNicknames }).modifyNames actual
            fun n => { n with nicknamedby := target :: n.nicknamedby })

/-- The cell is deleted, and every occurrence of target in the back list of the package it
denotes. -/
def deleteCell (cell : String × ℕ) (target : ℕ) (s : System) : System :=
  (s.modifyNames target fun n => { n with localNicknames := n.localNicknames.erase cell }).modifyNames
    cell.2 fun n => { n with nicknamedby := n.nicknamedby.filter (· ≠ target) }

def removeNickname (nickname : String) (target : ℕ) (s : System) : Result Bool :=
  checkLock (.lockedRemoveNickname nickname target) target s fun s =>
    match (s.names target).localNicknames.find? fun cell => cell.1 = nickname with
    | none => .returns false s
    | some cell => .returns true (deleteCell cell target s)

def siRemovePackageLocalNickname (nickname : String) (target : Designator) (s : System) :
    Result Bool :=
  siCoerceToPackage target s fun target => removeNickname nickname target s

end links

section delete

def removeOwn (p : ℕ) : ℕ → System → Result Unit
  | 0, s => .returns () s
  | n + 1, s => match (s.names p).localNicknames with
    | [] => .returns () s
    | cell :: _ => (removeNickname cell.1 p s).bind fun _ s => removeOwn p n s

/-- The packages that have local nicknames for the package lose them. A package in the back
list without such a nickname is looked at again and again. -/
def removeOthers (p : ℕ) : ℕ → System → Result Unit
  | 0, s => .hangs s
  | n + 1, s => match (s.names p).nicknamedby with
    | [] => .returns () s
    | q :: _ => match (s.names q).localNicknames.find? fun cell => cell.2 = p with
      | none => .hangs s
      | some cell => (removeNickname cell.1 q s).bind fun _ s => removeOthers p n s

/-- Each round of the loop above takes a local nickname away. -/
def rounds (p : ℕ) (s : System) : ℕ :=
  (s.names p).nicknamedby.foldr (fun q n => (s.names q).localNicknames.length + n) 1

def clDeletePackage (d : Designator) (s : System) : Result Bool :=
  (findPackage d s).elim (cePackageError (.notFound d) s fun s => .returns false s) fun p =>
    checkLock (.core (.lockedDelete p)) p s fun s =>
      if p = Packages.lispPackage ∨ p = Packages.keywordPackage then
        .fails (.core (.deleteSystem p)) s
      else if (s.core.packages p).name = none then .returns false s
      else
        (ofCore s (Packages.unuseUses p (s.core.packages p).uses.length s.core)).bind fun _ s =>
        (ofCore s (Packages.unuseUsedby p (s.core.packages p).usedby.length s.core)).bind fun _ s =>
        (removeOwn p (s.names p).localNicknames.length s).bind fun _ s =>
        (removeOthers p (rounds p s) s).bind fun _ s =>
        .returns true { s with
          core := Packages.clearPackage p s.core
          registered := s.registered.filter (· ≠ p) }

end delete

def siSelectPackage (d : Designator) (s : System) : Result Unit :=
  siCoerceToPackage d s fun p => .returns () { s with current := p }

inductive Op where
  | makePackage (name : String) (nicknames : List String) (useList : List Designator)
      (locals : List (String × Designator))
  | renamePackage (x : Designator) (name : String) (nicknames : List String)
  | deletePackage (d : Designator)
  | addLocalNickname (nickname : String) (actual target : Designator)
  | removeLocalNickname (nickname : String) (target : Designator)
  | usePackage (x p : Designator)
  | unusePackage (x p : Designator)
  | selectPackage (d : Designator)
  | packageToBeCreated (name : String)
  deriving DecidableEq

def Result.state {α : Type} : Result α → Option System
  | .returns _ s => some s
  | .fails _ s => some s
  | .hangs _ => none

def Result.forget {α : Type} : Result α → Result Unit
  | .returns _ s => .returns () s
  | .fails e s => .fails e s
  | .hangs s => .hangs s

def step (s : System) : Op → Result Unit
  | .makePackage name nicknames useList locals => (eclMakePackage name nicknames useList locals s).forget
  | .renamePackage x name nicknames => (eclRenamePackage x name nicknames s).forget
  | .deletePackage d => (clDeletePackage d s).forget
  | .addLocalNickname nickname actual target => (siAddPackageLocalNickname nickname actual target s).forget
  | .removeLocalNickname nickname target => (siRemovePackageLocalNickname nickname target s).forget
  | .usePackage x p => eclUsePackage x p s
  | .unusePackage x p => eclUnusePackage x p s
  | .selectPackage d => siSelectPackage d s
  | .packageToBeCreated name => packageToBeCreated name s

/-- Runs in which each operation meets the condition; one that fails may leave a part of its
work behind. -/
inductive Run (C : System → Op → Prop) (s : System) : System → Prop where
  | start : Run C s s
  | step {s₁ s₂ : System} {op : Op} :
    Run C s s₁ → C s₁ op → (step s₁ op).state = some s₂ → Run C s s₂

def runOps (s : System) (ops : List Op) : Option System :=
  ops.foldlM (fun s op => (step s op).state) s

theorem run_of_ops (ops : List Op) : ∀ {s s₁ s' : System}, Run (fun _ _ => True) s s₁ →
    runOps s₁ ops = some s' → Run (fun _ _ => True) s s' := by
  induction ops with
  | nil =>
    intro s s₁ s' hrun h
    cases h
    exact hrun
  | cons op ops ih =>
    intro s s₁ s' hrun h
    obtain ⟨s₂, hstep, hrest⟩ := Option.bind_eq_some_iff.mp h
    exact ih (hrun.step trivial hstep) hrest

def booted : System where
  core := { Packages.fresh with
    packages := fun p =>
      let pack := Packages.allocPackage
        (if p = Packages.lispPackage then "COMMON-LISP"
          else if p = Packages.keywordPackage then "KEYWORD" else "COMMON-LISP-USER")
      if p ≤ 2 then pack else { pack with name := none } }
  names _ := noNames
  registered := [2, 1, 0]
  pending := []
  current := 2
  nextPackage := 3

end PackageSystem
