import Mathlib.Data.List.Nodup

/-! Packages of src/c/package.d. Package tables are finite maps keyed by the names of the
symbols stored, which is what the hash tables of packages refine. A correctable error takes
its answer from a list of answers; the caller aborts when it says no or runs out. -/
namespace Packages

structure Symbol where
  id : ℕ
  name : String
  deriving DecidableEq

structure Table where
  entries : List Symbol
  distinct : (entries.map Symbol.name).Nodup

namespace Table

def empty : Table := ⟨[], by simp⟩

def gethash (t : Table) (name : String) : Option Symbol :=
  t.entries.find? (fun s => s.name = name)

def remhash (t : Table) (name : String) : Table where
  entries := t.entries.filter (fun s => s.name ≠ name)
  distinct := (t.distinct).sublist (List.filter_sublist.map _)

def sethash (t : Table) (s : Symbol) : Table where
  entries := s :: (t.remhash s.name).entries
  distinct := by
    rw [List.map_cons, List.nodup_cons]
    refine ⟨?_, (t.remhash s.name).distinct⟩
    simp [remhash]

end Table

structure Package where
  name : Option String
  internal : Table
  external : Table
  shadowings : List Symbol
  uses : List ℕ
  usedby : List ℕ
  locked : Bool

def lispPackage : ℕ := 0

def keywordPackage : ℕ := 1

structure State where
  packages : ℕ → Package
  home : Symbol → Option ℕ
  nextSymbol : ℕ
  ignoreLocks : Bool
  answers : List Bool

inductive PackageError where
  | lockedIntern (name : String) (p : ℕ)
  | lockedUnintern (s : Symbol) (p : ℕ)
  | lockedExport (s : Symbol) (p : ℕ)
  | lockedUnexport (s : Symbol) (p : ℕ)
  | lockedImport (s : Symbol) (p : ℕ)
  | lockedShadowingImport (s : Symbol) (p : ℕ)
  | lockedShadow (name : String) (p : ℕ)
  | lockedUse (x p : ℕ)
  | lockedUnuse (x p : ℕ)
  | lockedDelete (p : ℕ)
  | uninternConflict (s : Symbol) (p : ℕ) (x y : Symbol)
  | exportInaccessible (s : Symbol) (p : ℕ)
  | exportOther (s : Symbol) (p : ℕ)
  | exportConflict (s : Symbol) (p : ℕ) (other : ℕ)
  | unexportKeyword
  | unexportInaccessible (s : Symbol) (p : ℕ)
  | importConflict (s : Symbol) (p : ℕ)
  | useKeyword
  | keywordUses
  | useConflict (x p : ℕ) (here there : Symbol)
  | deleteSystem (p : ℕ)
  deriving DecidableEq

/-- An operation returns or signals an error that ends it; what was done before stays. -/
inductive Result where
  | done (s : State)
  | failed (e : PackageError) (s : State)

def Result.state : Result → State
  | .done s => s
  | .failed _ s => s

/-- CEpackage_error, with what follows when the caller continues. -/
def cePackageError (e : PackageError) (s : State) (continued : State → Result) : Result :=
  match s.answers with
  | true :: rest => continued { s with answers := rest }
  | _ => .failed e { s with answers := s.answers.tail }

def checkLock (e : PackageError) (p : ℕ) (s : State) (body : State → Result) : Result :=
  if (s.packages p).locked && !s.ignoreLocks then cePackageError e s body else body s

def State.modify (s : State) (p : ℕ) (f : Package → Package) : State :=
  { s with packages := Function.update s.packages p (f (s.packages p)) }

def State.relink (s : State) (p x : ℕ) (uses usedby : List ℕ) : State :=
  (s.modify p fun pack => { pack with uses := uses }).modify x
    fun pack => { pack with usedby := usedby }

/-- symbol_remove_package. -/
def State.removeHome (s : State) (sym : Symbol) (p : ℕ) : State :=
  { s with home := fun x => if x = sym ∧ s.home x = some p then none else s.home x }

/-- symbol_add_package. -/
def State.addHome (s : State) (sym : Symbol) (p : ℕ) : State :=
  { s with home := fun x => if x = sym ∧ s.home x = none then some p else s.home x }

def makeSymbol (name : String) (p : ℕ) (s : State) : Symbol × State :=
  let sym : Symbol := ⟨s.nextSymbol, name⟩
  (sym, { s with
    nextSymbol := s.nextSymbol + 1
    home := fun x => if x = sym then some p else s.home x })

inductive InternFlag where
  | internal | external | inherited
  deriving DecidableEq

/-- The external symbol of a name in the first used package that has one. -/
def inherited (packages : ℕ → Package) (uses : List ℕ) (name : String) : Option Symbol :=
  uses.findSome? (fun u => (packages u).external.gethash name)

def findSymbolInner (name : String) (p : ℕ) (s : State) : Option (Symbol × InternFlag) :=
  match (s.packages p).external.gethash name with
  | some x => some (x, .external)
  | none =>
    if p = keywordPackage then none
    else match (s.packages p).internal.gethash name with
      | some x => some (x, .internal)
      | none => (inherited s.packages (s.packages p).uses name).map fun x => (x, .inherited)

def intern (name : String) (p : ℕ) (s : State) : Result :=
  match findSymbolInner name p s with
  | some _ => .done s
  | none => checkLock (.lockedIntern name p) p s fun s =>
    let (sym, s) := makeSymbol name p s
    if p = keywordPackage then
      .done (s.modify p fun pack => { pack with external := pack.external.sethash sym })
    else .done (s.modify p fun pack => { pack with internal := pack.internal.sethash sym })

def potentialUninternConflict (name : String) (uses : List ℕ) (packages : ℕ → Package) :
    Option (Symbol × Symbol) :=
  match uses.filterMap (fun u => (packages u).external.gethash name) with
  | [] => none
  | x :: ys => (ys.find? (fun y => x ≠ y)).map fun y => (x, y)

def unintern (sym : Symbol) (p : ℕ) (s : State) : Result :=
  checkLock (.lockedUnintern sym p) p s fun s =>
    let pack := s.packages p
    let inInternal := pack.internal.gethash sym.name = some sym
    if ¬ inInternal ∧ pack.external.gethash sym.name ≠ some sym then .done s
    else
      let finish (shadowings : List Symbol) : Result :=
        .done ((s.modify p fun pack =>
          if inInternal then
            { pack with shadowings := shadowings, internal := pack.internal.remhash sym.name }
          else
            { pack with shadowings := shadowings, external := pack.external.remhash sym.name })
          |>.removeHome sym p)
      if sym ∈ pack.shadowings then
        match potentialUninternConflict sym.name pack.uses s.packages with
        | some (x, y) => .failed (.uninternConflict sym p x y) s
        | none => finish (pack.shadowings.filter (· ≠ sym))
      else finish pack.shadowings

/-- A package using p in which name denotes another symbol, not a shadowing one. -/
def potentialExportConflict (name : String) (sym : Symbol) (p : ℕ) (s : State) : Option ℕ :=
  (s.packages p).usedby.find? fun other =>
    match findSymbolInner name other s with
    | none => false
    | some (x, _) => sym ≠ x && x ∉ (s.packages other).shadowings

def clImport2 (sym : Symbol) (p : ℕ) (s : State) : Result :=
  checkLock (.lockedImport sym p) p s fun s =>
    let add (s : State) : Result :=
      .done ((s.modify p fun pack => { pack with internal := pack.internal.sethash sym })
        |>.addHome sym p)
    match findSymbolInner sym.name p s with
    | none => add s
    | some (x, flag) =>
      if x ≠ sym then cePackageError (.importConflict sym p) s .done
      else if flag = .inherited then add s
      else .done s

/-- The part of cl_export2 after AGAIN. Each round but the last takes an answer. -/
def exportAgain (sym : Symbol) (p : ℕ) : ℕ → State → Result
  | 0, s => .failed (.exportInaccessible sym p) s
  | n + 1, s => match findSymbolInner sym.name p s with
    | none => cePackageError (.exportInaccessible sym p) s fun s =>
      match clImport2 sym p s with
      | .done s => exportAgain sym p n s
      | failed => failed
    | some (x, flag) =>
      if x ≠ sym then .failed (.exportOther sym p) s
      else if flag = .external then .done s
      else match potentialExportConflict sym.name sym p s with
        | some other => .failed (.exportConflict sym p other) s
        | none => .done (s.modify p fun pack => { pack with
            internal := if flag = .internal then pack.internal.remhash sym.name else pack.internal
            external := pack.external.sethash sym })

def clExport2 (sym : Symbol) (p : ℕ) (s : State) : Result :=
  checkLock (.lockedExport sym p) p s fun s => exportAgain sym p (s.answers.length + 1) s

def clUnexport2 (sym : Symbol) (p : ℕ) (s : State) : Result :=
  if p = keywordPackage then .failed .unexportKeyword s
  else checkLock (.lockedUnexport sym p) p s fun s =>
    match findSymbolInner sym.name p s with
    | none => .failed (.unexportInaccessible sym p) s
    | some (x, flag) =>
      if x ≠ sym then .failed (.unexportInaccessible sym p) s
      else if flag ≠ .external then .done s
      else .done (s.modify p fun pack => { pack with
        external := pack.external.remhash sym.name
        internal := pack.internal.sethash sym })

def shadowingImport (sym : Symbol) (p : ℕ) (s : State) : Result :=
  checkLock (.lockedShadowingImport sym p) p s fun s =>
    let add (pack : Package) : Package := { pack with
      shadowings := sym :: pack.shadowings
      internal := pack.internal.sethash sym }
    match findSymbolInner sym.name p s with
    | some (x, .internal) =>
      if x = sym then
        .done (s.modify p fun pack => { pack with
          shadowings := if x ∈ pack.shadowings then pack.shadowings else x :: pack.shadowings })
      else
        .done ((s.removeHome x p).modify p fun pack => add { pack with
          shadowings := pack.shadowings.filter (· ≠ x)
          internal := pack.internal.remhash sym.name })
    | some (x, .external) =>
      if x = sym then
        .done (s.modify p fun pack => { pack with
          shadowings := if x ∈ pack.shadowings then pack.shadowings else x :: pack.shadowings })
      else
        .done ((s.removeHome x p).modify p fun pack => add { pack with
          shadowings := pack.shadowings.filter (· ≠ x)
          external := pack.external.remhash sym.name })
    | _ => .done (s.modify p add)

def shadow (name : String) (p : ℕ) (s : State) : Result :=
  checkLock (.lockedShadow name p) p s fun s =>
    let push (x : Symbol) (pack : Package) : Package := { pack with
      shadowings := if x ∈ pack.shadowings then pack.shadowings else x :: pack.shadowings }
    match findSymbolInner name p s with
    | some (x, .internal) => .done (s.modify p (push x))
    | some (x, .external) => .done (s.modify p (push x))
    | _ =>
      let (sym, s) := makeSymbol name p s
      .done (s.modify p fun pack => push sym { pack with internal := pack.internal.sethash sym })

/-- An external symbol of x whose name denotes another symbol in p, not a shadowing one. -/
def useConflict (x p : ℕ) (s : State) : Option (Symbol × Symbol) :=
  (s.packages x).external.entries.findSome? fun here =>
    match findSymbolInner here.name p s with
    | none => none
    | some (there, _) =>
      if here ≠ there ∧ there ∉ (s.packages p).shadowings then some (here, there) else none

def usePackage (x p : ℕ) (s : State) : Result :=
  if x = keywordPackage then .failed .useKeyword s
  else if p = x then .done s
  else if x ∈ (s.packages p).uses then .done s
  else if p = keywordPackage then .failed .keywordUses s
  else checkLock (.lockedUse x p) p s fun s =>
    match useConflict x p s with
    | some (here, there) => .failed (.useConflict x p here there) s
    | none => .done (s.relink p x (x :: (s.packages p).uses) (p :: (s.packages x).usedby))

def unusePackage (x p : ℕ) (s : State) : Result :=
  checkLock (.lockedUnuse x p) p s fun s =>
    .done (s.relink p x ((s.packages p).uses.filter (· ≠ x)) ((s.packages x).usedby.filter (· ≠ p)))

/-- The loops of cl_delete_package, over the packages p uses and over those that use p. -/
def unuseUses (p : ℕ) : ℕ → State → Result
  | 0, s => .done s
  | n + 1, s => match (s.packages p).uses with
    | [] => .done s
    | x :: _ => match unusePackage x p s with
      | .done s => unuseUses p n s
      | failed => failed

def unuseUsedby (p : ℕ) : ℕ → State → Result
  | 0, s => .done s
  | n + 1, s => match (s.packages p).usedby with
    | [] => .done s
    | q :: _ => match unusePackage p q s with
      | .done s => unuseUsedby p n s
      | failed => failed

def clearPackage (p : ℕ) (s : State) : State :=
  let pack := s.packages p
  let gone := pack.internal.entries ++ pack.external.entries
  let s := gone.foldl (fun s sym => s.removeHome sym p) s
  s.modify p fun pack => { pack with
    internal := .empty, external := .empty, shadowings := [], name := none }

def clDeletePackage (p : ℕ) (s : State) : Result :=
  checkLock (.lockedDelete p) p s fun s =>
    if p = lispPackage ∨ p = keywordPackage then .failed (.deleteSystem p) s
    else if (s.packages p).name = none then .done s
    else match unuseUses p (s.packages p).uses.length s with
      | .failed e s => .failed e s
      | .done s => match unuseUsedby p (s.packages p).usedby.length s with
        | .failed e s => .failed e s
        | .done s => .done (clearPackage p s)

inductive Op where
  | intern (name : String) (p : ℕ)
  | unintern (s : Symbol) (p : ℕ)
  | clExport (s : Symbol) (p : ℕ)
  | unexport (s : Symbol) (p : ℕ)
  | clImport (s : Symbol) (p : ℕ)
  | shadowingImport (s : Symbol) (p : ℕ)
  | shadow (name : String) (p : ℕ)
  | usePackage (x p : ℕ)
  | unusePackage (x p : ℕ)
  | deletePackage (p : ℕ)
  deriving DecidableEq

def step (s : State) : Op → Result
  | .intern name p => intern name p s
  | .unintern sym p => unintern sym p s
  | .clExport sym p => clExport2 sym p s
  | .unexport sym p => clUnexport2 sym p s
  | .clImport sym p => clImport2 sym p s
  | .shadowingImport sym p => shadowingImport sym p s
  | .shadow name p => shadow name p s
  | .usePackage x p => usePackage x p s
  | .unusePackage x p => unusePackage x p s
  | .deletePackage p => clDeletePackage p s

end Packages
