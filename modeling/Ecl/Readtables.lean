import Ecl.Characters
import Mathlib.Logic.Function.Basic

/-! Readtables of src/c/read.d and src/c/reader.d. Readtables, their hash tables for characters
outside the direct table, and the tables of dispatch macro characters are objects in a store,
so that two readtables may have one of them in common. Hash tables are finite maps. -/
namespace Readtables

open Characters

/-- RTABSIZE. -/
def rtabSize : ℕ := 256

/-- struct ecl_readtable_entry, or the list that stands for it in the hash table; none is NIL,
and the table is the address of a dispatch table. -/
structure Entry (F : Type) where
  syntaxType : Syntax
  macroFn : Option F
  table : Option ℕ
  deriving DecidableEq

inductive ReadCase where
  | upcase | downcase | invert | preserve
  deriving DecidableEq

structure Readtable (F : Type) where
  locked : Bool
  readCase : ReadCase
  table : ℕ → Entry F
  hash : Option ℕ

structure Store (F : Type) where
  readtables : ℕ → Readtable F
  hashes : ℕ → ℕ → Option (Entry F)
  dispatch : ℕ → ℕ → Option F
  next : ℕ

inductive ReadtableError where
  | locked (rt : ℕ)
  | notDispatch (c : ℕ)
  deriving DecidableEq

variable {F : Type}

def Entry.constituent : Entry F := ⟨.constituent, none, none⟩

/-- ecl_readtable_get. -/
def readtableGet (rt c : ℕ) (s : Store F) : Entry F :=
  if rtabSize ≤ c then
    ((s.readtables rt).hash.bind fun h => s.hashes h c).getD .constituent
  else (s.readtables rt).table c

def Store.modify (s : Store F) (rt : ℕ) (f : Readtable F → Readtable F) : Store F :=
  { s with readtables := Function.update s.readtables rt (f (s.readtables rt)) }

/-- ecl_readtable_set. -/
def readtableSet (rt c : ℕ) (e : Entry F) (s : Store F) : Store F :=
  if rtabSize ≤ c then
    match (s.readtables rt).hash with
    | some h => { s with
        hashes := Function.update s.hashes h (Function.update (s.hashes h) c (some e)) }
    | none => { s.modify rt fun r => { r with hash := some s.next } with
        hashes := Function.update s.hashes s.next (Function.update (fun _ => none) c (some e))
        next := s.next + 1 }
  else s.modify rt fun r => { r with table := Function.update r.table c e }

section copy

/-- si_copy_hash_table on the dispatch table of an entry. -/
def copyEntry (e : Entry F) (s : Store F) : Entry F × Store F :=
  match e.table with
  | none => (e, s)
  | some d => ({ e with table := some s.next }, { s with
      dispatch := Function.update s.dispatch s.next (s.dispatch d)
      next := s.next + 1 })

/-- The loop over the direct table. -/
def copyDirect (fromTable : ℕ → Entry F) :
    List ℕ → (ℕ → Entry F) → Store F → (ℕ → Entry F) × Store F
  | [], toTable, s => (toTable, s)
  | i :: is, toTable, s =>
    let (e, s) := copyEntry (fromTable i) s
    copyDirect fromTable is (Function.update toTable i e) s

/-- si_copy_hash_table on the table of the other characters. -/
def copyHash (hash : Option ℕ) (s : Store F) : Option ℕ × Store F :=
  match hash with
  | none => (none, s)
  | some h => (some s.next, { s with
      hashes := Function.update s.hashes s.next (s.hashes h)
      next := s.next + 1 })

/-- ecl_copy_readtable; the result is to, or a new readtable. -/
def copyReadtable (source : ℕ) (target : Option ℕ) (s : Store F) : ℕ × Store F :=
  let r := s.readtables source
  let (table, s) := copyDirect r.table (List.range rtabSize) r.table s
  let (hash, s) := copyHash r.hash s
  let output : Readtable F := ⟨false, r.readCase, table, hash⟩
  match target with
  | some rt => (rt, s.modify rt fun _ => output)
  | none => (s.next, { s.modify s.next fun _ => output with next := s.next + 1 })

end copy

section operations

-- the function of all dispatch macro characters, and the tables of Unicode
variable (dispatchReader : F) (ucd : Ucd)

def unlessLocked (rt : ℕ) (s : Store F) (s' : Store F) : Except ReadtableError (Store F) :=
  if (s.readtables rt).locked then .error (.locked rt) else .ok s'

def setMacroCharacter (c : ℕ) (function : Option F) (nonTerminating : Bool) (rt : ℕ)
    (s : Store F) : Except ReadtableError (Store F) :=
  unlessLocked rt s (readtableSet rt c
    ⟨if nonTerminating then .nonTerminating else .terminating, function, none⟩ s)

def setSyntaxFromChar (toChr fromChr toRt fromRt : ℕ) (s : Store F) :
    Except ReadtableError (Store F) :=
  let (e, s') := copyEntry (readtableGet fromRt fromChr s) s
  unlessLocked toRt s (readtableSet toRt toChr e s')

def makeDispatchMacroCharacter (c : ℕ) (nonTerminating : Bool) (rt : ℕ) (s : Store F) :
    Except ReadtableError (Store F) :=
  unlessLocked rt s (readtableSet rt c
    ⟨if nonTerminating then .nonTerminating else .terminating, some dispatchReader, some s.next⟩
    { s with
      dispatch := Function.update s.dispatch s.next fun _ => none
      next := s.next + 1 })

def otherCase (c : ℕ) : ℕ :=
  if ucd.lowerCaseP c then ucd.charUpcase c
  else if ucd.upperCaseP c then ucd.charDowncase c
  else c

/-- remhash for NIL, sethash otherwise, on the character and on its other case. -/
def enterFunction (subcode : ℕ) (function : Option F) (table : ℕ → Option F) : ℕ → Option F :=
  Function.update (Function.update table subcode function) (otherCase ucd subcode) function

def setDispatchMacroCharacter (c subcode : ℕ) (function : Option F) (rt : ℕ) (s : Store F) :
    Except ReadtableError (Store F) :=
  if (s.readtables rt).locked then .error (.locked rt)
  else match (readtableGet rt c s).table with
    | none => .error (.notDispatch c)
    | some d => .ok { s with
        dispatch := Function.update s.dispatch d (enterFunction ucd subcode function (s.dispatch d)) }

def getDispatchMacroCharacter (c subcode rt : ℕ) (s : Store F) :
    Except ReadtableError (Option F) :=
  match (readtableGet rt c s).table with
  | none => .error (.notDispatch c)
  | some d => if (ucd.digitp subcode 10).isSome then .ok none else .ok (s.dispatch d subcode)

def readtableLock (rt : ℕ) (yesno : Bool) (s : Store F) : Store F :=
  s.modify rt fun r => { r with locked := yesno }

def readtableCaseSet (rt : ℕ) (mode : ReadCase) (s : Store F) : Except ReadtableError (Store F) :=
  unlessLocked rt s (s.modify rt fun r => { r with readCase := mode })

inductive Op (F : Type) where
  | setSyntaxFromChar (toChr fromChr toRt fromRt : ℕ)
  | setMacroCharacter (c : ℕ) (function : Option F) (nonTerminating : Bool) (rt : ℕ)
  | makeDispatchMacroCharacter (c : ℕ) (nonTerminating : Bool) (rt : ℕ)
  | setDispatchMacroCharacter (c subcode : ℕ) (function : Option F) (rt : ℕ)
  | readtableCaseSet (rt : ℕ) (mode : ReadCase)
  | readtableLock (rt : ℕ) (yesno : Bool)
  | copyReadtable (source : ℕ) (target : Option ℕ)

def call (s : Store F) : Op F → Except ReadtableError (Store F)
  | .setSyntaxFromChar toChr fromChr toRt fromRt => setSyntaxFromChar toChr fromChr toRt fromRt s
  | .setMacroCharacter c function nonTerminating rt => setMacroCharacter c function nonTerminating rt s
  | .makeDispatchMacroCharacter c nonTerminating rt =>
    makeDispatchMacroCharacter dispatchReader c nonTerminating rt s
  | .setDispatchMacroCharacter c subcode function rt =>
    setDispatchMacroCharacter ucd c subcode function rt s
  | .readtableCaseSet rt mode => readtableCaseSet rt mode s
  | .readtableLock rt yesno => .ok (readtableLock rt yesno s)
  | .copyReadtable source target => .ok (copyReadtable source target s).2

/-- An operation that signals an error changes nothing. -/
def step (s : Store F) (op : Op F) : Store F :=
  match call dispatchReader ucd s op with
  | .ok s' => s'
  | .error _ => s

def run (s : Store F) (ops : List (Op F)) : Store F := ops.foldl (step dispatchReader ucd) s

/-- One readtable in which every character is a constituent, from which the standard readtable
is made by further operations. -/
def blank : Store F where
  readtables _ := ⟨false, .upcase, fun _ => .constituent, none⟩
  hashes _ _ := none
  dispatch _ _ := none
  next := 1

end operations

end Readtables
