import Ecl.Characters
import Mathlib.Algebra.Ring.Int.Defs
import Mathlib.Data.List.Basic

/-! The printer of symbols, from src/c/printer/write_symbol.d, and the parts of src/c/package.d
that printer and reader share. Characters are codes: 43 +, 45 -, 46 dot, 47 slash, 58 colon,
92 backslash, 94 ^, 95 _ and 124 |. -/
namespace SymbolPrinter

open Characters

inductive PrintCase where
  | upcase | downcase | capitalize
  deriving DecidableEq

inductive InternFlag where
  | internal | external | inherited
  deriving DecidableEq

structure Package where
  name : List ℕ
  nicknames : List (List ℕ)
  localNicknames : List (List ℕ × ℕ)

/-- The symbols and packages; findSymbol is ecl_find_symbol, with none for the flag 0. -/
structure World (Sym : Type) where
  name : Sym → List ℕ
  hpack : Sym → Option ℕ
  nil : Sym
  packages : List ℕ
  package : ℕ → Package
  keywordPackage : ℕ
  currentPackage : ℕ
  findSymbol : List ℕ → ℕ → Option (Sym × InternFlag)

/-- ecl_find_package_nolock on a string. -/
def World.findPackage {Sym : Type} (w : World Sym) (name : List ℕ) : Option ℕ :=
  match (w.package w.currentPackage).localNicknames.lookup name with
  | some p => some p
  | none => w.packages.find? fun p =>
    decide ((w.package p).name = name) || decide (name ∈ (w.package p).nicknames)

structure PrintSettings where
  readCase : ReadtableCase
  printCase : PrintCase
  printBase : ℕ
  printEscape : Bool
  printReadably : Bool
  printGensym : Bool
  printPackage : Option ℕ
  bufferSize : ℕ

inductive PrintError where
  | cannotPrint
  | pathological
  deriving DecidableEq

section
variable (ucd : Ucd)

/-- The loop of potential_number_p over the characters after the first. -/
def potentialRest (base : ℕ) : List ℕ → Bool → Bool
  | [], someDigit => someDigit
  | c :: rest, someDigit =>
    if (ucd.digitp c base).isSome then potentialRest base rest true
    else if c ∈ [43, 45, 47, 46, 94, 95] then potentialRest base rest someDigit
    else if ucd.alphaCharP c && !(rest.head?.any ucd.alphaCharP) then
      potentialRest base rest someDigit
    else false

def potentialNumberP (base : ℕ) (s : List ℕ) : Bool :=
  match s with
  | [] => false
  | c :: rest =>
    let someDigit := (ucd.digitp c base).isSome
    if !someDigit && c ∉ [43, 45, 94, 95] then false
    else if s.getLast? ∈ [some 43, some 45] then false
    else potentialRest ucd base rest someDigit

/-- ecl_string_case: 1 for capitals only, -1 for small letters only. -/
def stringCase : List ℕ → ℤ → ℤ
  | [], upcase => upcase
  | c :: rest, upcase =>
    if ucd.upperCaseP c then if upcase < 0 then 0 else stringCase rest 1
    else if ucd.lowerCaseP c then if 0 < upcase then 0 else stringCase rest (-1)
    else stringCase rest upcase

def needsToBeInverted (s : List ℕ) : Bool := stringCase ucd s 0 ≠ 0

def allDots (s : List ℕ) : Bool := s.all (· = 46)

def needsToBeEscaped (st : PrintSettings) (s : List ℕ) : Bool :=
  potentialNumberP ucd st.printBase s ||
    s.any fun c => readtableGet c ≠ .constituent || invalidCharacterP c || c = 58 ||
      (st.readCase = .downcase && ucd.upperCaseP c) || ucd.lowerCaseP c

structure Buffer where
  stream : List ℕ
  pending : List ℕ

def Buffer.writeChar (size : ℕ) (b : Buffer) (c : ℕ) : Buffer :=
  if size ≤ b.pending.length + 1 then ⟨b.stream ++ (b.pending ++ [c]), []⟩
  else ⟨b.stream, b.pending ++ [c]⟩

/-- One character in the case to print it, and whether the next one begins a word. -/
def printChar (action : ReadtableCase) (printCase : PrintCase) (capitalize : Bool) (c : ℕ) :
    ℕ × Bool :=
  if ucd.upperCaseP c then
    if action = .invert ∨ action = .upcase ∧
        (printCase = .downcase ∨ printCase = .capitalize ∧ !capitalize) then
      (ucd.charDowncase c, false)
    else (c, false)
  else if ucd.lowerCaseP c then
    if action = .invert ∨ action = .downcase ∧
        (printCase = .upcase ∨ printCase = .capitalize ∧ capitalize) then
      (ucd.charUpcase c, false)
    else (c, false)
  else (c, !ucd.alphanumericp c)

def writeChars (size : ℕ) (action : ReadtableCase) (printCase : PrintCase) (escape : Bool) :
    List ℕ → Bool → Buffer → Buffer
  | [], _, b => b
  | c :: rest, capitalize, b =>
    if escape then
      let b := if c = 124 ∨ c = 92 then b.writeChar size 92 else b
      writeChars size action printCase escape rest capitalize (b.writeChar size c)
    else if action = .preserve then
      writeChars size action printCase escape rest capitalize (b.writeChar size c)
    else
      let (c, capitalize) := printChar ucd action printCase capitalize c
      writeChars size action printCase escape rest capitalize (b.writeChar size c)

def writeSymbolString (st : PrintSettings) (s : List ℕ) (escape : Bool) (stream : List ℕ) :
    List ℕ :=
  let action :=
    if st.readCase = .invert ∧ ¬ needsToBeInverted ucd s then .preserve else st.readCase
  let size := st.bufferSize
  let b : Buffer := ⟨stream, []⟩
  let b := if escape then b.writeChar size 124 else b
  let b := writeChars ucd size action st.printCase escape s true b
  let b := if escape then b.writeChar size 124 else b
  b.stream ++ b.pending

def forcedPrintPackage (st : PrintSettings) (package : ℕ) : Bool :=
  st.printPackage ≠ none && st.printPackage ≠ some package

variable {Sym : Type} [DecidableEq Sym]

def writePackage (w : World Sym) (st : PrintSettings) (x : Sym) (package : ℕ) (forced : Bool)
    (stream : List ℕ) : Except PrintError (List ℕ) :=
  let name := (w.package package).name
  let stream := writeSymbolString ucd st name (needsToBeEscaped ucd st name) stream
  match w.findSymbol (w.name x) package with
  | none =>
    if x ≠ w.nil then .error .cannotPrint
    else if forced then .ok (stream ++ [58, 58])
    else .error .pathological
  | some (y, flag) =>
    if y ≠ x then .error .cannotPrint
    else if flag = .internal ∨ forced then .ok (stream ++ [58, 58])
    else if flag = .external then .ok (stream ++ [58])
    else .error .pathological

/-- _ecl_write_symbol. -/
def writeSymbol (w : World Sym) (st : PrintSettings) (x : Sym) (stream : List ℕ) :
    Except PrintError (List ℕ) :=
  let name := w.name x
  if !st.printReadably && !st.printEscape then
    .ok (writeSymbolString ucd st name false stream)
  else do
    let stream ← match w.hpack x with
      | none => .ok (if st.printReadably || st.printGensym then stream ++ [35, 58] else stream)
      | some package =>
        if package = w.keywordPackage then .ok (stream ++ [58])
        else
          let forced := forcedPrintPackage st package
          let accessible := match w.findSymbol name w.currentPackage with
            | some (y, _) => decide (y = x)
            | none => false
          if forced || !accessible then writePackage ucd w st x package forced stream
          else .ok stream
    .ok (writeSymbolString ucd st name (needsToBeEscaped ucd st name || allDots name) stream)

end

end SymbolPrinter
