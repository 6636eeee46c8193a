import Ecl.NumberReader
import Ecl.SymbolPrinter

/-! Tokens and their meaning, from src/c/reader.d and src/c/reader/parse_token.d. The loops that
read characters are one transition for each character; the mode says where in them the
reader is. -/
namespace SymbolReader

open Characters NumberReader SymbolPrinter

inductive ReadError where
  | endOfFile
  | invalidCharacter (c : ℕ)
  | unexpectedColon
  | noPackage (name : List ℕ)
  | dotIllegal
  | dotsIllegal
  | numberSyntax (string : List ℕ)
  | notExternal (name : List ℕ) (package : ℕ)
  | index
  deriving DecidableEq

/-- _ecl_string_push_extend. -/
def pushExtend (s : TokenString) (c : ℕ) : TokenString where
  chars := s.chars ++ [c]
  dim := if s.dim ≤ s.chars.length then s.dim + s.dim / 2 + 1 else s.dim
  stale := s.stale

inductive Mode where
  | normal
  | single
  | multiple (start : ℕ)
  | multipleSingle (start : ℕ)
  deriving DecidableEq

/-- The token under construction; escape has the limits of the escaped parts, upcase and count
are about the letters outside them. -/
structure TokenState where
  string : TokenString
  escape : List (ℕ × ℕ)
  upcase : ℤ
  count : ℕ
  mode : Mode

inductive Progress where
  | more (st : TokenState)
  | stop
  | fail (e : ReadError)

section
variable (ucd : Ucd) (readCase : ReadtableCase)

def TokenState.push (st : TokenState) (c : ℕ) : TokenState :=
  { st with string := pushExtend st.string c }

/-- A character outside the escapes, in the case that the readtable asks for. -/
def TokenState.pushCase (st : TokenState) (c : ℕ) : TokenState :=
  if readCase = .preserve then st.push c
  else if ucd.upperCaseP c then
    { st with upcase := st.upcase + 1, count := st.count + 1 }.push
      (if readCase = ReadtableCase.downcase then ucd.charDowncase c else c)
  else if ucd.lowerCaseP c then
    { st with upcase := st.upcase - 1, count := st.count + 1 }.push
      (if readCase = ReadtableCase.upcase then ucd.charUpcase c else c)
  else st.push c

def readChar (st : TokenState) (c : ℕ) : Progress :=
  let length := st.string.chars.length
  match st.mode with
  | .single =>
    .more { st.push c with
      escape := st.escape ++ [(length, length + 1)]
      mode := .normal }
  | .multiple start =>
    match readtableGet c with
    | .singleEscape => .more { st with mode := .multipleSingle start }
    | .multipleEscape =>
      .more { st with
        escape := st.escape ++ [(start, length)]
        mode := .normal }
    | _ => .more (st.push c)
  | .multipleSingle start => .more { st.push c with mode := .multiple start }
  | .normal =>
    match readtableGet c with
    | .singleEscape => .more { st with mode := .single }
    | .multipleEscape => .more { st with mode := .multiple length }
    | .whitespace => .stop
    | .terminating => .stop
    | _ => if invalidCharacterP c then .fail (.invalidCharacter c)
      else .more (st.pushCase ucd readCase c)

def readChars : List ℕ → TokenState → Except ReadError (TokenState × List ℕ)
  | [], st => if st.mode = .normal then .ok (st, []) else .error .endOfFile
  | c :: rest, st =>
    match readChar ucd readCase st c with
    | .more st => readChars rest st
    | .stop => .ok (st, c :: rest)
    | .fail e => .error e

structure Token where
  string : TokenString
  escape : List (ℕ × ℕ)

def Token.escaped (t : Token) : Bool := !t.escape.isEmpty

/-- The parts that loop_across_token goes through. -/
def runs : ℕ → List (ℕ × ℕ) → ℕ → List (ℕ × ℕ)
  | index, [], fillp => [(index, fillp)]
  | index, (low, high) :: escape, fillp => (index, low) :: runs high escape fillp

def Token.runs (t : Token) : List (ℕ × ℕ) := SymbolReader.runs 0 t.escape t.string.chars.length

def invertChar (sign : ℤ) (c : ℕ) : ℕ :=
  if ucd.upperCaseP c ∧ sign < 0 then ucd.charDowncase c
  else if ucd.lowerCaseP c ∧ 0 < sign then ucd.charUpcase c
  else c

def Token.unescaped (t : Token) (index : ℕ) : Bool :=
  t.runs.any fun run => run.1 ≤ index && index < run.2

def invertBufferCase (t : Token) (sign : ℤ) : Token where
  string := { t.string with
    chars := t.string.chars.mapIdx fun i c => if t.unescaped i then invertChar ucd sign c else c }
  escape := t.escape

/-- ecl_read_token on a buffer of the pool. -/
def readToken (buffer : TokenString) (input : List ℕ) : Except ReadError (Token × List ℕ) :=
  match readChars ucd readCase input ⟨{ buffer with chars := [] }, [], 0, 0, .normal⟩ with
  | .error e => .error e
  | .ok (st, rest) =>
    let token : Token := ⟨st.string, st.escape⟩
    if readCase = .invert ∧ st.count ≠ 0 then
      if st.upcase = st.count then .ok (invertBufferCase ucd token (-1), rest)
      else if st.upcase = -st.count then .ok (invertBufferCase ucd token 1, rest)
      else .ok (token, rest)
    else .ok (token, rest)

end

/-- sym_start, pack_end and external_symbol; a start of 0 means that no colon was seen. -/
structure Markers where
  symStart : ℕ
  packEnd : ℕ
  external : Bool
  deriving DecidableEq

/-- The loop over an unescaped part. One colon also takes the character after it. -/
def scanRun : List ℕ → ℕ → Markers → Except ReadError Markers
  | [], _, m => .ok m
  | [c], index, m =>
    if c ≠ 58 then .ok m
    else if m.symStart ≠ 0 then .error .unexpectedColon
    else .ok ⟨index + 1, index, true⟩
  | c :: next :: rest, index, m =>
    if c ≠ 58 then scanRun (next :: rest) (index + 1) m
    else if m.symStart ≠ 0 then .error .unexpectedColon
    else if next = 58 then scanRun rest (index + 2) ⟨index + 2, index, false⟩
    else scanRun rest (index + 2) ⟨index + 1, index, true⟩

def scanRuns (chars : List ℕ) : List (ℕ × ℕ) → Markers → Except ReadError Markers
  | [], m => .ok m
  | (index, limit) :: runs, m =>
    match scanRun ((chars.take limit).drop index) index m with
    | .error e => .error e
    | .ok m => scanRuns chars runs m

/-- What the reader returns. A name that is not found goes to ecl_intern, which makes a symbol
or complains about a package lock. -/
inductive Outcome (Sym : Type) where
  | number (n : Number)
  | symbol (x : Sym)
  | intern (name : List ℕ) (package : ℕ)
  | dot
  | readMacro (c : ℕ)

section
variable {Sym : Type} (ucd : Ucd) (w : World Sym) (readBase : ℕ)

/-- The part at SYMBOL. -/
def parseSymbol (chars : List ℕ) (m : Markers) (package : Option ℕ) :
    Except ReadError (Outcome Sym) :=
  let name := chars.drop m.symStart
  let package := package.getD w.currentPackage
  match w.findSymbol name package with
  | some (x, flag) =>
    if m.external && flag ≠ .external then .error (.notExternal name package)
    else .ok (.symbol x)
  | none =>
    if m.external then .error (.notExternal name package)
    else .ok (.intern name package)

/-- The part at MAYBE_NUMBER, with the special cases of dots before it. -/
def parseUnmarked (listDot : Bool) (string : TokenString) (m : Markers) :
    Except ReadError (Outcome Sym) :=
  if string.chars = [46] then if listDot then .ok .dot else .error .dotIllegal
  else if allDots string.chars then .error .dotsIllegal
  else if readBase ≤ 10 ∧ string.chars.head?.any ucd.alphaCharP then
    parseSymbol w string.chars m none
  else match parseNumber ucd string readBase with
    | (.indexError, _) => .error .index
    | (.nil, _) => .error (.numberSyntax string.chars)
    | (.number n, ep) =>
      if ep = string.chars.length then .ok (.number n) else parseSymbol w string.chars m none
    | (.objnull, _) => parseSymbol w string.chars m none

/-- ecl_parse_token. Packages still to be created exist only while a compiled file is loaded
and are left out. -/
def parseToken (listDot : Bool) (t : Token) : Except ReadError (Outcome Sym) :=
  match scanRuns t.string.chars t.runs ⟨0, 0, false⟩ with
  | .error e => .error e
  | .ok m =>
    let chars := t.string.chars
    if m.symStart ≠ 0 then
      if m.packEnd = 0 then
        parseSymbol w chars { m with external := false } (some w.keywordPackage)
      else match w.findPackage (chars.take m.packEnd) with
        | none => .error (.noPackage (chars.take m.packEnd))
        | some package => parseSymbol w chars m (some package)
    else if t.escaped || chars.isEmpty then parseSymbol w chars m none
    else parseUnmarked ucd w readBase listDot t.string m

variable (readCase : ReadtableCase)

/-- ecl_read_object on a stream with these characters: white space, then a macro character or
a token. -/
def readObject (buffer : TokenString) : List ℕ → Except ReadError (Outcome Sym)
  | [] => .error .endOfFile
  | c :: rest =>
    match readtableGet c with
    | .whitespace => readObject buffer rest
    | .terminating => .ok (.readMacro c)
    | .nonTerminating => .ok (.readMacro c)
    | _ => match readToken ucd readCase buffer (c :: rest) with
      | .error e => .error e
      | .ok (token, _) => parseToken ucd w readBase false token

end

end SymbolReader
