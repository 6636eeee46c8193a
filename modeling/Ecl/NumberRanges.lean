import Ecl.Runs
import Ecl.NumberReader
import Ecl.Rationals

/-! Numbers in a range of a string, from src/c/reader/parse_number.d and
src/c/reader/parse_integer.d: the loops over indices, with every index that ecl_char is given. -/
namespace NumberRanges

open Characters NumberReader AccessLogs Integers Rationals

/-- A float is kept as the arguments of make_float. -/
inductive Number where
  | rational (x : Rational)
  | float (num exp : Integer) (marker : ℕ) (sign : ℤ)
  deriving DecidableEq

inductive Parsed where
  | objnull
  | nil
  | number (num : Number)
  deriving DecidableEq

inductive Pass where
  | done (x : Parsed) (ep : ℕ)
  | again (someDigit : Bool)
  | tryDecimal
  deriving DecidableEq

/-- The buffer of a string; no dimension exceeds ECL_ARRAY_DIMENSION_LIMIT. -/
structure Buffer where
  chars : List ℕ
  bounded : (chars.length : ℤ) ≤ mostPositiveFixnum

/-- ecl_char looks at the whole buffer, beyond the fill pointer; it fails outside the buffer. -/
def charAt (str : List ℕ) (i : ℕ) : Logged ℕ ℕ := Logged.read (fun j => str[j]?) i

section
variable (ucd : Ucd) (str : List ℕ)

/-- The loop of ecl_parse_integer over the n characters from i on. -/
def digitLoop (radix : ℕ) : (n i value : ℕ) → Logged ℕ (ℕ × ℕ)
  | 0, i, value => pure (value, i)
  | n + 1, i, value => do
    let c ← charAt str i
    match ucd.digitp c radix with
    | none => pure (value, i)
    | some d => digitLoop radix n (i + 1) (value * radix + d)

def integerFrom (stop radix : ℕ) (sign : ℤ) (start : ℕ) : Logged ℕ (Option Integer × ℕ) := do
  let (value, i) ← digitLoop ucd str radix (stop - start) start 0
  pure (if i = start then none else some (bigNormalize (sign * value)), i)

def parseInteger (start stop radix : ℕ) : Logged ℕ (Option Integer × ℕ) :=
  if stop ≤ start ∨ 36 < radix then pure (none, start)
  else do
    let c ← charAt str start
    if c = 43 then integerFrom ucd str stop radix 1 (start + 1)
    else if c = 45 then integerFrom ucd str stop radix (-1) (start + 1)
    else integerFrom ucd str stop radix 1 start

/-- The part of the loop of ecl_parse_number for a slash at i. -/
def scanRatio (stop radix : ℕ) (sign : ℤ) (i num : ℕ) : Logged ℕ Pass := do
  let c ← charAt str (i + 1)
  if ucd.digitp c radix = none then pure (.done .objnull (i + 1))
  else
    match ← parseInteger ucd str (i + 1) stop radix with
    | (none, ep) => pure (.done .objnull ep)
    | (some den, ep) =>
      if ep < stop then pure (.done .objnull ep)
      else if den = makeFixnum 0 then pure (.done .nil ep)
      else
        match makeRatio (bigNormalize (sign * num)) den with
        | .ok x => pure (.done (.number (.rational x)) ep)
        | .error _ => Logged.fail

def scanExponent (stop marker : ℕ) (sign : ℤ) (i decimal num : ℕ) : Logged ℕ Pass := do
  match ← parseInteger ucd str (i + 1) stop 10 with
  | (none, ep) => pure (.done .objnull ep)
  | (some exp, ep) =>
    if ep < stop then pure (.done .objnull ep)
    else
      let decimals := makeFixnum (if decimal < i then (decimal : ℤ) - i else 0)
      pure (.done (.number (.float (bigNormalize num) (plus decimals exp) marker sign)) ep)

/-- The loop of ecl_parse_number over the n characters from i on. -/
def scan (stop radix : ℕ) (sign : ℤ) :
    (n i decimal num : ℕ) → (someDigit : Bool) → Logged ℕ Pass
  | 0, i, decimal, num, someDigit =>
    if !someDigit then pure (.done .objnull i)
    else if decimal < i then
      pure (.done (.number
        (.float (bigNormalize num) (makeFixnum ((decimal : ℤ) - i)) 101 sign)) i)
    else pure (.done (.number (.rational (.integer (bigNormalize (sign * num))))) i)
  | n + 1, i, decimal, num, someDigit => do
    let c ← charAt str i
    if c = 47 then
      if decimal < stop then pure (.done .objnull i)
      else scanRatio ucd str stop radix sign i num
    else if c = 46 then
      if decimal ≤ i then pure (.done .objnull i)
      else if radix ≠ 10 then pure (.again someDigit)
      else scan stop radix sign n (i + 1) (i + 1) num someDigit
    else
      match ucd.digitp c radix with
      | some d => scan stop radix sign n (i + 1) decimal (num * radix + d) true
      | none =>
        if exponentCharp c then
          if !someDigit then pure (.done .objnull i)
          else if radix ≠ 10 then pure (.again someDigit)
          else scanExponent ucd str stop c sign i decimal num
        else if radix ≠ 10 then pure .tryDecimal
        else pure (.done .objnull i)

def afterSign (stop radix : ℕ) (someDigit : Bool) (sign : ℤ) (i c : ℕ) : Logged ℕ Pass :=
  if c = 47 then pure (.done .objnull i)
  else scan ucd str stop radix sign (stop - i) i stop 0 someDigit

def signed (stop radix : ℕ) (someDigit : Bool) (sign : ℤ) (i : ℕ) : Logged ℕ Pass :=
  if i = stop then pure (.done .objnull i)
  else do
    let c ← charAt str i
    afterSign ucd str stop radix someDigit sign i c

/-- The part after AGAIN. -/
def readPass (start stop radix : ℕ) (someDigit : Bool) : Logged ℕ Pass := do
  let c ← charAt str start
  if c = 43 then signed ucd str stop radix someDigit 1 (start + 1)
  else if c = 45 then signed ucd str stop radix someDigit (-1) (start + 1)
  else afterSign ucd str stop radix someDigit 1 start c

def keepDecimal (start : ℕ) (num : Number) (ep : ℕ) : Logged ℕ (Option (Parsed × ℕ)) :=
  match num with
  | .float num exp marker sign => pure (some (.number (.float num exp marker sign), ep))
  | .rational (.integer value) =>
    if start < ep then do
      let c ← charAt str (ep - 1)
      pure (some (if c = 46 then .number (.rational (.integer value)) else .objnull, ep))
    else pure (some (.objnull, ep))
  | .rational (.ratio _ _) => pure (some (.objnull, ep))

/-- The passes over the string, at most fuel of them: none is for a pass too many. Going back
to AGAIN keeps some_digit, a recursive call does not. -/
def passes (start stop : ℕ) : (fuel radix : ℕ) → Bool → Logged ℕ (Option (Parsed × ℕ))
  | 0, _, _ => pure none
  | fuel + 1, radix, someDigit => do
    match ← readPass ucd str start stop radix someDigit with
    | .done x ep => pure (some (x, ep))
    | .again someDigit => passes start stop fuel 10 someDigit
    | .tryDecimal =>
      match ← passes start stop fuel 10 false with
      | some (.number num, ep) => keepDecimal str start num ep
      | some (_, ep) => pure (some (.objnull, ep))
      | none => pure none

/-- ecl_parse_number on the characters from start up to stop: the result and *ep. -/
def parseNumber (fuel start stop radix : ℕ) : Logged ℕ (Option (Parsed × ℕ)) :=
  if stop ≤ start ∨ 36 < radix then pure (some (.objnull, start))
  else passes ucd str start stop fuel radix false

end

end NumberRanges
