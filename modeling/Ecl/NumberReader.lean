import Ecl.Characters
import Mathlib.Algebra.Ring.Int.Defs
import Mathlib.Data.List.Basic

/-! Numbers in tokens, from src/c/reader/parse_number.d and src/c/reader/parse_integer.d.
Characters are codes: 43 is +, 45 is -, 46 is the dot and 47 the slash. Suffixes of the string
stand for the indices into it. -/
namespace NumberReader

open Characters

/-- The value of a float is kept as the arguments of make_float: a mantissa, a decimal exponent,
the exponent marker and a sign. -/
inductive Number where
  | integer (value : ℤ)
  | ratio (num den : ℤ)
  | float (num : ℕ) (exp : ℤ) (marker : ℕ) (sign : ℤ)
  deriving DecidableEq

/-- What ecl_parse_number returns, or the type error for an index beyond the string. -/
inductive Parsed where
  | objnull
  | nil
  | number (n : Number)
  | indexError
  deriving DecidableEq

/-- The string of a token: its buffer may be longer than the text, and keeps old characters. -/
structure TokenString where
  chars : List ℕ
  dim : ℕ
  stale : ℕ → ℕ

/-- ecl_char at the index i where rest begins. -/
def TokenString.charAt (s : TokenString) (rest : List ℕ) (i : ℕ) : Option ℕ :=
  match rest with
  | c :: _ => some c
  | [] => if i < s.dim then some (s.stale i) else none

def exponentCharp (c : ℕ) : Bool := c ∈ [101, 69, 102, 70, 115, 83, 100, 68, 108, 76]

def makeRatio (num den : ℤ) : Number := if den ∣ num then .integer (num / den) else .ratio num den

section
variable (ucd : Ucd)

/-- The loop of ecl_parse_integer. -/
def digitLoop (radix : ℕ) : List ℕ → ℕ → ℕ → ℕ × ℕ
  | [], value, i => (value, i)
  | c :: rest, value, i =>
    match ucd.digitp c radix with
    | none => (value, i)
    | some d => digitLoop radix rest (value * radix + d) (i + 1)

def integerFrom (radix : ℕ) (sign : ℤ) (digits : List ℕ) (start : ℕ) : Option ℤ × ℕ :=
  let (value, i) := digitLoop ucd radix digits 0 start
  (if i = start then none else some (sign * value), i)

def parseInteger (chars : List ℕ) (start radix : ℕ) : Option ℤ × ℕ :=
  match chars with
  | [] => (none, start)
  | c :: rest =>
    if 36 < radix then (none, start)
    else if c = 43 then integerFrom ucd radix 1 rest (start + 1)
    else if c = 45 then integerFrom ucd radix (-1) rest (start + 1)
    else integerFrom ucd radix 1 (c :: rest) start

/-- How one pass over the string ends: with a result, by going back to the start with
radix 10, or by trying radix 10 in a recursive call. -/
inductive Pass where
  | done (x : Parsed) (ep : ℕ)
  | again (someDigit : Bool)
  | tryDecimal
  deriving DecidableEq

/-- The loop of ecl_parse_number. -/
def scan (str : TokenString) (radix : ℕ) (sign : ℤ) :
    List ℕ → (i decimal num : ℕ) → (someDigit : Bool) → Pass
  | [], i, decimal, num, someDigit =>
    if !someDigit then .done .objnull i
    else if decimal < i then
      .done (.number (.float num ((decimal : ℤ) - i) 101 sign)) i
    else .done (.number (.integer (sign * num))) i
  | c :: rest, i, decimal, num, someDigit =>
    if c = 47 then
      if decimal < str.chars.length then .done .objnull i
      else match str.charAt rest (i + 1) with
        | none => .done .indexError (i + 1)
        | some c =>
          if ucd.digitp c radix = none then .done .objnull (i + 1)
          else match parseInteger ucd rest (i + 1) radix with
            | (none, ep) => .done .objnull ep
            | (some den, ep) =>
              if ep < str.chars.length then .done .objnull ep
              else if den = 0 then .done .nil ep
              else .done (.number (makeRatio (sign * num) den)) ep
    else if c = 46 then
      if decimal ≤ i then .done .objnull i
      else if radix ≠ 10 then .again someDigit
      else scan str radix sign rest (i + 1) (i + 1) num someDigit
    else match ucd.digitp c radix with
      | some d => scan str radix sign rest (i + 1) decimal (num * radix + d) true
      | none =>
        if exponentCharp c then
          if !someDigit then .done .objnull i
          else if radix ≠ 10 then .again someDigit
          else match parseInteger ucd rest (i + 1) 10 with
            | (none, ep) => .done .objnull ep
            | (some exp, ep) =>
              if ep < str.chars.length then .done .objnull ep
              else
                let decimals : ℤ := if decimal < i then (decimal : ℤ) - i else 0
                .done (.number (.float num (decimals + exp) c sign)) ep
        else if radix ≠ 10 then .tryDecimal
        else .done .objnull i

def afterSign (str : TokenString) (radix : ℕ) (someDigit : Bool) (sign : ℤ) (rest : List ℕ)
    (i : ℕ) : Pass :=
  match rest with
  | [] => .done .objnull i
  | c :: _ =>
    if c = 47 then .done .objnull i
    else scan ucd str radix sign rest i str.chars.length 0 someDigit

/-- The part after AGAIN. -/
def readPass (str : TokenString) (radix : ℕ) (someDigit : Bool) : Pass :=
  match str.chars with
  | [] => .done .objnull 0
  | c :: rest =>
    if c = 43 then afterSign ucd str radix someDigit 1 rest 1
    else if c = 45 then afterSign ucd str radix someDigit (-1) rest 1
    else afterSign ucd str radix someDigit 1 (c :: rest) 0

/-- A pass with radix 10, which neither goes back to the start nor makes the recursive call. -/
def decimalPass (str : TokenString) (someDigit : Bool) : Parsed × ℕ :=
  match readPass ucd str 10 someDigit with
  | .done x ep => (x, ep)
  | _ => (.objnull, 0)

/-- The recursive call counts when it read a float, or an integer with a dot at its end. -/
def keepDecimal (str : TokenString) : Parsed × ℕ → Parsed × ℕ
  | (.number (.float num exp marker sign), ep) => (.number (.float num exp marker sign), ep)
  | (.number (.integer value), ep) =>
    if 0 < ep ∧ str.chars[ep - 1]? = some 46 then (.number (.integer value), ep)
    else (.objnull, ep)
  | (.indexError, ep) => (.indexError, ep)
  | (_, ep) => (.objnull, ep)

/-- ecl_parse_number on the whole token. -/
def parseNumber (str : TokenString) (radix : ℕ) : Parsed × ℕ :=
  if str.chars = [] ∨ 36 < radix then (.objnull, 0)
  else match readPass ucd str radix false with
    | .done x ep => (x, ep)
    | .again someDigit => decimalPass ucd str someDigit
    | .tryDecimal => keepDecimal str (decimalPass ucd str false)

end

end NumberReader
