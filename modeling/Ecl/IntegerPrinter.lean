import Ecl.NumberRangeRefinement
import Mathlib.Data.Nat.Digits.Defs

/-! si_integer_to_string of src/c/printer/integer_to_string.d. A buffer is the text in it up to
the fill pointer; it grows as it is pushed to. -/
namespace IntegerPrinter

open Characters Integers NumberSyntax

inductive PrintError where
  | wrongBase (base : ℤ)
  deriving DecidableEq

def digitChar (upper : Bool) (d : ℕ) : ℕ :=
  if d < 10 then 48 + d else (if upper then 65 else 97) + (d - 10)

/-- mpz_get_str of GMP. A negative base asks for capital letters. -/
def mpzGetStr (base x : ℤ) : List ℕ :=
  let digits := if x = 0 then [0] else (Nat.digits base.natAbs x.natAbs).reverse
  (if x < 0 then [45] else []) ++ digits.map (digitChar (base < 0))

/-- bignum_to_string. -/
def bignumToString (buffer : List ℕ) (x base : ℤ) : Except PrintError (List ℕ) :=
  if base < 2 ∨ 36 < base then .error (.wrongBase base) else .ok (buffer ++ mpzGetStr (-base) x)

/-- write_base_prefix. -/
def basePrefix (base : ℕ) : List ℕ :=
  if base = 2 then [35, 98]
  else if base = 8 then [35, 111]
  else if base = 16 then [35, 120]
  else if 10 ≤ base then [35, base / 10 + 48, base % 10 + 48, 114]
  else [35, base + 48, 114]

def siIntegerToString (buffer : List ℕ) (integer : Integer) (base : ℕ) (radix decimalp : Bool) :
    Except PrintError (List ℕ) := do
  if radix then
    let buffer := if !decimalp || base ≠ 10 then buffer ++ basePrefix base else buffer
    let buffer ← bignumToString buffer integer.value base
    return if decimalp && base = 10 then buffer ++ [46] else buffer
  else bignumToString buffer integer.value base

def signText (n : ℤ) : List ℕ := if n < 0 then [45] else []

def places (base : ℕ) (n : ℤ) : List ℕ := if n = 0 then [0] else (Nat.digits base n.natAbs).reverse

def digitText (base : ℕ) (n : ℤ) : List ℕ := (places base n).map (digitChar true)

section
variable {base : ℕ} {n : ℤ} {ucd : Ucd}

theorem mpzGetStr_eq (hbase : 2 ≤ base) (n : ℤ) :
    mpzGetStr (-base) n = signText n ++ digitText base n := by
  have hneg : (-base : ℤ) < 0 := by omega
  simp only [mpzGetStr, Int.natAbs_neg, Int.natAbs_natCast, hneg, decide_true]
  rfl

theorem bignumToString_eq (hbase : 2 ≤ base) (hlimit : base ≤ 36) (buffer : List ℕ) (n : ℤ) :
    bignumToString buffer n base = .ok (buffer ++ (signText n ++ digitText base n)) := by
  rw [bignumToString, if_neg (by omega), mpzGetStr_eq hbase]

theorem sign_signText (n : ℤ) : Sign (signText n) := by
  unfold signText
  split
  · exact .inr (.inr rfl)
  · exact .inl rfl

theorem signOf_signText (n : ℤ) : signOf (signText n) * (n.natAbs : ℤ) = n := by
  unfold signText signOf
  split
  · rw [if_pos rfl]
    omega
  · rw [if_neg (by simp)]
    omega

theorem digitp_digitChar (ucd : Ucd) {d : ℕ} (hd : d < base) (hlimit : base ≤ 36) :
    ucd.digitp (digitChar true d) base = some d := by
  unfold digitChar Ucd.digitp
  split
  · rw [if_pos (by omega)]
    congr 1
    omega
  · rw [if_pos rfl, if_neg (by omega), if_pos (by omega)]
    congr 1
    omega

theorem digits_map {l : List ℕ} (hl : ∀ d ∈ l, d < base) (hlimit : base ≤ 36) :
    Digits ucd base (l.map (digitChar true)) := by
  intro c hc
  obtain ⟨d, hd, rfl⟩ := List.mem_map.mp hc
  rw [digitp_digitChar ucd (hl d hd) hlimit]
  rfl

theorem digitsFrom_map {l : List ℕ} (hl : ∀ d ∈ l, d < base) (hlimit : base ≤ 36) (v : ℕ) :
    digitsFrom ucd base v (l.map (digitChar true)) = l.foldl (fun v d => v * base + d) v := by
  induction l generalizing v with
  | nil => rfl
  | cons d l ih =>
    have hhead := digitp_digitChar ucd (hl d List.mem_cons_self) hlimit
    have htail := ih (fun e he => hl e (List.mem_cons_of_mem d he)) (v * base + d)
    rw [digitsFrom] at htail ⊢
    rw [List.map_cons, List.foldl_cons, hhead, Option.getD_some, htail, List.foldl_cons]

theorem places_lt (hbase : 2 ≤ base) (n : ℤ) : ∀ d ∈ places base n, d < base := by
  intro d hd
  unfold places at hd
  split at hd
  · rw [List.mem_singleton] at hd
    omega
  · exact Nat.digits_lt_base hbase (List.mem_reverse.mp hd)

theorem places_value (base : ℕ) (n : ℤ) :
    (places base n).foldl (fun v d => v * base + d) 0 = n.natAbs := by
  unfold places
  split
  · next h => simp [h]
  · rw [List.foldl_reverse]
    conv_rhs => rw [← Nat.ofDigits_digits base n.natAbs, Nat.ofDigits_eq_foldr]
    congr 1
    funext d v
    rw [Nat.cast_id, mul_comm, add_comm]

theorem places_ne_nil (base : ℕ) (n : ℤ) : places base n ≠ [] := by
  unfold places
  split
  · exact List.cons_ne_nil _ _
  · next h =>
    rw [ne_eq, List.reverse_eq_nil_iff, Nat.digits_eq_nil_iff_eq_zero]
    omega

theorem digits_digitText (ucd : Ucd) (hbase : 2 ≤ base) (hlimit : base ≤ 36) (n : ℤ) :
    Digits ucd base (digitText base n) := digits_map (places_lt hbase n) hlimit

theorem digitsValue_digitText (ucd : Ucd) (hbase : 2 ≤ base) (hlimit : base ≤ 36) (n : ℤ) :
    digitsValue ucd base (digitText base n) = n.natAbs := by
  rw [digitsValue, digitText, digitsFrom_map (places_lt hbase n) hlimit, places_value]

theorem digitText_ne_nil (base : ℕ) (n : ℤ) : digitText base n ≠ [] := by
  rw [digitText, ne_eq, List.map_eq_nil_iff]
  exact places_ne_nil base n

theorem parseInteger_text (ucd : Ucd) (hbase : 2 ≤ base) (hlimit : base ≤ 36) (buffer : List ℕ)
    (n : ℤ) {text : List ℕ} (htext : text = buffer ++ (signText n ++ digitText base n)) :
    (NumberRanges.parseInteger ucd text buffer.length text.length base).result =
      some (some (bigNormalize n), text.length) := by
  have hlength : text.length = buffer.length + (signText n ++ digitText base n).length := by
    rw [htext, List.length_append]
  have hslice : NumberRanges.slice text buffer.length (signText n ++ digitText base n).length =
      signText n ++ digitText base n := by
    rw [NumberRanges.slice, htext, List.drop_left, List.take_length]
  have hparse := @NumberRanges.parseInteger_refines ucd text base buffer.length 0 _ hlength.ge
  rw [Nat.add_zero, hslice, parseInteger_digits hlimit (sign_signText n) (digitText_ne_nil base n)
    (digits_digitText ucd hbase hlimit n), digitsValue_digitText ucd hbase hlimit,
    signOf_signText, Nat.zero_add, ← hlength] at hparse
  exact hparse

end

end IntegerPrinter
