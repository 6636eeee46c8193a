import Ecl.ExternalFormats
import Ecl.Integers
import Ecl.SymbolRoundTrip
import Mathlib.Data.List.Find
import Mathlib.Data.List.Nodup

/-! Names of characters: cl_name_char and cl_char_name of src/c/string.d, with the table of
src/c/iso_latin_names.h. The generated tables of Unicode names are a parameter. -/
namespace CharacterNames

open Characters NumberReader NumberSyntax
open ExternalFormats (charCodeLimit)
open Integers (FitsFixnum)

def codes (s : String) : List ℕ := s.toList.map Char.toNat

def charNames : List String :=
  ["Nul", "Soh", "Stx", "Etx", "Eot", "Enq", "Ack", "Bel", "Backspace", "Tab", "Newline", "Vt",
    "Page", "Return", "So", "Si", "Dle", "Dc1", "Dc2", "Dc3", "Dc4", "Nak", "Syn", "Etb", "Can",
    "Em", "Sub", "Esc", "Fs", "Gs", "Rs", "Us", "Space", "EXCLAMATION_MARK", "QUOTATION_MARK",
    "NUMBER_SIGN", "DOLLAR_SIGN", "PERCENT_SIGN", "AMPERSAND", "APOSTROPHE", "LEFT_PARENTHESIS",
    "RIGHT_PARENTHESIS", "ASTERISK", "PLUS_SIGN", "COMMA", "HYPHEN-MINUS", "FULL_STOP",
    "SOLIDUS", "DIGIT_ZERO", "DIGIT_ONE", "DIGIT_TWO", "DIGIT_THREE", "DIGIT_FOUR", "DIGIT_FIVE",
    "DIGIT_SIX", "DIGIT_SEVEN", "DIGIT_EIGHT", "DIGIT_NINE", "COLON", "SEMICOLON",
    "LESS-THAN_SIGN", "EQUALS_SIGN", "GREATER-THAN_SIGN", "QUESTION_MARK", "COMMERCIAL_AT",
    "LATIN_CAPITAL_LETTER_A", "LATIN_CAPITAL_LETTER_B", "LATIN_CAPITAL_LETTER_C",
    "LATIN_CAPITAL_LETTER_D", "LATIN_CAPITAL_LETTER_E", "LATIN_CAPITAL_LETTER_F",
    "LATIN_CAPITAL_LETTER_G", "LATIN_CAPITAL_LETTER_H", "LATIN_CAPITAL_LETTER_I",
    "LATIN_CAPITAL_LETTER_J", "LATIN_CAPITAL_LETTER_K", "LATIN_CAPITAL_LETTER_L",
    "LATIN_CAPITAL_LETTER_M", "LATIN_CAPITAL_LETTER_N", "LATIN_CAPITAL_LETTER_O",
    "LATIN_CAPITAL_LETTER_P", "LATIN_CAPITAL_LETTER_Q", "LATIN_CAPITAL_LETTER_R",
    "LATIN_CAPITAL_LETTER_S", "LATIN_CAPITAL_LETTER_T", "LATIN_CAPITAL_LETTER_U",
    "LATIN_CAPITAL_LETTER_V", "LATIN_CAPITAL_LETTER_W", "LATIN_CAPITAL_LETTER_X",
    "LATIN_CAPITAL_LETTER_Y", "LATIN_CAPITAL_LETTER_Z", "LEFT_SQUARE_BRACKET", "REVERSE_SOLIDUS",
    "RIGHT_SQUARE_BRACKET", "CIRCUMFLEX_ACCENT", "LOW_LINE", "GRAVE_ACCENT",
    "LATIN_SMALL_LETTER_A", "LATIN_SMALL_LETTER_B", "LATIN_SMALL_LETTER_C",
    "LATIN_SMALL_LETTER_D", "LATIN_SMALL_LETTER_E", "LATIN_SMALL_LETTER_F",
    "LATIN_SMALL_LETTER_G", "LATIN_SMALL_LETTER_H", "LATIN_SMALL_LETTER_I",
    "LATIN_SMALL_LETTER_J", "LATIN_SMALL_LETTER_K", "LATIN_SMALL_LETTER_L",
    "LATIN_SMALL_LETTER_M", "LATIN_SMALL_LETTER_N", "LATIN_SMALL_LETTER_O",
    "LATIN_SMALL_LETTER_P", "LATIN_SMALL_LETTER_Q", "LATIN_SMALL_LETTER_R",
    "LATIN_SMALL_LETTER_S", "LATIN_SMALL_LETTER_T", "LATIN_SMALL_LETTER_U",
    "LATIN_SMALL_LETTER_V", "LATIN_SMALL_LETTER_W", "LATIN_SMALL_LETTER_X",
    "LATIN_SMALL_LETTER_Y", "LATIN_SMALL_LETTER_Z", "LEFT_CURLY_BRACKET", "VERTICAL_LINE",
    "RIGHT_CURLY_BRACKET", "TILDE", "Rubout"]

def extraCharNames : List (String × ℕ) :=
  [("Null", 0), ("Bell", 7), ("Bs", 8), ("Ht", 9), ("Linefeed", 10), ("Lf", 10), ("Escape", 27),
    ("Formfeed", 12), ("Ff", 12), ("Cr", 13), ("Sp", 32), ("Del", 127), ("Delete", 127)]

/-- The entries of the hash table from names to codes; what was stored last is found first. -/
def registeredNames : List (List ℕ × ℕ) :=
  ((extraCharNames.map fun p => (codes p.1, p.2)) ++
    charNames.mapIdx fun i s => (codes s, i))

/-- The tables of src/c/unicode: _ecl_ucd_code_to_name and _ecl_ucd_name_to_code. -/
structure NameTables where
  codeToName : ℕ → Option (List ℕ)
  nameToCode : List ℕ → Option ℕ

section
variable (ucd : Ucd) (tables : NameTables)

/-- ecl_gethash_safe on the table, which compares with EQUALP. -/
def registered (name : List ℕ) : Option ℕ :=
  (registeredNames.find? fun p => p.1.map ucd.charUpcase = name.map ucd.charUpcase).map Prod.snd

/-- NIL is none; ECL_CODE_CHAR shifts any fixnum. -/
def nameChar (name : List ℕ) : Option ℤ :=
  match registered ucd name with
  | some code => some code
  | none =>
    match tables.nameToCode name with
    | some code => if (code : ℤ) < charCodeLimit then some code else none
    | none =>
      match name with
      | [] => none
      | [c] => some c
      | c :: rest =>
        if c ≠ 117 ∧ c ≠ 85 then none
        else
          let (code, usedL) := parseInteger ucd rest 1 16
          match code with
          | none => none
          | some code =>
            if ¬FitsFixnum code ∨ usedL = name.length - 1 then none else some code

/-- ecl_digit_char in radix 16. -/
def digitChar (w : ℕ) : ℕ := if w < 10 then w + 48 else w - 10 + 65

def hexDigits : ℕ → ℕ → List ℕ
  | 0, _ => []
  | n + 1, code => hexDigits n (code / 16) ++ [digitChar (code % 16)]

def charName (code : ℕ) : Option (List ℕ) :=
  if code ≤ 127 then charNames[code]?.map codes
  else match tables.codeToName code with
    | some name => some name
    | none => some (85 :: hexDigits (if code / 16 ^ 4 = 0 then 4 else 6) code)

end

def asciiUpcase (c : ℕ) : ℕ := if 97 ≤ c ∧ c ≤ 122 then c - 32 else c

def key (name : List ℕ) : ℕ := name.foldl (fun k c => 128 * k + c) 0

theorem codes_ofList (l : List Char) : codes (String.ofList l) = l.map Char.toNat := by
  rw [codes, String.toList_ofList]

inductive Spelled : List String → List (List ℕ) → Prop where
  | nil : Spelled [] []
  | cons {names l} (name : List Char) (h : Spelled names l) :
    Spelled (String.ofList name :: names) (name.map Char.toNat :: l)

theorem Spelled.map_codes {names : List String} {l : List (List ℕ)} (h : Spelled names l) :
    names.map codes = l := by
  induction h with
  | nil => rfl
  | cons name h ih => rw [List.map_cons, ih, codes_ofList]

/-- The keys leave different remainders; seen has the bits of those before them. -/
def distinctMod (m seen : ℕ) : List ℕ → Bool
  | [] => true
  | k :: l => !seen.testBit (k % m) && distinctMod m (seen ||| 2 ^ (k % m)) l

theorem nodup_of_distinctMod {m seen : ℕ} {l : List ℕ} (h : distinctMod m seen l = true) :
    l.Nodup ∧ ∀ k ∈ l, seen.testBit (k % m) = false := by
  induction l generalizing seen with
  | nil => exact ⟨List.nodup_nil, fun k hk => absurd hk List.not_mem_nil⟩
  | cons k l ih =>
    rw [distinctMod, Bool.and_eq_true, Bool.not_eq_true'] at h
    obtain ⟨hnodup, hseen⟩ := ih h.2
    have hother (j : ℕ) (hj : j ∈ l) : seen.testBit (j % m) = false ∧ k % m ≠ j % m := by
      simpa [Nat.testBit_two_pow] using hseen j hj
    refine ⟨List.nodup_cons.mpr ⟨fun hk => (hother k hk).2 rfl, hnodup⟩, fun j hj => ?_⟩
    rcases List.mem_cons.mp hj with rfl | hj
    · exact h.1
    · exact (hother j hj).1

/-- What is checked of the registered names: the characters of a name without its case, which are
the last five bits, are those of no other. -/
def Checked (names : List (List ℕ × ℕ)) : Prop :=
  (names.all fun p => Nat.blt p.2 128 && p.1.all (fun c => Nat.blt c 128) &&
    (!p.1.head?.any (fun c => Nat.beq (asciiUpcase c) 85) || Nat.beq p.1.length 2)) = true ∧
  distinctMod 1475 0 (names.map fun p => key (p.1.map fun c => c % 32)) = true

instance (names : List (List ℕ × ℕ)) : Decidable (Checked names) :=
  inferInstanceAs (Decidable (_ ∧ _))

theorem spelled_checked : ∃ extra names : List (List ℕ),
    Spelled (extraCharNames.map Prod.fst) extra ∧ Spelled charNames names ∧
    Checked (extra.zip (extraCharNames.map Prod.snd) ++ names.zipIdx) := by
  -- reading the names off fills in the two lists
  apply Exists.intro
  apply Exists.intro
  refine ⟨?_, ?_, ?_⟩
  · dsimp only [extraCharNames, List.map]
    repeat apply Spelled.cons
    exact .nil
  · dsimp only [charNames]
    repeat apply Spelled.cons
    exact .nil
  · decide +kernel

theorem registeredNames_checked : Checked registeredNames := by
  obtain ⟨extra, names, hextra, hnames, hchecked⟩ := spelled_checked
  rw [← hextra.map_codes, ← hnames.map_codes, List.map_map, List.zip_map'] at hchecked
  rw [List.zipIdx_map] at hchecked
  rw [registeredNames, List.mapIdx_eq_zipIdx_map]
  exact hchecked

theorem asciiUpcase_mod (c : ℕ) : asciiUpcase c % 32 = c % 32 := by
  unfold asciiUpcase
  split
  · omega
  · rfl

theorem registeredNames_spec :
    (∀ p ∈ registeredNames, p.2 < 128 ∧ (∀ c ∈ p.1, c < 128) ∧
      ((p.1.map asciiUpcase).head? = some 85 → p.1.length = 2)) ∧
    (registeredNames.map fun p => p.1.map asciiUpcase).Nodup := by
  obtain ⟨hnames, hdistinct⟩ := registeredNames_checked
  constructor
  · intro p hp
    have hname := List.all_eq_true.mp hnames p hp
    simp only [Bool.and_eq_true, Bool.or_eq_true, Nat.blt_eq, Nat.beq_eq, List.all_eq_true,
      Bool.not_eq_true'] at hname
    obtain ⟨⟨hcode, hall⟩, htwo⟩ := hname
    refine ⟨hcode, hall, fun hhead => htwo.resolve_left fun hother => ?_⟩
    rw [List.head?_map, Option.map_eq_some_iff] at hhead
    obtain ⟨c, hc, hupcase⟩ := hhead
    simp [hc, hupcase] at hother
  · apply List.Nodup.of_map fun l => key (l.map fun c => c % 32)
    rw [List.map_map]
    convert (nodup_of_distinctMod hdistinct).1 using 2
    funext p
    simp [Function.comp_def, asciiUpcase_mod]

theorem registeredNames_ascii {p : List ℕ × ℕ} (hp : p ∈ registeredNames) : ∀ c ∈ p.1, c < 128 :=
  (registeredNames_spec.1 p hp).2.1

/-- What the generated tables say about ASCII. -/
def Ascii (ucd : Ucd) : Prop := ∀ c < 128, ucd.charUpcase c = asciiUpcase c

def asciiRegistered (name : List ℕ) : Option ℕ :=
  (registeredNames.find? fun p => p.1.map asciiUpcase = name.map asciiUpcase).map Prod.snd

theorem registered_ascii {ucd : Ucd} (hucd : Ascii ucd) {name : List ℕ}
    (hname : ∀ c ∈ name, c < 128) : registered ucd name = asciiRegistered name := by
  have hmap : ∀ l : List ℕ, (∀ c ∈ l, c < 128) → l.map ucd.charUpcase = l.map asciiUpcase :=
    fun l hl => List.map_congr_left fun c hc => hucd c (hl c hc)
  rw [registered, asciiRegistered, hmap name hname]
  congr 1
  apply List.find?_congr
  intro p hp
  rw [hmap p.1 (registeredNames_ascii hp)]

theorem find?_of_nodup {α β : Type*} [DecidableEq β] {f : α → β} {l : List α} (hl : (l.map f).Nodup)
    {a : α} (ha : a ∈ l) : l.find? (fun b => f b = f a) = some a := by
  induction l with
  | nil => cases ha
  | cons b l ih =>
    rw [List.map_cons, List.nodup_cons] at hl
    rw [List.mem_cons] at ha
    rcases ha with rfl | ha
    · exact List.find?_cons_of_pos (decide_eq_true rfl)
    · have hne : f b ≠ f a := fun heq => hl.1 (heq ▸ List.mem_map_of_mem ha)
      rw [List.find?_cons_of_neg (by simpa using hne)]
      exact ih hl.2 ha

theorem registered_charNames {ucd : Ucd} (hucd : Ascii ucd) {c : ℕ} {name : List ℕ}
    (hname : charNames[c]?.map codes = some name) : registered ucd name = some c := by
  obtain ⟨s, hs, rfl⟩ := Option.map_eq_some_iff.mp hname
  have hmem : (codes s, c) ∈ registeredNames := by
    rw [registeredNames, List.mem_append, List.mem_mapIdx]
    obtain ⟨hlt, hget⟩ := List.getElem?_eq_some_iff.mp hs
    exact .inr ⟨c, hlt, by rw [hget]⟩
  rw [registered_ascii hucd (registeredNames_ascii hmem), asciiRegistered,
    find?_of_nodup registeredNames_spec.2 hmem]
  rfl

theorem registered_letter {ucd : Ucd} (hucd : Ascii ucd) {rest : List ℕ}
    (hrest : ∀ c ∈ rest, c < 128) (hlength : rest.length ≠ 1) :
    registered ucd (85 :: rest) = none := by
  have hascii : ∀ c ∈ 85 :: rest, c < 128 := by
    rw [List.forall_mem_cons]
    exact ⟨by decide, hrest⟩
  rw [registered_ascii hucd hascii, asciiRegistered, Option.map_eq_none_iff, List.find?_eq_none]
  intro p hp heq
  rw [decide_eq_true_eq] at heq
  have htwo := (registeredNames_spec.1 p hp).2.2 (by rw [heq]; rfl)
  have hsame := congrArg List.length heq
  rw [List.length_map, List.length_map, List.length_cons] at hsame
  omega

section
variable (ucd : Ucd)

def signPart : List ℕ → List ℕ
  | 43 :: _ => [43]
  | 45 :: _ => [45]
  | _ => []

def unsigned (rest : List ℕ) : List ℕ := rest.drop (signPart rest).length

/-- The hexadecimal digits that ecl_parse_integer takes. -/
def digitPart (rest : List ℕ) : List ℕ :=
  (unsigned rest).takeWhile fun c => (ucd.digitp c 16).isSome

def tailPart (rest : List ℕ) : List ℕ :=
  (unsigned rest).dropWhile fun c => (ucd.digitp c 16).isSome

def parsedCode (rest : List ℕ) : ℤ :=
  signOf (signPart rest) * digitsValue ucd 16 (digitPart ucd rest)

end

section
variable {ucd : Ucd} {tables : NameTables} {name rest : List ℕ}

theorem digitLoop_takeWhile (r : ℕ) (l : List ℕ) (value i : ℕ) :
    (digitLoop ucd r l value i).1 =
      digitsFrom ucd r value (l.takeWhile fun c => (ucd.digitp c r).isSome) := by
  induction l generalizing value i with
  | nil => rfl
  | cons c l ih =>
    unfold digitLoop
    cases hc : ucd.digitp c r with
    | none => simp [hc, digitsFrom]
    | some d => simp [hc, digitsFrom, ih]

theorem signPart_append_unsigned (rest : List ℕ) : rest = signPart rest ++ unsigned rest := by
  unfold unsigned signPart
  split <;> rfl

theorem length_parts (ucd : Ucd) (rest : List ℕ) :
    (signPart rest).length + (digitPart ucd rest).length + (tailPart ucd rest).length =
      rest.length := by
  have hparts := congrArg List.length (List.takeWhile_append_dropWhile
    (p := fun c => (ucd.digitp c 16).isSome) (l := unsigned rest))
  have hrest := congrArg List.length (signPart_append_unsigned rest)
  rw [List.length_append] at hparts hrest
  rw [digitPart, tailPart]
  omega

theorem integerFrom_eq (sign : ℤ) (l : List ℕ) (start : ℕ) :
    integerFrom ucd 16 sign l start =
      (if (l.takeWhile fun c => (ucd.digitp c 16).isSome) = [] then none
        else some (sign * digitsValue ucd 16 (l.takeWhile fun c => (ucd.digitp c 16).isSome)),
        start + (l.takeWhile fun c => (ucd.digitp c 16).isSome).length) := by
  simp only [integerFrom]
  rw [digitLoop_index, digitLoop_takeWhile, digitsValue]
  congr 1
  by_cases hnil : (l.takeWhile fun c => (ucd.digitp c 16).isSome) = []
  · simp [hnil]
  · have hpos := List.length_pos_iff.mpr hnil
    rw [if_neg (by omega), if_neg hnil]

theorem parseInteger_eq (hne : rest ≠ []) : parseInteger ucd rest 1 16 =
    (if digitPart ucd rest = [] then none else some (parsedCode ucd rest),
      1 + (signPart rest).length + (digitPart ucd rest).length) := by
  cases rest with
  | nil => exact absurd rfl hne
  | cons c l =>
    rw [parseInteger, if_neg (by decide)]
    by_cases hplus : c = 43
    · subst hplus
      rw [if_pos rfl, integerFrom_eq]
      rfl
    · rw [if_neg hplus]
      by_cases hminus : c = 45
      · subst hminus
        rw [if_pos rfl, integerFrom_eq]
        rfl
      · have hsign : signPart (c :: l) = [] := by
          unfold signPart
          split
          · next heq => exact absurd (List.cons.inj heq).1 hplus
          · next heq => exact absurd (List.cons.inj heq).1 hminus
          · rfl
        rw [if_neg hminus, integerFrom_eq, parsedCode, digitPart, unsigned, hsign]
        rfl

structure Right (ucd : Ucd) (tables : NameTables) (name : List ℕ) : Prop where
  limit : ∀ code, nameChar ucd tables name = some code → 0 ≤ code ∧ code < charCodeLimit
  implicit : registered ucd name = none → tables.nameToCode name = none → name.length ≠ 1 →
    ∀ code, nameChar ucd tables name = some code → ∃ c rest, name = c :: rest ∧
      (c = 117 ∨ c = 85) ∧ rest ≠ [] ∧ Digits ucd 16 rest ∧ code = digitsValue ucd 16 rest

def Regular (ucd : Ucd) (rest : List ℕ) : Prop :=
  digitPart ucd rest = [] ∨ (tailPart ucd rest).length = 1 ∨ ¬FitsFixnum (parsedCode ucd rest) ∨
    signPart rest = [] ∧ tailPart ucd rest = [] ∧ parsedCode ucd rest < charCodeLimit

theorem registered_lt {code : ℕ} (h : registered ucd name = some code) :
    (code : ℤ) < charCodeLimit := by
  obtain ⟨p, hp, rfl⟩ := Option.map_eq_some_iff.mp h
  have hlt := (registeredNames_spec.1 p (List.mem_of_find?_eq_some hp)).1
  rw [charCodeLimit]
  omega

instance (rest : List ℕ) : Decidable (Regular ucd rest) :=
  inferInstanceAs (Decidable (_ ∨ _ ∨ _ ∨ _))

theorem nameChar_registered {code : ℕ} (h : registered ucd name = some code) :
    nameChar ucd tables name = some (code : ℤ) := by
  unfold nameChar
  simp only [h]

theorem nameChar_unicode (h : registered ucd name = none) {code : ℕ}
    (hcode : tables.nameToCode name = some code) :
    nameChar ucd tables name = if (code : ℤ) < charCodeLimit then some (code : ℤ) else none := by
  unfold nameChar
  simp only [h, hcode]

theorem nameChar_short (h : registered ucd name = none) (hcode : tables.nameToCode name = none)
    (hshort : name.length ≤ 1) {code : ℤ} (hname : nameChar ucd tables name = some code) :
    ∃ c, name = [c] ∧ code = c := by
  unfold nameChar at hname
  simp only [h, hcode] at hname
  cases name with
  | nil => cases hname
  | cons c rest =>
    obtain rfl : rest = [] :=
      List.length_eq_zero_iff.mp (Nat.le_zero.mp (Nat.le_of_succ_le_succ hshort))
    exact ⟨c, rfl, (Option.some.inj hname).symm⟩

theorem nameChar_long {c : ℕ} (h : registered ucd (c :: rest) = none)
    (hcode : tables.nameToCode (c :: rest) = none) (hne : rest ≠ []) :
    nameChar ucd tables (c :: rest) =
      if c ≠ 117 ∧ c ≠ 85 ∨ digitPart ucd rest = [] ∨ (tailPart ucd rest).length = 1 ∨
        ¬FitsFixnum (parsedCode ucd rest) then none else some (parsedCode ucd rest) := by
  have hlength := length_parts ucd rest
  unfold nameChar
  simp only [h, hcode]
  cases rest with
  | nil => exact absurd rfl hne
  | cons d l =>
    by_cases hc : c ≠ 117 ∧ c ≠ 85
    · rw [if_pos hc, if_pos (.inl hc)]
    · rw [if_neg hc, parseInteger_eq hne]
      by_cases hnil : digitPart ucd (d :: l) = []
      · simp only [if_pos hnil]
        rw [if_pos (.inr (.inl hnil))]
      · simp only [if_neg hnil]
        have hused : 1 + (signPart (d :: l)).length + (digitPart ucd (d :: l)).length =
            (c :: d :: l).length - 1 ↔ (tailPart ucd (d :: l)).length = 1 := by
          rw [List.length_cons]
          omega
        simp only [hused, hc, hnil, false_or]
        congr 1
        exact propext or_comm

def Names (ucd : Ucd) (tables : NameTables) : List ℕ → Prop
  | c :: rest => registered ucd (c :: rest) ≠ none ∨ tables.nameToCode (c :: rest) ≠ none ∨
      rest = [] ∨ c ≠ 117 ∧ c ≠ 85 ∨ Regular ucd rest
  | [] => True

theorem digits_iff : signPart rest = [] ∧ tailPart ucd rest = [] ↔ Digits ucd 16 rest := by
  constructor
  · rintro ⟨hsign, htail⟩
    have hrest : unsigned rest = rest := by rw [unsigned, hsign, List.length_nil, List.drop_zero]
    rw [tailPart, hrest, List.dropWhile_eq_nil_iff] at htail
    exact htail
  · intro hdigits
    have hsign : signPart rest = [] := by
      unfold signPart
      split
      · have hplus := hdigits 43 List.mem_cons_self
        rw [digitp_sign (by decide) (.inl rfl)] at hplus
        cases hplus
      · have hminus := hdigits 45 List.mem_cons_self
        rw [digitp_sign (by decide) (.inr rfl)] at hminus
        cases hminus
      · rfl
    refine ⟨hsign, ?_⟩
    rw [tailPart, unsigned, hsign, List.length_nil, List.drop_zero, List.dropWhile_eq_nil_iff]
    exact hdigits

theorem parsedCode_digits (h : Digits ucd 16 rest) :
    digitPart ucd rest = rest ∧ parsedCode ucd rest = digitsValue ucd 16 rest := by
  have hsign := (digits_iff.mpr h).1
  have hpart : digitPart ucd rest = rest := by
    rw [digitPart, unsigned, hsign, List.length_nil, List.drop_zero, List.takeWhile_eq_self_iff]
    exact h
  refine ⟨hpart, ?_⟩
  rw [parsedCode, hsign, hpart, signOf, if_neg (by decide), one_mul]

theorem right_of_none (h : ∀ code, nameChar ucd tables name ≠ some code) : Right ucd tables name :=
  ⟨fun code hcode => absurd hcode (h code), fun _ _ _ code hcode => absurd hcode (h code)⟩

theorem right_letter {c : ℕ} (h : registered ucd (c :: rest) = none)
    (hcode : tables.nameToCode (c :: rest) = none) (hne : rest ≠ []) :
    Right ucd tables (c :: rest) ↔ c ≠ 117 ∧ c ≠ 85 ∨ Regular ucd rest := by
  have hlong := nameChar_long h hcode hne
  by_cases hrefused : c ≠ 117 ∧ c ≠ 85 ∨ digitPart ucd rest = [] ∨
      (tailPart ucd rest).length = 1 ∨ ¬FitsFixnum (parsedCode ucd rest)
  · rw [if_pos hrefused] at hlong
    refine iff_of_true (right_of_none fun code => by rw [hlong]; simp) ?_
    rcases hrefused with hc | hnil | htail | hfits
    · exact .inl hc
    · exact .inr (.inl hnil)
    · exact .inr (.inr (.inl htail))
    · exact .inr (.inr (.inr (.inl hfits)))
  · rw [if_neg hrefused] at hlong
    simp only [not_or] at hrefused
    obtain ⟨hc, hnil, htail, hfits⟩ := hrefused
    have hlength : (c :: rest).length ≠ 1 := by
      have := List.length_pos_iff.mpr hne
      rw [List.length_cons]
      omega
    constructor
    · intro hright
      obtain ⟨c', rest', heq, -, -, hdigits, -⟩ := hright.implicit h hcode hlength _ hlong
      obtain ⟨rfl, rfl⟩ := List.cons.inj heq
      obtain ⟨hsign, hend⟩ := digits_iff.mpr hdigits
      exact .inr (.inr (.inr (.inr ⟨hsign, hend, (hright.limit _ hlong).2⟩)))
    · rintro (hc' | hnil' | htail' | hfits' | ⟨hsign, hend, hlt⟩)
      · exact absurd hc' hc
      · exact absurd hnil' hnil
      · exact absurd htail' htail
      · exact absurd hfits' hfits
      · have hdigits : Digits ucd 16 rest := digits_iff.mp ⟨hsign, hend⟩
        have hvalue := (parsedCode_digits hdigits).2
        refine ⟨fun code hcode' => ?_, fun _ _ _ code hcode' => ?_⟩
        · obtain rfl := Option.some.inj (hlong.symm.trans hcode')
          exact ⟨by rw [hvalue]; exact Int.natCast_nonneg _, hlt⟩
        · obtain rfl := Option.some.inj (hlong.symm.trans hcode')
          exact ⟨c, rest, rfl, by omega, hne, hdigits, hvalue⟩

theorem right_registered {code : ℕ} (h : registered ucd name = some code) :
    Right ucd tables name := by
  refine ⟨fun code' hcode => ?_, fun hnone => ?_⟩
  · obtain rfl := Option.some.inj ((nameChar_registered h).symm.trans hcode)
    exact ⟨Int.natCast_nonneg _, registered_lt h⟩
  · rw [h] at hnone
    cases hnone

theorem right_unicode (h : registered ucd name = none) {code : ℕ}
    (hcode : tables.nameToCode name = some code) : Right ucd tables name := by
  refine ⟨fun code' hcode' => ?_, fun _ hnone => ?_⟩
  · rw [nameChar_unicode h hcode] at hcode'
    split at hcode'
    · next hlt =>
      cases hcode'
      exact ⟨Int.natCast_nonneg _, hlt⟩
    · cases hcode'
  · rw [hcode] at hnone
    cases hnone

theorem right_short (hname : ∀ c ∈ name, (c : ℤ) < charCodeLimit) (h : registered ucd name = none)
    (hcode : tables.nameToCode name = none) (hshort : name.length ≤ 1) :
    Right ucd tables name := by
  refine ⟨fun code hcode' => ?_, fun _ _ hlength code hcode' => ?_⟩
  · obtain ⟨c, rfl, rfl⟩ := nameChar_short h hcode hshort hcode'
    exact ⟨Int.natCast_nonneg _, hname c List.mem_cons_self⟩
  · obtain ⟨c, rfl, -⟩ := nameChar_short h hcode hshort hcode'
    exact absurd rfl hlength

theorem right_iff (hname : ∀ c ∈ name, (c : ℤ) < charCodeLimit) :
    Right ucd tables name ↔ Names ucd tables name := by
  cases name with
  | nil =>
    refine iff_of_true ?_ trivial
    cases h : registered ucd [] with
    | some code => exact right_registered h
    | none =>
      cases hcode : tables.nameToCode [] with
      | some code => exact right_unicode h hcode
      | none => exact right_short hname h hcode (Nat.zero_le 1)
  | cons c rest =>
    cases h : registered ucd (c :: rest) with
    | some code => exact iff_of_true (right_registered h) (.inl (by rw [h]; simp))
    | none =>
      cases hcode : tables.nameToCode (c :: rest) with
      | some code => exact iff_of_true (right_unicode h hcode) (.inr (.inl (by rw [hcode]; simp)))
      | none =>
        by_cases hrest : rest = []
        · subst hrest
          exact iff_of_true (right_short hname h hcode le_rfl) (.inr (.inr (.inl rfl)))
        · rw [right_letter h hcode hrest, Names, h, hcode]
          simp [hrest]

theorem digitChar_spec (ucd : Ucd) {w : ℕ} (hw : w < 16) :
    ucd.digitp (digitChar w) 16 = some w ∧ digitChar w < 128 := by
  unfold digitChar Ucd.digitp
  by_cases hlow : w < 10
  · rw [if_pos hlow, if_pos (by omega)]
    exact ⟨congrArg some (by omega), by omega⟩
  · rw [if_neg hlow, if_neg (by omega), if_pos (by omega)]
    exact ⟨congrArg some (by omega), by omega⟩

theorem length_hexDigits (n code : ℕ) : (hexDigits n code).length = n := by
  induction n generalizing code with
  | zero => rfl
  | succ n ih => rw [hexDigits, List.length_append, ih, List.length_singleton]

theorem mem_hexDigits {n code c : ℕ} (h : c ∈ hexDigits n code) : ∃ w < 16, c = digitChar w := by
  induction n generalizing code with
  | zero => cases h
  | succ n ih =>
    rw [hexDigits, List.mem_append, List.mem_singleton] at h
    rcases h with h | rfl
    · exact ih h
    · exact ⟨code % 16, Nat.mod_lt _ (by decide), rfl⟩

theorem digits_hexDigits (ucd : Ucd) (n code : ℕ) : Digits ucd 16 (hexDigits n code) := by
  intro c hc
  obtain ⟨w, hw, rfl⟩ := mem_hexDigits hc
  rw [(digitChar_spec ucd hw).1]
  rfl

theorem digitsValue_hexDigits (ucd : Ucd) {n code : ℕ} (h : code < 16 ^ n) :
    digitsValue ucd 16 (hexDigits n code) = code := by
  induction n generalizing code with
  | zero =>
    rw [pow_zero, Nat.lt_one_iff] at h
    exact h.symm
  | succ n ih =>
    have hrest : code / 16 < 16 ^ n := by
      rw [pow_succ] at h
      exact Nat.div_lt_of_lt_mul (by omega)
    have hdigits := ih hrest
    rw [digitsValue, digitsFrom] at hdigits
    rw [digitsValue, digitsFrom, hexDigits, List.foldl_append, hdigits, List.foldl_cons,
      List.foldl_nil, (digitChar_spec ucd (Nat.mod_lt _ (by decide))).1, Option.getD_some]
    omega

theorem registered_hexDigits (hucd : Ascii ucd) {n : ℕ} (hn : n = 4 ∨ n = 6) (code : ℕ) :
    registered ucd (85 :: hexDigits n code) = none := by
  apply registered_letter hucd
  · intro c hc
    obtain ⟨w, hw, rfl⟩ := mem_hexDigits hc
    exact (digitChar_spec ucd hw).2
  · rw [length_hexDigits]
    omega

/-- The generated tables of names. BELL and PAGE are also the names of codes below 128 in the
other table. -/
structure NameTables.Lawful (ucd : Ucd) (tables : NameTables) : Prop where
  inverse : ∀ c name, tables.codeToName c = some name → tables.nameToCode name = some c
  implicit : ∀ n code, n = 4 ∨ n = 6 → tables.nameToCode (85 :: hexDigits n code) = none
  bell : tables.codeToName 0x1f514 = some (codes "BELL")
  page : tables.codeToName 0x1f5cf = some (codes "PAGE")
  others : ∀ c name, 127 < c → c ≠ 0x1f514 → c ≠ 0x1f5cf → tables.codeToName c = some name →
    registered ucd name = none

theorem nameChar_hexDigits (hucd : Ascii ucd) (htables : tables.Lawful ucd) {n code : ℕ}
    (hn : n = 4 ∨ n = 6) (hcode : code < 16 ^ n) (hlimit : (code : ℤ) < charCodeLimit) :
    nameChar ucd tables (85 :: hexDigits n code) = some (code : ℤ) := by
  have hdigits := digits_hexDigits ucd n code
  have hlength := length_hexDigits n code
  have hne : hexDigits n code ≠ [] := by
    rw [← List.length_pos_iff]
    omega
  obtain ⟨hpart, hvalue⟩ := parsedCode_digits hdigits
  rw [digitsValue_hexDigits ucd hcode] at hvalue
  rw [nameChar_long (registered_hexDigits hucd hn code) (htables.implicit n code hn) hne,
    if_neg, hvalue]
  rintro (hc | hnil | htail | hfits)
  · exact hc.2 rfl
  · rw [hpart] at hnil
    exact hne hnil
  · rw [(digits_iff.mpr hdigits).2] at htail
    cases htail
  · rw [hvalue] at hfits
    simp only [FitsFixnum, Integers.mostNegativeFixnum, Integers.mostPositiveFixnum,
      charCodeLimit] at hfits hlimit
    omega

variable (tables) in
theorem nameChar_collision (hucd : Ascii ucd) (c k : ℕ) (hname : ∀ d ∈ name, d < 128)
    (hk : asciiRegistered name = some k) (hne : k ≠ c) :
    nameChar ucd tables name ≠ some (c : ℤ) := by
  rw [nameChar_registered ((registered_ascii hucd hname).trans hk)]
  intro heq
  exact hne (Int.ofNat.inj (Option.some.inj heq))

theorem nameChar_charName_iff (hucd : Ascii ucd) (htables : tables.Lawful ucd) {c : ℕ}
    (hc : (c : ℤ) < charCodeLimit) :
    (∀ name, charName tables c = some name → nameChar ucd tables name = some (c : ℤ)) ↔
      c ≠ 0x1f514 ∧ c ≠ 0x1f5cf := by
  unfold charName
  constructor
  · intro hround
    constructor
    · rintro rfl
      refine nameChar_collision tables hucd _ 7 (by decide +kernel) (by decide +kernel) (by decide)
        (hround (codes "BELL") ?_)
      rw [if_neg (by decide), htables.bell]
    · rintro rfl
      refine nameChar_collision tables hucd _ 12 (by decide +kernel) (by decide +kernel)
        (by decide) (hround (codes "PAGE") ?_)
      rw [if_neg (by decide), htables.page]
  · rintro ⟨hbell, hpage⟩ name hname
    split at hname
    · next hascii => exact nameChar_registered (registered_charNames hucd hname)
    · next hascii =>
      cases hunicode : tables.codeToName c with
      | some name' =>
        simp only [hunicode, Option.some.injEq] at hname
        subst hname
        have hnone := htables.others c name' (by omega) hbell hpage hunicode
        rw [nameChar_unicode hnone (htables.inverse c name' hunicode), if_pos hc]
      | none =>
        simp only [hunicode, Option.some.injEq] at hname
        subst hname
        rw [charCodeLimit] at hc
        apply nameChar_hexDigits hucd htables
        · split
          · exact .inl rfl
          · exact .inr rfl
        · split
          · next hzero =>
            rw [Nat.div_eq_zero_iff] at hzero
            omega
          · omega
        · exact hc

/-- name-char is right about a string exactly if the string is a name, and brings back every
character but BELL and PAGE from its name. -/
theorem character_names_iff (hucd : Ascii ucd) (htables : tables.Lawful ucd) :
    (∀ name : List ℕ, (∀ c ∈ name, (c : ℤ) < charCodeLimit) →
      (Right ucd tables name ↔ Names ucd tables name)) ∧
    ∀ c : ℕ, (c : ℤ) < charCodeLimit →
      ((∀ name, charName tables c = some name → nameChar ucd tables name = some (c : ℤ)) ↔
        c ≠ 0x1f514 ∧ c ≠ 0x1f5cf) :=
  ⟨fun _ hname => right_iff hname, fun _ hc => nameChar_charName_iff hucd htables hc⟩

end

section Tables

open SymbolRoundTrip (asciiUcd)

def twoNames : NameTables where
  codeToName c :=
    if c = 0x1f514 then some (codes "BELL") else if c = 0x1f5cf then some (codes "PAGE") else none
  nameToCode name :=
    if name = codes "BELL" then some 0x1f514
    else if name = codes "PAGE" then some 0x1f5cf
    else none

theorem asciiUcd_ascii : Ascii asciiUcd := by
  unfold Ascii
  decide +kernel

theorem twoNames_lawful : twoNames.Lawful asciiUcd where
  inverse c name h := by
    simp only [twoNames] at h ⊢
    split at h
    · next hc =>
      cases h
      rw [if_pos rfl, hc]
    · split at h
      · next hc =>
        cases h
        rw [if_neg (by decide +kernel), if_pos rfl, hc]
      · cases h
  implicit n code hn := by
    have hlength := length_hexDigits n code
    have hne : ∀ s, (codes s).length = 4 → 85 :: hexDigits n code ≠ codes s := by
      intro s hs heq
      have := congrArg List.length heq
      rw [List.length_cons, hlength, hs] at this
      omega
    simp only [twoNames]
    rw [if_neg (hne _ (by decide +kernel)), if_neg (hne _ (by decide +kernel))]
  bell := rfl
  page := rfl
  others c name _ hbell hpage h := by
    simp only [twoNames, if_neg hbell, if_neg hpage] at h
    cases h

theorem twoNames_letter {rest : List ℕ} (hrest : ∀ c ∈ rest, c < 128) (hlength : 1 < rest.length) :
    registered asciiUcd (85 :: rest) = none ∧ twoNames.nameToCode (85 :: rest) = none := by
  refine ⟨registered_letter asciiUcd_ascii hrest (by omega), ?_⟩
  have hbell : codes "BELL" = [66, 69, 76, 76] := by decide +kernel
  have hpage : codes "PAGE" = [80, 65, 71, 69] := by decide +kernel
  simp [twoNames, hbell, hpage]

/-- What stands behind the digits in U41zz is ignored, and the bell is taken for the control
character. -/
theorem junk_accepted : ¬Right asciiUcd twoNames [85, 52, 49, 122, 122] ∧
    ¬∀ name, charName twoNames 0x1f514 = some name →
      nameChar asciiUcd twoNames name = some (0x1f514 : ℤ) := by
  constructor
  · intro hright
    obtain ⟨hregistered, hunicode⟩ :=
      twoNames_letter (show ∀ c ∈ [52, 49, 122, 122], c < 128 by decide) (by decide)
    rw [right_letter hregistered hunicode (by decide)] at hright
    exact absurd hright (by decide)
  · intro hround
    exact ((nameChar_charName_iff asciiUcd_ascii twoNames_lawful (by decide)).mp hround).1 rfl

/-- U41 is a name of the letter A. -/
theorem character_names_letter : Right asciiUcd twoNames [85, 52, 49] :=
  ((character_names_iff asciiUcd_ascii twoNames_lawful).1 _ (by decide)).mpr
    (.inr (.inr (.inr (.inr (by decide)))))

end Tables

end CharacterNames
