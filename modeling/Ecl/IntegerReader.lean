import Ecl.IntegerPrinter
import Ecl.NumberValues
import Ecl.SymbolRoundTrip

/-! The readers of #b, #o, #x and #r in src/c/reader/rtab_cl.d, beside the reader of tokens, and
that they read what the printer writes. *READ-SUPPRESS* is false. -/
namespace IntegerReader

open Characters NumberReader NumberSyntax NumberValues SymbolReader SymbolPrinter Integers
open IntegerPrinter SymbolRoundTrip

inductive SharpError where
  | endOfFile
  | noDispatchFunction (c : ℕ)
  | extraArgument (d macroChar : ℕ)
  | noRadix
  | illegalRadix (d : ℕ)
  | cannotParse (macroChar : ℕ)
  | floatAppeared (macroChar : ℕ)
  | token (e : ReadError)
  deriving DecidableEq

inductive SharpReader where
  | sharpB | sharpO | sharpX | sharpR
  | other
  deriving DecidableEq

/-- ecl_gethash_safe on that table; letters are entered in both cases. -/
def sharpReader (c : ℕ) : Option SharpReader :=
  if c ∈ [66, 98] then some .sharpB
  else if c ∈ [79, 111] then some .sharpO
  else if c ∈ [88, 120] then some .sharpX
  else if c ∈ [82, 114] then some .sharpR
  else if c ∈ [32, 41, 60, 8, 9, 12, 10, 13, 65, 97, 83, 115, 67, 99, 92, 39, 40, 42, 58, 46, 80,
    112, 61, 35, 43, 45, 124, 36, 89, 121] then some .other
  else none

/-- ecl_read_constituent for a token that is not at its first character. -/
def readConstituent (token : TokenString) : List ℕ → TokenString × List ℕ
  | [] => (token, [])
  | c :: rest =>
    match readtableGet c with
    | .constituent | .nonTerminating => readConstituent (pushExtend token c) rest
    | _ => (token, c :: rest)

section
variable {S : Type} (ucd : Ucd)

def readNumber (buffer : TokenString) (radix macroChar : ℕ) (input : List ℕ) :
    Except SharpError (Outcome S × List ℕ) :=
  let (token, rest) := readConstituent { buffer with chars := [] } input
  match parseNumber ucd token radix with
  | (.number x, ep) =>
    if ep ≠ token.chars.length then .error (.cannotParse macroChar)
    else match x with
      | .float _ _ _ _ => .error (.floatAppeared macroChar)
      | x => .ok (.number x, rest)
  | (.indexError, _) => .error (.token .index)
  | _ => .error (.cannotParse macroChar)

/-- A reader whose radix is known takes no argument. -/
def readInRadix (buffer : TokenString) (radix macroChar : ℕ) (d : Option ℕ) (input : List ℕ) :
    Except SharpError (Outcome S × List ℕ) :=
  match d with
  | some d => .error (.extraArgument d macroChar)
  | none => readNumber ucd buffer radix macroChar input

def sharpBReader (buffer : TokenString) (d : Option ℕ) (input : List ℕ) :
    Except SharpError (Outcome S × List ℕ) := readInRadix ucd buffer 2 66 d input

def sharpOReader (buffer : TokenString) (d : Option ℕ) (input : List ℕ) :
    Except SharpError (Outcome S × List ℕ) := readInRadix ucd buffer 8 79 d input

def sharpXReader (buffer : TokenString) (d : Option ℕ) (input : List ℕ) :
    Except SharpError (Outcome S × List ℕ) := readInRadix ucd buffer 16 88 d input

def sharpRReader (buffer : TokenString) (d : Option ℕ) (input : List ℕ) :
    Except SharpError (Outcome S × List ℕ) :=
  match d with
  | none => .error .noRadix
  | some radix =>
    if 36 < radix ∨ radix < 2 then .error (.illegalRadix radix)
    else readNumber ucd buffer radix 82 input

/-- The loop of dispatch_macro_character: the argument, the character after it and the input
left. -/
def argumentLoop (i : ℕ) : List ℕ → Option (ℕ × ℕ × List ℕ)
  | [] => none
  | c :: rest =>
    match ucd.digitp c 10 with
    | some d => argumentLoop (10 * i + d) rest
    | none => some (i, c, rest)

def callSharpReader (buffer : TokenString) (c : ℕ) (d : Option ℕ) (input : List ℕ) :
    Except SharpError (Outcome S × List ℕ) :=
  match sharpReader c with
  | some .sharpB => sharpBReader ucd buffer d input
  | some .sharpO => sharpOReader ucd buffer d input
  | some .sharpX => sharpXReader ucd buffer d input
  | some .sharpR => sharpRReader ucd buffer d input
  | some .other => .ok (.readMacro c, input)
  | none => .error (.noDispatchFunction c)

def dispatchMacroCharacter (buffer : TokenString) : List ℕ →
    Except SharpError (Outcome S × List ℕ)
  | [] => .error .endOfFile
  | c :: rest =>
    match ucd.digitp c 10 with
    | some d =>
      match argumentLoop ucd d rest with
      | some (i, c, rest) => callSharpReader ucd buffer c (some i) rest
      | none => .error .endOfFile
    | none => callSharpReader ucd buffer c none rest

/-- ecl_read_object: the object, and the input left. The character # is the only dispatching
one. -/
def readObject (w : World S) (readBase : ℕ) (readCase : ReadtableCase) (buffer : TokenString) :
    List ℕ → Except SharpError (Outcome S × List ℕ)
  | [] => .error .endOfFile
  | c :: rest =>
    match readtableGet c with
    | .whitespace => readObject w readBase readCase buffer rest
    | .terminating => .ok (.readMacro c, rest)
    | .nonTerminating => dispatchMacroCharacter ucd buffer rest
    | _ =>
      match readToken ucd readCase buffer (c :: rest) with
      | .error e => .error (.token e)
      | .ok (token, rest) =>
        match parseToken ucd w readBase false token with
        | .error e => .error (.token e)
        | .ok x => .ok (x, rest)

end

def Delimited (rest : List ℕ) : Prop :=
  ∀ c ∈ rest.head?, readtableGet c = .whitespace ∨ readtableGet c = .terminating

def Plain (c : ℕ) : Prop := c = 45 ∨ c = 46 ∨ 48 ≤ c ∧ c ≤ 57

def Numeral (c : ℕ) : Prop := c = 45 ∨ 48 ≤ c ∧ c ≤ 57 ∨ 65 ≤ c ∧ c ≤ 90

section
variable {ucd : Ucd} {readCase : ReadtableCase} {rest : List ℕ} {c : ℕ}

theorem pushExtend_chars (text : List ℕ) (s : TokenString) :
    (text.foldl pushExtend s).chars = s.chars ++ text := by
  induction text generalizing s with
  | nil => exact (List.append_nil _).symm
  | cons c text ih =>
    have hrest := ih (pushExtend s c)
    simpa [pushExtend] using hrest

theorem Plain.constituent (h : Plain c) : readtableGet c = .constituent := by
  unfold Plain at h
  unfold readtableGet
  simp only [List.mem_cons, List.not_mem_nil, or_false]
  iterate 5 rw [if_neg (by omega)]

theorem Numeral.constituent (h : Numeral c) : readtableGet c = .constituent := by
  unfold Numeral at h
  unfold readtableGet
  simp only [List.mem_cons, List.not_mem_nil, or_false]
  iterate 5 rw [if_neg (by omega)]

theorem Plain.pushCase (hucd : ucd.Lawful) (h : Plain c) (st : TokenState) :
    st.pushCase ucd readCase c = st.push c := by
  unfold Plain at h
  have hupper : ¬ ucd.upperCaseP c := by
    rw [hucd.asciiUpper c (by omega)]
    omega
  have hlower : ¬ ucd.lowerCaseP c := by
    rw [hucd.asciiLower c (by omega)]
    omega
  unfold TokenState.pushCase
  simp only [hupper, hlower, Bool.false_eq_true, if_false, ite_self]

theorem readChar_plain (hucd : ucd.Lawful) (h : Plain c) {st : TokenState}
    (hmode : st.mode = .normal) : readChar ucd readCase st c = .more (st.push c) := by
  have hvalid : invalidCharacterP c = false := by
    unfold Plain at h
    unfold invalidCharacterP
    simp only [Bool.or_eq_false_iff, decide_eq_false_iff_not]
    omega
  simp only [readChar, hmode, h.constituent, hvalid, Bool.false_eq_true, if_false,
    h.pushCase hucd]

theorem readChars_delimited (hrest : Delimited rest) {st : TokenState}
    (hmode : st.mode = .normal) : readChars ucd readCase rest st = .ok (st, rest) := by
  cases rest with
  | nil => rw [readChars, if_pos hmode]
  | cons c rest =>
    have hc := hrest c rfl
    rcases hc with hc | hc <;> simp only [readChars, readChar, hmode, hc]

theorem readChars_plain (hucd : ucd.Lawful) (hrest : Delimited rest) {text : List ℕ}
    (htext : ∀ c ∈ text, Plain c) {st : TokenState} (hmode : st.mode = .normal) :
    readChars ucd readCase (text ++ rest) st =
      .ok ({ st with string := text.foldl pushExtend st.string }, rest) := by
  induction text generalizing st with
  | nil => exact readChars_delimited hrest hmode
  | cons c text ih =>
    rw [List.cons_append, readChars, readChar_plain hucd (htext c List.mem_cons_self) hmode]
    exact @ih (fun d hd => htext d (List.mem_cons_of_mem c hd)) (st.push c) hmode

theorem readToken_plain (hucd : ucd.Lawful) (hrest : Delimited rest) {text : List ℕ}
    (htext : ∀ c ∈ text, Plain c) (buffer : TokenString) :
    readToken ucd readCase buffer (text ++ rest) =
      .ok (⟨text.foldl pushExtend { buffer with chars := [] }, []⟩, rest) := by
  rw [readToken, readChars_plain hucd hrest htext rfl]
  simp

theorem readConstituent_numeral (hrest : Delimited rest) {text : List ℕ}
    (htext : ∀ c ∈ text, Numeral c) (token : TokenString) :
    readConstituent token (text ++ rest) = (text.foldl pushExtend token, rest) := by
  induction text generalizing token with
  | nil =>
    cases rest with
    | nil => rfl
    | cons c rest =>
      have hc := hrest c rfl
      rcases hc with hc | hc <;> simp only [List.nil_append, List.foldl_nil, readConstituent, hc]
  | cons c text ih =>
    have hchar := (htext c List.mem_cons_self).constituent
    have htail := ih (fun d hd => htext d (List.mem_cons_of_mem c hd)) (pushExtend token c)
    simp only [List.cons_append, readConstituent, hchar, List.foldl_cons, htail]

theorem numeral_text {base : ℕ} (hbase : 2 ≤ base) (hlimit : base ≤ 36) (n : ℤ) :
    ∀ c ∈ signText n ++ digitText base n, Numeral c := by
  intro c hc
  rcases List.mem_append.mp hc with hc | hc
  · left
    unfold signText at hc
    split at hc
    · exact List.mem_singleton.mp hc
    · cases hc
  · obtain ⟨d, hd, rfl⟩ := List.mem_map.mp hc
    have hd := places_lt hbase n d hd
    unfold digitChar Numeral
    split
    · omega
    · rw [if_pos rfl]
      omega

theorem plain_text (n : ℤ) : ∀ c ∈ signText n ++ digitText 10 n ++ [46], Plain c := by
  intro c hc
  rcases List.mem_append.mp hc with hc | hc
  · rcases List.mem_append.mp hc with hc | hc
    · left
      unfold signText at hc
      split at hc
      · exact List.mem_singleton.mp hc
      · cases hc
    · obtain ⟨d, hd, rfl⟩ := List.mem_map.mp hc
      have hd := places_lt (le_of_lt (by decide : 2 < 10)) n d hd
      unfold digitChar Plain
      rw [if_pos hd]
      omega
  · exact .inr (.inl (List.mem_singleton.mp hc))

theorem tokenValue_text (ucd : Ucd) {base : ℕ} (hbase : 2 ≤ base) (hlimit : base ≤ 36) (n : ℤ) :
    TokenValue ucd base (signText n ++ digitText base n) (.integer n) := by
  have hvalue : TokenValue ucd base _ _ := .integer (signText n) (digitText base n) (sign_signText n)
    (digitText_ne_nil base n) (digits_digitText ucd hbase hlimit n)
  rwa [digitsValue_digitText ucd hbase hlimit, signOf_signText] at hvalue

theorem tokenValue_point (ucd : Ucd) {base : ℕ} (hlimit : base ≤ 36) (n : ℤ) :
    TokenValue ucd base (signText n ++ digitText 10 n ++ [46]) (.integer n) := by
  have hten : 10 ≤ 36 := by decide
  have hdigits := digits_digitText ucd (by decide : 2 ≤ 10) hten n
  have hbody : DecimalValue ucd (signOf (signText n)) (digitText 10 n ++ [46])
      (.integer (signOf (signText n) * digitsValue ucd 10 (digitText 10 n))) :=
    .point (digitText 10 n) hdigits (digitText_ne_nil 10 n)
  rw [digitsValue_digitText ucd (by decide) hten, signOf_signText] at hbody
  rw [List.append_assoc]
  refine .decimal (signText n) _ _ (sign_signText n) hbody ?_
  rintro ⟨s, ds, htext, hs, hne, hds⟩
  -- the point would be the last digit
  have hlast : (s ++ ds).getLast? = some 46 := by
    rw [← htext]
    simp
  rw [List.getLast?_append_of_ne_nil s hne] at hlast
  have hmem := List.mem_of_getLast? hlast
  have hdot := hds 46 hmem
  rw [digitp_dot hlimit] at hdot
  cases hdot

end

section
variable {S : Type} {ucd : Ucd} {w : World S} {readBase base : ℕ} {rest : List ℕ}

theorem parseToken_number (hucd : ucd.Lawful) (hreadBase : readBase ≤ 36) {string : TokenString}
    (hcolon : 58 ∉ string.chars) (hdecimal : DecimalSyntax ucd string.chars) {q : Number}
    (hvalue : TokenValue ucd readBase string.chars q) :
    parseToken ucd w readBase false ⟨string, []⟩ = .ok (.number q) := by
  have hdots := numeral_not_dots (.inl hdecimal)
  have hnil : string.chars ≠ [] := by
    rintro hnil
    simp [allDots, hnil] at hdots
  have hdot : string.chars ≠ [46] := by
    intro hdot
    simp [allDots, hdot] at hdots
  have hscan : scanRuns string.chars (Token.runs ⟨string, []⟩) ⟨0, 0, false⟩ =
      .ok ⟨0, 0, false⟩ := by
    simp [Token.runs, runs, scanRuns, scanRun_plain hcolon]
  have hunmarked : parseUnmarked ucd w readBase false string ⟨0, 0, false⟩ = .ok (.number q) := by
    rw [parseUnmarked, if_neg hdot, hdots, if_neg Bool.false_ne_true,
      numeral_head hucd (.inl hdecimal), if_neg (by simp), parseNumber_value hreadBase hvalue]
    exact if_pos rfl
  simp only [parseToken, hscan, Token.escaped, List.isEmpty_nil, Bool.not_true, Bool.false_or,
    List.isEmpty_eq_false_iff.mpr hnil, Bool.false_eq_true, if_false, hunmarked, ne_eq, not_true]

theorem decimalSyntax_point (ucd : Ucd) (n : ℤ) :
    DecimalSyntax ucd (signText n ++ digitText 10 n ++ [46]) := by
  refine ⟨signText n, digitText 10 n ++ [46], List.append_assoc _ _ _, sign_signText n, ?_⟩
  exact .dot (digitText 10 n) [] [] (digits_digitText ucd (by decide) (by decide) n)
    (by simp [Digits]) (by simpa using digitText_ne_nil 10 n) (.inl rfl)

theorem readObject_point (hucd : ucd.Lawful) (hreadBase : readBase ≤ 36)
    (readCase : ReadtableCase) (buffer : TokenString) (hrest : Delimited rest) (n : ℤ) :
    readObject ucd w readBase readCase buffer (signText n ++ digitText 10 n ++ [46] ++ rest) =
      .ok (.number (.integer n), rest) := by
  have hplain := plain_text n
  obtain ⟨c, text, htext⟩ : ∃ c text, signText n ++ digitText 10 n ++ [46] = c :: text :=
    List.exists_cons_of_ne_nil (by simp)
  have hread : readToken ucd readCase buffer _ = _ := readToken_plain hucd hrest hplain buffer
  generalize hstring : List.foldl pushExtend { buffer with chars := [] }
    (signText n ++ digitText 10 n ++ [46]) = string at hread
  have hchars : string.chars = signText n ++ digitText 10 n ++ [46] := by
    rw [← hstring, pushExtend_chars]
    rfl
  have hparse : parseToken ucd w readBase false ⟨string, []⟩ = .ok (.number (.integer n)) := by
    refine parseToken_number hucd hreadBase ?_ ?_ ?_
    · intro hmem
      rw [hchars] at hmem
      have hcolon := hplain 58 hmem
      unfold Plain at hcolon
      omega
    · rw [hchars]
      exact decimalSyntax_point ucd n
    · rw [hchars]
      exact tokenValue_point ucd hreadBase n
  rw [htext] at hplain hread ⊢
  have hc := (hplain c List.mem_cons_self).constituent
  rw [List.cons_append] at hread ⊢
  simp only [readObject, hc, hread, hparse]

theorem readNumber_text (ucd : Ucd) (hbase : 2 ≤ base) (hlimit : base ≤ 36) (buffer : TokenString)
    (macroChar : ℕ) (hrest : Delimited rest) (n : ℤ) :
    readNumber (S := S) ucd buffer base macroChar (signText n ++ digitText base n ++ rest) =
      .ok (.number (.integer n), rest) := by
  have hread := readConstituent_numeral hrest (numeral_text hbase hlimit n)
    { buffer with chars := [] }
  generalize hstring : List.foldl pushExtend { buffer with chars := [] }
    (signText n ++ digitText base n) = string at hread
  have hchars : string.chars = signText n ++ digitText base n := by
    rw [← hstring, pushExtend_chars]
    rfl
  have hparse : parseNumber ucd string base = (.number (.integer n), string.chars.length) := by
    refine parseNumber_value hlimit ?_
    rw [hchars]
    exact tokenValue_text ucd hbase hlimit n
  simp only [readNumber, hread, hparse, ne_eq, not_true, if_false]

theorem sharpRReader_text (ucd : Ucd) (hbase : 2 ≤ base) (hlimit : base ≤ 36)
    (buffer : TokenString) (hrest : Delimited rest) (n : ℤ) :
    sharpRReader (S := S) ucd buffer (some base) (signText n ++ digitText base n ++ rest) =
      .ok (.number (.integer n), rest) := by
  have hread := readNumber_text (S := S) ucd hbase hlimit buffer 82 hrest n
  rw [sharpRReader, if_neg (by omega), hread]

theorem digitp_ten (ucd : Ucd) {d : ℕ} (hd : d < 10) : ucd.digitp (d + 48) 10 = some d := by
  unfold Ucd.digitp
  rw [if_pos (by omega), Nat.add_sub_cancel]

theorem dispatch_prefix (ucd : Ucd) (hbase : 2 ≤ base) (hlimit : base ≤ 36) (buffer : TokenString)
    (hrest : Delimited rest) (n : ℤ) :
    dispatchMacroCharacter (S := S) ucd buffer
        ((basePrefix base).tail ++ (signText n ++ digitText base n ++ rest)) =
      .ok (.number (.integer n), rest) := by
  have hradix := sharpRReader_text (S := S) ucd hbase hlimit buffer hrest n
  have hnumber := fun macroChar =>
    readNumber_text (S := S) ucd hbase hlimit buffer macroChar hrest n
  have hletter : ∀ c, 97 ≤ c → c ≤ 122 → ucd.digitp c 10 = none := by
    intro c hlow hhigh
    unfold Ucd.digitp
    iterate 4 rw [if_neg (by omega)]
  unfold basePrefix
  split
  · next h =>
    subst h
    simp only [List.tail_cons, List.cons_append, List.nil_append, dispatchMacroCharacter,
      hletter 98 (by omega) (by omega)]
    exact hnumber 66
  split
  · next h =>
    subst h
    simp only [List.tail_cons, List.cons_append, List.nil_append, dispatchMacroCharacter,
      hletter 111 (by omega) (by omega)]
    exact hnumber 79
  split
  · next h =>
    subst h
    simp only [List.tail_cons, List.cons_append, List.nil_append, dispatchMacroCharacter,
      hletter 120 (by omega) (by omega)]
    exact hnumber 88
  split
  · have hten : base / 10 < 10 := by omega
    have hone : base % 10 < 10 := by omega
    have hvalue : 10 * (base / 10) + base % 10 = base := by omega
    simp only [List.tail_cons, List.cons_append, List.nil_append, dispatchMacroCharacter,
      digitp_ten ucd hten, argumentLoop, digitp_ten ucd hone, hvalue,
      hletter 114 (by omega) (by omega)]
    exact hradix
  · have hone : base < 10 := by omega
    simp only [List.tail_cons, List.cons_append, List.nil_append, dispatchMacroCharacter,
      digitp_ten ucd hone, argumentLoop, hletter 114 (by omega) (by omega)]
    exact hradix

theorem basePrefix_sharp (base : ℕ) : basePrefix base = 35 :: (basePrefix base).tail := by
  unfold basePrefix
  split_ifs <;> rfl

theorem readObject_prefix (ucd : Ucd) (w : World S) (readBase : ℕ) (readCase : ReadtableCase)
    (hbase : 2 ≤ base) (hlimit : base ≤ 36) (buffer : TokenString) (hrest : Delimited rest)
    (n : ℤ) :
    readObject ucd w readBase readCase buffer
        (basePrefix base ++ (signText n ++ digitText base n) ++ rest) =
      .ok (.number (.integer n), rest) := by
  have hdispatch := dispatch_prefix (S := S) ucd hbase hlimit buffer hrest n
  rw [basePrefix_sharp, List.cons_append, List.cons_append, List.append_assoc]
  exact hdispatch

theorem radixText (hbase : 2 ≤ base) (hlimit : base ≤ 36) (n : ℤ) (decimalp : Bool) :
    siIntegerToString [] (bigNormalize n) base true decimalp =
      .ok (if decimalp ∧ base = 10 then signText n ++ digitText 10 n ++ [46]
        else basePrefix base ++ (signText n ++ digitText base n)) := by
  have hdigits := fun buffer => bignumToString_eq hbase hlimit buffer n
  by_cases h : decimalp ∧ base = 10
  · obtain ⟨rfl, rfl⟩ := h
    have hten := hdigits []
    rw [Nat.cast_ofNat, List.nil_append] at hten
    simp [siIntegerToString, value_bigNormalize, hten]
  · rw [if_neg h]
    cases decimalp with
    | false => simp [siIntegerToString, value_bigNormalize, hdigits]
    | true =>
      have hten : base ≠ 10 := fun hten => h ⟨rfl, hten⟩
      simp [siIntegerToString, value_bigNormalize, hdigits, hten]

/-- Every integer in every base: its digits parse to it, and so does the text with a prefix or a
point, whatever the radix of the reader. -/
theorem integers_round_trip (hucd : ucd.Lawful) (hbase : 2 ≤ base) (hlimit : base ≤ 36) (n : ℤ) :
    (∀ (buffer : List ℕ) (decimalp : Bool), ∃ text,
      siIntegerToString buffer (bigNormalize n) base false decimalp = .ok text ∧
        (NumberRanges.parseInteger ucd text buffer.length text.length base).result =
          some (some (bigNormalize n), text.length)) ∧
      ∀ (decimalp : Bool), ∃ text,
        siIntegerToString [] (bigNormalize n) base true decimalp = .ok text ∧
          ∀ (w : World S) (readBase : ℕ) (readCase : ReadtableCase) (buffer : TokenString)
            (rest : List ℕ), 2 ≤ readBase → readBase ≤ 36 → Delimited rest →
            readObject ucd w readBase readCase buffer (text ++ rest) =
              .ok (.number (.integer n), rest) := by
  constructor
  · intro buffer decimalp
    refine ⟨buffer ++ (signText n ++ digitText base n), ?_, ?_⟩
    · rw [siIntegerToString, if_neg Bool.false_ne_true, value_bigNormalize,
        bignumToString_eq hbase hlimit]
    · exact parseInteger_text ucd hbase hlimit buffer n rfl
  · intro decimalp
    refine ⟨_, radixText hbase hlimit n decimalp, ?_⟩
    intro w readBase readCase buffer rest _ hreadBase hrest
    split
    · exact readObject_point hucd hreadBase readCase buffer hrest n
    · exact readObject_prefix ucd w readBase readCase hbase hlimit buffer hrest n

end

/-- most-negative-fixnum in base sixteen, read with base ten. -/
theorem mostNegative_round_trips :
    (∀ (buffer : List ℕ) (decimalp : Bool), ∃ text,
      siIntegerToString buffer (bigNormalize (-2305843009213693952)) 16 false decimalp = .ok text ∧
        (NumberRanges.parseInteger asciiUcd text buffer.length text.length 16).result =
          some (some (bigNormalize (-2305843009213693952)), text.length)) ∧
      ∃ text, siIntegerToString [] (bigNormalize (-2305843009213693952)) 16 true false = .ok text ∧
        readObject asciiUcd (oneSymbol [65]) 10 .upcase emptyBuffer (text ++ [32]) =
          .ok (.number (.integer (-2305843009213693952)), [32]) := by
  have htrip := integers_round_trip (S := Unit) asciiUcd_lawful (by decide : 2 ≤ 16) (by decide)
    (-2305843009213693952)
  obtain ⟨text, htext, hread⟩ := htrip.2 false
  refine ⟨htrip.1, text, htext, hread _ 10 .upcase _ [32] (by decide) (by decide) ?_⟩
  intro c hc
  obtain rfl := Option.some.inj hc
  exact .inl rfl

end IntegerReader
