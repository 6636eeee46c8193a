import Ecl.CharacterStreams

/-! ecl_eformat_file_string_length of src/c/streams/strm_eformat.d beside the writing of the same
string, with the external formats that a program defines by tables. -/
namespace StringMeasuring

open ExternalFormats CharacterStreams

/-- What an encoder looks up in a hash table: the code of a character, and the octets under T. -/
structure Table where
  code : ℤ → Option ℤ
  escape : List UInt8

/-- The encoder of a stream with its state: the format table of a multistate encoding is a circular
list of tables. -/
inductive Encoding where
  | standard (format : ExternalFormat)
  | user (table : Table)
  | multistate (tables : List Table) (current : ℕ)

def codeOctets (code : ℤ) : List UInt8 :=
  if code > 0xFF then [octet (code >>> (8 : ℕ)), octet code] else [octet code]

def userEncoder (table : Table) (c : ℤ) : Option (List UInt8) := (table.code c).map codeOctets

/-- The loop of user_multistate_encoder over n more tables from the place p on. -/
def searchTables (tables : List Table) (c : ℤ) : ℕ → ℕ → Option (ℕ × List UInt8 × ℤ)
  | 0, _ => none
  | n + 1, p =>
    let table := tables.getD p ⟨fun _ => none, []⟩
    match table.code c with
    | some code => some (p, table.escape, code)
    | none => searchTables tables c n ((p + 1) % tables.length)

def userMultistateEncoder (tables : List Table) (current : ℕ) (c : ℤ) :
    Option (List UInt8 × ℕ) :=
  (searchTables tables c tables.length current).map fun found =>
    ((if found.1 = current then [] else found.2.1) ++ codeOctets found.2.2, found.1)

/-- None stands for a call of encoding_error. -/
def Encoding.encode : Encoding → ℤ → Option (List UInt8 × Encoding)
  | standard format, c => (encoder format c).map fun e => (e.1, standard e.2)
  | user table, c => (userEncoder table c).map (·, user table)
  | multistate tables current, c =>
    (userMultistateEncoder tables current c).map fun e => (e.1, multistate tables e.2)

/-- An encoder with encoding_error, whose handler is given the code of the character and answers at
most n times. None where the call does not return. -/
def encodeWith (handler : ℤ → Restart) : ℕ → Encoding → ℤ → Option (List UInt8) × Encoding
  | 0, e, c =>
    match e.encode c with
    | some r => (some r.1, r.2)
    | none => (none, e)
  | n + 1, e, c =>
    match e.encode c with
    | some r => (some r.1, r.2)
    | none =>
      match handler c with
      | .unwind => (none, e)
      | .ignore => (some [], e)
      | .supply c' => encodeWith handler n e c'

structure OutputStream where
  encoding : Encoding
  lineEnding : LineEnding
  output : List UInt8

section
variable (handler : ℤ → Restart) (n : ℕ)

def eformatWriteChar (s : OutputStream) (c : ℤ) : Option Unit × OutputStream :=
  match encodeWith handler n s.encoding c with
  | (some octets, e) => (some (), { s with encoding := e, output := s.output ++ octets })
  | (none, e) => (none, { s with encoding := e })

def eformatWriteCharCr (s : OutputStream) (c : ℤ) : Option Unit × OutputStream :=
  if c = charNewline then eformatWriteChar handler n s charReturn else eformatWriteChar handler n s c

def eformatWriteCharCrlf (s : OutputStream) (c : ℤ) : Option Unit × OutputStream :=
  if c = charNewline then
    match eformatWriteChar handler n s charReturn with
    | (some _, s') => eformatWriteChar handler n s' charLinefeed
    | out => out
  else eformatWriteChar handler n s c

def streamWriteChar (s : OutputStream) (c : ℤ) : Option Unit × OutputStream :=
  match s.lineEnding with
  | .lf => eformatWriteChar handler n s c
  | .cr => eformatWriteCharCr handler n s c
  | .crlf => eformatWriteCharCrlf handler n s c

def streamWriteString (s : OutputStream) : List ℤ → Option Unit × OutputStream
  | [] => (some (), s)
  | c :: string =>
    match streamWriteChar handler n s c with
    | (some _, s') => streamWriteString s' string
    | out => out

def encodedSize (s : OutputStream) (c : ℤ) : Option ℕ × OutputStream :=
  match encodeWith handler n s.encoding c with
  | (some octets, e) => (some octets.length, { s with encoding := e })
  | (none, e) => (none, { s with encoding := e })

def computeCharSize (s : OutputStream) (c : ℤ) : Option ℕ × OutputStream :=
  if c = charNewline then
    if s.lineEnding = .cr ∨ s.lineEnding = .crlf then
      match encodedSize handler n s charReturn with
      | (some l, s') =>
        if s.lineEnding = .crlf then
          match encodedSize handler n s' charLinefeed with
          | (some l', s'') => (some (l + l'), s'')
          | out => out
        else (some l, s')
      | out => out
    else encodedSize handler n s charLinefeed
  else encodedSize handler n s c

def fileStringLength (s : OutputStream) (l : ℕ) : List ℤ → Option ℕ × OutputStream
  | [] => (some l, s)
  | c :: string =>
    match computeCharSize handler n s c with
    | (some size, s') => fileStringLength s' (l + size) string
    | out => out

def OnlyMeasures (s : OutputStream) (string : List ℤ) : Prop :=
  let measured := fileStringLength handler n s 0 string
  let written := streamWriteString handler n s string
  measured.1 = written.1.map (fun _ => written.2.output.length - s.output.length) ∧
    measured.2 = s

end

def lineCharacters (lineEnding : LineEnding) (c : ℤ) : List ℤ :=
  if c = charNewline then
    match lineEnding with
    | .lf => [charLinefeed]
    | .cr => [charReturn]
    | .crlf => [charReturn, charLinefeed]
  else [c]

/-- The place of the table in which a character, or the one that replaces it, is found. -/
def tableFor (handler : ℤ → Restart) (tables : List Table) : ℕ → ℕ → ℤ → Option ℕ
  | 0, current, c => (searchTables tables c tables.length current).map Prod.fst
  | n + 1, current, c =>
    match searchTables tables c tables.length current with
    | some found => some found.1
    | none =>
      match handler c with
      | .unwind => none
      | .ignore => some current
      | .supply c' => tableFor handler tables n current c'

def lastTable (handler : ℤ → Restart) (tables : List Table) (n : ℕ) : ℕ → List ℤ → ℕ
  | current, [] => current
  | current, c :: cs =>
    match tableFor handler tables n current c with
    | some p => lastTable handler tables n p cs
    | none => current

def Unshifted (handler : ℤ → Restart) (n : ℕ) (lineEnding : LineEnding) (string : List ℤ) :
    Encoding → Prop
  | .standard format => format = .ucs2 ∨ format = .ucs4 → string = []
  | .user _ => True
  | .multistate tables current =>
    lastTable handler tables n current (string.flatMap (lineCharacters lineEnding)) = current

def encodeAll (handler : ℤ → Restart) (n : ℕ) : Encoding → List ℤ → Option (List UInt8) × Encoding
  | e, [] => (some [], e)
  | e, c :: cs =>
    match encodeWith handler n e c with
    | (some octets, e') =>
      ((encodeAll handler n e' cs).1.map (octets ++ ·), (encodeAll handler n e' cs).2)
    | (none, e') => (none, e')

section
variable {handler : ℤ → Restart} {n : ℕ} {e e' : Encoding} {octets : List UInt8} {cs cs' : List ℤ}

theorem encodeAll_some (h : encodeAll handler n e cs = (some octets, e')) :
    encodeAll handler n e (cs ++ cs') =
      ((encodeAll handler n e' cs').1.map (octets ++ ·), (encodeAll handler n e' cs').2) := by
  induction cs generalizing e octets with
  | nil =>
    cases h
    simp
  | cons c cs ih =>
    rw [List.cons_append, encodeAll]
    rw [encodeAll] at h
    rcases hc : encodeWith handler n e c with ⟨- | o, e₁⟩
    · rw [hc] at h
      cases h
    · rw [hc] at h
      rcases hcs : encodeAll handler n e₁ cs with ⟨- | o', e₂⟩
      · simp [hcs] at h
      · simp only [hcs, Option.map_some, Prod.mk.injEq, Option.some.injEq] at h
        obtain ⟨rfl, rfl⟩ := h
        simp only [ih hcs, Option.map_map, Prod.mk.injEq, and_true]
        congr 1
        funext x
        exact (List.append_assoc o o' x).symm

theorem encodeAll_none (h : encodeAll handler n e cs = (none, e')) :
    encodeAll handler n e (cs ++ cs') = (none, e') := by
  induction cs generalizing e with
  | nil => cases h
  | cons c cs ih =>
    rw [List.cons_append, encodeAll]
    rw [encodeAll] at h
    rcases hc : encodeWith handler n e c with ⟨- | o, e₁⟩
    · rw [hc] at h
      exact h
    · rw [hc] at h
      simp only [Prod.mk.injEq, Option.map_eq_none_iff] at h
      have hcs := ih (Prod.ext h.1 h.2)
      simp [hcs]

/-- What a write does, given what the encoder does. -/
structure Wrote (s : OutputStream) (r : Option (List UInt8) × Encoding)
    (out : Option Unit × OutputStream) : Prop where
  returned : out.1 = r.1.map fun _ => ()
  encoding : out.2.encoding = r.2
  lineEnding : out.2.lineEnding = s.lineEnding
  output : ∀ octets, r.1 = some octets → out.2.output = s.output ++ octets

variable {s : OutputStream} {c : ℤ} {string : List ℤ}

theorem encodeAll_single : encodeAll handler n e [c] = encodeWith handler n e c := by
  rw [encodeAll]
  rcases encodeWith handler n e c with ⟨- | o, e₁⟩
  · rfl
  · simp [encodeAll]

theorem eformatWriteChar_wrote :
    Wrote s (encodeAll handler n s.encoding [c]) (eformatWriteChar handler n s c) := by
  rw [encodeAll_single, eformatWriteChar]
  rcases encodeWith handler n s.encoding c with ⟨- | o, e₁⟩
  · exact ⟨rfl, rfl, rfl, fun _ h => by cases h⟩
  · refine ⟨rfl, rfl, rfl, ?_⟩
    intro octets h
    cases h
    rfl

theorem Wrote.bind {out out' : Option Unit × OutputStream} {cs cs' : List ℤ}
    (h : Wrote s (encodeAll handler n s.encoding cs) out)
    (h' : Wrote out.2 (encodeAll handler n out.2.encoding cs') out') :
    Wrote s (encodeAll handler n s.encoding (cs ++ cs'))
      (match out.1 with
        | some _ => out'
        | none => out) := by
  rcases hcs : encodeAll handler n s.encoding cs with ⟨- | o, e₁⟩
  · rw [hcs] at h
    rw [encodeAll_none hcs, h.returned]
    exact ⟨h.returned, h.encoding, h.lineEnding, fun _ h => by cases h⟩
  · rw [hcs] at h
    rw [encodeAll_some hcs, h.returned]
    have he : out.2.encoding = e₁ := h.encoding
    rw [he] at h'
    refine ⟨?_, h'.encoding, h'.lineEnding.trans h.lineEnding, ?_⟩
    · rw [Option.map_map]
      exact h'.returned
    · intro octets ho
      obtain ⟨o', ho', rfl⟩ := Option.map_eq_some_iff.mp ho
      change out'.2.output = _
      rw [h'.output o' ho', h.output o rfl, List.append_assoc]

theorem streamWriteChar_wrote :
    Wrote s (encodeAll handler n s.encoding (lineCharacters s.lineEnding c))
      (streamWriteChar handler n s c) := by
  rw [streamWriteChar, lineCharacters.eq_def]
  by_cases hc : c = charNewline
  · rw [if_pos hc]
    cases s.lineEnding with
    | lf =>
      rw [hc]
      exact eformatWriteChar_wrote
    | cr =>
      simp only [eformatWriteCharCr, if_pos hc]
      exact eformatWriteChar_wrote
    | crlf =>
      simp only [eformatWriteCharCrlf, if_pos hc]
      have h := @eformatWriteChar_wrote handler n s charReturn
      have hboth := h.bind (@eformatWriteChar_wrote handler n _ charLinefeed)
      rcases hout : eformatWriteChar handler n s charReturn with ⟨- | _, s'⟩
      · rw [hout] at hboth
        exact hboth
      · rw [hout] at hboth
        exact hboth
  · rw [if_neg hc]
    cases s.lineEnding with
    | lf => exact eformatWriteChar_wrote
    | cr =>
      simp only [eformatWriteCharCr, if_neg hc]
      exact eformatWriteChar_wrote
    | crlf =>
      simp only [eformatWriteCharCrlf, if_neg hc]
      exact eformatWriteChar_wrote

theorem streamWriteString_wrote :
    Wrote s (encodeAll handler n s.encoding (string.flatMap (lineCharacters s.lineEnding)))
      (streamWriteString handler n s string) := by
  induction string generalizing s with
  | nil =>
    refine ⟨rfl, rfl, rfl, ?_⟩
    intro octets h
    cases h
    exact (List.append_nil _).symm
  | cons c string ih =>
    have h := @streamWriteChar_wrote handler n s c
    have hboth := h.bind (h.lineEnding ▸ @ih (streamWriteChar handler n s c).2)
    rw [List.flatMap_cons, streamWriteString]
    rcases hout : streamWriteChar handler n s c with ⟨- | _, s'⟩
    · rw [hout] at hboth
      exact hboth
    · rw [hout] at hboth
      exact hboth

def Measured (s : OutputStream) (l : ℕ) (r : Option (List UInt8) × Encoding) :
    Option ℕ × OutputStream :=
  (r.1.map (l + ·.length), { s with encoding := r.2 })

theorem encodedSize_eq :
    encodedSize handler n s c = Measured s 0 (encodeAll handler n s.encoding [c]) := by
  rw [encodeAll_single, encodedSize]
  rcases encodeWith handler n s.encoding c with ⟨- | o, e₁⟩
  · rfl
  · simp [Measured]

theorem measured_append {l : ℕ} :
    Measured s l (encodeAll handler n s.encoding (cs ++ cs')) =
      match Measured s l (encodeAll handler n s.encoding cs) with
      | (some l', s') => Measured s' l' (encodeAll handler n s'.encoding cs')
      | out => out := by
  rcases hcs : encodeAll handler n s.encoding cs with ⟨- | o, e₁⟩
  · rw [encodeAll_none hcs]
    rfl
  · rw [encodeAll_some hcs]
    simp only [Measured, Option.map_some, Option.map_map, Prod.mk.injEq, and_true]
    congr 1
    funext x
    simp [Nat.add_assoc]

theorem computeCharSize_eq :
    computeCharSize handler n s c =
      Measured s 0 (encodeAll handler n s.encoding (lineCharacters s.lineEnding c)) := by
  rw [computeCharSize, lineCharacters.eq_def]
  by_cases hc : c = charNewline
  · rw [if_pos hc, if_pos hc]
    cases hl : s.lineEnding with
    | lf => exact encodedSize_eq
    | cr =>
      simp only [encodedSize_eq, true_or, if_true, reduceCtorEq, if_false]
      rcases encodeAll handler n s.encoding [charReturn] with ⟨- | o, e₁⟩ <;> rfl
    | crlf =>
      have happend := @measured_append handler n [charReturn] [charLinefeed] s 0
      rw [List.singleton_append] at happend
      simp only [encodedSize_eq, or_true, if_true, happend]
      rcases encodeAll handler n s.encoding [charReturn] with ⟨- | o, e₁⟩
      · rfl
      · simp only [Measured, Option.map_some]
        rcases encodeAll handler n e₁ [charLinefeed] with ⟨- | o', e₂⟩
        · rfl
        · simp
  · rw [if_neg hc, if_neg hc]
    exact encodedSize_eq

theorem fileStringLength_eq {l : ℕ} :
    fileStringLength handler n s l string =
      Measured s l (encodeAll handler n s.encoding (string.flatMap (lineCharacters s.lineEnding))) := by
  induction string generalizing s l with
  | nil => rfl
  | cons c string ih =>
    rw [fileStringLength, computeCharSize_eq, List.flatMap_cons, measured_append]
    rcases encodeAll handler n s.encoding (lineCharacters s.lineEnding c) with ⟨- | o, e₁⟩
    · rfl
    · simp only [Measured, Option.map_some, Nat.zero_add, ih]

theorem onlyMeasures_iff_encoding :
    OnlyMeasures handler n s string ↔
      (encodeAll handler n s.encoding (string.flatMap (lineCharacters s.lineEnding))).2 =
        s.encoding := by
  have hwrote := @streamWriteString_wrote handler n s string
  rw [OnlyMeasures, fileStringLength_eq]
  rcases hr : encodeAll handler n s.encoding (string.flatMap (lineCharacters s.lineEnding)) with
    ⟨r, e₁⟩
  rw [hr] at hwrote
  have hnumber : (Measured s 0 (r, e₁)).1 = (streamWriteString handler n s string).1.map
      (fun _ => (streamWriteString handler n s string).2.output.length - s.output.length) := by
    rw [hwrote.returned]
    cases r with
    | none => rfl
    | some octets => simp [Measured, hwrote.output octets rfl]
  constructor
  · rintro ⟨-, h⟩
    exact congrArg OutputStream.encoding h
  · intro h
    refine ⟨hnumber, ?_⟩
    change ({ s with encoding := e₁ } : OutputStream) = s
    rw [show e₁ = s.encoding from h]

theorem encodeAll_keeps {I : Encoding → Prop}
    (hI : ∀ e c, I e → I (encodeWith handler n e c).2) (he : I e) :
    I (encodeAll handler n e cs).2 := by
  induction cs generalizing e with
  | nil => exact he
  | cons c cs ih =>
    have hnext := hI e c he
    rw [encodeAll]
    rcases hc : encodeWith handler n e c with ⟨- | o, e₁⟩
    · rw [hc] at hnext
      exact hnext
    · rw [hc] at hnext
      exact ih hnext

theorem encodeWith_keeps (hkeep : ∀ c r, e.encode c = some r → r.2 = e) (c : ℤ) :
    (encodeWith handler n e c).2 = e := by
  induction n generalizing c with
  | zero =>
    rw [encodeWith]
    cases hc : e.encode c with
    | none => rfl
    | some r => exact hkeep c r hc
  | succ n ih =>
    rw [encodeWith]
    cases hc : e.encode c with
    | some r => exact hkeep c r hc
    | none =>
      cases handler c with
      | unwind => rfl
      | ignore => rfl
      | supply c' => exact ih c'

theorem encodeAll_kept (hkeep : ∀ c r, e.encode c = some r → r.2 = e) (cs : List ℤ) :
    (encodeAll handler n e cs).2 = e :=
  encodeAll_keeps (I := (· = e)) (fun e' c h => by
    rw [show e' = e from h]
    exact encodeWith_keeps hkeep c) rfl

theorem standard_keeps {format : ExternalFormat} (h : ¬ (format = .ucs2 ∨ format = .ucs4)) (c : ℤ)
    (r : List UInt8 × Encoding) (hr : (Encoding.standard format).encode c = some r) :
    r.2 = .standard format := by
  have hkeep : ∀ x, encoder format c = some x → x.2 = format := by
    intro x hx
    cases format with
    | latin1 | usAscii =>
      obtain ⟨_, -, rfl⟩ := Option.map_eq_some_iff.mp hx
      rfl
    | ucs2 => exact absurd (.inl rfl) h
    | ucs4 => exact absurd (.inr rfl) h
    | utf8 | ucs2be | ucs2le | ucs4be | ucs4le =>
      cases hx
      rfl
  obtain ⟨x, hx, rfl⟩ := Option.map_eq_some_iff.mp hr
  exact congrArg Encoding.standard (hkeep x hx)

theorem encodeWith_some {c : ℤ} (h : e.encode c = some (octets, e')) :
    encodeWith handler n e c = (some octets, e') := by
  cases n with
  | zero => rw [encodeWith, h]
  | succ n => rw [encodeWith, h]

theorem marked_turns {format : ExternalFormat} (h : format = .ucs2 ∨ format = .ucs4) (c : ℤ) :
    (encodeAll handler n (.standard format) (c :: cs)).2 ≠ .standard format := by
  have hturn : ∃ octets turned, turned ≠ format ∧ ¬ (turned = .ucs2 ∨ turned = .ucs4) ∧
      encodeWith handler n (.standard format) c = (some octets, .standard turned) := by
    rcases h with rfl | rfl
    · exact ⟨_, .ucs2be, by decide, by decide, encodeWith_some rfl⟩
    · exact ⟨_, .ucs4be, by decide, by decide, encodeWith_some rfl⟩
  obtain ⟨octets, turned, hne, hplain, heq⟩ := hturn
  rw [encodeAll, heq]
  intro hback
  have hkept := @encodeAll_kept handler n _ (standard_keeps hplain) cs
  exact hne (Encoding.standard.inj (hkept.symm.trans hback))

section
variable {tables : List Table} {current : ℕ}

theorem multistate_found {found : ℕ × List UInt8 × ℤ}
    (h : searchTables tables c tables.length current = some found) :
    ∃ octets, (Encoding.multistate tables current).encode c =
      some (octets, .multistate tables found.1) := by
  rw [Encoding.encode, userMultistateEncoder, h]
  exact ⟨_, rfl⟩

theorem multistate_missing (h : searchTables tables c tables.length current = none) :
    (Encoding.multistate tables current).encode c = none := by
  rw [Encoding.encode, userMultistateEncoder, h]
  rfl

theorem encodeWith_multistate (c : ℤ) :
    (∀ p, tableFor handler tables n current c = some p →
      ∃ octets, encodeWith handler n (.multistate tables current) c =
        (some octets, .multistate tables p)) ∧
      (tableFor handler tables n current c = none →
        encodeWith handler n (.multistate tables current) c = (none, .multistate tables current)) := by
  induction n generalizing c with
  | zero =>
    rw [tableFor]
    cases hsearch : searchTables tables c tables.length current with
    | none =>
      constructor
      · intro p h
        cases h
      · intro _
        rw [encodeWith, multistate_missing hsearch]
    | some found =>
      obtain ⟨octets, hoctets⟩ := multistate_found hsearch
      constructor
      · intro p h
        cases h
        exact ⟨octets, encodeWith_some hoctets⟩
      · intro h
        cases h
  | succ n ih =>
    rw [tableFor]
    cases hsearch : searchTables tables c tables.length current with
    | some found =>
      obtain ⟨octets, hoctets⟩ := multistate_found hsearch
      constructor
      · intro p h
        cases h
        exact ⟨octets, encodeWith_some hoctets⟩
      · intro h
        cases h
    | none =>
      rw [encodeWith, multistate_missing hsearch]
      cases handler c with
      | unwind =>
        constructor
        · intro p h
          cases h
        · exact fun _ => rfl
      | ignore =>
        constructor
        · intro p h
          cases h
          exact ⟨[], rfl⟩
        · intro h
          cases h
      | supply c' => exact ih c'

theorem encodeAll_multistate :
    (encodeAll handler n (.multistate tables current) cs).2 =
      .multistate tables (lastTable handler tables n current cs) := by
  induction cs generalizing current with
  | nil => rfl
  | cons c cs ih =>
    obtain ⟨hsome, hnone⟩ := @encodeWith_multistate handler n tables current c
    rw [encodeAll, lastTable]
    cases hfor : tableFor handler tables n current c with
    | none => rw [hnone hfor]
    | some p =>
      obtain ⟨octets, hoctets⟩ := hsome p hfor
      rw [hoctets]
      exact ih

end

theorem unshifted_iff {lineEnding : LineEnding} :
    (encodeAll handler n e (string.flatMap (lineCharacters lineEnding))).2 = e ↔
      Unshifted handler n lineEnding string e := by
  cases e with
  | user table =>
    refine iff_of_true (encodeAll_kept ?_ _) trivial
    intro c r hr
    obtain ⟨_, -, rfl⟩ := Option.map_eq_some_iff.mp hr
    rfl
  | multistate tables current =>
    rw [encodeAll_multistate, Encoding.multistate.injEq, and_iff_right rfl]
    rfl
  | standard format =>
    by_cases h : format = .ucs2 ∨ format = .ucs4
    · refine Iff.trans ?_ (forall_prop_of_true h).symm
      cases string with
      | nil => exact iff_of_true rfl rfl
      | cons c string =>
        refine iff_of_false ?_ (List.cons_ne_nil c string)
        obtain ⟨d, ds, hd⟩ : ∃ d ds, lineCharacters lineEnding c = d :: ds := by
          unfold lineCharacters
          split_ifs
          · cases lineEnding <;> exact ⟨_, _, rfl⟩
          · exact ⟨_, _, rfl⟩
        rw [List.flatMap_cons, hd, List.cons_append]
        exact marked_turns h d
    · exact iff_of_true (encodeAll_kept (standard_keeps h) _) (fun hf => absurd hf h)

/-- The number is always the one of the octets that writing appends, and the stream is left alone
unless the encoder of its first character changes it: ucs-2 and ucs-4 before their mark is written,
and tables that the string does not come back to. -/
theorem onlyMeasures_iff (handler : ℤ → Restart) (n : ℕ) (s : OutputStream) (string : List ℤ) :
    OnlyMeasures handler n s string ↔ Unshifted handler n s.lineEnding string s.encoding :=
  onlyMeasures_iff_encoding.trans unshifted_iff

/-- After the letter A has been measured no mark is written in front of it. -/
theorem measuring_takes_mark :
    ¬ OnlyMeasures (fun _ => .unwind) 0 ⟨.standard .ucs2, .lf, []⟩ [0x41] ∧
      (streamWriteString (fun _ => .unwind) 0 ⟨.standard .ucs2, .lf, []⟩ [0x41]).2.output =
        [0xFE, 0xFF, 0, 0x41] ∧
      (streamWriteString (fun _ => .unwind) 0
        (fileStringLength (fun _ => .unwind) 0 ⟨.standard .ucs2, .lf, []⟩ 0 [0x41]).2 [0x41]).2.output =
        [0, 0x41] := by
  refine ⟨?_, by decide, by decide⟩
  intro h
  exact absurd (unshifted_iff.mp (onlyMeasures_iff_encoding.mp h) (.inl rfl)) (by decide)

end

end StringMeasuring
