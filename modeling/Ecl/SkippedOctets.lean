import Ecl.FormatRoundTrip
import Ecl.ResumedReading

/-! Decoding errors that the handler answers with NIL: read-char of UTF-8 streams, and of sequence
streams over vectors of 16-bit units (seq_in_ucs2_read_char of src/c/streams/strm_sequence.d). -/
namespace SkippedOctets

open ExternalFormats IncrementalDecoding CharacterStreams DecoderLaws CharacterReading
  FormatRoundTrip ResumedReading

/-- Every error is answered with NIL. -/
def ignoring : Handler := fun _ => .ignore

/-- The characters of the valid sequences; the number bounds the sequences. -/
def characters : ℕ → List UInt8 → List ℤ
  | 0, _ => []
  | n + 1, b =>
    match utf8Decoder b with
    | .eof => []
    | .char c rest => c :: characters n rest
    | .error _ rest => characters n rest

def validCharacters (b : List UInt8) : List ℤ := characters (b.length + 1) b

/-- The skipped octets in front of every character fit into the buffer together with it, and so do
those at the end. room is what the current read has left. -/
def FitWithin : ℕ → ℕ → List UInt8 → Prop
  | 0, _, _ => True
  | n + 1, room, b =>
    match utf8Decoder b with
    | .eof => b.length ≤ room
    | .char _ rest => b.length - rest.length ≤ room ∧ FitWithin n encodingBufferMaxSize rest
    | .error _ rest =>
      b.length - rest.length ≤ room ∧ FitWithin n (room - (b.length - rest.length)) rest

instance fitWithinDecidable : ∀ n room b, Decidable (FitWithin n room b)
  | 0, _, _ => isTrue trivial
  | n + 1, room, b =>
    match h : utf8Decoder b with
    | .eof => decidable_of_iff (b.length ≤ room) (by rw [FitWithin, h])
    | .char _ rest =>
      have := fitWithinDecidable n encodingBufferMaxSize rest
      decidable_of_iff (b.length - rest.length ≤ room ∧ FitWithin n encodingBufferMaxSize rest)
        (by rw [FitWithin, h])
    | .error _ rest =>
      have := fitWithinDecidable n (room - (b.length - rest.length)) rest
      decidable_of_iff
        (b.length - rest.length ≤ room ∧ FitWithin n (room - (b.length - rest.length)) rest)
        (by rw [FitWithin, h])

def Fits (room : ℕ) (b : List UInt8) : Prop := FitWithin (b.length + 1) room b

instance (room : ℕ) (b : List UInt8) : Decidable (Fits room b) :=
  inferInstanceAs (Decidable (FitWithin (b.length + 1) room b))

inductive ReadsTo (handler : Handler) : Stream → List ℤ → Stream → Prop
  | eof {s s'} (h : readChar handler s = .eof s') : ReadsTo handler s [] s'
  | char {s s' s'' c cs} (h : readChar handler s = .char c s') (hs : ReadsTo handler s' cs s'') :
    ReadsTo handler s (c :: cs) s''

/-- Exactly the characters of the valid sequences, and the end of file at the end. -/
def DeliversValid (kind : StreamKind) (lineEnding : LineEnding) (content : List UInt8) : Prop :=
  ∃ s', ReadsTo ignoring (openInput kind .utf8 lineEnding content)
    (readCharText lineEnding ⟨validCharacters content, none⟩).items s' ∧ s'.remaining = []

inductive UnitRead where
  | returned (c : ℤ) (position : ℕ)
  | exited (units : List UInt16)
  | unfinished
  deriving DecidableEq

/-- seq_in_ucs2_read_char on the units up to the limit; the number bounds the calls of itself. -/
def seqInUcs2ReadChar (handler : List UInt16 → Restart) (units : List UInt16) : ℕ → ℕ → UnitRead
  | 0, _ => .unfinished
  | n + 1, position =>
    let last := units.length
    let decodingError (err : List UInt16) : UnitRead :=
      match handler err with
      | .unwind => .exited err
      | .ignore => seqInUcs2ReadChar handler units n position
      | .supply c => .returned c position
    if position ≥ last then .returned eof position
    else
      let c := (units.getD position 0).toNat
      if 0xD800 ≤ c ∧ c ≤ 0xDBFF then
        if position + 1 ≥ last then decodingError [units.getD position 0]
        else
          let aux := (units.getD (position + 1) 0).toNat
          if aux < 0xDC00 ∨ 0xDFFF < aux then
            decodingError [units.getD position 0, units.getD (position + 1) 0]
          else .returned (((c &&& 0x3FF) <<< 10) + (aux &&& 0x3FF) + 0x10000 : ℕ) (position + 2)
      else .returned c (position + 1)

inductive ConsumesAll (units : List UInt16) : ℕ → Prop
  | eof {position} (hp : units.length ≤ position)
    (h : ∃ n, seqInUcs2ReadChar (fun _ => .ignore) units n position = .returned eof position) :
    ConsumesAll units position
  | char {position position' c} (hp : position < position')
    (h : ∃ n, seqInUcs2ReadChar (fun _ => .ignore) units n position = .returned c position')
    (hrest : ConsumesAll units position') : ConsumesAll units position

def High (c : UInt16) : Prop := 0xD800 ≤ c.toNat ∧ c.toNat ≤ 0xDBFF

def Low (c : UInt16) : Prop := 0xDC00 ≤ c.toNat ∧ c.toNat ≤ 0xDFFF

inductive Paired : List UInt16 → Prop
  | nil : Paired []
  | single {c rest} (hc : ¬ High c) (h : Paired rest) : Paired (c :: rest)
  | pair {c aux rest} (hc : High c) (ha : Low aux) (h : Paired rest) : Paired (c :: aux :: rest)

section
variable {b rest : List UInt8} {c : ℤ} {octets : List UInt8} {n room : ℕ}

theorem scan_shorter (h : utf8Decoder b = .char c rest ∨ utf8Decoder b = .error octets rest) :
    ∃ w, b = w ++ rest ∧ w.length = extent .utf8 (w ++ rest) ∧ Whole .utf8 w := by
  rcases front_cases .utf8 b with hshort | ⟨w, r, rfl, hw, hwhole⟩
  · exfalso
    rcases Buffered.cases (buffered .utf8 b) with ⟨-, hscan⟩ | ⟨hle, -⟩
    · change utf8Decoder b = _ at hscan
      rw [hscan] at h
      rcases h with h | h <;> cases h
    · omega
  · have hr : r = rest := by
      rcases hwhole with ⟨c', hc⟩ | ⟨o, ho⟩
      · rw [show utf8Decoder (w ++ r) = .char c' r from hc r] at h
        rcases h with h | h
        · cases h
          rfl
        · cases h
      · rw [show utf8Decoder (w ++ r) = .error o r from ho r] at h
        rcases h with h | h
        · cases h
        · cases h
          rfl
    subst hr
    exact ⟨w, rfl, hw, hwhole⟩

theorem rest_shorter (h : utf8Decoder b = .char c rest ∨ utf8Decoder b = .error octets rest) :
    rest.length < b.length := by
  obtain ⟨w, rfl, hw, -⟩ := scan_shorter h
  have hpos := (extent_spec .utf8 (w ++ rest)).2.1
  rw [List.length_append]
  omega

theorem characters_fuel {m : ℕ} (hm : b.length < m) (hn : b.length < n) :
    characters m b = characters n b := by
  induction m generalizing n b with
  | zero => omega
  | succ m ih =>
    obtain ⟨n, rfl⟩ : ∃ k, n = k + 1 := ⟨n - 1, by omega⟩
    rw [characters, characters]
    cases h : utf8Decoder b with
    | eof => rfl
    | char c rest =>
      have hlt := rest_shorter (.inl h : _ ∨ utf8Decoder b = .error [] rest)
      exact congrArg (c :: ·) (ih (by omega) (by omega))
    | error octets rest =>
      have hlt := rest_shorter (.inr h : utf8Decoder b = .char 0 rest ∨ _)
      exact ih (by omega) (by omega)

theorem fitWithin_fuel {m : ℕ} (hm : b.length < m) (hn : b.length < n) :
    FitWithin m room b ↔ FitWithin n room b := by
  induction m generalizing n room b with
  | zero => omega
  | succ m ih =>
    obtain ⟨n, rfl⟩ : ∃ k, n = k + 1 := ⟨n - 1, by omega⟩
    rw [FitWithin, FitWithin]
    cases h : utf8Decoder b with
    | eof => exact Iff.rfl
    | char c rest =>
      have hlt := rest_shorter (.inl h : _ ∨ utf8Decoder b = .error [] rest)
      exact and_congr_right fun _ => ih (by omega) (by omega)
    | error octets rest =>
      have hlt := rest_shorter (.inr h : utf8Decoder b = .char 0 rest ∨ _)
      exact and_congr_right fun _ => ih (by omega) (by omega)

theorem validCharacters_eof (h : utf8Decoder b = .eof) : validCharacters b = [] := by
  rw [validCharacters, characters, h]

theorem validCharacters_char (h : utf8Decoder b = .char c rest) :
    validCharacters b = c :: validCharacters rest := by
  have hlt := rest_shorter (.inl h : _ ∨ utf8Decoder b = .error [] rest)
  rw [validCharacters, characters, h]
  exact congrArg (c :: ·) (characters_fuel hlt (Nat.lt_succ_self _))

theorem validCharacters_error (h : utf8Decoder b = .error octets rest) :
    validCharacters b = validCharacters rest := by
  have hlt := rest_shorter (.inr h : utf8Decoder b = .char 0 rest ∨ _)
  rw [validCharacters, characters, h]
  exact characters_fuel hlt (Nat.lt_succ_self _)

theorem fits_eof (h : utf8Decoder b = .eof) : Fits room b ↔ b.length ≤ room := by
  rw [Fits, FitWithin, h]

theorem fits_char (h : utf8Decoder b = .char c rest) :
    Fits room b ↔ b.length - rest.length ≤ room ∧ Fits encodingBufferMaxSize rest := by
  have hlt := rest_shorter (.inl h : _ ∨ utf8Decoder b = .error [] rest)
  rw [Fits, FitWithin, h]
  exact and_congr_right fun _ => fitWithin_fuel hlt (Nat.lt_succ_self _)

theorem fits_error (h : utf8Decoder b = .error octets rest) :
    Fits room b ↔
      b.length - rest.length ≤ room ∧ Fits (room - (b.length - rest.length)) rest := by
  have hlt := rest_shorter (.inr h : utf8Decoder b = .char 0 rest ∨ _)
  rw [Fits, FitWithin, h]
  exact and_congr_right fun _ => fitWithin_fuel hlt (Nat.lt_succ_self _)

theorem read_eof (h : utf8Decoder b = .eof) :
    readIn ignoring .utf8 room b = .more .utf8 (b.drop room) := by
  apply readIn_short
  left
  rcases Buffered.cases (buffered .utf8 b) with ⟨hlt, -⟩ | ⟨hle, hwhole⟩
  · exact hlt
  · exfalso
    have happend := List.take_append_drop (extent .utf8 b) b
    rcases hwhole with ⟨c', hc⟩ | ⟨o, ho⟩
    · have hscan := hc (b.drop (extent .utf8 b))
      rw [happend] at hscan
      cases h.symm.trans hscan
    · have hscan := ho (b.drop (extent .utf8 b))
      rw [happend] at hscan
      cases h.symm.trans hscan

theorem read_char (h : utf8Decoder b = .char c rest) (hroom : b.length - rest.length ≤ room) :
    readIn ignoring .utf8 room b = .item c .utf8 rest := by
  obtain ⟨w, rfl, hw, hwhole⟩ := scan_shorter (.inl h : _ ∨ utf8Decoder b = .error [] rest)
  rw [List.length_append, Nat.add_sub_cancel_right] at hroom
  have hscan : scan .utf8 w = .char c [] := by
    rcases hwhole with ⟨c', hc⟩ | ⟨o, ho⟩
    · have hc' := hc rest
      rw [show scan .utf8 (w ++ rest) = .char c rest from h] at hc'
      cases hc'
      simpa using hc []
    · cases h.symm.trans (ho rest)
  have hc : c ≠ eof := by
    have hpos := scan_nonneg (by decide) hscan
    rintro rfl
    exact absurd hpos (by decide)
  apply readIn_deliver hw hroom
  rw [hscan, answer, characterAnswer, if_neg hc]
  rfl

theorem read_error (h : utf8Decoder b = .error octets rest)
    (hroom : b.length - rest.length ≤ room) :
    readIn ignoring .utf8 room b =
      readIn ignoring .utf8 (room - (b.length - rest.length)) rest := by
  obtain ⟨w, rfl, hw, hwhole⟩ := scan_shorter (.inr h : utf8Decoder b = .char 0 rest ∨ _)
  rw [List.length_append, Nat.add_sub_cancel_right] at hroom ⊢
  apply readIn_skip hw hroom
  rcases hwhole with ⟨c', hc⟩ | ⟨o, ho⟩
  · cases h.symm.trans (hc rest)
  · have ho' := ho []
    rw [List.append_nil] at ho'
    rw [ho']
    rfl

theorem read_full (h : utf8Decoder b = .char c rest ∨ utf8Decoder b = .error octets rest)
    (hroom : ¬ b.length - rest.length ≤ room) :
    readIn ignoring .utf8 room b = .more .utf8 (b.drop room) := by
  obtain ⟨w, rfl, hw, -⟩ := scan_shorter h
  rw [List.length_append, Nat.add_sub_cancel_right] at hroom
  exact readIn_short (.inr (by omega))

inductive ReadCases (room : ℕ) (b : List UInt8) : Prop
  | char (c : ℤ) (r : List UInt8) (hread : readIn ignoring .utf8 room b = .item c .utf8 r)
    (hchars : validCharacters b = c :: validCharacters r) (hr : r.length < b.length)
    (hfits : Fits room b ↔ Fits encodingBufferMaxSize r)
  | eof (hread : readIn ignoring .utf8 room b = .more .utf8 []) (hchars : validCharacters b = [])
    (hfits : Fits room b)
  | full (r : List UInt8) (hread : readIn ignoring .utf8 room b = .more .utf8 r) (hr : r ≠ [])
    (hfits : ¬ Fits room b)

theorem read_cases (room : ℕ) (b : List UInt8) : ReadCases room b := by
  induction hn : b.length using Nat.strong_induction_on generalizing room b with
  | _ n ih =>
    cases h : utf8Decoder b with
    | eof =>
      have hread := @read_eof b room h
      by_cases hroom : b.length ≤ room
      · rw [List.drop_of_length_le hroom] at hread
        exact .eof hread (validCharacters_eof h) ((fits_eof h).mpr hroom)
      · refine .full _ hread ?_ (fun hfits => hroom ((fits_eof h).mp hfits))
        rw [Ne, List.drop_eq_nil_iff]
        exact hroom
    | char c rest =>
      by_cases hroom : b.length - rest.length ≤ room
      · refine .char c rest (read_char h hroom) (validCharacters_char h) ?_ ?_
        · exact rest_shorter (.inl h : _ ∨ utf8Decoder b = .error [] rest)
        · rw [fits_char h]
          exact and_iff_right hroom
      · refine .full _ (read_full (.inl h : _ ∨ utf8Decoder b = .error [] rest) hroom) ?_ ?_
        · rw [Ne, List.drop_eq_nil_iff]
          omega
        · exact fun hfits => hroom ((fits_char h).mp hfits).1
    | error octets rest =>
      have hlt := rest_shorter (.inr h : utf8Decoder b = .char 0 rest ∨ _)
      by_cases hroom : b.length - rest.length ≤ room
      · have hread := read_error h hroom
        have hchars := validCharacters_error h
        have hfits : Fits room b ↔ Fits (room - (b.length - rest.length)) rest := by
          rw [fits_error h]
          exact and_iff_right hroom
        cases ih rest.length (hn ▸ hlt) (room - (b.length - rest.length)) rest rfl with
        | char c r hread' hchars' hr' hfits' =>
          exact .char c r (hread.trans hread') (hchars.trans hchars') (Nat.lt_trans hr' hlt)
            (hfits.trans hfits')
        | eof hread' hchars' hfits' =>
          exact .eof (hread.trans hread') (hchars.trans hchars') (hfits.mpr hfits')
        | full r hread' hr' hfits' =>
          exact .full r (hread.trans hread') hr' (fun hb => hfits' (hfits.mp hb))
      · refine .full _ (read_full (.inr h : utf8Decoder b = .char 0 rest ∨ _) hroom) ?_ ?_
        · rw [Ne, List.drop_eq_nil_iff]
          omega
        · exact fun hfits => hroom ((fits_error h).mp hfits).1

end

section
variable {handler : Handler} {s s' s₁ : Stream} {c : ℤ} {cs : List ℤ}

theorem readsTo_of_char (h : readChar handler s = .char c s₁) :
    ReadsTo handler s (c :: cs) s' ↔ ReadsTo handler s₁ cs s' := by
  constructor
  · intro hs
    cases hs with
    | char h' hs' =>
      cases h.symm.trans h'
      exact hs'
  · exact fun hs => .char h hs

theorem readsTo_of_eof (h : readChar handler s = .eof s₁) :
    ReadsTo handler s cs s' ↔ cs = [] ∧ s' = s₁ := by
  constructor
  · intro hs
    cases hs with
    | eof h' =>
      cases h.symm.trans h'
      exact ⟨rfl, rfl⟩
    | char h' hs' => cases h.symm.trans h'
  · rintro ⟨rfl, rfl⟩
    exact .eof h

theorem readOne_item {lineEnding : LineEnding} {b r : List UInt8}
    (h : firstRead handler .utf8 b = .item c .utf8 r) :
    readOne handler lineEnding .utf8 b = lineRead handler lineEnding c .utf8 r := by
  rw [readOne, h]

theorem readOne_more {lineEnding : LineEnding} {b r : List UInt8}
    (h : firstRead handler .utf8 b = .more .utf8 r) :
    readOne handler lineEnding .utf8 b = .more .utf8 r := by
  rw [readOne, h]

def lineCharacter (lineEnding : LineEnding) (c : ℤ) : ℤ :=
  if lineEnding = .cr ∧ c = charReturn then charNewline else c

theorem lineRead_single {lineEnding : LineEnding} {r : List UInt8}
    (h : lineEnding = .crlf → c ≠ charReturn) :
    lineRead handler lineEnding c .utf8 r = .item (lineCharacter lineEnding c) .utf8 r := by
  cases lineEnding with
  | lf => rfl
  | cr => simp [lineRead, lineCharacter]
  | crlf => rw [lineRead, if_neg (h rfl)]; rfl

theorem readCharText_single {lineEnding : LineEnding} (h : lineEnding = .crlf → c ≠ charReturn) :
    (readCharText lineEnding ⟨c :: cs, none⟩).items =
      lineCharacter lineEnding c :: (readCharText lineEnding ⟨cs, none⟩).items := by
  cases lineEnding with
  | lf => rfl
  | cr => simp [readCharText, lineCharacter]
  | crlf =>
    have hcons := readCharText_cons_other (h rfl) (⟨cs, none⟩ : Text ℤ (List UInt8))
    exact congrArg Text.items hcons

structure Utf8Rest (lineEnding : LineEnding) (b : List UInt8) (s : Stream) : Prop where
  position : 0 ≤ s.position
  format : s.format = .utf8
  lineEnding : s.lineEnding = lineEnding
  remaining : s.remaining = b

def DeliversRest (lineEnding : LineEnding) (b : List UInt8) (s : Stream) : Prop :=
  ∃ s', ReadsTo ignoring s (readCharText lineEnding ⟨validCharacters b, none⟩).items s' ∧
    s'.remaining = []

end

section
variable {lineEnding : LineEnding} {b r : List UInt8} {s : Stream} {c : ℤ}

theorem next_char (hs : Utf8Rest lineEnding b s)
    (h : readOne ignoring lineEnding .utf8 b = .item c .utf8 r) :
    ∃ s₁, readChar ignoring s = .char c s₁ ∧ Utf8Rest lineEnding r s₁ := by
  have hread := @readChar_reads ignoring s hs.position
  rw [hs.lineEnding, hs.format, hs.remaining, h] at hread
  obtain ⟨s₁, heq, hs₁⟩ := hread
  exact ⟨s₁, heq, hs₁.position, hs₁.format, hs₁.lineEnding.trans hs.lineEnding, hs₁.remaining⟩

theorem next_eof (hs : Utf8Rest lineEnding b s)
    (h : readOne ignoring lineEnding .utf8 b = .more .utf8 r) :
    ∃ s₁, readChar ignoring s = .eof s₁ ∧ s₁.remaining = r := by
  have hread := @readChar_reads ignoring s hs.position
  rw [hs.lineEnding, hs.format, hs.remaining, h] at hread
  obtain ⟨s₁, heq, hs₁⟩ := hread
  exact ⟨s₁, heq, hs₁.remaining⟩

theorem delivers_single (hs : Utf8Rest lineEnding b s)
    (hread : firstRead ignoring .utf8 b = .item c .utf8 r)
    (hchars : validCharacters b = c :: validCharacters r)
    (hc : lineEnding = .crlf → c ≠ charReturn) :
    ∃ s₁, Utf8Rest lineEnding r s₁ ∧
      (DeliversRest lineEnding b s ↔ DeliversRest lineEnding r s₁) := by
  have hone := @readOne_item ignoring _ lineEnding _ _ hread
  rw [lineRead_single hc] at hone
  obtain ⟨s₁, heq, hs₁⟩ := next_char hs hone
  refine ⟨s₁, hs₁, ?_⟩
  rw [DeliversRest, DeliversRest, hchars, readCharText_single hc]
  simp only [readsTo_of_char heq]

theorem delivers_eof (hs : Utf8Rest lineEnding b s)
    (hread : firstRead ignoring .utf8 b = .more .utf8 [])
    (hchars : validCharacters b = []) : DeliversRest lineEnding b s := by
  obtain ⟨s₁, heq, hs₁⟩ := next_eof hs (readOne_more hread)
  rw [DeliversRest, hchars, readCharText_nil]
  exact ⟨s₁, .eof heq, hs₁⟩

theorem delivers_full (hs : Utf8Rest lineEnding b s)
    (hread : firstRead ignoring .utf8 b = .more .utf8 r) (hr : r ≠ []) :
    ¬ DeliversRest lineEnding b s := by
  obtain ⟨s₁, heq, hs₁⟩ := next_eof hs (readOne_more hread)
  rintro ⟨s', hreads, hnil⟩
  obtain ⟨-, rfl⟩ := (readsTo_of_eof heq).mp hreads
  exact hr (hs₁.symm.trans hnil)

theorem delivers_iff (hl : lineEnding ≠ .crlf) (hs : Utf8Rest lineEnding b s) :
    DeliversRest lineEnding b s ↔ Fits encodingBufferMaxSize b := by
  induction hn : b.length using Nat.strong_induction_on generalizing b s with
  | _ n ih =>
    cases read_cases encodingBufferMaxSize b with
    | char c r hread hchars hr hfits =>
      obtain ⟨s₁, hs₁, hdelivers⟩ := delivers_single hs hread hchars (fun h => absurd h hl)
      rw [hdelivers, hfits]
      exact ih r.length (hn ▸ hr) hs₁ rfl
    | eof hread hchars hfits => exact iff_of_true (delivers_eof hs hread hchars) hfits
    | full r hread hr hfits => exact iff_of_false (delivers_full hs hread hr) hfits

theorem delivers_of_fits (hs : Utf8Rest lineEnding b s) (hfits : Fits encodingBufferMaxSize b) :
    DeliversRest lineEnding b s := by
  induction hn : b.length using Nat.strong_induction_on generalizing b s with
  | _ n ih =>
    cases read_cases encodingBufferMaxSize b with
    | eof hread hchars _ => exact delivers_eof hs hread hchars
    | full r hread hr hnot => exact absurd hfits hnot
    | char c r hread hchars hr hiff =>
      rw [hiff] at hfits
      by_cases hc : lineEnding = .crlf → c ≠ charReturn
      · obtain ⟨s₁, hs₁, hdelivers⟩ := delivers_single hs hread hchars hc
        exact hdelivers.mpr (ih r.length (hn ▸ hr) hs₁ hfits rfl)
      · -- a return, and what the look-ahead finds after it
        obtain ⟨rfl, rfl⟩ : lineEnding = .crlf ∧ c = charReturn := by
          simpa using hc
        have hone := @readOne_item ignoring _ .crlf _ _ hread
        rw [lineRead, if_pos rfl] at hone
        cases read_cases encodingBufferMaxSize r with
        | full r' hread' hr' hnot => exact absurd hfits hnot
        | eof hread' hchars' _ =>
          rw [show firstRead ignoring .utf8 r = .more .utf8 [] from hread', afterReturn] at hone
          obtain ⟨s₁, heq, hs₁⟩ := next_char hs hone
          have hnil : DeliversRest .crlf [] s₁ := delivers_eof hs₁ rfl rfl
          obtain ⟨s', hreads, hend⟩ := hnil
          refine ⟨s', ?_, hend⟩
          rw [hchars, hchars']
          exact .char heq hreads
        | char c' r' hread' hchars' hr' hiff' =>
          rw [show firstRead ignoring .utf8 r = .item c' .utf8 r' from hread', afterReturn] at hone
          obtain ⟨s₁, heq, hs₁⟩ := next_char hs hone
          obtain ⟨s', hreads, hend⟩ := ih r'.length (by omega) hs₁ (hiff'.mp hfits) rfl
          refine ⟨s', ?_, hend⟩
          have hcons := readCharText_cons_return c' (⟨validCharacters r', none⟩ : Text ℤ (List UInt8))
          rw [hchars, hchars']
          have hitems := congrArg Text.items hcons
          change (readCharText .crlf ⟨charReturn :: c' :: validCharacters r', none⟩).items = _ at hitems
          rw [hitems]
          exact .char heq hreads

end

section
variable {units rest : List UInt16} {c aux : UInt16} {position : ℕ}

theorem getD_of_drop (h : units.drop position = c :: rest) :
    units.getD position 0 = c ∧ position < units.length ∧ units.drop (position + 1) = rest := by
  have hlt : position < units.length := by
    by_contra hle
    rw [List.drop_of_length_le (Nat.le_of_not_lt hle)] at h
    cases h
  rw [List.drop_eq_getElem_cons hlt] at h
  obtain ⟨h1, h2⟩ := List.cons.inj h
  refine ⟨?_, hlt, h2⟩
  rw [List.getD_eq_getElem?_getD, List.getElem?_eq_getElem hlt]
  exact h1

variable {handler : List UInt16 → Restart}

theorem read_end (h : units.length ≤ position) (n : ℕ) :
    seqInUcs2ReadChar handler units (n + 1) position = .returned eof position := by
  rw [seqInUcs2ReadChar]
  exact if_pos h

theorem read_single (h : units.drop position = c :: rest) (hc : ¬ High c) (n : ℕ) :
    seqInUcs2ReadChar handler units (n + 1) position = .returned c.toNat (position + 1) := by
  obtain ⟨hget, hlt, -⟩ := getD_of_drop h
  rw [seqInUcs2ReadChar]
  simp only [hget]
  rw [if_neg (Nat.not_le.mpr hlt)]
  exact if_neg hc

theorem read_pair (h : units.drop position = c :: aux :: rest) (hc : High c) (ha : Low aux) (n : ℕ) :
    ∃ d, seqInUcs2ReadChar handler units (n + 1) position = .returned d (position + 2) := by
  obtain ⟨hget, hlt, hdrop⟩ := getD_of_drop h
  obtain ⟨hget', hlt', -⟩ := getD_of_drop hdrop
  have hlow : ¬ (aux.toNat < 0xDC00 ∨ 0xDFFF < aux.toNat) := by
    obtain ⟨h1, h2⟩ := ha
    omega
  rw [seqInUcs2ReadChar]
  simp only [hget, hget']
  rw [if_neg (Nat.not_le.mpr hlt), if_pos (show 0xD800 ≤ c.toNat ∧ _ from hc),
    if_neg (Nat.not_le.mpr hlt'), if_neg hlow]
  exact ⟨_, rfl⟩

theorem read_stuck (h : units.drop position = c :: rest) (hc : High c)
    (hrest : ∀ aux rest', rest = aux :: rest' → ¬ Low aux) (n : ℕ) :
    seqInUcs2ReadChar (fun _ => .ignore) units n position = .unfinished := by
  induction n with
  | zero => rfl
  | succ n ih =>
    obtain ⟨hget, hlt, hdrop⟩ := getD_of_drop h
    rw [seqInUcs2ReadChar]
    simp only [hget, ih]
    rw [if_neg (Nat.not_le.mpr hlt), if_pos (show 0xD800 ≤ c.toNat ∧ _ from hc)]
    cases rest with
    | nil => exact if_pos (List.drop_eq_nil_iff.mp hdrop)
    | cons aux rest' =>
      obtain ⟨hget', hlt', -⟩ := getD_of_drop hdrop
      have hlow : aux.toNat < 0xDC00 ∨ 0xDFFF < aux.toNat := by
        have hnot := hrest aux rest' rfl
        unfold Low at hnot
        omega
      rw [hget', if_neg (Nat.not_le.mpr hlt'), if_pos hlow]

theorem paired_of_consumesAll (h : ConsumesAll units position) : Paired (units.drop position) := by
  induction h with
  | eof hp _ =>
    rw [List.drop_of_length_le hp]
    exact .nil
  | @char position position' d hp hread _ ih =>
    obtain ⟨n, hread⟩ := hread
    obtain ⟨n, rfl⟩ : ∃ k, n = k + 1 := by
      cases n with
      | zero => cases hread
      | succ n => exact ⟨n, rfl⟩
    cases hdrop : units.drop position with
    | nil => exact .nil
    | cons c rest =>
      by_cases hc : High c
      · by_cases hlow : ∃ aux rest', rest = aux :: rest' ∧ Low aux
        · obtain ⟨aux, rest', rfl, ha⟩ := hlow
          obtain ⟨d', hpair⟩ := @read_pair _ _ _ _ _ (fun _ => .ignore) hdrop hc ha n
          cases hread.symm.trans hpair
          have hrest := (getD_of_drop (getD_of_drop hdrop).2.2).2.2
          rw [hrest] at ih
          exact .pair hc ha ih
        · have hstuck := read_stuck hdrop hc
            (fun aux rest' hr ha => hlow ⟨aux, rest', hr, ha⟩) (n + 1)
          cases hread.symm.trans hstuck
      · cases hread.symm.trans (read_single hdrop hc n)
        rw [(getD_of_drop hdrop).2.2] at ih
        exact .single hc ih

theorem consumesAll_of_paired {l : List UInt16} (h : Paired l) (hl : units.drop position = l) :
    ConsumesAll units position := by
  induction h generalizing position with
  | nil =>
    have hp := List.drop_eq_nil_iff.mp hl
    exact .eof hp ⟨1, read_end hp 0⟩
  | single hc _ ih =>
    exact .char (Nat.lt_succ_self _) ⟨1, read_single hl hc 0⟩ (ih (getD_of_drop hl).2.2)
  | pair hc ha _ ih =>
    obtain ⟨d, hread⟩ := @read_pair _ _ _ _ _ (fun _ => .ignore) hl hc ha 0
    exact .char (by omega) ⟨1, hread⟩ (ih (getD_of_drop (getD_of_drop hl).2.2).2.2)

end

end SkippedOctets
