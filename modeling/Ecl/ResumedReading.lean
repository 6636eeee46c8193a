import Ecl.CharacterReading

/-! read-char with any handler of decoding errors. What a decoder skips stays in the buffer of the
stream until the read returns. -/
namespace ResumedReading

open ExternalFormats IncrementalDecoding CharacterStreams DecoderLaws CharacterReading

inductive Answer where
  | exit (octets : List UInt8)
  | skip (format : ExternalFormat)
  | deliver (c : ℤ) (format : ExternalFormat)
  deriving DecidableEq

/-- A read goes on after EOF and after a mark. -/
def characterAnswer (format : ExternalFormat) (c : ℤ) : Answer :=
  if c = eof then .skip format
  else match formatSwitch format c with
    | .stay => .deliver c format
    | .turn t => .deliver c t
    | .mark t => .skip t

def answer (handler : Handler) (format : ExternalFormat) : Scan → Answer
  | .eof => .skip format
  | .char c _ => characterAnswer format c
  | .error octets _ =>
    match handler octets.reverse with
    | .unwind => .exit octets.reverse
    | .ignore => .skip format
    | .supply c => characterAnswer format c

/-- One read of octets b with room for some of them. The number bounds the sequences. -/
def readWithin (handler : Handler) : ℕ → ExternalFormat → ℕ → List UInt8 → Decoded
  | 0, format, room, b => .more format (b.drop room)
  | n + 1, format, room, b =>
    if b.length < extent format b ∨ room < extent format b then .more format (b.drop room)
    else match answer handler format (scan format (b.take (extent format b))) with
      | .exit octets => .stop octets
      | .skip format' =>
        readWithin handler n format' (room - extent format b) (b.drop (extent format b))
      | .deliver c format' => .item c format' (b.drop (extent format b))

variable {handler : Handler} {format : ExternalFormat}

theorem Buffered.cases {b : List UInt8} (h : Buffered format b) :
    b.length < extent format b ∧ scan format b = .eof ∨
      extent format b ≤ b.length ∧ Whole format (b.take (extent format b)) := by
  cases h with
  | short hlen hscan => exact .inl ⟨hlen, hscan⟩
  | @whole w r hlen hw =>
    rw [← hlen, List.take_left]
    exact .inr ⟨by simp, hw⟩

theorem decoder_short {b : List UInt8} (h : b.length < extent format b) :
    decoder handler format b = .more format b := by
  have hscan : scan format b = .eof := by
    rcases Buffered.cases (buffered format b) with h' | h'
    · exact h'.2
    · omega
  rw [decoder, decoderLoop]
  cases format <;> simp [decoderBody, markDecoder, hscan, settle]

def switched (handler : Handler) (decode : ExternalFormat → List UInt8 → Decoded)
    (format : ExternalFormat) : Decoded → Decoded
  | .item c format' rest =>
    if c = eof then .item c format' rest
    else match formatSwitch format c with
      | .stay => .item c format' rest
      | .turn t => .item c t rest
      | .mark t => settle handler decode t rest (scan t rest)
  | out => out

theorem decoderBody_eq (decode : ExternalFormat → List UInt8 → Decoded) (b : List UInt8) :
    decoderBody handler decode format b =
      switched handler decode format (settle handler decode format b (scan format b)) := by
  have hmark : ∀ (be le : ExternalFormat) (swapped : ℤ),
      (∀ c, formatSwitch format c = if c = eof then .stay else if c = 0xFEFF then .mark be
        else if c = swapped then .mark le else .turn be) →
      markDecoder handler decode format be le swapped b =
        switched handler decode format (settle handler decode format b (scan format b)) := by
    intro be le swapped hswitch
    rw [markDecoder]
    cases settle handler decode format b (scan format b) with
    | more s r => rfl
    | stop e => rfl
    | item c s r =>
      simp only [switched, hswitch c]
      split_ifs <;> rfl
  have hplain : (∀ c, formatSwitch format c = .stay) → ∀ out : Decoded,
      out = switched handler decode format out := by
    intro hstay out
    cases out with
    | more s r => rfl
    | stop e => rfl
    | item c s r =>
      simp only [switched, hstay c]
      split_ifs <;> rfl
  cases format with
  | ucs2 => exact hmark .ucs2be .ucs2le 0xFFFE fun _ => rfl
  | ucs4 => exact hmark .ucs4be .ucs4le 0xFFFE0000 fun _ => rfl
  | latin1 | usAscii | utf8 | ucs2be | ucs2le | ucs4be | ucs4le => exact hplain (fun _ => rfl) _

theorem scan_nil (format : ExternalFormat) : scan format [] = .eof := by
  cases format <;> rfl

theorem decoderLoop_nil (n : ℕ) (format : ExternalFormat) :
    decoderLoop handler n format [] = .more format [] := by
  cases n with
  | zero => rfl
  | succ n =>
    rw [decoderLoop, decoderBody_eq, scan_nil]
    rfl

/-- The loop of read-char goes on with an empty buffer or returns. -/
def Answers (a : Answer) : Decoded → Prop
  | .stop octets => a = .exit octets
  | .more format rest => rest = [] ∧ a = .skip format
  | .item c format rest => rest = [] ∧ a = if c = eof then .skip format else .deliver c format

theorem switched_item (n : ℕ) (c : ℤ) :
    Answers (characterAnswer format c)
      (switched handler (decoderLoop handler n) format (.item c format [])) := by
  by_cases hc : c = eof
  · simp [switched, characterAnswer, hc, Answers]
  · simp only [switched, characterAnswer, if_neg hc]
    cases formatSwitch format c with
    | stay => exact ⟨rfl, (if_neg hc).symm⟩
    | turn t => exact ⟨rfl, (if_neg hc).symm⟩
    | mark t =>
      simp only [scan_nil]
      exact ⟨rfl, rfl⟩

theorem decoder_whole {w : List UInt8} (hw : Whole format w) :
    Answers (answer handler format (scan format w)) (decoder handler format w) := by
  rw [decoder, decoderLoop, decoderBody_eq]
  rcases hw with ⟨c, hc⟩ | ⟨octets, ho⟩
  · have hscan := hc []
    rw [List.append_nil] at hscan
    rw [hscan]
    exact switched_item _ c
  · have hscan := ho []
    rw [List.append_nil] at hscan
    rw [hscan, answer, settle, decodingError]
    cases handler octets.reverse with
    | unwind => exact rfl
    | ignore =>
      rw [decoderLoop_nil]
      exact ⟨rfl, rfl⟩
    | supply c => exact switched_item _ c

structure Follows (s s' : Stream) (format : ExternalFormat) (rest : List UInt8) : Prop where
  position : 0 ≤ s'.position
  kind : s'.kind = s.kind
  lineEnding : s'.lineEnding = s.lineEnding
  format : s'.format = format
  remaining : s'.remaining = rest

def Reads (s : Stream) : Decoded → ReadResult → Prop
  | .item c format rest, read => ∃ s', read = .char c s' ∧ Follows s s' format rest
  | .stop octets, read => read = .unwind octets
  | .more format rest, read => ∃ s', read = .eof s' ∧ Follows s s' format rest

theorem characterAnswer_size {c : ℤ} {format' : ExternalFormat} :
    (characterAnswer format c = .skip format' → byteSize format' = byteSize format) ∧
      ∀ c', characterAnswer format c = .deliver c' format' → byteSize format' = byteSize format := by
  rw [characterAnswer]
  by_cases hc : c = eof
  · rw [if_pos hc]
    constructor
    · intro h
      cases h
      rfl
    · intro c' h
      cases h
  · rw [if_neg hc]
    rcases formatSwitch_cases format c with ⟨h, -⟩ | ⟨t, hsize, -, h | h⟩
    · rw [h]
      exact ⟨Answer.noConfusion, fun c' h => by cases h; rfl⟩
    · rw [h]
      exact ⟨Answer.noConfusion, fun c' h => by cases h; exact hsize⟩
    · rw [h]
      exact ⟨fun h => by cases h; exact hsize, fun c' h => by cases h⟩

theorem answer_skip_size {out : Scan} {format' : ExternalFormat}
    (h : answer handler format out = .skip format') : byteSize format' = byteSize format := by
  cases out with
  | eof =>
    cases h
    rfl
  | char c rest => exact characterAnswer_size.1 h
  | error octets rest =>
    rw [answer] at h
    cases ha : handler octets.reverse with
    | unwind =>
      rw [ha] at h
      cases h
    | ignore =>
      rw [ha] at h
      cases h
      rfl
    | supply c =>
      rw [ha] at h
      exact characterAnswer_size.1 h

theorem Follows.trans {s s' s'' : Stream} {f f' : ExternalFormat} {r r' : List UInt8}
    (h : Follows s s' f r) (h' : Follows s' s'' f' r') : Follows s s'' f' r' :=
  ⟨h'.position, h'.kind.trans h.kind, h'.lineEnding.trans h.lineEnding, h'.format, h'.remaining⟩

theorem Reads.trans {s s' : Stream} {f : ExternalFormat} {r : List UInt8} {out : Decoded}
    {read : ReadResult} (hread : Reads s' out read) (h : Follows s s' f r) : Reads s out read := by
  cases out with
  | item c format rest =>
    obtain ⟨s'', hc, hs⟩ := hread
    exact ⟨s'', hc, h.trans hs⟩
  | stop octets => exact hread
  | more format rest =>
    obtain ⟨s'', he, hs⟩ := hread
    exact ⟨s'', he, h.trans hs⟩

theorem follows_skip {s : Stream} (hpos : 0 ≤ s.position) (n : ℕ) (format : ExternalFormat) :
    Follows s { s.skip n with format := format } format (s.remaining.drop n) :=
  ⟨Stream.skip_position_nonneg hpos n, rfl, rfl, rfl, Stream.remaining_skip hpos n⟩

theorem readWithin_short {n room : ℕ} {b : List UInt8}
    (h : b.length < extent format b ∨ room < extent format b) :
    readWithin handler n format room b = .more format (b.drop room) := by
  cases n with
  | zero => rfl
  | succ n => rw [readWithin, if_pos h]

theorem readCharLoop_within {n fuel : ℕ} {s : Stream} (hpos : 0 ≤ s.position) {pending : List UInt8}
    (hlen : pending.length < extent s.format pending)
    (hdvd : s.kind.unit s.format ∣ pending.length)
    (hfuel : pending.length + n * s.kind.unit s.format ≤ fuel) :
    Reads s (readWithin handler fuel s.format (pending.length + n * s.kind.unit s.format)
      (pending ++ s.remaining)) (readCharLoop handler n s pending) := by
  induction n generalizing fuel s pending with
  | zero =>
    have hunit := unit_pos s.kind s.format
    have hroom := extent_room s.kind hlen hdvd s.remaining
    rw [Nat.zero_mul, Nat.add_zero, readWithin_short (.inr (by omega)), List.drop_left]
    exact ⟨s, rfl, hpos, rfl, rfl, rfl, rfl⟩
  | succ n ih =>
    set unit := s.kind.unit s.format with hu
    have hunit : 0 < unit := unit_pos s.kind s.format
    rw [readCharLoop]
    simp only [← hu, Stream.readByte8_fst, List.length_take]
    by_cases hshort : s.remaining.length < unit
    · -- the end of the file
      rw [if_pos (by omega)]
      have hinc := extent_incomplete hlen hdvd (hu ▸ hshort)
      rw [readWithin_short (.inl hinc), List.drop_of_length_le (by
        rw [List.length_append, Nat.add_mul]
        omega)]
      refine ⟨_, rfl, ?_⟩
      have hskip := follows_skip hpos unit s.format
      rwa [List.drop_of_length_le (by omega)] at hskip
    · rw [if_neg (by omega)]
      have htake : (s.remaining.take unit).length = unit := by
        rw [List.length_take]
        omega
      have hsplit : pending ++ s.remaining =
          (pending ++ s.remaining.take unit) ++ s.remaining.drop unit := by
        rw [List.append_assoc, List.take_append_drop]
      have hroom : pending.length + (n + 1) * unit =
          (pending ++ s.remaining.take unit).length + n * unit := by
        rw [List.length_append, htake, Nat.add_mul]
        omega
      have hdvd' : unit ∣ (pending ++ s.remaining.take unit).length := by
        rw [List.length_append, htake]
        exact Nat.dvd_add hdvd (Nat.dvd_refl unit)
      rcases Buffered.cases (buffered s.format (pending ++ s.remaining.take unit)) with
        ⟨hmore, -⟩ | ⟨hext, hwhole⟩
      · have hskip := follows_skip hpos unit s.format
        rw [decoder_short hmore, hsplit, hroom, ← hskip.remaining]
        exact (ih hskip.position hmore hdvd' (hroom ▸ hfuel)).trans hskip
      · set b := pending ++ s.remaining.take unit with hb
        -- the unit completes a sequence
        have hnil : b.drop (extent s.format b) = [] :=
          extent_minimal hlen hdvd htake (List.take_append_drop _ b).symm
            (List.length_take_of_le hext)
        have hfull : extent s.format b = b.length :=
          Nat.le_antisymm hext (List.drop_eq_nil_iff.mp hnil)
        rw [hfull, List.take_length] at hwhole
        obtain ⟨hsize, hpositive, -⟩ := extent_spec s.format b
        have hall : extent s.format (b ++ s.remaining.drop unit) = b.length := by
          rw [extent_append (hfull ▸ Nat.le_of_dvd hpositive hsize), hfull]
        obtain ⟨fuel, rfl⟩ : ∃ k, fuel = k + 1 := ⟨fuel - 1, by omega⟩
        rw [hsplit, hroom, readWithin, hall, List.take_left, List.drop_left, if_neg (by simp),
          Nat.add_sub_cancel_left]
        have hans := @decoder_whole handler _ _ hwhole
        have hnext : ∀ f, answer handler s.format (scan s.format b) = .skip f →
            Reads s (readWithin handler fuel f (n * unit) (s.remaining.drop unit))
              (readCharLoop handler n { s.skip unit with format := f } []) := by
          intro f hf
          have hskip := follows_skip hpos unit f
          have hunit' : s.kind.unit f = unit := unit_congr s.kind (answer_skip_size hf)
          have hread := @ih fuel _ hskip.position [] (extent_spec f []).2.1
            (Nat.dvd_zero _) (by
              change 0 + n * s.kind.unit f ≤ fuel
              rw [hunit']
              omega)
          rw [hskip.remaining] at hread
          change Reads _ (readWithin handler fuel f (0 + n * s.kind.unit f) _) _ at hread
          rw [hunit', Nat.zero_add] at hread
          exact hread.trans hskip
        cases hdec : decoder handler s.format b with
        | stop octets =>
          rw [hdec] at hans
          rw [hans]
          exact rfl
        | more f r =>
          rw [hdec] at hans
          obtain ⟨rfl, ha⟩ := hans
          have hread := hnext f ha
          rw [ha]
          exact hread
        | item c f r =>
          rw [hdec] at hans
          obtain ⟨rfl, ha⟩ := hans
          by_cases hc : c = eof
          · rw [if_pos hc] at ha
            have hread := hnext f ha
            rw [ha]
            dsimp only
            rw [if_pos hc]
            exact hread
          · rw [if_neg hc] at ha
            rw [ha]
            dsimp only
            rw [if_neg hc]
            exact ⟨_, rfl, follows_skip hpos unit f⟩

def readIn (handler : Handler) (format : ExternalFormat) (room : ℕ) (b : List UInt8) : Decoded :=
  readWithin handler room format room b

theorem readWithin_fuel {m n room : ℕ} {b : List UInt8} (hm : room ≤ m) (hn : room ≤ n) :
    readWithin handler m format room b = readWithin handler n format room b := by
  induction m generalizing n format room b with
  | zero =>
    have hpos := (extent_spec format b).2.1
    rw [readWithin_short (.inr (by omega)), readWithin_short (.inr (by omega))]
  | succ m ih =>
    by_cases h : b.length < extent format b ∨ room < extent format b
    · rw [readWithin_short h, readWithin_short h]
    · have hpos := (extent_spec format b).2.1
      obtain ⟨n, rfl⟩ : ∃ k, n = k + 1 := ⟨n - 1, by omega⟩
      rw [readWithin, readWithin, if_neg h, if_neg h]
      cases answer handler format (scan format (b.take (extent format b))) with
      | exit octets => rfl
      | deliver c f => rfl
      | skip f => exact ih (by omega) (by omega)

theorem readIn_short {room : ℕ} {b : List UInt8}
    (h : b.length < extent format b ∨ room < extent format b) :
    readIn handler format room b = .more format (b.drop room) :=
  readWithin_short h

section
variable {room : ℕ} {w r : List UInt8} (hw : w.length = extent format (w ++ r))
  (hroom : w.length ≤ room)
include hw hroom

theorem readIn_whole : readIn handler format room (w ++ r) =
    match answer handler format (scan format w) with
    | .exit octets => .stop octets
    | .skip format' => readIn handler format' (room - w.length) r
    | .deliver c format' => .item c format' r := by
  have hpos := (extent_spec format (w ++ r)).2.1
  obtain ⟨n, rfl⟩ : ∃ k, room = k + 1 := ⟨room - 1, by omega⟩
  rw [readIn, readWithin, if_neg (by simp only [List.length_append]; omega), ← hw, List.take_left,
    List.drop_left]
  cases answer handler format (scan format w) with
  | exit octets => rfl
  | deliver c f => rfl
  | skip f => exact readWithin_fuel (by omega) le_rfl

theorem readIn_exit {octets : List UInt8} (h : answer handler format (scan format w) = .exit octets) :
    readIn handler format room (w ++ r) = .stop octets := by
  rw [readIn_whole hw hroom, h]

theorem readIn_skip {format' : ExternalFormat}
    (h : answer handler format (scan format w) = .skip format') :
    readIn handler format room (w ++ r) = readIn handler format' (room - w.length) r := by
  rw [readIn_whole hw hroom, h]

theorem readIn_deliver {c : ℤ} {format' : ExternalFormat}
    (h : answer handler format (scan format w) = .deliver c format') :
    readIn handler format room (w ++ r) = .item c format' r := by
  rw [readIn_whole hw hroom, h]

end

theorem front_cases (format : ExternalFormat) (b : List UInt8) :
    b.length < extent format b ∨
      ∃ w r, b = w ++ r ∧ w.length = extent format (w ++ r) ∧ Whole format w := by
  cases buffered format b with
  | short hlen => exact .inl hlen
  | @whole w r hlen hw => exact .inr ⟨w, r, rfl, hlen, hw⟩

theorem readIn_item_length {room : ℕ} {b r : List UInt8} {c : ℤ} {format' : ExternalFormat}
    (h : readIn handler format room b = .item c format' r) : r.length < b.length := by
  induction room using Nat.strong_induction_on generalizing format b with
  | _ room ih =>
    rcases front_cases format b with hshort | ⟨w, r', rfl, hw, -⟩
    · rw [readIn_short (.inl hshort)] at h
      cases h
    · have hpos := (extent_spec format (w ++ r')).2.1
      rw [List.length_append]
      by_cases hroom : w.length ≤ room
      · cases ha : answer handler format (scan format w) with
        | exit octets =>
          rw [readIn_exit hw hroom ha] at h
          cases h
        | deliver c' f =>
          rw [readIn_deliver hw hroom ha] at h
          cases h
          omega
        | skip f =>
          rw [readIn_skip hw hroom ha] at h
          have hlt := ih (room - w.length) (by omega) h
          omega
      · rw [readIn_short (.inr (by omega))] at h
        cases h

theorem readIn_more_length {room : ℕ} {b r : List UInt8} {format' : ExternalFormat}
    (h : readIn handler format room b = .more format' r) : r.length ≤ b.length := by
  induction room using Nat.strong_induction_on generalizing format b with
  | _ room ih =>
    have hdrop : (b.drop room).length ≤ b.length := by
      rw [List.length_drop]
      exact Nat.sub_le _ _
    rcases front_cases format b with hshort | ⟨w, r', rfl, hw, -⟩
    · rw [readIn_short (.inl hshort)] at h
      cases h
      exact hdrop
    · have hpos := (extent_spec format (w ++ r')).2.1
      by_cases hroom : w.length ≤ room
      · cases ha : answer handler format (scan format w) with
        | exit octets =>
          rw [readIn_exit hw hroom ha] at h
          cases h
        | deliver c' f =>
          rw [readIn_deliver hw hroom ha] at h
          cases h
        | skip f =>
          rw [readIn_skip hw hroom ha] at h
          have hle := ih (room - w.length) (by omega) h
          rw [List.length_append]
          omega
      · rw [readIn_short (.inr (by omega))] at h
        cases h
        exact hdrop

/-- ecl_eformat_read_char on octets b. -/
def firstRead (handler : Handler) (format : ExternalFormat) (b : List UInt8) : Decoded :=
  readIn handler format encodingBufferMaxSize b

theorem eformatReadChar_reads {s : Stream} (hpos : 0 ≤ s.position) :
    Reads s (firstRead handler s.format s.remaining) (eformatReadChar handler s) := by
  have hroom : encodingBufferMaxSize / s.kind.unit s.format * s.kind.unit s.format =
      encodingBufferMaxSize := by
    cases s.kind <;> cases s.format <;> decide
  have hread := @readCharLoop_within handler (encodingBufferMaxSize / s.kind.unit s.format)
    encodingBufferMaxSize { s with lastChar := eof } hpos [] (extent_spec s.format []).2.1
    (Nat.dvd_zero _) (by
      change 0 + encodingBufferMaxSize / s.kind.unit s.format * s.kind.unit s.format ≤ _
      omega)
  change Reads _ (readWithin handler _ s.format
    (0 + encodingBufferMaxSize / s.kind.unit s.format * s.kind.unit s.format) s.remaining) _ at hread
  rw [hroom, Nat.zero_add] at hread
  exact hread.trans ⟨hpos, rfl, rfl, rfl, rfl⟩

/-- What lookAhead makes of a return. -/
def afterReturn : Decoded → Decoded
  | .item c format r => .item (if c = charLinefeed then charNewline else charReturn) format r
  | .more format r => .item charReturn format r
  | .stop octets => .stop octets

def lineRead (handler : Handler) :
    LineEnding → ℤ → ExternalFormat → List UInt8 → Decoded
  | .lf, c, format, r => .item c format r
  | .cr, c, format, r => .item (if c = charReturn then charNewline else c) format r
  | .crlf, c, format, r =>
    if c = charReturn then afterReturn (firstRead handler format r) else .item c format r

def readOne (handler : Handler) (lineEnding : LineEnding) (format : ExternalFormat)
    (b : List UInt8) : Decoded :=
  match firstRead handler format b with
  | .item c format' r => lineRead handler lineEnding c format' r
  | out => out

theorem lookAhead_reads {s : Stream} {out : Decoded} {read : ReadResult} (h : Reads s out read) :
    Reads s (afterReturn out) (lookAhead read) := by
  cases out with
  | stop octets =>
    rw [show read = .unwind octets from h]
    exact rfl
  | more format r =>
    obtain ⟨s', rfl, hs'⟩ := h
    exact ⟨_, rfl, hs'.position, hs'.kind, hs'.lineEnding, hs'.format, hs'.remaining⟩
  | item c format r =>
    obtain ⟨s', rfl, hs'⟩ := h
    rw [afterReturn, lookAhead]
    by_cases hc : c = charLinefeed
    · rw [if_pos hc, if_pos hc]
      exact ⟨s', rfl, hs'⟩
    · rw [if_neg hc, if_neg hc]
      exact ⟨_, rfl, hs'.position, hs'.kind, hs'.lineEnding, hs'.format, hs'.remaining⟩

theorem readChar_reads {s : Stream} (hpos : 0 ≤ s.position) :
    Reads s (readOne handler s.lineEnding s.format s.remaining) (readChar handler s) := by
  have hread := @eformatReadChar_reads handler _ hpos
  rw [readOne]
  cases hfirst : firstRead handler s.format s.remaining with
  | stop octets =>
    rw [hfirst] at hread
    exact readChar_of_unwind hread
  | more format r =>
    rw [hfirst] at hread
    obtain ⟨s', heq, hs'⟩ := hread
    exact ⟨s', readChar_of_eof heq, hs'⟩
  | item c format r =>
    rw [hfirst] at hread
    obtain ⟨s', heq, hs'⟩ := hread
    change Reads s (lineRead handler s.lineEnding c format r) (readChar handler s)
    cases hl : s.lineEnding with
    | lf => exact ⟨s', readChar_lf hl heq, hs'⟩
    | cr => exact ⟨s', readChar_cr hl heq, hs'⟩
    | crlf =>
      rw [lineRead]
      by_cases hc : c = charReturn
      · subst hc
        have hnext := @eformatReadChar_reads handler _ hs'.position
        rw [hs'.format, hs'.remaining] at hnext
        rw [if_pos rfl, readChar_crlf_return hl heq]
        exact (lookAhead_reads hnext).trans hs'
      · rw [if_neg hc]
        exact ⟨s', readChar_crlf_other hl heq hc, hs'⟩

def textWithin (handler : Handler) (lineEnding : LineEnding) :
    ℕ → ExternalFormat → List UInt8 → Text ℤ (List UInt8)
  | 0, _, _ => ⟨[], none⟩
  | n + 1, format, b =>
    match readOne handler lineEnding format b with
    | .item c format' r => (textWithin handler lineEnding n format' r).cons c
    | .more _ _ => ⟨[], none⟩
    | .stop octets => ⟨[], some octets⟩

theorem readChars_within {n : ℕ} {s : Stream} (hpos : 0 ≤ s.position) :
    readChars handler n s = textWithin handler s.lineEnding n s.format s.remaining := by
  induction n generalizing s with
  | zero => rfl
  | succ n ih =>
    have hread := @readChar_reads handler _ hpos
    rw [textWithin]
    cases hone : readOne handler s.lineEnding s.format s.remaining with
    | stop octets =>
      rw [hone] at hread
      exact readChars_unwind hread
    | more format r =>
      rw [hone] at hread
      obtain ⟨s', heq, -⟩ := hread
      exact readChars_eof heq
    | item c format r =>
      rw [hone] at hread
      obtain ⟨s', heq, hs'⟩ := hread
      rw [readChars_char heq, ih hs'.position, hs'.lineEnding, hs'.format, hs'.remaining]

section
variable {lineEnding : LineEnding} {b r : List UInt8} {c : ℤ} {format' : ExternalFormat}

theorem readOne_item_length (h : readOne handler lineEnding format b = .item c format' r) :
    r.length < b.length := by
  rw [readOne] at h
  cases hfirst : firstRead handler format b with
  | stop octets =>
    rw [hfirst] at h
    cases h
  | more f r' =>
    rw [hfirst] at h
    cases h
  | item c' f r' =>
    have hlt := readIn_item_length hfirst
    rw [hfirst] at h
    change lineRead handler lineEnding c' f r' = _ at h
    cases lineEnding with
    | lf =>
      cases h
      exact hlt
    | cr =>
      cases h
      exact hlt
    | crlf =>
      rw [lineRead] at h
      split_ifs at h
      · cases hnext : firstRead handler f r' with
        | stop octets =>
          rw [hnext] at h
          cases h
        | more f' r'' =>
          have hle := readIn_more_length hnext
          rw [hnext] at h
          cases h
          omega
        | item c'' f' r'' =>
          have hlt' := readIn_item_length hnext
          rw [hnext] at h
          cases h
          omega
      · cases h
        exact hlt

theorem textWithin_fuel {m n : ℕ} (hm : b.length < m) (hn : b.length < n) :
    textWithin handler lineEnding m format b = textWithin handler lineEnding n format b := by
  induction m generalizing n format b with
  | zero => omega
  | succ m ih =>
    obtain ⟨n, rfl⟩ : ∃ k, n = k + 1 := ⟨n - 1, by omega⟩
    rw [textWithin, textWithin]
    cases hone : readOne handler lineEnding format b with
    | stop octets => rfl
    | more f r => rfl
    | item c f r =>
      have hlt := readOne_item_length hone
      exact congrArg (Text.cons c) (ih (by omega) (by omega))

end

end ResumedReading
