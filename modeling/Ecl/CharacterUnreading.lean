import Ecl.CharacterReading

/-! unread-char of file streams and sequence streams, and peek-char of
src/c/streams/strm_common.d. -/
namespace CharacterUnreading

open ExternalFormats IncrementalDecoding CharacterStreams DecoderLaws CharacterReading
  CharacterVectors

/-- None is the error of ecl_unread_twice. -/
def eformatUnreadChar (s : Stream) (c : ℤ) : Option Stream :=
  if s.lastChar ≠ eof then none else some { s with lastChar := c }

/-- The octets on top of the byte stack and the format after them. The linefeed of a CRLF is
encoded first, and the return then comes on top of it. -/
def unreadOctets (lineEnding : LineEnding) (format : ExternalFormat) (c : ℤ) :
    Option (List UInt8 × ExternalFormat) :=
  if c = charNewline then
    match lineEnding with
    | .crlf => (encoder format charLinefeed).bind fun e =>
      (encoder e.2 charReturn).map fun e' => (e'.1 ++ e.1, e'.2)
    | .cr => encoder format charReturn
    | .lf => encoder format charNewline
  else encoder format c

def ioFileUnreadChar (s : Stream) (c : ℤ) : Option Stream :=
  (eformatUnreadChar s c).bind fun s' =>
    (unreadOctets s.lineEnding s.format c).map fun e =>
      { s' with byteStack := e.1 ++ s.byteStack, format := e.2 }

def unreadLength (lineEnding : LineEnding) (c : ℤ) : ℕ :=
  if c = charNewline ∧ lineEnding = .crlf then 2 else 1

def seqInUnreadChar (s : Stream) (c : ℤ) : Option Stream :=
  (eformatUnreadChar s c).map fun s' =>
    { s' with position := s.position - unreadLength s.lineEnding c }

def unreadChar (s : Stream) (c : ℤ) : Option Stream :=
  match s.kind with
  | .file => ioFileUnreadChar s c
  | .sequence => seqInUnreadChar s c

/-- ecl_generic_peek_char; none is an error of unread-char. -/
def peekChar (handler : Handler) (s : Stream) : Option ReadResult :=
  match readChar handler s with
  | .char c s' => (unreadChar s' c).map (.char c)
  | out => some out

def reportedPosition (s : Stream) : ℤ :=
  match s.kind with
  | .file => filePosition s
  | .sequence => s.position

structure Alike (s t : Stream) : Prop where
  kind : t.kind = s.kind
  format : t.format = s.format
  lineEnding : t.lineEnding = s.lineEnding
  remaining : t.remaining = s.remaining
  left : 0 ≤ s.position
  right : 0 ≤ t.position

inductive AlikeResult : ReadResult → ReadResult → Prop
  | char {s t : Stream} (c : ℤ) (h : Alike s t) : AlikeResult (.char c s) (.char c t)
  | eof {s t : Stream} (h : Alike s t) : AlikeResult (.eof s) (.eof t)
  | unwind (octets : List UInt8) : AlikeResult (.unwind octets) (.unwind octets)

section
variable {handler : Handler} {s t : Stream}

theorem Alike.skip (h : Alike s t) (n : ℕ) (format : ExternalFormat) :
    Alike { s.skip n with format := format } { t.skip n with format := format } where
  kind := h.kind
  format := rfl
  lineEnding := h.lineEnding
  remaining := by
    have hs : ({ s.skip n with format := format } : Stream).remaining = s.remaining.drop n :=
      Stream.remaining_skip h.left n
    have ht : ({ t.skip n with format := format } : Stream).remaining = t.remaining.drop n :=
      Stream.remaining_skip h.right n
    rw [hs, ht, h.remaining]
  left := Stream.skip_position_nonneg h.left n
  right := Stream.skip_position_nonneg h.right n

theorem Alike.lastChar (h : Alike s t) (c : ℤ) :
    Alike { s with lastChar := c } { t with lastChar := c } :=
  ⟨h.kind, h.format, h.lineEnding, h.remaining, h.left, h.right⟩

theorem readCharLoop_alike (h : Alike s t) (n : ℕ) (pending : List UInt8) :
    AlikeResult (readCharLoop handler n s pending) (readCharLoop handler n t pending) := by
  induction n generalizing s t pending with
  | zero => exact .eof h
  | succ n ih =>
    have hskip := h.skip (s.kind.unit s.format)
    rw [readCharLoop, readCharLoop]
    simp only [Stream.readByte8_fst, h.kind, h.format, h.remaining]
    by_cases hshort : (s.remaining.take (s.kind.unit s.format)).length < s.kind.unit s.format
    · rw [if_pos hshort, if_pos hshort]
      have hsame := hskip s.format
      refine .eof ⟨h.kind, h.format, h.lineEnding, hsame.remaining, hsame.left, hsame.right⟩
    · rw [if_neg hshort, if_neg hshort]
      cases decoder handler s.format (pending ++ s.remaining.take (s.kind.unit s.format)) with
      | more format rest => exact ih (hskip format) rest
      | stop octets => exact .unwind octets
      | item c format rest =>
        by_cases hc : c = eof
        · simp only [if_pos hc]
          exact ih (hskip format) rest
        · simp only [if_neg hc]
          exact .char c (hskip format)

theorem eformatReadChar_alike (h : Alike s t) :
    AlikeResult (eformatReadChar handler s) (eformatReadChar handler t) := by
  have hunit : t.kind.unit t.format = s.kind.unit s.format := by
    rw [h.kind, h.format]
  rw [eformatReadChar, eformatReadChar, hunit]
  exact readCharLoop_alike (h.lastChar eof) _ []

theorem lookAhead_alike {r r' : ReadResult} (h : AlikeResult r r') :
    AlikeResult (lookAhead r) (lookAhead r') := by
  cases h with
  | eof h => exact .char charReturn (h.lastChar eof)
  | unwind octets => exact .unwind octets
  | char c h =>
    rw [lookAhead, lookAhead]
    split_ifs
    · exact .char charNewline h
    · exact .char charReturn (h.lastChar c)

theorem eformatReadCharCr_alike (h : Alike s t) :
    AlikeResult (eformatReadCharCr handler s) (eformatReadCharCr handler t) := by
  rw [eformatReadCharCr, eformatReadCharCr]
  have hread : AlikeResult (eformatReadChar handler s) (eformatReadChar handler t) :=
    eformatReadChar_alike h
  revert hread
  generalize eformatReadChar handler s = r, eformatReadChar handler t = r'
  rintro (⟨c, h⟩ | h | octets)
  · exact .char _ h
  · exact .eof h
  · exact .unwind octets

theorem eformatReadCharCrlf_alike (h : Alike s t) :
    AlikeResult (eformatReadCharCrlf handler s) (eformatReadCharCrlf handler t) := by
  rw [eformatReadCharCrlf, eformatReadCharCrlf]
  have hread : AlikeResult (eformatReadChar handler s) (eformatReadChar handler t) :=
    eformatReadChar_alike h
  revert hread
  generalize eformatReadChar handler s = r, eformatReadChar handler t = r'
  rintro (⟨c, h⟩ | h | octets)
  · dsimp only
    split_ifs
    · exact lookAhead_alike (eformatReadChar_alike h)
    · exact .char c h
  · exact .eof h
  · exact .unwind octets

theorem readChar_alike (h : Alike s t) :
    AlikeResult (readChar handler s) (readChar handler t) := by
  have hl := h.lineEnding
  cases hs : s.lineEnding <;> rw [hs] at hl <;> simp only [readChar, hs, hl]
  · exact eformatReadChar_alike h
  · exact eformatReadCharCr_alike h
  · exact eformatReadCharCrlf_alike h

theorem readChars_alike (h : Alike s t) (n : ℕ) :
    readChars handler n t = readChars handler n s := by
  induction n generalizing s t with
  | zero => rfl
  | succ n ih =>
    rw [readChars, readChars]
    have hread : AlikeResult (readChar handler s) (readChar handler t) := readChar_alike h
    revert hread
    generalize readChar handler s = r, readChar handler t = r'
    rintro (⟨c, h⟩ | h | octets)
    · exact congrArg (Text.cons c) (ih h)
    · rfl
    · rfl

end

section
variable {handler : Handler} {format : ExternalFormat} {b : List UInt8} {s : Stream}

theorem settle_silent {decode decode' : ExternalFormat → List UInt8 → Decoded} {out : Scan}
    (h : ∀ e, settle unwinding decode format b out ≠ .stop e) :
    settle handler decode' format b out = settle unwinding decode format b out := by
  cases out with
  | eof => rfl
  | char c rest => rfl
  | error octets rest => exact absurd rfl (h octets.reverse)

theorem markDecoder_silent {decode decode' : ExternalFormat → List UInt8 → Decoded}
    {be le : ExternalFormat} {swapped : ℤ}
    (h : ∀ e, markDecoder unwinding decode format be le swapped b ≠ .stop e) :
    markDecoder handler decode' format be le swapped b =
      markDecoder unwinding decode format be le swapped b := by
  rw [markDecoder] at h ⊢
  rw [markDecoder]
  cases hs : scan format b with
  | eof => rfl
  | error octets rest =>
    rw [hs] at h
    exact absurd rfl (h octets.reverse)
  | char c rest =>
    rw [hs] at h
    simp only [settle] at h ⊢
    split_ifs at h ⊢ with h1 h2 h3
    · rfl
    · exact settle_silent h
    · exact settle_silent h
    · rfl

theorem decoder_silent (h : ∀ e, decoder unwinding format b ≠ .stop e) :
    decoder handler format b = decoder unwinding format b := by
  rw [decoder, decoderLoop] at h ⊢
  rw [decoder, decoderLoop]
  cases format with
  | ucs2 => exact markDecoder_silent h
  | ucs4 => exact markDecoder_silent h
  | latin1 | usAscii | utf8 | ucs2be | ucs2le | ucs4be | ucs4le => exact settle_silent h

theorem readCharLoop_silent {n : ℕ} {pending : List UInt8}
    (h : ∀ e, readCharLoop unwinding n s pending ≠ .unwind e) :
    readCharLoop handler n s pending = readCharLoop unwinding n s pending := by
  induction n generalizing s pending with
  | zero => rfl
  | succ n ih =>
    rw [readCharLoop] at h ⊢
    rw [readCharLoop]
    by_cases hshort : ((s.readByte8 (s.kind.unit s.format)).1).length < s.kind.unit s.format
    · simp only [if_pos hshort]
    · simp only [if_neg hshort] at h ⊢
      have hdec : ∀ e, decoder unwinding s.format
          (pending ++ (s.readByte8 (s.kind.unit s.format)).1) ≠ .stop e := by
        intro e he
        rw [he] at h
        exact h e rfl
      rw [decoder_silent hdec]
      cases hout : decoder unwinding s.format
          (pending ++ (s.readByte8 (s.kind.unit s.format)).1) with
      | stop e => rfl
      | more format rest =>
        rw [hout] at h
        exact ih h
      | item c format rest =>
        rw [hout] at h
        by_cases hc : c = eof
        · simp only [if_pos hc] at h ⊢
          exact ih h
        · simp only [if_neg hc]

theorem eformatReadChar_silent (h : ∀ e, eformatReadChar unwinding s ≠ .unwind e) :
    eformatReadChar handler s = eformatReadChar unwinding s :=
  readCharLoop_silent h

theorem readChar_silent {c : ℤ} {s' : Stream} (h : readChar unwinding s = .char c s') :
    readChar handler s = .char c s' := by
  have hread : ∀ e, eformatReadChar unwinding s ≠ .unwind e := by
    intro e he
    rw [readChar_of_unwind he] at h
    cases h
  have hsame : eformatReadChar handler s = eformatReadChar unwinding s :=
    eformatReadChar_silent hread
  rw [← h]
  cases hl : s.lineEnding with
  | lf => simp only [readChar, hl, hsame]
  | cr => simp only [readChar, hl, eformatReadCharCr, hsame]
  | crlf =>
    simp only [readChar, hl, eformatReadCharCrlf, hsame] at h ⊢
    cases hfirst : eformatReadChar unwinding s with
    | eof t => rfl
    | unwind e => rfl
    | char d t =>
      rw [hfirst] at h
      dsimp only at h ⊢
      split_ifs at h ⊢ with hcr
      · have hnext : ∀ e, eformatReadChar unwinding t ≠ .unwind e := by
          intro e he
          rw [he] at h
          cases h
        rw [eformatReadChar_silent hnext]
      · rfl

end

structure Kept (s s' : Stream) : Prop where
  kind : s'.kind = s.kind
  content : s'.content = s.content
  lineEnding : s'.lineEnding = s.lineEnding
  position : 0 ≤ s.position → 0 ≤ s'.position
  stack : s.byteStack = [] → s'.byteStack = []

inductive EndsIn (P : Stream → Prop) : ReadResult → Prop
  | char {s : Stream} (c : ℤ) (h : P s) : EndsIn P (.char c s)
  | eof {s : Stream} (h : P s) : EndsIn P (.eof s)
  | unwind (octets : List UInt8) : EndsIn P (.unwind octets)

section
variable {handler : Handler} {s s' : Stream}

theorem Kept.refl (s : Stream) : Kept s s := ⟨rfl, rfl, rfl, id, id⟩

theorem Kept.trans {s'' : Stream} (h : Kept s s') (h' : Kept s' s'') : Kept s s'' :=
  ⟨h'.kind.trans h.kind, h'.content.trans h.content, h'.lineEnding.trans h.lineEnding,
    fun hp => h'.position (h.position hp), fun hs => h'.stack (h.stack hs)⟩

theorem Kept.lastChar (h : Kept s s') (c : ℤ) : Kept s { s' with lastChar := c } :=
  ⟨h.kind, h.content, h.lineEnding, h.position, h.stack⟩

theorem kept_skip (s : Stream) (n : ℕ) (format : ExternalFormat) :
    Kept s { s.skip n with format := format } where
  kind := rfl
  content := rfl
  lineEnding := rfl
  position h := Stream.skip_position_nonneg h n
  stack h := by
    change s.byteStack.drop n = []
    rw [h, List.drop_nil]

theorem EndsIn.mono {P Q : Stream → Prop} {r : ReadResult} (h : EndsIn P r)
    (hPQ : ∀ s, P s → Q s) : EndsIn Q r := by
  cases h with
  | char c h => exact .char c (hPQ _ h)
  | eof h => exact .eof (hPQ _ h)
  | unwind octets => exact .unwind octets

theorem readCharLoop_kept (n : ℕ) (s : Stream) (pending : List UInt8) :
    EndsIn (Kept s) (readCharLoop handler n s pending) := by
  induction n generalizing s pending with
  | zero => exact .eof (.refl s)
  | succ n ih =>
    have hskip := kept_skip s (s.kind.unit s.format)
    rw [readCharLoop]
    by_cases hshort : ((s.readByte8 (s.kind.unit s.format)).1).length < s.kind.unit s.format
    · simp only [if_pos hshort]
      exact .eof (hskip s.format)
    · simp only [if_neg hshort]
      cases decoder handler s.format (pending ++ (s.readByte8 (s.kind.unit s.format)).1) with
      | stop octets => exact .unwind octets
      | more format rest => exact (ih _ rest).mono fun _ h => (hskip format).trans h
      | item c format rest =>
        by_cases hc : c = eof
        · simp only [if_pos hc]
          exact (ih _ rest).mono fun _ h => (hskip format).trans h
        · simp only [if_neg hc]
          exact .char c (hskip format)

theorem eformatReadChar_kept (s : Stream) : EndsIn (Kept s) (eformatReadChar handler s) :=
  (readCharLoop_kept _ _ []).mono fun _ h => ((Kept.refl s).lastChar eof).trans h

theorem lookAhead_kept {r : ReadResult} (h : EndsIn (Kept s) r) :
    EndsIn (Kept s) (lookAhead r) := by
  cases h with
  | eof h => exact .char charReturn (h.lastChar eof)
  | unwind octets => exact .unwind octets
  | char c h =>
    rw [lookAhead]
    split_ifs
    · exact .char charNewline h
    · exact .char charReturn (h.lastChar c)

theorem readChar_kept (s : Stream) : EndsIn (Kept s) (readChar handler s) := by
  have hread : EndsIn (Kept s) (eformatReadChar handler s) := eformatReadChar_kept s
  cases hl : s.lineEnding <;> simp only [readChar, hl, eformatReadCharCr, eformatReadCharCrlf]
  · exact hread
  · revert hread
    generalize eformatReadChar handler s = r
    rintro (⟨c, h⟩ | h | octets)
    · exact .char _ h
    · exact .eof h
    · exact .unwind octets
  · revert hread
    generalize eformatReadChar handler s = r
    rintro (⟨c, h⟩ | h | octets)
    · dsimp only
      split_ifs
      · exact lookAhead_kept ((eformatReadChar_kept _).mono fun _ h' => h.trans h')
      · exact .char c h
    · exact .eof h
    · exact .unwind octets

theorem kept_of_readChar {c : ℤ} (h : readChar handler s = .char c s') : Kept s s' := by
  have hkept : EndsIn (Kept s) (readChar handler s) := readChar_kept s
  rw [h] at hkept
  cases hkept with
  | char c h => exact h

theorem kept_of_eof (h : readChar handler s = .eof s') : Kept s s' := by
  have hkept : EndsIn (Kept s) (readChar handler s) := readChar_kept s
  rw [h] at hkept
  cases hkept with
  | eof h => exact h

end

end CharacterUnreading
