import Ecl.CharacterUnreading
import Ecl.DecodedOctets
import Mathlib.Tactic.Ring

/-! When unread-char and peek-char undo a read. -/
namespace UnreadTransparency

open ExternalFormats IncrementalDecoding CharacterStreams DecoderLaws CharacterReading
  CharacterVectors CharacterUnreading Utf8Decoding FormatRoundTrip DecodedOctets

/-- After c has been read from s, which led to s₁, unread-char gives c back: it is read again,
all reads go on as from s, and the position is the one of s. -/
def Transparent (s s₁ : Stream) (c : ℤ) : Prop :=
  ∃ s₂, unreadChar s₁ c = some s₂ ∧ peekChar unwinding s = some (.char c s₂) ∧
    (∀ handler n, readChars handler n s₂ = readChars handler n s) ∧
    reportedPosition s₂ = reportedPosition s

/-- What a character of the format is for the line ending CR. -/
def newlineOf (lineEnding : LineEnding) (c : ℤ) : ℤ :=
  if lineEnding = .cr ∧ c = charReturn then charNewline else c

/-- How a read takes its character. In CRLF mode a return is followed by a linefeed, by nothing
that the decoder accepts, or by another character, which lastChar keeps. -/
inductive Took (s : Stream) : ℤ → Stream → Prop
  | one {c : ℤ} {format : ExternalFormat} {r : List UInt8}
    (h : decoder unwinding s.format s.remaining = .item c format r) (hc : c ≠ eof)
    (hl : s.lineEnding = .crlf → c ≠ charReturn) :
    Took s (newlineOf s.lineEnding c) (after s format r)
  | newline {format format' : ExternalFormat} {r r' : List UInt8} (hl : s.lineEnding = .crlf)
    (h : decoder unwinding s.format s.remaining = .item charReturn format r)
    (h' : decoder unwinding format r = .item charLinefeed format' r') :
    Took s charNewline (after (after s format r) format' r')
  | last {format : ExternalFormat} {r : List UInt8} {s' : Stream} (hl : s.lineEnding = .crlf)
    (h : decoder unwinding s.format s.remaining = .item charReturn format r)
    (hnil : s'.remaining = []) (hadv : Advanced (after s format r) s') :
    Took s charReturn { s' with lastChar := eof }
  | other {c : ℤ} {format format' : ExternalFormat} {r r' : List UInt8} {s' : Stream}
    (hl : s.lineEnding = .crlf)
    (h : decoder unwinding s.format s.remaining = .item charReturn format r)
    (h' : decoder unwinding format r = .item c format' r') (hc : c ≠ eof)
    (hlf : c ≠ charLinefeed) : Took s charReturn { s' with lastChar := c }

section
variable {s : Stream} {c : ℤ} {format format' : ExternalFormat} {r r' : List UInt8}

theorem readChar_one (hpos : 0 ≤ s.position)
    (h : decoder unwinding s.format s.remaining = .item c format r) (hc : c ≠ eof)
    (hl : s.lineEnding = .crlf → c ≠ charReturn) :
    readChar unwinding s = .char (newlineOf s.lineEnding c) (after s format r) := by
  have hread := (eformatReadChar_spec unwinding_decisive hpos).1 c format r h hc
  cases hs : s.lineEnding with
  | lf => exact readChar_lf hs hread
  | cr =>
    refine (readChar_cr hs hread).trans ?_
    simp only [newlineOf, true_and]
    rfl
  | crlf => exact readChar_crlf_other hs hread (hl hs)

theorem readChar_newline (hpos : 0 ≤ s.position) (hl : s.lineEnding = .crlf)
    (h : decoder unwinding s.format s.remaining = .item charReturn format r)
    (h' : decoder unwinding format r = .item charLinefeed format' r') :
    readChar unwinding s = .char charNewline (after (after s format r) format' r') := by
  have hread := (eformatReadChar_spec unwinding_decisive hpos).1 _ format r h (by decide)
  rw [readChar_crlf_return hl hread]
  have hpos' := after_position hpos format r
  have hrem := after_remaining unwinding_decisive hpos h
  have hread' := (eformatReadChar_spec unwinding_decisive hpos').1 charLinefeed format' r'
    (by rw [hrem]; exact h') (by decide)
  exact congrArg lookAhead hread'

theorem readChar_last (hpos : 0 ≤ s.position) (hl : s.lineEnding = .crlf)
    (h : decoder unwinding s.format s.remaining = .item charReturn format [])  :
    ∃ s', readChar unwinding s = .char charReturn { s' with lastChar := eof } ∧
      s'.remaining = [] ∧ Advanced (after s format []) s' := by
  have hread := (eformatReadChar_spec unwinding_decisive hpos).1 _ format [] h (by decide)
  have hpos' := after_position hpos format []
  have hrem := after_remaining unwinding_decisive hpos h
  have hnil := (decoder_lawful unwinding_decisive).step_nil format
  obtain ⟨s', hread', hs', hadv⟩ :=
    (eformatReadChar_spec unwinding_decisive hpos').2.2 format [] (by rw [hrem]; exact hnil)
  refine ⟨s', ?_, hs', hadv⟩
  rw [readChar_crlf_return hl hread]
  exact congrArg lookAhead hread'

theorem took_of_readChar {s₁ : Stream} (hpos : 0 ≤ s.position)
    (heof : eof ∉ (rawText unwinding s).items.take 2) (h : readChar unwinding s = .char c s₁) :
    Took s c s₁ := by
  have heof' : eof ∉ (rawText unwinding s).items.take 1 := by
    refine fun hmem => heof ?_
    rw [show 1 = min 1 2 from rfl, ← List.take_take] at hmem
    exact List.mem_of_mem_take hmem
  rcases rawText_cases unwinding_decisive hpos heof' with
    ⟨d, format, r, hdec, hd, hread, htext, -⟩ | ⟨e, hread, -⟩ | ⟨⟨s', hread, -⟩, -⟩
  · by_cases hcr : s.lineEnding = .crlf ∧ d = charReturn
    · obtain ⟨hl, rfl⟩ := hcr
      rw [readChar_crlf_return hl hread] at h
      have hpos' := after_position hpos format r
      have heof'' : eof ∉ (rawText unwinding (after s format r)).items.take 1 := by
        rw [htext] at heof
        exact fun hmem => heof (List.mem_cons_of_mem _ hmem)
      have hrem := after_remaining unwinding_decisive hpos hdec
      rcases rawText_cases unwinding_decisive hpos' heof'' with
        ⟨d', format', r', hdec', hd', hread', -⟩ | ⟨e, hread', -⟩ | ⟨⟨s', hread', hs', hadv⟩, -⟩
      · rw [hread', lookAhead] at h
        rw [hrem] at hdec'
        by_cases hlf : d' = charLinefeed
        · subst hlf
          rw [if_pos rfl] at h
          cases h
          exact .newline hl hdec hdec'
        · rw [if_neg hlf] at h
          cases h
          exact .other hl hdec hdec' hd' hlf
      · rw [hread'] at h
        cases h
      · rw [hread'] at h
        cases h
        exact .last hl hdec hs' hadv
    · have hone := readChar_one hpos hdec hd (fun hl hc => hcr ⟨hl, hc⟩)
      cases hone.symm.trans h
      exact .one hdec hd fun hl hc => hcr ⟨hl, hc⟩
  · rw [readChar_of_unwind hread] at h
    cases h
  · rw [readChar_of_eof hread] at h
    cases h

end

def Rereads (lineEnding : LineEnding) (format : ExternalFormat) (g q : List UInt8) (c : ℤ) : Prop :=
  ∀ t : Stream, 0 ≤ t.position → t.lineEnding = lineEnding → t.format = format →
    t.remaining = g ++ q → ∃ t', readChar unwinding t = .char c t' ∧ t'.remaining = q ∧
      t'.format = format ∧ Kept t t'

section
variable {lineEnding : LineEnding} {format : ExternalFormat} {g g' q : List UInt8} {c : ℤ}

theorem rereads_one (hs : Settled format) (h : scan format (g ++ q) = .char c q) (hc : c ≠ eof)
    (hl : lineEnding = .crlf → c ≠ charReturn) :
    Rereads lineEnding format g q (newlineOf lineEnding c) := by
  rintro t hpos rfl rfl hrem
  have hdec : decoder unwinding t.format t.remaining = .item c t.format q := by
    rw [hrem]
    exact decoder_of_scan hs h
  have hread := readChar_one hpos hdec hc hl
  exact ⟨_, hread, after_remaining unwinding_decisive hpos hdec, rfl, kept_of_readChar hread⟩

theorem rereads_newline (hs : Settled format)
    (h : scan format (g ++ (g' ++ q)) = .char charReturn (g' ++ q))
    (h' : scan format (g' ++ q) = .char charLinefeed q) :
    Rereads .crlf format (g ++ g') q charNewline := by
  rintro t hpos hl rfl hrem
  rw [List.append_assoc] at hrem
  have hdec : decoder unwinding t.format t.remaining = .item charReturn t.format (g' ++ q) := by
    rw [hrem]
    exact decoder_of_scan hs h
  have hdec' : decoder unwinding t.format (g' ++ q) = .item charLinefeed t.format q :=
    decoder_of_scan hs h'
  have hread := readChar_newline hpos hl hdec hdec'
  refine ⟨_, hread, ?_, rfl, kept_of_readChar hread⟩
  have hrem' := after_remaining unwinding_decisive hpos hdec
  exact after_remaining unwinding_decisive (after_position hpos t.format _)
    (by rw [hrem']; exact hdec')

theorem rereads_last (hs : Settled format) (h : scan format g = .char charReturn []) :
    Rereads .crlf format g [] charReturn := by
  rintro t hpos hl rfl hrem
  rw [List.append_nil] at hrem
  have hdec : decoder unwinding t.format t.remaining = .item charReturn t.format [] := by
    rw [hrem]
    exact decoder_of_scan hs h
  obtain ⟨s', hread, hnil, hadv⟩ := readChar_last hpos hl hdec
  exact ⟨_, hread, hnil, hadv.settled hs, kept_of_readChar hread⟩

theorem control_encoder (hs : Settled format) (hc : c = charReturn ∨ c = charLinefeed) :
    ∃ e, encoder format c = some (e, format) ∧ e.length = byteSize format ∧
      ∀ x, scan format (e ++ x) = .char c x := by
  have hscan : ∀ e, encoder format c = some (e, format) → ∀ x, scan format (e ++ x) = .char c x := by
    rcases hc with rfl | rfl
    · exact fun e he => scan_encoder (n := 13) (by decide) he
        (not_unreadable_control _ (by decide))
    · exact fun e he => scan_encoder (n := 10) (by decide) he
        (not_unreadable_control _ (by decide))
  have hlen : ∃ e, encoder format c = some (e, format) ∧ e.length = byteSize format := by
    cases format with
    | ucs2 => cases hs 0
    | ucs4 => cases hs 0
    | latin1 | usAscii | utf8 | ucs2be | ucs2le | ucs4be | ucs4le =>
      rcases hc with rfl | rfl <;> exact ⟨_, rfl, rfl⟩
  obtain ⟨e, he, hsize⟩ := hlen
  exact ⟨e, he, hsize, hscan e he⟩

/-- The octets that unread-char puts back for a character with the octets e. -/
def givenBack (kind : StreamKind) (lineEnding : LineEnding) (format : ExternalFormat)
    (e : List UInt8) (c : ℤ) : ℕ :=
  if c = charNewline ∧ lineEnding = .crlf then 2 * kind.unit format
  else match kind with
    | .file => e.length
    | .sequence => 1

theorem unreadOctets_rereads {e : List UInt8} (hs : Settled format)
    (henc : encoder format c = some (e, format)) (hscan : ∀ x, scan format (e ++ x) = .char c x)
    (hc : c ≠ eof) (hcr : lineEnding = .cr → c ≠ charReturn)
    (hq : lineEnding = .crlf → c = charReturn → q = []) :
    ∃ g, unreadOctets lineEnding format c = some (g, format) ∧ Rereads lineEnding format g q c ∧
      g.length = givenBack .file lineEnding format e c := by
  by_cases hn : c = charNewline
  · subst hn
    obtain ⟨r, hr, hrlen, hrscan⟩ := control_encoder hs (.inl rfl)
    obtain ⟨l, hl, hllen, hlscan⟩ := control_encoder hs (.inr rfl)
    have hel : e = l := by
      cases henc.symm.trans hl
      rfl
    subst hel
    cases lineEnding with
    | lf =>
      refine ⟨e, ?_, rereads_one hs (hscan q) hc (fun h => by cases h), ?_⟩
      · rw [unreadOctets.eq_def, if_pos rfl]
        exact henc
      · exact (if_neg (fun h => by cases h.2)).symm
    | cr =>
      refine ⟨r, ?_, ?_, ?_⟩
      · rw [unreadOctets.eq_def, if_pos rfl]
        exact hr
      · have hagain : Rereads .cr format r q (newlineOf .cr charReturn) :=
          rereads_one hs (hrscan q) (by decide) (fun h => by cases h)
        exact hagain
      · rw [givenBack, if_neg (fun h => by cases h.2), hrlen]
        exact hllen.symm
    | crlf =>
      refine ⟨r ++ e, ?_, rereads_newline hs (hrscan _) (hscan q), ?_⟩
      · rw [unreadOctets.eq_def, if_pos rfl]
        simp only [hl, hr, Option.bind_some, Option.map_some]
      · rw [givenBack, if_pos ⟨rfl, rfl⟩, List.length_append, hrlen, hllen, Nat.two_mul]
        rfl
  · have hg : unreadOctets lineEnding format c = some (e, format) := by
      rw [unreadOctets.eq_def, if_neg hn]
      exact henc
    refine ⟨e, hg, ?_, (if_neg (fun h => hn h.1)).symm⟩
    by_cases hlast : lineEnding = .crlf ∧ c = charReturn
    · obtain ⟨rfl, rfl⟩ := hlast
      obtain rfl := hq rfl rfl
      have hnil := hscan []
      rw [List.append_nil] at hnil
      exact rereads_last hs hnil
    · have hagain : Rereads lineEnding format e q (newlineOf lineEnding c) :=
        rereads_one hs (hscan q) hc (fun hl hc => hlast ⟨hl, hc⟩)
      rwa [newlineOf, if_neg (fun h => hcr h.1 h.2)] at hagain

end

theorem reportedPosition_eq {s : Stream} (hstack : s.kind = .sequence → s.byteStack = []) :
    reportedPosition s = s.here / s.kind.unit s.format := by
  cases hk : s.kind with
  | file => simp only [reportedPosition, hk, filePosition, StreamKind.unit]
  | sequence =>
    simp only [reportedPosition, hk, StreamKind.unit, Stream.here, hstack hk, List.length_nil]
    omega

section
variable {s s₁ : Stream} {c : ℤ} {e : List UInt8}

theorem readChars_of_rereads (s₂ : Stream) (hread : readChar unwinding s = .char c s₁)
    (hpos : 0 ≤ s.position) (hpos₂ : 0 ≤ s₂.position) (hkind : s₂.kind = s.kind)
    (hline : s₂.lineEnding = s.lineEnding) (hformat : s₂.format = s₁.format) {g : List UInt8}
    (hrem : s₂.remaining = g ++ s₁.remaining)
    (hre : Rereads s.lineEnding s₁.format g s₁.remaining c) (handler : Handler) (n : ℕ) :
    readChars handler n s₂ = readChars handler n s := by
  obtain ⟨t, hread₂, hremt, hformatt, hkept₂⟩ := hre s₂ hpos₂ hline hformat hrem
  have hkept := kept_of_readChar hread
  have halike : Alike s₁ t := by
    refine ⟨?_, hformatt, ?_, hremt, hkept.position hpos, hkept₂.position hpos₂⟩
    · rw [hkept₂.kind, hkind, hkept.kind]
    · rw [hkept₂.lineEnding, hline, hkept.lineEnding]
  cases n with
  | zero => rfl
  | succ n =>
    rw [readChars_char (readChar_silent hread), readChars_char (readChar_silent hread₂),
      readChars_alike halike]

theorem unreadChar_of_unread (hlast : s₁.lastChar ≠ eof) : unreadChar s₁ c = none := by
  have hnone : eformatUnreadChar s₁ c = none := if_pos hlast
  rw [unreadChar]
  cases s₁.kind with
  | file => simp only [ioFileUnreadChar, hnone, Option.bind_none]
  | sequence => simp only [seqInUnreadChar, hnone, Option.map_none]

theorem transparent_iff_position (hread : readChar unwinding s = .char c s₁)
    (hpos : 0 ≤ s.position) (hstack : s.kind = .sequence → s.byteStack = [])
    (hlast : s₁.lastChar = eof) (hs : Settled s₁.format)
    (hsize : byteSize s₁.format = byteSize s.format)
    (henc : encoder s₁.format c = some (e, s₁.format))
    (hscan : ∀ x, scan s₁.format (e ++ x) = .char c x) (hc : c ≠ eof)
    (hcr : s.lineEnding = .cr → c ≠ charReturn)
    (hq : s.lineEnding = .crlf → c = charReturn → s₁.remaining = [])
    (hseq : s.kind = .sequence → s₁.here - givenBack s.kind s.lineEnding s₁.format e c = s.here →
      ∃ g, s.remaining = g ++ s₁.remaining ∧
        Rereads s.lineEnding s₁.format g s₁.remaining c) :
    Transparent s s₁ c ↔
      (s₁.here - givenBack s.kind s.lineEnding s₁.format e c) / s.kind.unit s.format =
        s.here / s.kind.unit s.format := by
  have hkept := kept_of_readChar hread
  have hready : eformatUnreadChar s₁ c = some { s₁ with lastChar := c } :=
    if_neg (not_not.mpr hlast)
  have hpeek : ∀ s₂, unreadChar s₁ c = some s₂ →
      peekChar unwinding s = some (.char c s₂) := by
    intro s₂ hs₂
    simp only [peekChar, hread, hs₂, Option.map_some]
  rw [← reportedPosition_eq hstack]
  cases hk : s.kind with
  | file =>
    have hk₁ : s₁.kind = .file := hkept.kind.trans hk
    obtain ⟨g, hg, hre, hlen⟩ :=
      unreadOctets_rereads hs henc hscan hc hcr hq
    -- the stream with the octets on its stack
    have hunread : unreadChar s₁ c =
        some { s₁ with lastChar := c, byteStack := g ++ s₁.byteStack } := by
      simp only [unreadChar, hk₁, ioFileUnreadChar, hready, Option.bind_some, hkept.lineEnding, hg,
        Option.map_some]
    have hposition : reportedPosition { s₁ with lastChar := c, byteStack := g ++ s₁.byteStack } =
        (s₁.here - givenBack .file s.lineEnding s₁.format e c) /
          StreamKind.file.unit s.format := by
      rw [← hlen]
      simp only [reportedPosition, hk₁, filePosition, Stream.here, List.length_append, hsize,
        StreamKind.unit]
      congr 1
      omega
    rw [← hposition]
    refine ⟨?_, fun h => ⟨_, hunread, hpeek _ hunread, fun handler n => ?_, h⟩⟩
    · rintro ⟨s₂, hs₂, -, -, h⟩
      cases hs₂.symm.trans hunread
      exact h
    · exact readChars_of_rereads { s₁ with lastChar := c, byteStack := g ++ s₁.byteStack } hread
        hpos (hkept.position hpos) hkept.kind hkept.lineEnding rfl (List.append_assoc _ _ _) hre
        handler n
  | sequence =>
    have hk₁ : s₁.kind = .sequence := hkept.kind.trans hk
    have hstack₁ := hkept.stack (hstack hk)
    have hback : unreadLength s₁.lineEnding c = givenBack .sequence s.lineEnding s₁.format e c := by
      rw [unreadLength, givenBack, hkept.lineEnding]
      rfl
    have hunread : unreadChar s₁ c = some { s₁ with
        lastChar := c, position := s₁.position - unreadLength s₁.lineEnding c } := by
      simp only [unreadChar, hk₁, seqInUnreadChar, hready, Option.map_some]
    have hhere : s.here = s.position := by
      rw [Stream.here, hstack hk]
      exact Int.sub_zero _
    have hhere₁ : s₁.here = s₁.position := by
      rw [Stream.here, hstack₁]
      exact Int.sub_zero _
    have hposition : ∀ p, reportedPosition { s₁ with lastChar := c, position := p } = p := by
      intro p
      simp only [reportedPosition, hk₁]
    have hunit : ((StreamKind.sequence.unit s.format : ℕ) : ℤ) = 1 := rfl
    have hreported : reportedPosition s = s.here := by
      rw [reportedPosition_eq hstack, hk, hunit, Int.ediv_one]
    rw [hunit, Int.ediv_one, hreported, ← hback]
    refine ⟨?_, fun h => ⟨_, hunread, hpeek _ hunread, fun handler n => ?_, ?_⟩⟩
    · rintro ⟨s₂, hs₂, -, -, h⟩
      cases hs₂.symm.trans hunread
      rw [hposition, hreported] at h
      rw [hhere₁]
      exact h
    · have hp : s₁.position - unreadLength s₁.lineEnding c = s.position := by
        rw [← hhere, ← hhere₁]
        exact h
      obtain ⟨g, hg, hre⟩ := hseq hk (by rw [hk, ← hback]; exact h)
      refine readChars_of_rereads
        { s₁ with lastChar := c, position := s₁.position - unreadLength s₁.lineEnding c } hread hpos
        ?_ hkept.kind hkept.lineEnding rfl (g := g) ?_ hre handler n
      · rw [hp]
        exact hpos
      · rw [← hg]
        simp only [Stream.remaining, hp, hstack hk, hstack₁, hkept.content]
    · rw [hposition, ← hhere₁, hreported]
      exact h

end

theorem after_here {s : Stream} {format : ExternalFormat} {r : List UInt8} :
    (after s format r).here = s.here + (s.remaining.length - r.length : ℕ) :=
  Stream.here_skip (Nat.sub_le _ _)

theorem no_mark {format format' : ExternalFormat} {b r m w e : List UInt8} {c : ℤ} {k : ℕ}
    (h : First format b c format' r m w e) (hk : k ≤ 2) (hle : m.length + w.length ≤ k) :
    m = [] := by
  obtain ⟨hdvd, hpos⟩ := h.decoded.sizes.1
  have hw := Nat.le_of_dvd hpos hdvd
  rcases h.mark_length with hm | ⟨hm, hsize⟩
  · exact hm
  · omega

section
variable {s : Stream} {c : ℤ} {format format' : ExternalFormat} {r r' m w e w' e' : List UInt8}

theorem transparent_one (hpos : 0 ≤ s.position) (hstack : s.kind = .sequence → s.byteStack = [])
    (h : decoder unwinding s.format s.remaining = .item c format r) (hc : c ≠ eof)
    (hl : s.lineEnding = .crlf → c ≠ charReturn)
    (hf : First s.format s.remaining c format r m w e) :
    Transparent s (after s format r) (newlineOf s.lineEnding c) ↔
      (s.here + (m.length + w.length : ℕ) - givenBack s.kind s.lineEnding format e c) /
        s.kind.unit s.format = s.here / s.kind.unit s.format := by
  have hread := readChar_one hpos h hc hl
  have hrem := after_remaining unwinding_decisive hpos h
  have hlen := hf.length
  have hhere : (after s format r).here = s.here + (m.length + w.length : ℕ) := by
    rw [after_here]
    congr 2
    omega
  rw [← hhere]
  -- the octets that the delivered character has
  have hgiven : ∃ d, encoder format (newlineOf s.lineEnding c) = some (d, format) ∧
      (∀ x, scan format (d ++ x) = .char (newlineOf s.lineEnding c) x) ∧
      givenBack s.kind s.lineEnding format d (newlineOf s.lineEnding c) =
        givenBack s.kind s.lineEnding format e c := by
    by_cases hcr : s.lineEnding = .cr ∧ c = charReturn
    · obtain ⟨hcr, rfl⟩ := hcr
      obtain ⟨d, hd, hdlen, hdscan⟩ := control_encoder hf.settled (.inr rfl)
      obtain ⟨k, hk, hklen, -⟩ := control_encoder hf.settled (.inl rfl)
      cases hk.symm.trans hf.decoded.respelled.encoder
      have hn : newlineOf s.lineEnding charReturn = charNewline := if_pos ⟨hcr, rfl⟩
      rw [hn]
      refine ⟨d, hd, hdscan, ?_⟩
      simp only [givenBack, hcr, hdlen, hklen, reduceCtorEq, and_false, if_false]
    · have hn : newlineOf s.lineEnding c = c := if_neg hcr
      rw [hn]
      exact ⟨e, hf.decoded.respelled.encoder, hf.decoded.respelled.scan, rfl⟩
  obtain ⟨d, hd, hdscan, hdgiven⟩ := hgiven
  rw [← hdgiven]
  have hcr : s.lineEnding = .cr → newlineOf s.lineEnding c ≠ charReturn := by
    intro hcr
    rw [newlineOf]
    split_ifs with h
    · decide
    · exact fun hc => h ⟨hcr, hc⟩
  have heof : newlineOf s.lineEnding c ≠ eof := by
    rw [newlineOf]
    split_ifs
    · decide
    · exact hc
  refine transparent_iff_position hread hpos hstack rfl hf.settled hf.byteSize_eq hd hdscan heof hcr
    ?_ ?_
  · intro hcrlf hlast
    have hn : newlineOf s.lineEnding c = c := by
      rw [newlineOf, hcrlf]
      exact if_neg (fun h => by cases h.1)
    exact absurd (hn.symm.trans hlast) (hl hcrlf)
  · intro hk hequal
    have hformat : (after s format r).format = format := rfl
    rw [hhere, hformat, hdgiven, hk, givenBack] at hequal
    have hm : m = [] := by
      refine no_mark (k := 2) hf (Nat.le_refl 2) ?_
      split_ifs at hequal
      · simp only [StreamKind.unit] at hequal
        omega
      · omega
    refine ⟨w, ?_, ?_⟩
    · rw [hrem, hf.split, hm, List.nil_append]
    · rw [hrem]
      exact rereads_one hf.settled (hf.decoded.scan r) hc hl

theorem transparent_newline (hpos : 0 ≤ s.position)
    (hstack : s.kind = .sequence → s.byteStack = []) (hl : s.lineEnding = .crlf)
    (h : decoder unwinding s.format s.remaining = .item charReturn format r)
    (h' : decoder unwinding format r = .item charLinefeed format' r')
    (hf : First s.format s.remaining charReturn format r m w e)
    (hf' : First format r charLinefeed format r' [] w' e') :
    Transparent s (after (after s format r) format' r') charNewline ↔
      (s.here + (m.length + w.length + w'.length : ℕ) - (2 * s.kind.unit s.format : ℕ)) /
        s.kind.unit s.format = s.here / s.kind.unit s.format := by
  have hread := readChar_newline hpos hl h h'
  have hformat := settled_item unwinding_decisive hf.settled h'
  subst hformat
  have hrem := after_remaining unwinding_decisive hpos h
  have hpos' := after_position hpos format' r
  have hrem' : (after (after s format' r) format' r').remaining = r' :=
    after_remaining unwinding_decisive hpos' (by rw [hrem]; exact h')
  have hlen := hf.length
  have hlen' := hf'.length
  have hhere : (after (after s format' r) format' r').here =
      s.here + (m.length + w.length + w'.length : ℕ) := by
    rw [after_here, after_here, hrem]
    simp only [List.length_nil] at hlen'
    omega
  have hgiven : givenBack s.kind s.lineEnding format' e' charNewline =
      2 * s.kind.unit s.format := by
    rw [givenBack.eq_def, if_pos ⟨rfl, hl⟩, unit_congr s.kind hf.byteSize_eq]
  rw [← hhere, ← hgiven]
  refine transparent_iff_position hread hpos hstack rfl hf.settled hf.byteSize_eq
    hf'.decoded.respelled.encoder hf'.decoded.respelled.scan (by decide)
    (fun hcr => by cases hcr.symm.trans hl) (fun _ hc => absurd hc (by decide)) ?_
  intro hk hequal
  have hformat : (after (after s format' r) format' r').format = format' := rfl
  rw [hhere, hformat, hgiven, hk] at hequal
  have hunit : StreamKind.sequence.unit s.format = 1 := rfl
  have hm : m = [] := no_mark (k := 2) hf (Nat.le_refl 2) (by omega)
  refine ⟨w ++ w', ?_, ?_⟩
  · rw [hrem', hf.split, hm, List.nil_append, hf'.split, List.nil_append, List.append_assoc]
  · rw [hrem', hl]
    refine rereads_newline hf.settled (hf.decoded.scan _) (hf'.decoded.scan r')

/-- A return at the end of the input; less than a character may follow it. -/
theorem transparent_last {s' : Stream} (hpos : 0 ≤ s.position)
    (hstack : s.kind = .sequence → s.byteStack = []) (hl : s.lineEnding = .crlf)
    (hread : readChar unwinding s = .char charReturn { s' with lastChar := eof })
    (hnil : s'.remaining = []) (hadv : Advanced (after s format r) s')
    (h : decoder unwinding s.format s.remaining = .item charReturn format r)
    (hf : First s.format s.remaining charReturn format r m w e) :
    Transparent s { s' with lastChar := eof } charReturn ↔
      (s.here + (m.length + w.length + r.length : ℕ) -
        givenBack s.kind s.lineEnding format e charReturn) / s.kind.unit s.format =
          s.here / s.kind.unit s.format := by
  have hformat : s'.format = format := hadv.settled hf.settled
  have hrem := after_remaining unwinding_decisive hpos h
  have hlen := hf.length
  have hhere : s'.here = s.here + (m.length + w.length + r.length : ℕ) := by
    have hoctets := hadv.octets
    rw [hnil, hrem, after_here, List.length_nil] at hoctets
    omega
  rw [← hhere, ← hformat]
  refine transparent_iff_position hread hpos hstack rfl ?_ ?_ ?_ ?_ (by decide)
    (fun hcr => by cases hcr.symm.trans hl) (fun _ _ => hnil) ?_
  · exact hformat ▸ hf.settled
  · exact hformat ▸ hf.byteSize_eq
  · exact hformat ▸ hf.decoded.respelled.encoder
  · exact hformat ▸ hf.decoded.respelled.scan
  · intro hk hequal
    have hsame : ({ s' with lastChar := eof } : Stream).here = s'.here := rfl
    rw [hsame, hhere, hk, givenBack, if_neg (fun h => absurd h.1 (by decide))] at hequal
    have hm : m = [] := no_mark (k := 2) hf (Nat.le_refl 2) (by omega)
    have hw := hf.decoded.sizes.1.2
    have hr : r = [] := List.length_eq_zero_iff.mp (by omega)
    have hrest : ({ s' with lastChar := eof } : Stream).remaining = [] := hnil
    refine ⟨w, ?_, ?_⟩
    · rw [hrest, hf.split, hm, hr, List.nil_append]
    · rw [hrest, hl]
      have hscan := hf.decoded.scan []
      rw [List.append_nil] at hscan
      exact rereads_last (hformat ▸ hf.settled) (by rw [hformat]; exact hscan)

end

def IsMark : ExternalFormat → ℤ → Prop
  | .ucs2, c => c = 0xFEFF ∨ c = 0xFFFE
  | .ucs4, c => c = 0xFEFF
  | _, _ => False

structure Spelled (format : ExternalFormat) (octets : List UInt8) (c : ℤ) : Prop where
  decoded : scan format octets = .char c []
  mark : ¬ IsMark format c
  encoded : encoder (unmarked format) c = some (octets, unmarked format)

/-- What CRLF mode reads as a newline and is two units long: CR LF, an overlong linefeed, a
linefeed behind a mark, and for a sequence a linefeed of two octets. -/
def newlineSpellings : StreamKind → ExternalFormat → List (List UInt8)
  | _, .latin1 | _, .usAscii => [[13, 10]]
  | _, .utf8 => [[13, 10], [0xC0, 0x8A]]
  | .file, .ucs2 => [[0, 13, 0, 10], [0xFE, 0xFF, 0, 10], [0xFF, 0xFE, 10, 0]]
  | .file, .ucs2be => [[0, 13, 0, 10]]
  | .file, .ucs2le => [[13, 0, 10, 0]]
  | .file, .ucs4 => [[0, 0, 0, 13, 0, 0, 0, 10], [0, 0, 0xFE, 0xFF, 0, 0, 0, 10]]
  | .file, .ucs4be => [[0, 0, 0, 13, 0, 0, 0, 10]]
  | .file, .ucs4le => [[13, 0, 0, 0, 10, 0, 0, 0]]
  | .sequence, .ucs2 | .sequence, .ucs2be => [[0, 10]]
  | .sequence, .ucs2le => [[10, 0]]
  | .sequence, .ucs4 | .sequence, .ucs4be | .sequence, .ucs4le => []

/-- The next octets are what unread-char gives back. For a file they are the encoder's, for a
sequence a single octet. In CRLF mode a newline takes two units, and less than a unit follows a
return. -/
def Restored (s : Stream) : Prop :=
  (s.lineEnding = .crlf ∧ ∃ octets ∈ newlineSpellings s.kind s.format, octets <+: s.remaining) ∨
    ∃ c octets rest, s.remaining = octets ++ rest ∧ Spelled s.format octets c ∧
      (s.kind = .sequence → octets.length = 1) ∧
      (s.lineEnding = .crlf → c ≠ charLinefeed ∧
        (c = charReturn → (s.here + (rest.length : ℕ)) / s.kind.unit s.format =
          s.here / s.kind.unit s.format))

theorem units_balanced {h : ℤ} {u a b : ℕ} (hu : 0 < u) (ha : u ∣ a) (hb : u ∣ b) :
    (h + a - b) / u = h / u ↔ a = b := by
  obtain ⟨k, rfl⟩ := ha
  obtain ⟨l, rfl⟩ := hb
  have hu' : (u : ℤ) ≠ 0 := by omega
  have hdiv : (h + (u * k : ℕ) - (u * l : ℕ)) / u = h / u + (k - l) := by
    rw [← Int.add_mul_ediv_left _ _ hu']
    congr 1
    push_cast
    ring
  rw [hdiv]
  constructor
  · intro heq
    congr 1
    omega
  · intro heq
    have hkl : k = l := Nat.eq_of_mul_eq_mul_left hu heq
    omega

theorem units_balanced_rest {h : ℤ} {u a b q : ℕ} (hu : 0 < u) (ha : u ∣ a) (hb : u ∣ b)
    (hle : b ≤ a) : (h + (a + q : ℕ) - b) / u = h / u ↔ a = b ∧ (h + q) / u = h / u := by
  obtain ⟨k, rfl⟩ := ha
  obtain ⟨l, rfl⟩ := hb
  have hu' : (u : ℤ) ≠ 0 := by omega
  have hkl : l ≤ k := Nat.le_of_mul_le_mul_left hle hu
  have hdiv : (h + (u * k + q : ℕ) - (u * l : ℕ)) / u = (h + q) / u + (k - l) := by
    rw [← Int.add_mul_ediv_left _ _ hu']
    congr 1
    push_cast
    ring
  have hmono : h / u ≤ (h + q) / u := Int.ediv_le_ediv (by omega) (by omega)
  rw [hdiv]
  constructor
  · intro heq
    have hkl : k = l := by omega
    exact ⟨by rw [hkl], by omega⟩
  · rintro ⟨heq, hq⟩
    have hkl : k = l := Nat.eq_of_mul_eq_mul_left hu heq
    omega

section
variable {kind : StreamKind} {format : ExternalFormat} {octets : List UInt8} {c : ℤ}

theorem isMark_of_switch {t : ExternalFormat} (hscan : scan format octets = .char c [])
    (h : formatSwitch format c = .mark t) : IsMark format c := by
  cases format with
  | ucs2 =>
    simp only [formatSwitch] at h
    split_ifs at h with h1 h2 h3
    · exact .inl h2
    · exact .inr h3
  | ucs4 =>
    have hlt := ucs4Word_lt .be hscan
    simp only [formatSwitch] at h
    split_ifs at h with h1 h2 h3
    · exact h2
    · subst h3
      exact absurd hlt (by decide)
  | latin1 | usAscii | utf8 | ucs2be | ucs2le | ucs4be | ucs4le => cases h

theorem not_isMark (h : ∀ t, formatSwitch format c ≠ .mark t) : ¬ IsMark format c := by
  cases format with
  | ucs2 =>
    rintro (rfl | rfl)
    · exact h .ucs2be rfl
    · exact h .ucs2le rfl
  | ucs4 =>
    rintro rfl
    exact h .ucs4be rfl
  | latin1 | usAscii | utf8 | ucs2be | ucs2le | ucs4be | ucs4le => exact not_false

theorem Spelled.reads (h : Spelled format octets c) (x : List UInt8) :
    ∃ format', decoder unwinding format (octets ++ x) = .item c format' x := by
  obtain ⟨w, hw, -, -, hscan⟩ := scan_head h.decoded
  rw [List.append_nil] at hw
  subst hw
  have hplain := plain_of_scan (hscan x)
  rw [decoder_eq unwinding_decisive]
  cases hswitch : formatSwitch format c with
  | stay => exact ⟨format, marked_of_stay hplain hswitch⟩
  | turn t => exact ⟨t, marked_of_turn hplain hswitch⟩
  | mark t => exact absurd (isMark_of_switch h.decoded hswitch) h.mark

inductive Spells (format : ExternalFormat) (octets x : List UInt8) : Prop
  | crlf {format' : ExternalFormat} {y : List UInt8}
    (h : decoder unwinding format (octets ++ x) = .item charReturn format' y)
    (h' : decoder unwinding format' y = .item charLinefeed format' x) : Spells format octets x
  | lf {format' : ExternalFormat}
    (h : decoder unwinding format (octets ++ x) = .item charLinefeed format' x) :
    Spells format octets x

theorem newlineSpellings_spells (h : octets ∈ newlineSpellings kind format) (x : List UInt8) :
    octets.length = 2 * kind.unit format ∧ Spells format octets x := by
  cases kind <;> cases format <;>
    simp only [newlineSpellings, List.mem_cons, List.not_mem_nil, or_false] at h
  · subst h
    exact ⟨rfl, .crlf rfl rfl⟩
  · subst h
    exact ⟨rfl, .crlf rfl rfl⟩
  · rcases h with rfl | rfl
    · exact ⟨rfl, .crlf rfl rfl⟩
    · exact ⟨rfl, .lf rfl⟩
  · rcases h with rfl | rfl | rfl
    · exact ⟨rfl, .crlf rfl rfl⟩
    · exact ⟨rfl, .lf rfl⟩
    · exact ⟨rfl, .lf rfl⟩
  · subst h
    exact ⟨rfl, .crlf rfl rfl⟩
  · subst h
    exact ⟨rfl, .crlf rfl rfl⟩
  · rcases h with rfl | rfl
    · exact ⟨rfl, .crlf rfl rfl⟩
    · exact ⟨rfl, .lf rfl⟩
  · subst h
    exact ⟨rfl, .crlf rfl rfl⟩
  · subst h
    exact ⟨rfl, .crlf rfl rfl⟩
  · subst h
    exact ⟨rfl, .crlf rfl rfl⟩
  · subst h
    exact ⟨rfl, .crlf rfl rfl⟩
  · rcases h with rfl | rfl
    · exact ⟨rfl, .crlf rfl rfl⟩
    · exact ⟨rfl, .lf rfl⟩
  · subst h
    exact ⟨rfl, .lf rfl⟩
  · subst h
    exact ⟨rfl, .lf rfl⟩
  · subst h
    exact ⟨rfl, .lf rfl⟩

end

section
variable {f format : ExternalFormat} {b r m w e octets rest : List UInt8} {c d : ℤ}

theorem spelled_of_first (hf : First f b c format r m w e) (hm : m = []) (hw : e = w) :
    b = w ++ r ∧ Spelled f w c := by
  subst hm hw
  rcases hf.mark with hmark | ⟨-, rfl, hswitch⟩
  · cases hmark
  · have hscan := hf.decoded.scan []
    rw [List.append_nil, scan_unmarked] at hscan
    exact ⟨hf.split, hscan, not_isMark hswitch, hf.decoded.respelled.encoder⟩

theorem no_mark_of_spelled (hf : First f b c format r m w e) (hs : Spelled f octets d)
    (hsplit : b = octets ++ rest) : m = [] ∧ format = unmarked f := by
  rcases hf.mark with hmark | ⟨hm, hformat, -⟩
  · -- the plain decoder finds the mark and the spelled character
    obtain ⟨w', hw', -, -, hscan⟩ := scan_head hs.decoded
    rw [List.append_nil] at hw'
    subst hw'
    have hplain := plain_of_scan (hscan rest)
    rw [← hsplit, hf.split] at hplain
    have hfound : ∃ c₁, IsMark f c₁ ∧
        plain unwinding f (m ++ (w ++ r)) = .item c₁ f (w ++ r) := by
      cases hmark with
      | ucs2be => exact ⟨0xFEFF, .inl rfl, rfl⟩
      | ucs2le => exact ⟨0xFFFE, .inr rfl, rfl⟩
      | ucs4be => exact ⟨0xFEFF, rfl, rfl⟩
    obtain ⟨c₁, hc₁, hplain₁⟩ := hfound
    cases hplain₁.symm.trans hplain
    exact absurd hc₁ hs.mark
  · exact ⟨hm, hformat⟩

theorem first_of_spelled (hf : First f b c format r m w e)
    (h : decoder unwinding f b = .item c format r) (hs : Spelled f octets d)
    (hsplit : b = octets ++ rest) : d = c ∧ rest = r ∧ m = [] ∧ w = octets ∧ e = octets := by
  obtain ⟨rfl, rfl⟩ := no_mark_of_spelled hf hs hsplit
  obtain ⟨format', hdec⟩ := hs.reads rest
  rw [← hsplit] at hdec
  cases hdec.symm.trans h
  have hw : w = octets := List.append_cancel_right (hf.split.symm.trans hsplit)
  have he : e = octets := by
    cases hs.encoded.symm.trans hf.decoded.respelled.encoder
    rfl
  exact ⟨rfl, rfl, rfl, hw, he⟩

end

section
variable {kind : StreamKind} {lineEnding : LineEnding} {f format : ExternalFormat}
  {b r m w e : List UInt8} {c : ℤ}

theorem first_units (kind : StreamKind) (hf : First f b c format r m w e) :
    kind.unit f ∣ m.length + w.length ∧ (kind = .file → kind.unit f ∣ e.length) := by
  have hunit := unit_dvd kind f
  rw [← hf.byteSize_eq] at hunit
  obtain ⟨⟨hw, -⟩, he, -⟩ := hf.decoded.sizes
  refine ⟨Nat.dvd_add ?_ (Nat.dvd_trans hunit hw), fun _ => Nat.dvd_trans hunit he⟩
  rcases hf.mark_length with hm | ⟨hm, -⟩
  · rw [hm, List.length_nil]
    exact Nat.dvd_zero _
  · rw [hm]
    exact hunit

theorem givenBack_other (kind : StreamKind) (format : ExternalFormat) (e : List UInt8)
    (h : ¬ (c = charNewline ∧ lineEnding = .crlf)) :
    (kind = .file → givenBack kind lineEnding format e c = e.length) ∧
      (kind = .sequence → givenBack kind lineEnding format e c = 1) := by
  rw [givenBack.eq_def, if_neg h]
  cases kind with
  | file => exact ⟨fun _ => rfl, fun h => by cases h⟩
  | sequence => exact ⟨(fun h => by cases h), fun _ => rfl⟩

theorem givenBack_eq_iff (hf : First f b c format r m w e)
    (h : ¬ (c = charNewline ∧ lineEnding = .crlf)) :
    m.length + w.length = givenBack kind lineEnding format e c ↔
      m = [] ∧ e = w ∧ (kind = .sequence → w.length = 1) := by
  obtain ⟨hfile, hsequence⟩ := givenBack_other kind format e h
  have hle := hf.decoded.respelled.le
  have hpos := hf.decoded.sizes.2.2
  cases kind with
  | file =>
    rw [hfile rfl]
    constructor
    · intro heq
      have hm : m.length = 0 := by omega
      exact ⟨List.length_eq_zero_iff.mp hm, hf.decoded.respelled.eq (by omega), fun h => by cases h⟩
    · rintro ⟨rfl, rfl, -⟩
      exact Nat.zero_add _
  | sequence =>
    rw [hsequence rfl]
    constructor
    · intro heq
      have hm : m.length = 0 := by omega
      exact ⟨List.length_eq_zero_iff.mp hm, hf.decoded.respelled.eq (by omega), fun _ => by omega⟩
    · rintro ⟨rfl, -, hw⟩
      rw [hw rfl]
      rfl

theorem givenBack_dvd (hf : First f b c format r m w e)
    (h : ¬ (c = charNewline ∧ lineEnding = .crlf)) :
    kind.unit f ∣ givenBack kind lineEnding format e c := by
  obtain ⟨hfile, hsequence⟩ := givenBack_other kind format e h
  cases kind with
  | file =>
    rw [hfile rfl]
    exact (first_units .file hf).2 rfl
  | sequence => exact Nat.one_dvd _

theorem utf8_linefeed (hf : First .utf8 b charLinefeed format r m w e) (hlen : w.length = 2) :
    w = [0xC0, 0x8A] := by
  obtain ⟨-, rfl⟩ := hf.of_settled fun _ => rfl
  obtain ⟨w', n, hsplit, hn, hw⟩ := utf8Decoder_char (hf.decoded.scan [])
  rw [List.append_nil, List.append_nil] at hsplit
  subst hsplit
  rw [charLinefeed] at hn
  cases hw with
  | one ha => cases hlen
  | @two a b ha hb =>
    have ha' : a = 0xC0 := UInt8.toNat_inj.mp (show a.toNat = 192 by omega)
    have hb' : b = 0x8A := UInt8.toNat_inj.mp (show b.toNat = 138 by omega)
    rw [ha', hb']
  | three ha hb hc => cases hlen
  | four ha hb hc hd => cases hlen

theorem linefeed_spelling (hf : First f b charLinefeed format r m w e)
    (hlen : m.length + w.length = 2 * kind.unit f) : m ++ w ∈ newlineSpellings kind f := by
  have henc := hf.decoded.respelled.encoder
  have hsame := hf.decoded.respelled.same
  rcases hf.mark with hmark | ⟨rfl, hformat, -⟩
  · cases hmark with
    | ucs2be | ucs2le | ucs4be =>
      cases henc
      obtain rfl := hsame (by decide)
      cases kind with
      | file => decide
      | sequence => cases hlen
  · by_cases hutf8 : f = .utf8
    · subst hutf8
      have hw : w.length = 2 := by
        rw [List.length_nil, Nat.zero_add] at hlen
        cases kind <;> exact hlen
      rw [utf8_linefeed hf hw]
      cases kind <;> decide
    · subst hformat
      have hw := hsame (by cases f <;> first | decide | exact absurd rfl hutf8)
      subst hw
      cases f with
      | utf8 => exact absurd rfl hutf8
      | ucs2 | ucs2be | ucs2le | latin1 | usAscii | ucs4 | ucs4be | ucs4le =>
        cases henc
        cases kind with
        | file => cases hlen
        | sequence => first | decide | cases hlen

end

section
variable {s : Stream} {c : ℤ} {format format' : ExternalFormat} {r r' m w e w' e' : List UInt8}

/-- A spelling of the table takes as many octets as are given back for a newline. -/
theorem table_cases {octets : List UInt8} (hmem : octets ∈ newlineSpellings s.kind s.format)
    (hpre : octets <+: s.remaining)
    (h : decoder unwinding s.format s.remaining = .item c format r)
    (hf : First s.format s.remaining c format r m w e) :
    c = charReturn ∧ (∃ x, decoder unwinding format r = .item charLinefeed format x ∧
      m.length + w.length + (r.length - x.length) = 2 * s.kind.unit s.format) ∨
    c = charLinefeed ∧ m.length + w.length = 2 * s.kind.unit s.format := by
  obtain ⟨x, hx⟩ := hpre
  obtain ⟨hlen, hspells⟩ := newlineSpellings_spells hmem x
  have hsplit := hf.length
  have hlen' : s.remaining.length = octets.length + x.length := by
    rw [← hx, List.length_append]
  cases hspells with
  | crlf h₁ h₂ =>
    rw [hx, h] at h₁
    cases h₁
    have hshort := (decoder_lawful unwinding_decisive).item_shorter h₂
    exact .inl ⟨rfl, x, h₂, by omega⟩
  | lf h₁ =>
    rw [hx, h] at h₁
    cases h₁
    exact .inr ⟨rfl, by omega⟩

theorem crlf_spelling {kind : StreamKind} {f : ExternalFormat} {b : List UInt8}
    (hf : First f b charReturn format r [] e e) (hf' : First format r charLinefeed format r' [] e' e')
    (hone : kind = .sequence → byteSize f = 1) : e ++ e' ∈ newlineSpellings kind f := by
  have henc := hf.decoded.respelled.encoder
  have henc' := hf'.decoded.respelled.encoder
  rcases hf.mark with hmark | ⟨-, rfl, -⟩
  · cases hmark
  · cases f <;> cases henc <;> cases henc' <;> cases kind <;>
      first | decide | cases hone rfl

theorem unit_step {h : ℤ} {u n : ℕ} (hu : 0 < u) (hn : u ≤ n) : (h + n) / u ≠ h / u := by
  have hu' : (u : ℤ) ≠ 0 := by omega
  have hnext := Int.add_mul_ediv_left h 1 hu'
  rw [Int.mul_one] at hnext
  have hmono : (h + u) / u ≤ (h + n) / u := Int.ediv_le_ediv (by omega) (by omega)
  omega

theorem restored_one (h : decoder unwinding s.format s.remaining = .item c format r)
    (hl : s.lineEnding = .crlf → c ≠ charReturn)
    (hf : First s.format s.remaining c format r m w e) :
    (s.here + (m.length + w.length : ℕ) - givenBack s.kind s.lineEnding format e c) /
      s.kind.unit s.format = s.here / s.kind.unit s.format ↔ Restored s := by
  have hu := unit_pos s.kind s.format
  obtain ⟨hunits, -⟩ := first_units s.kind hf
  by_cases hn : c = charNewline ∧ s.lineEnding = .crlf
  · obtain ⟨rfl, hcrlf⟩ := hn
    have hgiven : givenBack s.kind s.lineEnding format e charNewline =
        2 * s.kind.unit s.format := by
      rw [givenBack.eq_def, if_pos ⟨rfl, hcrlf⟩, unit_congr s.kind hf.byteSize_eq]
    rw [hgiven, units_balanced hu hunits (Nat.dvd_mul_left _ _)]
    constructor
    · intro hlen
      refine .inl ⟨hcrlf, m ++ w, linefeed_spelling hf hlen, r, ?_⟩
      rw [List.append_assoc]
      exact hf.split.symm
    · rintro (⟨-, octets, hmem, hpre⟩ | ⟨d, octets, rest, hsplit, hs, -, hline⟩)
      · rcases table_cases hmem hpre h hf with ⟨hc, -⟩ | ⟨-, hlen⟩
        · cases hc
        · exact hlen
      · obtain ⟨rfl, -⟩ := first_of_spelled hf h hs hsplit
        exact absurd rfl (hline hcrlf).1
  · rw [units_balanced hu hunits (givenBack_dvd hf hn), givenBack_eq_iff hf hn]
    constructor
    · rintro ⟨hm, hw, hone⟩
      obtain ⟨hsplit, hs⟩ := spelled_of_first hf hm hw
      refine .inr ⟨c, w, r, hsplit, hs, hone, fun hcrlf => ⟨fun hc => hn ⟨hc, hcrlf⟩, ?_⟩⟩
      exact fun hc => absurd hc (hl hcrlf)
    · rintro (⟨hcrlf, octets, hmem, hpre⟩ | ⟨d, octets, rest, hsplit, hs, hone, -⟩)
      · rcases table_cases hmem hpre h hf with ⟨hc, -⟩ | ⟨hc, -⟩
        · exact absurd hc (hl hcrlf)
        · exact absurd ⟨hc, hcrlf⟩ hn
      · obtain ⟨-, -, hm, rfl, rfl⟩ := first_of_spelled hf h hs hsplit
        exact ⟨hm, rfl, hone⟩

theorem character_step {d : ℤ} {m' : List UInt8} (hf : First s.format s.remaining c format r m w e)
    (hf' : First format r d format' r' m' w' e') :
    (s.here + (r.length : ℕ)) / s.kind.unit s.format ≠ s.here / s.kind.unit s.format := by
  obtain ⟨hdvd, hpos⟩ := hf'.decoded.sizes.1
  have hsize := Nat.le_of_dvd hpos hdvd
  rw [hf'.byteSize_eq, hf.byteSize_eq] at hsize
  have hunit := Nat.le_of_dvd (byteSize_pos s.format) (unit_dvd s.kind s.format)
  have hlen := hf'.length
  exact unit_step (unit_pos s.kind s.format) (by omega)

theorem restored_newline (hl : s.lineEnding = .crlf)
    (h : decoder unwinding s.format s.remaining = .item charReturn format r)
    (h' : decoder unwinding format r = .item charLinefeed format r')
    (hf : First s.format s.remaining charReturn format r m w e)
    (hf' : First format r charLinefeed format r' [] w' e') :
    (s.here + (m.length + w.length + w'.length : ℕ) - (2 * s.kind.unit s.format : ℕ)) /
      s.kind.unit s.format = s.here / s.kind.unit s.format ↔ Restored s := by
  have hu := unit_pos s.kind s.format
  obtain ⟨hunits, -⟩ := first_units s.kind hf
  obtain ⟨hunits', -⟩ := first_units s.kind hf'
  rw [unit_congr s.kind hf.byteSize_eq, List.length_nil, Nat.zero_add] at hunits'
  rw [units_balanced hu (Nat.dvd_add hunits hunits') (Nat.dvd_mul_left _ _)]
  have hlen' := hf'.length
  rw [List.length_nil, Nat.zero_add] at hlen'
  constructor
  · intro hlen
    obtain ⟨d, hd, hdlen, -⟩ := control_encoder hf.settled (.inl rfl)
    cases hd.symm.trans hf.decoded.respelled.encoder
    obtain ⟨d', hd', hdlen', -⟩ := control_encoder hf.settled (.inr rfl)
    cases hd'.symm.trans hf'.decoded.respelled.encoder
    have hle := hf.decoded.respelled.le
    have hle' := hf'.decoded.respelled.le
    have hsize := hf.byteSize_eq
    have hunit := Nat.le_of_dvd (byteSize_pos s.format) (unit_dvd s.kind s.format)
    have hm : m = [] := List.length_eq_zero_iff.mp (by omega)
    obtain rfl := hf.decoded.respelled.eq (by omega)
    obtain rfl := hf'.decoded.respelled.eq (by omega)
    subst hm
    refine .inl ⟨hl, e ++ e', crlf_spelling hf hf' fun hk => ?_, r', ?_⟩
    · rw [hk] at hlen
      simp only [StreamKind.unit, List.length_nil] at hlen
      omega
    · rw [hf.split, hf'.split, List.append_assoc]
      rfl
  · rintro (⟨-, octets, hmem, hpre⟩ | ⟨d, octets, rest, hsplit, hs, -, hline⟩)
    · rcases table_cases hmem hpre h hf with ⟨-, x, hx, hlen⟩ | ⟨hc, -⟩
      · cases hx.symm.trans h'
        omega
      · cases hc
    · -- a whole linefeed follows the return
      obtain ⟨rfl, rfl, -⟩ := first_of_spelled hf h hs hsplit
      exact absurd ((hline hl).2 rfl) (character_step hf hf')

theorem restored_last {s' : Stream} (hl : s.lineEnding = .crlf) (hpos : 0 ≤ s.position)
    (hread : readChar unwinding s = .char charReturn s')
    (h : decoder unwinding s.format s.remaining = .item charReturn format r)
    (hf : First s.format s.remaining charReturn format r m w e) :
    (s.here + (m.length + w.length + r.length : ℕ) -
      givenBack s.kind s.lineEnding format e charReturn) / s.kind.unit s.format =
        s.here / s.kind.unit s.format ↔ Restored s := by
  have hu := unit_pos s.kind s.format
  have hn : ¬ (charReturn = charNewline ∧ s.lineEnding = .crlf) := fun h => absurd h.1 (by decide)
  obtain ⟨hunits, -⟩ := first_units s.kind hf
  have hdvd : s.kind.unit s.format ∣ givenBack s.kind s.lineEnding format e charReturn :=
    givenBack_dvd hf hn
  have hle : givenBack s.kind s.lineEnding format e charReturn ≤ m.length + w.length := by
    obtain ⟨hfile, hsequence⟩ := givenBack_other s.kind format e hn
    have hle := hf.decoded.respelled.le
    have hpos := hf.decoded.sizes.1.2
    cases hk : s.kind with
    | file =>
      rw [hk] at hfile
      rw [hfile rfl]
      omega
    | sequence =>
      rw [hk] at hsequence
      rw [hsequence rfl]
      omega
  rw [units_balanced_rest hu hunits hdvd hle, givenBack_eq_iff hf hn]
  constructor
  · rintro ⟨⟨hm, hw, hone⟩, hrest⟩
    obtain ⟨hsplit, hs⟩ := spelled_of_first hf hm hw
    exact .inr ⟨charReturn, w, r, hsplit, hs, hone, fun _ => ⟨by decide, fun _ => hrest⟩⟩
  · rintro (⟨-, octets, hmem, hpre⟩ | ⟨d, octets, rest, hsplit, hs, hone, hline⟩)
    · rcases table_cases hmem hpre h hf with ⟨-, x, hx, -⟩ | ⟨hc, -⟩
      · -- the read would have found the linefeed
        cases (readChar_newline hpos hl h hx).symm.trans hread
      · cases hc
    · obtain ⟨rfl, rfl, hm, rfl, rfl⟩ := first_of_spelled hf h hs hsplit
      exact ⟨⟨hm, rfl, hone⟩, (hline hl).2 rfl⟩

theorem not_restored_other {m' : List UInt8} (hl : s.lineEnding = .crlf)
    (h : decoder unwinding s.format s.remaining = .item charReturn format r)
    (h' : decoder unwinding format r = .item c format' r') (hlf : c ≠ charLinefeed)
    (hf : First s.format s.remaining charReturn format r m w e)
    (hf' : First format r c format' r' m' w' e') : ¬ Restored s := by
  rintro (⟨-, octets, hmem, hpre⟩ | ⟨d, octets, rest, hsplit, hs, -, hline⟩)
  · rcases table_cases hmem hpre h hf with ⟨-, x, hx, -⟩ | ⟨hc, -⟩
    · cases hx.symm.trans h'
      exact hlf rfl
    · cases hc
  · obtain ⟨rfl, rfl, -⟩ := first_of_spelled hf h hs hsplit
    exact absurd ((hline hl).2 rfl) (character_step hf hf')

/-- Without EOF for a character, unread-char undoes a read exactly if the octets of the stream
are the ones it gives back. -/
theorem transparent_iff {s₁ : Stream} (hpos : 0 ≤ s.position)
    (hstack : s.kind = .sequence → s.byteStack = [])
    (heof : eof ∉ (rawText unwinding s).items.take 2) (hread : readChar unwinding s = .char c s₁) :
    Transparent s s₁ c ↔ Restored s := by
  cases took_of_readChar hpos heof hread with
  | one h hc hl =>
    obtain ⟨m, w, e, hf⟩ := first_of_item hc h
    rw [transparent_one hpos hstack h hc hl hf]
    exact restored_one h hl hf
  | newline hl h h' =>
    obtain ⟨m, w, e, hf⟩ := first_of_item (by decide) h
    obtain ⟨m', w', e', hf'⟩ := first_of_item (by decide) h'
    obtain ⟨rfl, rfl⟩ := hf'.of_settled hf.settled
    rw [transparent_newline hpos hstack hl h h' hf hf']
    exact restored_newline hl h h' hf hf'
  | last hl h hnil hadv =>
    obtain ⟨m, w, e, hf⟩ := first_of_item (by decide) h
    rw [transparent_last hpos hstack hl hread hnil hadv h hf]
    exact restored_last hl hpos hread h hf
  | other hl h h' hc hlf =>
    obtain ⟨m, w, e, hf⟩ := first_of_item (by decide) h
    obtain ⟨m', w', e', hf'⟩ := first_of_item hc h'
    refine ⟨?_, fun hr => absurd hr (not_restored_other hl h h' hlf hf hf')⟩
    rintro ⟨s₂, hs₂, -⟩
    cases hs₂.symm.trans (unreadChar_of_unread hc)

end

inductive Reachable : Stream → Prop
  | opened (kind : StreamKind) (format : ExternalFormat) (lineEnding : LineEnding)
    (content : List UInt8) : Reachable (openInput kind format lineEnding content)
  | read {s s' : Stream} {c : ℤ} (handler : Handler) (hs : Reachable s)
    (h : readChar handler s = .char c s') : Reachable s'
  | ended {s s' : Stream} (handler : Handler) (hs : Reachable s)
    (h : readChar handler s = .eof s') : Reachable s'
  | unread {s s₁ s₂ : Stream} {c : ℤ} (hs : Reachable s)
    (h : readChar unwinding s = .char c s₁) (hr : Restored s)
    (h' : unreadChar s₁ c = some s₂) : Reachable s₂

structure WellFormed (s : Stream) : Prop where
  position : 0 ≤ s.position
  stack : s.kind = .sequence → s.byteStack = []

theorem WellFormed.kept {s s' : Stream} (h : WellFormed s) (hk : Kept s s') : WellFormed s' :=
  ⟨hk.position h.position, fun hs => hk.stack (h.stack (hk.kind.symm.trans hs))⟩

theorem byteSize_of_restored {s : Stream} (hk : s.kind = .sequence) (h : Restored s) :
    byteSize s.format ≠ 4 := by
  rcases h with ⟨-, octets, hmem, -⟩ | ⟨c, octets, rest, -, hs, hone, -⟩
  · rw [hk] at hmem
    intro h4
    cases hf : s.format <;> rw [hf] at h4 hmem <;> first | exact absurd h4 (by decide) | cases hmem
  · obtain ⟨w, hw, hdvd, -⟩ := scan_head hs.decoded
    rw [List.append_nil] at hw
    subst hw
    rw [hone hk] at hdvd
    intro h4
    rw [h4] at hdvd
    exact absurd hdvd (by decide)

theorem eformatUnreadChar_some {s s' : Stream} {c : ℤ} (h : eformatUnreadChar s c = some s') :
    s' = { s with lastChar := c } := by
  rw [eformatUnreadChar, Option.ite_none_left_eq_some] at h
  exact (Option.some.inj h.2).symm

theorem WellFormed.unread {s s₁ s₂ : Stream} {c : ℤ} (hs : WellFormed s)
    (h : readChar unwinding s = .char c s₁) (hr : Restored s)
    (h' : unreadChar s₁ c = some s₂) : WellFormed s₂ := by
  have hs₁ := hs.kept (kept_of_readChar h)
  have hkind := (kept_of_readChar h).kind
  cases hk : s₁.kind with
  | file =>
    simp only [unreadChar, hk, ioFileUnreadChar] at h'
    obtain ⟨t, ht, h'⟩ := Option.bind_eq_some_iff.mp h'
    obtain ⟨e, -, rfl⟩ := Option.map_eq_some_iff.mp h'
    obtain rfl := eformatUnreadChar_some ht
    refine ⟨hs₁.position, fun hk' => ?_⟩
    cases hk.symm.trans hk'
  | sequence =>
    have hsk : s.kind = .sequence := hkind.symm.trans hk
    have heof := nonneg_items (byteSize_of_restored hsk hr) s.remaining
    obtain ⟨t, ht, -, -, hposition⟩ := (transparent_iff hs.position hs.stack
      (fun hmem => heof (List.mem_of_mem_take hmem)) h).mpr hr
    cases ht.symm.trans h'
    simp only [unreadChar, hk, seqInUnreadChar] at h'
    obtain ⟨t, ht', rfl⟩ := Option.map_eq_some_iff.mp h'
    obtain rfl := eformatUnreadChar_some ht'
    simp only [reportedPosition, hk, hsk] at hposition
    refine ⟨?_, fun _ => hs₁.stack hk⟩
    rw [hposition]
    exact hs.position

theorem Reachable.wellFormed {s : Stream} (h : Reachable s) : WellFormed s := by
  induction h with
  | opened kind format lineEnding content => exact ⟨Int.le_refl 0, fun _ => rfl⟩
  | read handler hs h ih => exact ih.kept (kept_of_readChar h)
  | ended handler hs h ih => exact ih.kept (kept_of_eof h)
  | unread hs h hr h' ih => exact ih.unread h hr h'

/-- In every run, unread-char and peek-char are transparent exactly where the next octets are
restored. The decoder of four octets returns EOF for a word of ones, and such a word is none of
the next two. -/
theorem unread_transparent_iff (s s₁ : Stream) (c : ℤ) (hs : Reachable s)
    (heof : eof ∉ (rawText unwinding s).items.take 2) (hread : readChar unwinding s = .char c s₁) :
    Transparent s s₁ c ↔ Restored s :=
  transparent_iff hs.wellFormed.position hs.wellFormed.stack heof hread

/-- The newline of a CRLF file in UTF-8, between two characters. -/
theorem unread_transparent_newline :
    Transparent ⟨.file, [0x61, 13, 10, 0xC3, 0xA9], 1, [], .utf8, .crlf, eof⟩
        ⟨.file, [0x61, 13, 10, 0xC3, 0xA9], 3, [], .utf8, .crlf, eof⟩ 10 ↔
      Restored ⟨.file, [0x61, 13, 10, 0xC3, 0xA9], 1, [], .utf8, .crlf, eof⟩ :=
  unread_transparent_iff _ _ _
    (.read (c := 0x61) unwinding (.opened .file .utf8 .crlf [0x61, 13, 10, 0xC3, 0xA9])
      (by decide +kernel)) (by decide +kernel) (by decide +kernel)

/-- A sequence stream goes back one octet of two, and the second one is then an error. A file
stream forgets the mark in front of its first character. -/
theorem unread_not_transparent :
    (readChar unwinding (openInput .sequence .utf8 .lf [0xC3, 0xA9, 0x41]) =
        .char 0xE9 ⟨.sequence, [0xC3, 0xA9, 0x41], 2, [], .utf8, .lf, eof⟩ ∧
      ¬ Transparent (openInput .sequence .utf8 .lf [0xC3, 0xA9, 0x41])
        ⟨.sequence, [0xC3, 0xA9, 0x41], 2, [], .utf8, .lf, eof⟩ 0xE9) ∧
    readChars unwinding 2 (openInput .sequence .utf8 .lf [0xC3, 0xA9, 0x41]) =
      ⟨[0xE9, 0x41], none⟩ ∧
    (unreadChar ⟨.sequence, [0xC3, 0xA9, 0x41], 2, [], .utf8, .lf, eof⟩ 0xE9).map
      (readChars unwinding 2) = some ⟨[], some [0xA9]⟩ ∧
    readChar unwinding (openInput .file .ucs2 .lf [0xFE, 0xFF, 0, 0x41]) =
      .char 0x41 ⟨.file, [0xFE, 0xFF, 0, 0x41], 4, [], .ucs2be, .lf, eof⟩ ∧
    (unreadChar ⟨.file, [0xFE, 0xFF, 0, 0x41], 4, [], .ucs2be, .lf, eof⟩ 0x41).map
      reportedPosition = some 1 := by
  refine ⟨⟨by decide +kernel, ?_⟩, by decide +kernel, by decide +kernel, by decide +kernel,
    by decide +kernel⟩
  rintro ⟨s₂, hs₂, -, -, hposition⟩
  cases hs₂
  exact absurd hposition (by decide +kernel)

end UnreadTransparency
