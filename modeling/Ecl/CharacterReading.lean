import Ecl.CharacterStreams
import Ecl.DecoderLaws

/-! read-char as a step of the decoder on everything that is left to read. -/
namespace CharacterReading

open ExternalFormats IncrementalDecoding CharacterStreams DecoderLaws

theorem min_add_min (a n l : ℕ) : min a l + min n (l - min a l) = min (a + n) l := by
  rcases Nat.le_total l a with h | h
  · rw [Nat.min_eq_right h, Nat.sub_self, Nat.min_zero, Nat.add_zero,
      Nat.min_eq_right (Nat.le_add_right_of_le h)]
  · rw [Nat.min_eq_left h, ← Nat.add_min_add_left, Nat.add_sub_cancel' h]

section
variable {s : Stream}

theorem skip_skip (h : 0 ≤ s.position) (m n : ℕ) : (s.skip m).skip n = s.skip (m + n) := by
  have hpos : ∀ k : ℕ, (s.position + k).toNat = s.position.toNat + k := by
    intro k
    omega
  have hcount : m - s.byteStack.length + (n - (s.byteStack.length - m)) =
      m + n - s.byteStack.length := by omega
  have hmoved := min_add_min (m - s.byteStack.length) (n - (s.byteStack.length - m))
    (s.content.length - s.position.toNat)
  rw [hcount] at hmoved
  simp only [Stream.skip, Stream.readByte8, List.length_take, List.drop_drop, hpos,
    List.length_drop, Stream.mk.injEq, true_and, and_true, ← Nat.sub_eq_sub_min, ← Nat.sub_sub]
  rw [Int.add_assoc, ← Int.natCast_add, hmoved]

end

variable {handler : Handler}

structure Advanced (s s' : Stream) : Prop where
  position : 0 ≤ s'.position
  kind : s'.kind = s.kind
  lineEnding : s'.lineEnding = s.lineEnding
  lastChar : s'.lastChar = s.lastChar
  octets : s'.here + s'.remaining.length = s.here + s.remaining.length
  settled : Settled s.format → s'.format = s.format

theorem Advanced.refl {s : Stream} (h : 0 ≤ s.position) : Advanced s s :=
  ⟨h, rfl, rfl, rfl, rfl, fun _ => rfl⟩

theorem advanced_skip {s : Stream} (h : 0 ≤ s.position) (n : ℕ) {format : ExternalFormat}
    (hformat : Settled s.format → format = s.format) :
    Advanced s { s.skip n with format := format } := by
  refine ⟨Stream.skip_position_nonneg h n, rfl, rfl, rfl, ?_, hformat⟩
  have hlen : s.remaining.length =
      s.byteStack.length + (s.content.length - s.position.toNat) := by
    rw [Stream.remaining, List.length_append, List.length_drop]
  have hrest : ({ s.skip n with format := format } : Stream).remaining = s.remaining.drop n :=
    Stream.remaining_skip h n
  rw [hrest, List.length_drop]
  simp only [Stream.here, Stream.skip, Stream.readByte8, List.length_take, List.length_drop]
  omega

def ReadsLike (s : Stream) (rest : List UInt8) (out : Decoded) (read : ReadResult) : Prop :=
  (∀ c format r, out = .item c format r → c ≠ eof →
    read = .char c { s.skip (rest.length - r.length) with format := format }) ∧
  (∀ e, out = .stop e → read = .unwind e) ∧
  (∀ format r, out = .more format r → ∃ s', read = .eof s' ∧ s'.remaining = r ∧ Advanced s s')

theorem readCharLoop_pulls (hd : Decisive handler) {n : ℕ} {s : Stream} (hpos : 0 ≤ s.position) (pending : List UInt8) :
    ReadsLike s s.remaining
      (pull (decoder handler) (s.kind.unit s.format) n s.format pending s.remaining)
      (readCharLoop handler n s pending) := by
  induction n generalizing s pending with
  | zero =>
    refine ⟨?_, ?_, ?_⟩
    · intro c format r hout
      cases hout
    · intro e hout
      cases hout
    · intro format r hout
      cases hout
      exact ⟨s, rfl, rfl, .refl hpos⟩
  | succ n ih =>
    have h := decoder_lawful_unit hd s.kind
    rw [pull, readCharLoop]
    simp only [Stream.readByte8_fst, List.length_take]
    by_cases hshort : s.remaining.length < s.kind.unit s.format
    · rw [if_pos hshort, if_pos (by omega)]
      refine ⟨?_, ?_, ?_⟩
      · intro c format r hout
        cases hout
      · intro e hout
        cases hout
      · intro format r hout
        cases hout
        refine ⟨_, rfl, ?_, advanced_skip hpos _ (fun _ => rfl)⟩
        exact (Stream.remaining_skip hpos _).trans (List.drop_of_length_le (by omega))
    · rw [if_neg hshort, if_neg (by omega)]
      cases hdec : decoder handler s.format (pending ++ s.remaining.take (s.kind.unit s.format)) with
      | stop e =>
        refine ⟨?_, ?_, ?_⟩
        · intro c format r hout
          cases hout
        · intro e' hout
          cases hout
          rfl
        · intro format r hout
          cases hout
      | item c format r =>
        refine ⟨?_, ?_, ?_⟩
        · intro c' format' r' hout hc
          cases hout
          rw [List.length_drop, Nat.sub_sub_self (by omega)]
          exact if_neg hc
        · intro e hout
          cases hout
        · intro format' r' hout
          cases hout
      | more format r =>
        have hunit : s.kind.unit s.format = s.kind.unit format := (h.more_unit hdec).symm
        have hrest : ({ s.skip (s.kind.unit s.format) with format := format } : Stream).remaining =
            s.remaining.drop (s.kind.unit s.format) := Stream.remaining_skip hpos _
        obtain ⟨hitem, hstop, hmore⟩ := ih (s := { s.skip (s.kind.unit s.format) with format := format })
          (Stream.skip_position_nonneg hpos _) r
        rw [hrest] at hitem hstop hmore
        simp only [hunit] at hitem hstop hmore ⊢
        refine ⟨?_, hstop, ?_⟩
        · intro c format' r' hout hc
          have hlen := (suffix_of_pull_item hout).length_le
          rw [List.length_drop] at hlen
          refine (hitem c format' r' hout hc).trans ?_
          have hskip :=
            skip_skip hpos (s.kind.unit format) (s.remaining.length - s.kind.unit format - r'.length)
          rw [show s.kind.unit format + (s.remaining.length - s.kind.unit format - r'.length) =
            s.remaining.length - r'.length by omega] at hskip
          rw [List.length_drop, ← hskip]
          rfl
        · intro format' r' hout
          obtain ⟨s', hread, hrem, hadv⟩ := hmore format' r' hout
          have hfirst : Advanced s { s.skip (s.kind.unit format) with format := format } :=
            advanced_skip hpos (s.kind.unit format) (fun hs => (settled_more hd hs hdec).1)
          refine ⟨s', hread, hrem, hadv.position, hadv.kind, hadv.lineEnding, hadv.lastChar,
            hadv.octets.trans hfirst.octets, fun hs => ?_⟩
          have hsame := hfirst.settled hs
          exact (hadv.settled (fun c => by rw [hsame]; exact hs c)).trans hsame

theorem eformatReadChar_spec (hd : Decisive handler) {s : Stream} (hpos : 0 ≤ s.position) :
    (∀ c format r, decoder handler s.format s.remaining = .item c format r → c ≠ eof →
      eformatReadChar handler s = .char c
        { s.skip (s.remaining.length - r.length) with format := format, lastChar := eof }) ∧
    (∀ e, decoder handler s.format s.remaining = .stop e → eformatReadChar handler s = .unwind e) ∧
    (∀ format r, decoder handler s.format s.remaining = .more format r →
      ∃ s', eformatReadChar handler s = .eof s' ∧ s'.remaining = [] ∧
        Advanced { s with lastChar := eof } s') := by
  have hlaw := decoder_lawful_unit hd s.kind
  have hbound : encodingBufferMaxSize ≤
      encodingBufferMaxSize / s.kind.unit s.format * s.kind.unit s.format := by
    cases s.kind <;> cases s.format <;> decide
  obtain ⟨hitem, hstop, hmore⟩ := pull_whole hlaw hbound s.remaining
  obtain ⟨hitem', hstop', hmore'⟩ := readCharLoop_pulls hd
    (n := encodingBufferMaxSize / s.kind.unit s.format) (s := { s with lastChar := eof }) hpos []
  refine ⟨?_, ?_, ?_⟩
  · intro c format r hout hc
    exact hitem' c format r (hitem c format r hout) hc
  · intro e hout
    exact hstop' e (hstop e hout)
  · intro format r hout
    obtain ⟨format', hpull⟩ := hmore format r hout
    exact hmore' format' [] hpull

/-- A program without restarts: decoding errors end the reading. A run that does not call the
handler is one that this handler does not end. -/
def unwinding : Handler := fun _ => .unwind

theorem unwinding_decisive : Decisive unwinding := by
  intro octets h
  cases h

theorem plain_unwinding {format format' : ExternalFormat} {b r : List UInt8} {c : ℤ}
    (h : plain unwinding format b = .item c format' r) :
    format' = format ∧ scan format b = .char c r := by
  rw [plain] at h
  cases hs : scan format b with
  | eof =>
    rw [hs] at h
    cases h
  | error octets rest =>
    rw [hs] at h
    cases h
  | char c' rest =>
    rw [hs] at h
    cases h
    exact ⟨rfl, rfl⟩

def after (s : Stream) (format : ExternalFormat) (r : List UInt8) : Stream :=
  { s.skip (s.remaining.length - r.length) with format := format, lastChar := eof }

theorem after_remaining (hd : Decisive handler) {s : Stream} (hpos : 0 ≤ s.position) {c : ℤ}
    {format : ExternalFormat} {r : List UInt8}
    (h : decoder handler s.format s.remaining = .item c format r) :
    (after s format r).remaining = r :=
  (Stream.remaining_skip hpos _).trans ((decoder_lawful hd).item_rest h)

theorem after_position {s : Stream} (hpos : 0 ≤ s.position) (format : ExternalFormat)
    (r : List UInt8) : 0 ≤ (after s format r).position :=
  Stream.skip_position_nonneg hpos _

def rawText (handler : Handler) (s : Stream) : Text ℤ (List UInt8) :=
  text (decoder handler) s.format s.remaining

/-- The character after a return that no newline follows goes to lastChar, and the next read
empties it. A return is lost where the look-ahead is an exit. -/
def crlfRead (unwound : Bool) : List ℤ → List ℤ
  | [] => []
  | [c] => if c = charReturn ∧ unwound then [] else [c]
  | c :: c' :: cs =>
    if c = charReturn then
      (if c' = charLinefeed then charNewline else charReturn) :: crlfRead unwound cs
    else c :: crlfRead unwound (c' :: cs)

def readCharText (lineEnding : LineEnding) (t : Text ℤ (List UInt8)) : Text ℤ (List UInt8) :=
  match lineEnding with
  | .lf => t
  | .cr => ⟨t.items.map fun c => if c = charReturn then charNewline else c, t.ending⟩
  | .crlf => ⟨crlfRead t.ending.isSome t.items, t.ending⟩

theorem rawText_cases (hd : Decisive handler) {s : Stream} (hpos : 0 ≤ s.position)
    (heof : eof ∉ (rawText handler s).items.take 1) :
    (∃ c format r, decoder handler s.format s.remaining = .item c format r ∧ c ≠ eof ∧
      eformatReadChar handler s = .char c (after s format r) ∧
      rawText handler s = (rawText handler (after s format r)).cons c ∧
      r.length < s.remaining.length) ∨
    (∃ e, eformatReadChar handler s = .unwind e ∧ rawText handler s = ⟨[], some e⟩) ∨
    (∃ s', eformatReadChar handler s = .eof s' ∧ s'.remaining = [] ∧
      Advanced { s with lastChar := eof } s') ∧ rawText handler s = ⟨[], none⟩ := by
  have hlaw := decoder_lawful hd
  obtain ⟨hitem, hstop, hmore⟩ := eformatReadChar_spec hd hpos
  cases hdec : decoder handler s.format s.remaining with
  | item c format r =>
    have htext : rawText handler s = (rawText handler (after s format r)).cons c := by
      rw [rawText, text_of_item hlaw hdec, rawText, after_remaining hd hpos hdec]
      rfl
    have hc : c ≠ eof := by
      rintro rfl
      rw [htext] at heof
      exact heof (List.mem_singleton_self eof)
    exact .inl ⟨c, format, r, rfl, hc, hitem c format r hdec hc, htext, hlaw.item_shorter hdec⟩
  | stop e => exact .inr (.inl ⟨e, hstop e hdec, text_of_stop hdec⟩)
  | more format r => exact .inr (.inr ⟨hmore format r hdec, text_of_more hdec⟩)

theorem readChars_char {n : ℕ} {s s' : Stream} {c : ℤ} (h : readChar handler s = .char c s') :
    readChars handler (n + 1) s = (readChars handler n s').cons c := by
  rw [readChars, h]

theorem readChars_eof {n : ℕ} {s s' : Stream} (h : readChar handler s = .eof s') :
    readChars handler (n + 1) s = ⟨[], none⟩ := by
  rw [readChars, h]

theorem readChars_unwind {n : ℕ} {s : Stream} {e : List UInt8}
    (h : readChar handler s = .unwind e) : readChars handler (n + 1) s = ⟨[], some e⟩ := by
  rw [readChars, h]

section
variable {s s' : Stream} {c : ℤ} {e : List UInt8}

theorem readChar_of_unwind (h : eformatReadChar handler s = .unwind e) :
    readChar handler s = .unwind e := by
  cases hl : s.lineEnding <;>
    simp only [readChar, hl, eformatReadCharCr, eformatReadCharCrlf, h]

theorem readChar_of_eof (h : eformatReadChar handler s = .eof s') :
    readChar handler s = .eof s' := by
  cases hl : s.lineEnding <;>
    simp only [readChar, hl, eformatReadCharCr, eformatReadCharCrlf, h]

theorem readChar_lf (hl : s.lineEnding = .lf) (h : eformatReadChar handler s = .char c s') :
    readChar handler s = .char c s' := by
  simp only [readChar, hl, h]

theorem readChar_cr (hl : s.lineEnding = .cr) (h : eformatReadChar handler s = .char c s') :
    readChar handler s = .char (if c = charReturn then charNewline else c) s' := by
  simp only [readChar, hl, eformatReadCharCr, h]

theorem readChar_crlf_other (hl : s.lineEnding = .crlf)
    (h : eformatReadChar handler s = .char c s') (hc : c ≠ charReturn) :
    readChar handler s = .char c s' := by
  simp only [readChar, hl, eformatReadCharCrlf, h, if_neg hc]

theorem readChar_crlf_return (hl : s.lineEnding = .crlf)
    (h : eformatReadChar handler s = .char charReturn s') :
    readChar handler s = lookAhead (eformatReadChar handler s') := by
  simp only [readChar, hl, eformatReadCharCrlf, h, if_true]

end

theorem readChars_lastChar (n : ℕ) (s : Stream) (c : ℤ) :
    readChars handler n { s with lastChar := c } = readChars handler n s := by
  cases n with
  | zero => rfl
  | succ n => rfl

theorem readCharText_nil (lineEnding : LineEnding) (e : Option (List UInt8)) :
    readCharText lineEnding ⟨[], e⟩ = ⟨[], e⟩ := by
  cases lineEnding <;> rfl

theorem readCharText_cons_lf (c : ℤ) (t : Text ℤ (List UInt8)) :
    readCharText .lf (t.cons c) = (readCharText .lf t).cons c := rfl

theorem readCharText_cons_cr (c : ℤ) (t : Text ℤ (List UInt8)) :
    readCharText .cr (t.cons c) =
      (readCharText .cr t).cons (if c = charReturn then charNewline else c) := rfl

theorem readCharText_cons_other {c : ℤ} (hc : c ≠ charReturn) (t : Text ℤ (List UInt8)) :
    readCharText .crlf (t.cons c) = (readCharText .crlf t).cons c := by
  rcases t with ⟨- | ⟨c', cs⟩, e⟩
  · simp [readCharText, Text.cons, crlfRead, hc]
  · simp [readCharText, Text.cons, crlfRead, hc]

theorem readCharText_cons_return (c : ℤ) (t : Text ℤ (List UInt8)) :
    readCharText .crlf ((t.cons c).cons charReturn) = (readCharText .crlf t).cons
      (if c = charLinefeed then charNewline else charReturn) := by
  simp [readCharText, Text.cons, crlfRead]

/-- Repeated read-char delivers the characters of the format with the line endings of the
stream. -/
theorem readChars_eq (hd : Decisive handler) {n : ℕ} {s : Stream} (hpos : 0 ≤ s.position)
    (hn : s.remaining.length < n) (heof : eof ∉ (rawText handler s).items) :
    readChars handler n s = readCharText s.lineEnding (rawText handler s) := by
  induction n generalizing s with
  | zero => omega
  | succ n ih =>
  rcases rawText_cases hd hpos (fun h => heof (List.mem_of_mem_take h)) with
    ⟨c, format, r, hdec, hc, hread, htext, hr⟩ | ⟨e, hread, htext⟩ |
      ⟨⟨s', hread, -⟩, htext⟩
  · have hrem := after_remaining hd hpos hdec
    have heof' : eof ∉ (rawText handler (after s format r)).items := by
      rw [htext] at heof
      exact fun h => heof (List.mem_cons_of_mem _ h)
    have hrest := ih (after_position hpos format r) (by rw [hrem]; omega) heof'
    rw [htext]
    cases hl : s.lineEnding with
    | lf =>
      rw [readChars_char (readChar_lf hl hread), hrest, readCharText_cons_lf]
      exact congrArg (fun l => (readCharText l _).cons c) hl
    | cr =>
      rw [readChars_char (readChar_cr hl hread), hrest, readCharText_cons_cr]
      exact congrArg (fun l => (readCharText l _).cons _) hl
    | crlf =>
      by_cases hcr : c = charReturn
      · subst hcr
        have hlook := readChar_crlf_return hl hread
        -- the second read, from the stream after the return
        rcases rawText_cases hd (after_position hpos format r)
          (fun h => heof' (List.mem_of_mem_take h)) with
          ⟨c', format', r', hdec', hc', hread', htext', hr'⟩ | ⟨e, hread', htext'⟩ |
            ⟨⟨s', hread', hnil, hadv⟩, htext'⟩
        · have hpos' := after_position (after_position hpos format r) format' r'
          have heof'' : eof ∉ (rawText handler (after (after s format r) format' r')).items := by
            rw [htext'] at heof'
            exact fun h => heof' (List.mem_cons_of_mem _ h)
          have hrem' := after_remaining hd (after_position hpos format r) hdec'
          rw [hrem] at hr'
          have hrest' := ih hpos' (by rw [hrem']; omega) heof''
          have hl' : (after (after s format r) format' r').lineEnding = .crlf := hl
          rw [hl'] at hrest'
          rw [htext', readCharText_cons_return, ← hrest']
          rw [hread', lookAhead] at hlook
          by_cases hlf : c' = charLinefeed
          · rw [if_pos hlf] at hlook ⊢
            exact readChars_char hlook
          · rw [if_neg hlf] at hlook ⊢
            rw [readChars_char hlook, readChars_lastChar]
        · rw [hread', lookAhead] at hlook
          rw [readChars_unwind hlook, htext']
          rfl
        · rw [hread', lookAhead] at hlook
          have hend : rawText handler s' = ⟨[], none⟩ := by
            rw [rawText, hnil]
            exact text_of_more ((decoder_lawful hd).step_nil s'.format)
          have hrest' := ih hadv.position (by rw [hnil, List.length_nil]; omega)
            (by rw [hend]; exact List.not_mem_nil)
          rw [readChars_char hlook, readChars_lastChar, hrest', hend, readCharText_nil, htext']
          rfl
      · rw [readChars_char (readChar_crlf_other hl hread hcr), hrest, readCharText_cons_other hcr]
        exact congrArg (fun l => (readCharText l _).cons c) hl
  · rw [readChars_unwind (readChar_of_unwind hread), htext, readCharText_nil]
  · rw [readChars_eof (readChar_of_eof hread), htext, readCharText_nil]

theorem readAll_openInput (hd : Decisive handler) (kind : StreamKind) (format : ExternalFormat)
    (lineEnding : LineEnding) (content : List UInt8)
    (heof : eof ∉ (text (decoder handler) format content).items) :
    readAll handler (openInput kind format lineEnding content) =
      readCharText lineEnding (text (decoder handler) format content) :=
  readChars_eq hd (Int.le_refl 0) (Nat.lt_succ_self _) heof

end CharacterReading
