import Ecl.SplitVectors

/-! Between two reads a character stream stands at a unit of its format, or at the end of its
file. -/
namespace SplitAlignment

open ExternalFormats IncrementalDecoding CharacterStreams DecoderLaws CharacterReading
  CharacterVectors CharacterAgreement SplitTransfers SplitVectors

variable {handler : Handler} {content : List UInt8}

variable {u : ℕ}

structure Aligned (u : ℕ) (s : Stream) : Prop where
  file : s.kind = .file
  stack : s.byteStack = []
  unit : byteSize s.format = u
  place : ∃ q : ℕ, s.position = q ∧ q ≤ s.content.length ∧ (u ∣ q ∨ q = s.content.length)

theorem aligned_openInput (format : ExternalFormat) (lineEnding : LineEnding)
    (content : List UInt8) :
    Aligned (byteSize format) (openInput .file format lineEnding content) :=
  ⟨rfl, rfl, rfl, 0, rfl, Nat.zero_le _, .inl (Nat.dvd_zero _)⟩

theorem stands_start {s : Stream} {q : ℕ} (hstack : s.byteStack = []) (hq : s.position = q)
    (hle : q ≤ s.content.length) (hdvd : byteSize s.format ∣ q) :
    Stands s.content q ⟨s, [], 0⟩ :=
  ⟨⟨rfl, hstack, hq, rfl, hdvd, Nat.le_refl 0⟩, hle⟩

theorem readByte8_aligned {s : Stream} (hs : Aligned u s) {q n : ℕ} (hq : s.position = q)
    (hle : q ≤ s.content.length) :
    (s.readByte8 n).2 = { s with position := (q + (s.readByte8 n).1.length : ℕ) } ∧
      q + (s.readByte8 n).1.length ≤ s.content.length ∧
      ((s.readByte8 n).1.length < n →
        q + (s.readByte8 n).1.length = s.content.length) := by
  have hlen : (s.readByte8 n).1.length = min n (s.content.length - q) := by
    rw [Stream.readByte8_fst, Stream.remaining, hs.stack, hq]
    simp [List.length_take, List.length_drop]
  refine ⟨?_, by omega, by omega⟩
  have hstack := hs.stack
  cases s with
  | mk kind content position byteStack format lineEnding lastChar =>
    cases hstack
    cases hq
    simp [Stream.readByte8]

def AlignedResult (u : ℕ) (r : ReadResult) : Prop :=
  (∀ c s, r = .char c s → Aligned u s) ∧ ∀ s, r = .eof s → Aligned u s

theorem readCharLoop_aligned (hd : Decisive handler) (n : ℕ) : ∀ {s : Stream} {pending : List UInt8},
    Aligned u s → AlignedResult u (readCharLoop handler n s pending) := by
  have hlaw := decoder_lawful hd
  induction n with
  | zero =>
    intro s pending hs
    refine ⟨fun c s' h => ?_, fun s' h => ?_⟩
    · cases h
    · cases h
      exact hs
  | succ n ih =>
    intro s pending hs
    obtain ⟨q, hq, hle, hplace⟩ := hs.place
    obtain ⟨hstream, hle', hend⟩ := readByte8_aligned hs (n := s.kind.unit s.format) hq hle
    have hunit : s.kind.unit s.format = u := by
      rw [hs.file]
      exact hs.unit
    have hnext (format : ExternalFormat) (hformat : byteSize format = byteSize s.format)
        (hfull : ¬ (s.readByte8 (s.kind.unit s.format)).1.length < s.kind.unit s.format) :
        Aligned u { (s.readByte8 (s.kind.unit s.format)).2 with format := format } := by
      have hlen : (s.readByte8 (s.kind.unit s.format)).1.length ≤ s.kind.unit s.format := by
        rw [Stream.readByte8_fst, List.length_take]
        omega
      rw [hstream]
      refine ⟨hs.file, hs.stack, hformat.trans hs.unit, _, rfl, hle', ?_⟩
      rcases hplace with hdvd | hq'
      · refine .inl (Nat.dvd_add hdvd ?_)
        rw [show (s.readByte8 (s.kind.unit s.format)).1.length = u by omega]
      · have hsame : q + (s.readByte8 (s.kind.unit s.format)).1.length = s.content.length := by
          omega
        exact .inr hsame
    rw [readCharLoop]
    by_cases hshort : (s.readByte8 (s.kind.unit s.format)).1.length < s.kind.unit s.format
    · simp only [if_pos hshort]
      refine ⟨fun c s' h => ?_, fun s' h => ?_⟩
      · cases h
      · cases h
        rw [hstream]
        exact ⟨hs.file, hs.stack, hs.unit, _, rfl, hle', .inr (hend hshort)⟩
    · simp only [if_neg hshort]
      cases hdec : decoder handler s.format
          (pending ++ (s.readByte8 (s.kind.unit s.format)).1) with
      | more format rest => exact ih (hnext format (hlaw.more_unit hdec) hshort)
      | item c format rest =>
        dsimp only
        have hs' := hnext format (hlaw.item_unit hdec) hshort
        split_ifs
        · exact ih hs'
        · refine ⟨fun c' s' h => ?_, fun s' h => ?_⟩
          · cases h
            exact hs'
          · cases h
      | stop octets =>
        refine ⟨fun c' s' h => ?_, fun s' h => ?_⟩
        · cases h
        · cases h

theorem eformatReadChar_aligned (hd : Decisive handler) {s : Stream} (hs : Aligned u s) :
    AlignedResult u (eformatReadChar handler s) :=
  readCharLoop_aligned hd _ ⟨hs.file, hs.stack, hs.unit, hs.place⟩

theorem readChar_aligned (hd : Decisive handler) {s s' : Stream} {c : ℤ} (hs : Aligned u s)
    (h : readChar handler s = .char c s') : Aligned u s' := by
  have hread := eformatReadChar_aligned hd hs
  rw [readChar] at h
  cases hline : s.lineEnding with
  | lf =>
    simp only [hline] at h
    exact hread.1 c s' h
  | cr =>
    simp only [hline, eformatReadCharCr] at h
    cases hr : eformatReadChar handler s with
    | char c' t =>
      simp only [hr, ReadResult.char.injEq] at h
      obtain ⟨-, rfl⟩ := h
      exact hread.1 c' t hr
    | eof t => simp only [hr, reduceCtorEq] at h
    | unwind octets => simp only [hr, reduceCtorEq] at h
  | crlf =>
    simp only [hline, eformatReadCharCrlf] at h
    cases hr : eformatReadChar handler s with
    | char c' t =>
      have ht := hread.1 c' t hr
      simp only [hr] at h
      by_cases hc : c' = charReturn
      · have hnext := eformatReadChar_aligned hd ht
        rw [if_pos hc] at h
        cases hr' : eformatReadChar handler t with
        | char c'' u =>
          have hu := hnext.1 c'' u hr'
          simp only [hr', lookAhead] at h
          split_ifs at h
          · cases h
            exact hu
          · cases h
            exact ⟨hu.file, hu.stack, hu.unit, hu.place⟩
        | eof u =>
          have hu := hnext.2 u hr'
          simp only [hr', lookAhead] at h
          cases h
          exact ⟨hu.file, hu.stack, hu.unit, hu.place⟩
        | unwind octets => simp only [hr', lookAhead, reduceCtorEq] at h
      · rw [if_neg hc] at h
        cases h
        exact ht
    | eof t => simp only [hr, reduceCtorEq] at h
    | unwind octets => simp only [hr, reduceCtorEq] at h

section
variable {seekable : Bool} {minNeeded : ℕ}

structure Later (content : List UInt8) (r r' : FileReader) : Prop where
  stands : ∃ q, Stands content q r'
  moved : Moved r.stream r'.stream.format r'.stream
  unit : byteSize r'.stream.format = byteSize r.stream.format

theorem Later.trans {r r' r'' : FileReader} (h : Later content r r')
    (h' : Later content r' r'') : Later content r r'' :=
  ⟨h'.stands, h.moved.trans h'.moved, h'.unit.trans h.unit⟩

theorem fetchChar_later (hd : Decisive handler) (n : ℕ) : ∀ {q previous : ℕ} {c : ℤ}
    {r r' : FileReader}, Stands content q r →
    fetchChar handler seekable minNeeded n r = .char c previous r' →
    Later content r r' ∧ Later content r { r' with pos := previous } := by
  have hlaw := decoder_lawful hd
  induction n with
  | zero => exact fun _ h => (by cases h)
  | succ n ih =>
    intro q previous c r r' h hfetch
    have hrefill {format : ExternalFormat} {rest : List UInt8} {q' : ℕ}
        (hs : Stands content q' (r.decoded format rest))
        (hunit : byteSize format = byteSize r.stream.format)
        (hfetch : (if ((r.decoded format rest).stream.readByte8
            (neededBytes seekable minNeeded)).1 = [] then Fetched.eof
          else fetchChar handler seekable minNeeded n ((r.decoded format rest).refill
            ((r.decoded format rest).stream.readByte8 (neededBytes seekable minNeeded)).1
            ((r.decoded format rest).stream.readByte8 (neededBytes seekable minNeeded)).2)) =
          .char c previous r') :
        Later content r r' ∧ Later content r { r' with pos := previous } := by
      split_ifs at hfetch
      obtain ⟨hafter, hbefore⟩ := ih (hs.refill _).1 hfetch
      obtain ⟨position, hstream⟩ := hafter.moved
      have hmoved : Moved r.stream r'.stream.format r'.stream :=
        ⟨position, by rw [hstream]; rfl⟩
      exact ⟨⟨hafter.stands, hmoved, hafter.unit.trans hunit⟩,
        ⟨hbefore.stands, hmoved, hafter.unit.trans hunit⟩⟩
    rw [fetchChar] at hfetch
    cases hdec : decoder handler r.stream.format r.pending with
    | more format rest =>
      simp only [hdec] at hfetch
      obtain ⟨-, j, hj⟩ := hlaw.more_length hdec
      exact hrefill (h.decoded (hlaw.more_unit hdec) hj (hlaw.more_rest hdec)).1
        (hlaw.more_unit hdec) hfetch
    | item c' format rest =>
      simp only [hdec] at hfetch
      obtain ⟨-, j, hj⟩ := hlaw.item_length hdec
      have hs := (h.decoded (hlaw.item_unit hdec) hj (hlaw.item_rest hdec)).1
      by_cases hc : c' = eof
      · rw [if_pos hc] at hfetch
        exact hrefill hs (hlaw.item_unit hdec) hfetch
      · rw [if_neg hc] at hfetch
        cases hfetch
        have hmoved : Moved r.stream format { r.stream with format := format } := by
          obtain ⟨position, hstream⟩ := h.moved
          exact ⟨position, by rw [hstream]⟩
        have hunit := h.placed.unit
        rw [← hlaw.item_unit hdec] at hunit
        exact ⟨⟨⟨_, hs⟩, hmoved, hlaw.item_unit hdec⟩, ⟨⟨q, ⟨⟨h.placed.content_eq,
          h.placed.stack, h.placed.position, h.placed.pending, hunit, h.placed.inside⟩,
          h.within⟩⟩, hmoved, hlaw.item_unit hdec⟩⟩
    | stop octets =>
      simp only [hdec] at hfetch
      cases hfetch

theorem decodeChar_later (hd : Decisive handler) {q : ℕ} {c : ℤ} {r r' : FileReader}
    (h : Stands content q r) (hdecode : decodeCharFromBuffer handler seekable minNeeded r =
      .char c r') : Later content r r' := by
  rw [decodeCharFromBuffer] at hdecode
  cases hf : fetchChar handler seekable minNeeded (r.stream.remaining.length + 1) r with
  | char c' previous r₁ =>
    obtain ⟨h₁, -⟩ := fetchChar_later hd _ h hf
    simp only [hf] at hdecode
    by_cases hc : c' = charReturn
    · rw [if_pos hc] at hdecode
      cases hl : r₁.stream.lineEnding with
      | lf | cr =>
        simp only [hl] at hdecode
        cases hdecode
        exact h₁
      | crlf =>
        simp only [hl] at hdecode
        cases hf' : fetchChar handler seekable minNeeded
            (r₁.stream.remaining.length + 1) r₁ with
        | char c'' previous' r₂ =>
          obtain ⟨q₁, hs₁⟩ := h₁.stands
          obtain ⟨hafter, hbefore⟩ := fetchChar_later hd _ hs₁ hf'
          simp only [hf'] at hdecode
          split_ifs at hdecode
          · cases hdecode
            exact h₁.trans hafter
          · cases hdecode
            exact h₁.trans hbefore
        | eof | unwind octets => simp only [hf', reduceCtorEq] at hdecode
    · rw [if_neg hc] at hdecode
      cases hdecode
      exact h₁
  | eof | unwind octets => simp only [hf, reduceCtorEq] at hdecode

theorem vectorLoop_later (hd : Decisive handler) (n : ℕ) : ∀ {q : ℕ} {r r' : FileReader},
    Stands content q r → (readVectorLoop handler seekable n r).reader = some r' →
    Later content r r' := by
  induction n with
  | zero =>
    intro q r r' h hr
    cases hr
    exact ⟨⟨q, h⟩, h.moved, rfl⟩
  | succ n ih =>
    intro q r r' h hr
    rw [readVectorLoop] at hr
    cases hdec : decodeCharFromBuffer handler seekable
        ((n + 1) * byteSize r.stream.format) r with
    | char c r₁ =>
      simp only [hdec] at hr
      have h₁ := decodeChar_later hd h hdec
      obtain ⟨q₁, hs₁⟩ := h₁.stands
      exact h₁.trans (ih hs₁ hr)
    | eof | unwind octets => simp only [hdec, reduceCtorEq] at hr

end

theorem destroyReader_moved {q : ℕ} {r : FileReader} (h : Stands content q r) :
    destroyReader true r = { r.stream with position := q, byteStack := [] } := by
  have hposition := destroyReader_position h.placed
  rw [destroyReader, if_pos rfl, setFilePosition] at hposition ⊢
  simp only at hposition
  simp only [hposition]

theorem destroyReader_aligned {seekable : Bool} {s : Stream} {r : FileReader}
    (hs : Aligned u s) (h : Later s.content ⟨s, [], 0⟩ r)
    (hunit : seekable = true ∨ u = 1) : Aligned u (destroyReader seekable r) := by
  obtain ⟨q, hq⟩ := h.stands
  have hkind : r.stream.kind = .file := by
    obtain ⟨position, hstream⟩ := h.moved
    rw [hstream]
    exact hs.file
  have hu : byteSize r.stream.format = u := h.unit.trans hs.unit
  have hdvd := hq.placed.unit
  rw [hu] at hdvd
  have hwithin := hq.within
  have hcontent := hq.placed.content_eq
  cases seekable with
  | true =>
    rw [destroyReader_moved hq]
    refine ⟨hkind, rfl, hu, q, rfl, ?_, .inl hdvd⟩
    simp only [hcontent]
    omega
  | false =>
    refine ⟨hkind, hq.placed.stack, hu, _, hq.placed.position, ?_, .inl ?_⟩
    · rw [destroyReader, if_neg Bool.false_ne_true, hcontent]
      exact hwithin
    · rw [hunit.resolve_left Bool.false_ne_true]
      exact Nat.one_dvd _

end SplitAlignment
