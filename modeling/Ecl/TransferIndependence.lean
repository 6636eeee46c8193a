import Ecl.SplitAlignment

/-! When streams do not depend on how the system splits their transfers. -/
namespace TransferIndependence

open ExternalFormats IncrementalDecoding CharacterStreams DecoderLaws CharacterReading
  CharacterVectors CharacterAgreement StoppingRuns SplitTransfers SplitReading SplitWriting
  SplitVectors SplitAlignment

variable {system : System} {handler : Handler} {seekable : Bool} {u : ℕ}

def wholeSystem : System := fun _ n => n

theorem granted_wholeSystem (call n : ℕ) : granted wholeSystem call n = n := by
  rw [granted, wholeSystem]
  omega

theorem readByte8_uncut (k : Calls) (s : Stream) (n : ℕ) :
    (readByte8 wholeSystem k s n).2.cut = k.cut := by
  rw [readByte8]
  split_ifs with h
  · rfl
  · have hn : s.byteStack.length + granted wholeSystem k.made (n - s.byteStack.length) = n := by
      rw [granted_wholeSystem]
      omega
    simp only [hn, Calls.next, Nat.lt_irrefl, decide_false, Bool.or_false]

theorem fetchChar_uncut {minNeeded : ℕ} (n : ℕ) : ∀ (k : Calls) (r : FileReader),
    (splitFetchChar wholeSystem handler seekable minNeeded n k r).2.cut = k.cut := by
  induction n with
  | zero => exact fun _ _ => rfl
  | succ n ih =>
    intro k r
    have hmore (r : FileReader) : (if (readByte8 wholeSystem k r.stream
          (neededBytes seekable minNeeded)).1.1 = [] then
        (Fetched.eof, (readByte8 wholeSystem k r.stream (neededBytes seekable minNeeded)).2)
      else splitFetchChar wholeSystem handler seekable minNeeded n
        (readByte8 wholeSystem k r.stream (neededBytes seekable minNeeded)).2
        (r.refill (readByte8 wholeSystem k r.stream (neededBytes seekable minNeeded)).1.1
          (readByte8 wholeSystem k r.stream (neededBytes seekable minNeeded)).1.2)).2.cut =
        k.cut := by
      split_ifs
      · exact readByte8_uncut k r.stream _
      · rw [ih, readByte8_uncut]
    rw [splitFetchChar]
    cases decoder handler r.stream.format r.pending with
    | more format rest => exact hmore _
    | item c format rest =>
      dsimp only
      by_cases hc : c = eof
      · rw [if_pos hc]
        exact hmore _
      · rw [if_neg hc]
    | stop octets => rfl

theorem decodeChar_uncut {minNeeded : ℕ} (k : Calls) (r : FileReader) :
    (splitDecodeChar wholeSystem handler seekable minNeeded k r).2.cut = k.cut := by
  have hfetch := @fetchChar_uncut handler seekable minNeeded
    (r.stream.remaining.length + 1) k r
  rw [splitDecodeChar]
  generalize splitFetchChar wholeSystem handler seekable minNeeded
    (r.stream.remaining.length + 1) k r = f at hfetch ⊢
  obtain ⟨f, k'⟩ := f
  dsimp only at hfetch ⊢
  cases f with
  | char c previous r' =>
    dsimp only
    split_ifs
    · cases r'.stream.lineEnding with
      | lf => exact hfetch
      | cr => exact hfetch
      | crlf => exact (fetchChar_uncut _ k' r').trans hfetch
    · exact hfetch
  | eof => exact hfetch
  | unwind octets => exact hfetch

theorem vectorLoop_uncut (n : ℕ) : ∀ (k : Calls) (r : FileReader),
    (splitVectorLoop wholeSystem handler seekable n k r).2.cut = k.cut := by
  induction n with
  | zero => exact fun _ _ => rfl
  | succ n ih =>
    intro k r
    have hdecode := @decodeChar_uncut handler seekable
      ((n + 1) * byteSize r.stream.format) k r
    rw [splitVectorLoop]
    generalize splitDecodeChar wholeSystem handler seekable
      ((n + 1) * byteSize r.stream.format) k r = d at hdecode ⊢
    obtain ⟨d, k'⟩ := d
    dsimp only at hdecode ⊢
    cases d with
    | char c r' => exact (ih k' r').trans hdecode
    | eof => exact hdecode
    | unwind octets => exact hdecode

theorem readVectorLoop_eq (n : ℕ) (r : FileReader) :
    (splitVectorLoop wholeSystem handler seekable n ⟨0, false⟩ r).1 =
      readVectorLoop handler seekable n r :=
  (vectorLoop_whole n (vectorLoop_uncut n _ r)).2

theorem vectorLoop_end (hd : Decisive handler) {n : ℕ} {k : Calls} {s : Stream} (hn : n ≠ 0)
    (hs : s.remaining = []) :
    (splitVectorLoop system handler seekable n k ⟨s, [], 0⟩).1.reader = none ∧
      (splitVectorLoop system handler seekable n k ⟨s, [], 0⟩).2.cut = k.cut := by
  obtain ⟨n, rfl⟩ : ∃ m, n = m + 1 := ⟨n - 1, by omega⟩
  have hnil := (decoder_lawful hd).step_nil s.format
  have hread (m : ℕ) : (s.readByte8 m).1 = [] := by
    rw [Stream.readByte8_fst, hs, List.take_nil]
  have hcall (m : ℕ) : (readByte8 system k s m).1.1 = [] ∧
      (readByte8 system k s m).2.cut = k.cut := by
    rw [readByte8]
    split_ifs
    · exact ⟨hread m, rfl⟩
    · simp only [hread, Calls.next, Nat.lt_irrefl, decide_false, Bool.or_false]
      exact ⟨trivial, trivial⟩
  have hfetch (minNeeded : ℕ) (i : ℕ) :
      (splitFetchChar system handler seekable minNeeded (i + 1) k ⟨s, [], 0⟩).1 = .eof ∧
      (splitFetchChar system handler seekable minNeeded (i + 1) k ⟨s, [], 0⟩).2.cut = k.cut := by
    have hpending : FileReader.pending ⟨s, [], 0⟩ = [] := rfl
    have hdecoded : FileReader.decoded ⟨s, [], 0⟩ s.format [] = ⟨s, [], 0⟩ := rfl
    rw [splitFetchChar]
    simp only [hpending, hnil, hdecoded]
    rw [if_pos (hcall _).1]
    exact ⟨rfl, (hcall _).2⟩
  obtain ⟨heof, hcut⟩ := hfetch ((n + 1) * byteSize s.format) s.remaining.length
  rw [splitVectorLoop, splitDecodeChar]
  simp only [heof]
  exact ⟨trivial, hcut⟩

/-- A vector of characters may be read through short calls if what has been read too much can be
given back, or cannot be. -/
def Buffered (seekable : Bool) (u : ℕ) (s : Stream) : Prop :=
  seekable = true ∨ u = 1 ∧ s.lineEnding ≠ .crlf

theorem settled_of_unit {format : ExternalFormat} (h : byteSize format = 1) : Settled format := by
  cases format with
  | latin1 | usAscii | utf8 => exact fun _ => rfl
  | _ => cases h

theorem destroy_twins {q : ℕ} {s : Stream} {r₁ r₂ : FileReader}
    (h : Twins s.content q r₁ r₂)
    (hrest : seekable = false → r₁.pending = [] ∧ r₂.pending = []) :
    destroyReader seekable r₁ = destroyReader seekable r₂ := by
  obtain ⟨position, hmoved⟩ := h.moved
  cases hs : seekable with
  | true =>
    rw [destroyReader_moved h.first, destroyReader_moved h.second, hmoved]
  | false =>
    obtain ⟨h₁, h₂⟩ := hrest hs
    have hp₁ := h.first.placed.position
    have hp₂ := h.second.placed.position
    have hstack := h.first.placed.stack
    rw [h₁] at hp₁
    rw [h₂] at hp₂
    simp only [destroyReader, Bool.false_eq_true, if_false]
    rw [hmoved] at hp₂ ⊢
    simp only at hp₂
    rw [hp₂]
    cases hr : r₁.stream with
    | mk kind content position byteStack format lineEnding lastChar =>
      rw [hr] at hp₁ hstack
      cases hstack
      cases hp₁
      rfl

theorem vector_independent (hd : Decisive handler) {s : Stream} {k : Calls} {n : ℕ}
    (hs : Aligned u s) (hb : Buffered seekable u s)
    (heof : eof ∉ (text (decoder handler) s.format s.remaining).items) :
    (splitCharacterRead system handler seekable (.vector n) (s, k)).1 =
        (characterRead handler seekable (.vector n) s).1 ∧
      (splitCharacterRead system handler seekable (.vector n) (s, k)).2.1 =
        (characterRead handler seekable (.vector n) s).2 := by
  rw [splitCharacterRead, characterRead]
  by_cases hn : n = 0
  · simp only [if_pos hn]
    exact ⟨trivial, trivial⟩
  simp only [if_neg hn]
  obtain ⟨q, hq, hle, hplace⟩ := hs.place
  have hremaining : s.remaining = s.content.drop q := by
    rw [Stream.remaining, hs.stack, hq]
    rfl
  rcases hplace with hdvd | hend
  · rw [← hs.unit] at hdvd
    have hstands := stands_start hs.stack hq hle hdvd
    have hno : NoEof handler s.content q ⟨s, [], 0⟩ := by
      rw [NoEof, textAt, ← hremaining]
      exact heof
    obtain ⟨hitems, hending, hreader⟩ := @vectorLoop_twins _ _ system
      wholeSystem seekable hd n q k.start ⟨0, false⟩ _ _
      ⟨hstands, hstands, hstands.moved⟩ hno
    have hrest {system : System} {k : Calls} {r : FileReader} (hfalse : seekable = false)
        (hr : (splitVectorLoop system handler seekable n k ⟨s, [], 0⟩).1.reader = some r) :
        r.pending = [] := by
      rw [hfalse] at hr
      rcases hb with htrue | ⟨hunit, hline⟩
      · rw [hfalse] at htrue
        cases htrue
      · have hone : byteSize s.format = 1 := hs.unit.trans hunit
        exact splitVectorLoop_rest hd n hstands hno hone (settled_of_unit hone) hline
          (Nat.zero_le n) hr
    rw [← readVectorLoop_eq]
    simp only [vectorReply, hitems, hending]
    rcases hreader with ⟨h₁, h₂⟩ | ⟨q', r₁, r₂, h₁, h₂, htwins⟩
    · rw [h₁, h₂]
      exact ⟨rfl, rfl⟩
    · rw [h₁, h₂]
      exact ⟨rfl, destroy_twins htwins fun hfalse => ⟨hrest hfalse h₁, hrest hfalse h₂⟩⟩
  · have hnil : s.remaining = [] := by
      rw [hremaining, hend]
      exact List.drop_length
    obtain ⟨-, hcut⟩ := @vectorLoop_end system _ seekable hd n k.start s hn hnil
    rw [(vectorLoop_whole n hcut).2]
    exact ⟨rfl, rfl⟩

theorem characterRead_aligned (hd : Decisive handler) {op : CharacterRead} {s : Stream}
    (hs : Aligned u s) (hunit : seekable = true ∨ u = 1)
    (hstop : (characterRead handler seekable op s).1.stops = false) :
    Aligned u (characterRead handler seekable op s).2 := by
  cases op with
  | char =>
    rw [characterRead] at hstop ⊢
    cases hr : readChar handler s with
    | char c s' => exact readChar_aligned hd hs hr
    | eof s' | unwind octets =>
      rw [hr] at hstop
      cases hstop
  | vector n =>
    rw [characterRead] at hstop ⊢
    by_cases hn : n = 0
    · rw [if_pos hn]
      exact hs
    rw [if_neg hn] at hstop ⊢
    cases hreader : (readVectorLoop handler seekable n ⟨s, [], 0⟩).reader with
    | none =>
      simp only [vectorReply, CharacterReply.stops, hreader, Option.isNone_none] at hstop
      cases hending : (readVectorLoop handler seekable n ⟨s, [], 0⟩).ending with
      | none | some octets =>
        rw [hending] at hstop
        cases hstop
    | some r =>
      obtain ⟨q, hq, hle, hdvd | hend⟩ := hs.place
      · rw [← hs.unit] at hdvd
        have hlater := vectorLoop_later hd n (stands_start hs.stack hq hle hdvd) hreader
        simp only [vectorReply, hreader]
        exact destroyReader_aligned hs hlater hunit
      · have hnil : s.remaining = [] := by
          rw [Stream.remaining, hs.stack, hq, hend]
          exact List.drop_length
        have hnone := (@vectorLoop_end wholeSystem _ seekable hd n ⟨0, false⟩ s hn hnil).1
        rw [readVectorLoop_eq, hreader] at hnone
        cases hnone

/-- No call of the read is cut; or it is of a vector, and what is left of the file has no unit
that decodes to the mark for the end of a file. -/
def Undisturbed (system : System) (handler : Handler) (seekable : Bool) (u : ℕ)
    (op : CharacterRead) (s : Stream × Calls) : Prop :=
  (splitCharacterRead system handler seekable op s).2.2.cut = false ∨
    (∃ n, op = .vector n) ∧ Decisive handler ∧ Buffered seekable u s.1 ∧
      eof ∉ (text (decoder handler) s.1.format s.1.remaining).items

theorem characterReads_independent {format : ExternalFormat} {lineEnding : LineEnding}
    {content : List UInt8} {ops : List CharacterRead}
    (h : Along CharacterReply.stops (splitCharacterRead system handler seekable)
      (Undisturbed system handler seekable (byteSize format)) ops
      (openInput .file format lineEnding content, ⟨0, false⟩)) :
    run CharacterReply.stops (splitCharacterRead system handler seekable) ops
        (openInput .file format lineEnding content, ⟨0, false⟩) =
      run CharacterReply.stops (characterRead handler seekable) ops
        (openInput .file format lineEnding content) := by
  by_cases hcase : Decisive handler ∧ (seekable = true ∨ byteSize format = 1)
  · obtain ⟨hd, hunit⟩ := hcase
    refine run_eq (R := fun s t => t = s.1 ∧ Aligned (byteSize format) s.1) ?_
      ⟨rfl, aligned_openInput format lineEnding content⟩ h
    rintro op ⟨s, k⟩ t ⟨rfl, hs⟩ hop
    have hsame : (splitCharacterRead system handler seekable op (t, k)).1 =
          (characterRead handler seekable op t).1 ∧
        (splitCharacterRead system handler seekable op (t, k)).2.1 =
          (characterRead handler seekable op t).2 := by
      rcases hop with hcut | ⟨⟨n, rfl⟩, -, hb, heof⟩
      · exact characterRead_whole hcut
      · exact vector_independent hd hs hb heof
    refine ⟨hsame.1, fun hstop => ⟨hsame.2.symm, ?_⟩⟩
    rw [hsame.1] at hstop
    rw [hsame.2]
    exact characterRead_aligned hd hs hunit hstop
  · refine run_eq (R := fun s t => t = s.1) ?_ rfl h
    rintro op ⟨s, k⟩ t rfl hop
    have hcut := hop.resolve_right fun ⟨_, hd, hb, _⟩ => hcase ⟨hd, hb.imp_right And.left⟩
    obtain ⟨hreply, hstream⟩ := characterRead_whole hcut
    exact ⟨hreply, fun _ => hstream.symm⟩

theorem binaryReads_independent {ops : List BinaryRead} {s : BinaryStreams.Stream}
    {f : BinaryStreams.File}
    (h : Along BinaryReply.atEnd (splitBinaryRead system)
      (fun op s => (splitBinaryRead system op s).2.2.2.cut = false) ops (s, f, ⟨0, false⟩)) :
    run BinaryReply.atEnd (splitBinaryRead system) ops (s, f, ⟨0, false⟩) =
      run BinaryReply.atEnd (binaryRead BinaryStreams.fileOps) ops (s, f) := by
  refine run_eq (R := fun s t => t = (s.1, s.2.1)) ?_ rfl h
  rintro op ⟨s, f, k⟩ t rfl hcut
  obtain ⟨hreply, hstream, hfile⟩ := binaryRead_whole hcut
  exact ⟨hreply, fun _ => Prod.ext hstream.symm hfile.symm⟩

theorem writeCalls_flatten {s : Output} {c : ℤ} {octets : List UInt8} {format : ExternalFormat}
    (h : writeChar s.lineEnding s.format c = some (octets, format)) :
    (writeCalls s (.char c)).1.flatten = octets := by
  obtain ⟨calls, hcalls, hoctets⟩ := writeCharCalls_flatten h
  simp only [writeCalls, hcalls, Option.elim_some]
  exact hoctets

theorem writeCalls_string_flatten {s : Output} {cs : List ℤ} {octets : List UInt8}
    (h : writeString s.lineEnding s.format cs = some octets) :
    (writeCalls s (.string cs)).1.flatten = octets := by
  simp only [writeCalls]
  split_ifs with hcs
  · subst hcs
    cases h
    rfl
  · exact writeVectorCalls_flatten cs [] h

/-- Reads are the same as from the file itself while nothing is cut that would end an element or
a run of them early, and writes reach the file exactly when nothing is cut. -/
theorem transfers_independent (system : System) (handler : Handler) (seekable : Bool) :
    (∀ (format : ExternalFormat) (lineEnding : LineEnding) (content : List UInt8)
      (ops : List CharacterRead),
      Along CharacterReply.stops (splitCharacterRead system handler seekable)
        (Undisturbed system handler seekable (byteSize format)) ops
        (openInput .file format lineEnding content, ⟨0, false⟩) →
      run CharacterReply.stops (splitCharacterRead system handler seekable) ops
          (openInput .file format lineEnding content, ⟨0, false⟩) =
        run CharacterReply.stops (characterRead handler seekable) ops
          (openInput .file format lineEnding content)) ∧
    (∀ (s : BinaryStreams.Stream) (f : BinaryStreams.File) (ops : List BinaryRead),
      Along BinaryReply.atEnd (splitBinaryRead system)
        (fun op s => (splitBinaryRead system op s).2.2.2.cut = false) ops (s, f, ⟨0, false⟩) →
      run BinaryReply.atEnd (splitBinaryRead system) ops (s, f, ⟨0, false⟩) =
        run BinaryReply.atEnd (binaryRead BinaryStreams.fileOps) ops (s, f)) ∧
    (∀ (s : Output) (f : BinaryStreams.File) (ws : List Write),
      f.position ≤ f.content.length →
      ((performCalls (splitOps system) (f, ⟨0, false⟩) (allCalls s ws)).1 =
          written f (allCalls s ws).flatten ↔
        (performCalls (splitOps system) (f, ⟨0, false⟩) (allCalls s ws)).2.cut = false)) ∧
    (∀ (s : Output) (cs : List ℤ) (octets : List UInt8),
      writeString s.lineEnding s.format cs = some octets →
      (writeCalls s (.string cs)).1.flatten = octets) ∧
    ∀ (s : Output) (c : ℤ) (octets : List UInt8) (format : ExternalFormat),
      writeChar s.lineEnding s.format c = some (octets, format) →
      (writeCalls s (.char c)).1.flatten = octets :=
  ⟨fun _ _ _ _ h => characterReads_independent h, fun _ _ _ h => binaryReads_independent h,
    fun _ _ _ hf => performCalls_iff hf rfl _, fun _ _ _ h => writeCalls_string_flatten h,
    fun _ _ _ _ h => writeCalls_flatten h⟩

/-- Octet after octet a vector of two characters is read whole, and two octets are written. -/
theorem transfers_independent_single :
    run CharacterReply.stops (splitCharacterRead (fun _ _ => 1) unwinding true) [.vector 2]
        (openInput .file .latin1 .lf [97, 98], ⟨0, false⟩) =
      run CharacterReply.stops (characterRead unwinding true) [.vector 2]
        (openInput .file .latin1 .lf [97, 98]) ∧
    run BinaryReply.atEnd (splitBinaryRead fun _ _ => 1) [.byte, .byte]
        (BinaryStreams.setStreamEltType 8 true, ⟨[1], 0⟩, ⟨0, false⟩) =
      run BinaryReply.atEnd (binaryRead BinaryStreams.fileOps) [.byte, .byte]
        (BinaryStreams.setStreamEltType 8 true, ⟨[1], 0⟩) ∧
    (performCalls (splitOps fun _ _ => 1) (⟨[], 0⟩, ⟨0, false⟩)
        (allCalls ⟨BinaryStreams.setStreamEltType 8 true, .latin1, .lf⟩ [.char 97, .char 98])).1 =
      written ⟨[], 0⟩ (allCalls ⟨BinaryStreams.setStreamEltType 8 true, .latin1, .lf⟩
        [.char 97, .char 98]).flatten := by
  obtain ⟨hchars, hbytes, hwrites, -⟩ := transfers_independent (fun _ _ => 1) unwinding true
  refine ⟨hchars .latin1 .lf [97, 98] [.vector 2] ⟨.inr ⟨⟨2, rfl⟩, unwinding_decisive, .inl rfl, ?_⟩,
    fun _ => trivial⟩, hbytes _ ⟨[1], 0⟩ [.byte, .byte] ⟨rfl, fun _ => ⟨rfl, fun _ => trivial⟩⟩,
    (hwrites _ ⟨[], 0⟩ [.char 97, .char 98] (Nat.le_refl 0)).2 rfl⟩
  decide

/-- Where each call takes one octet, an element of two octets and a character of UCS-2 are the end
of the file, and the second octet of a string is lost. -/
theorem single_octets_fail :
    (run BinaryReply.atEnd (splitBinaryRead fun _ _ => 1) [.byte]
        (BinaryStreams.setStreamEltType 16 true, ⟨[1, 2], 0⟩, ⟨0, false⟩) = [.element none] ∧
      run BinaryReply.atEnd (binaryRead BinaryStreams.fileOps) [.byte]
        (BinaryStreams.setStreamEltType 16 true, ⟨[1, 2], 0⟩) =
          [.element (some (.fixnum 513))]) ∧
    (run CharacterReply.stops (splitCharacterRead (fun _ _ => 1) unwinding true) [.char]
        (openInput .file .ucs2le .lf [97, 0], ⟨0, false⟩) = [⟨[], true, none⟩] ∧
      run CharacterReply.stops (characterRead unwinding true) [.char]
        (openInput .file .ucs2le .lf [97, 0]) = [⟨[97], false, none⟩]) ∧
    (performCalls (splitOps fun _ _ => 1) (⟨[], 0⟩, ⟨0, false⟩)
        (allCalls ⟨BinaryStreams.setStreamEltType 8 true, .latin1, .lf⟩ [.string [97, 98]])).1 =
          ⟨[97], 1⟩ ∧
      written ⟨[], 0⟩ (allCalls ⟨BinaryStreams.setStreamEltType 8 true, .latin1, .lf⟩
        [.string [97, 98]]).flatten = ⟨[97, 98], 2⟩ := by
  refine ⟨⟨rfl, rfl⟩, ⟨by decide, by decide⟩, rfl, rfl⟩

end TransferIndependence
