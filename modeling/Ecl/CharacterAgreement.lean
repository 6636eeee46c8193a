import Ecl.CharacterReading
import Mathlib.Tactic.Ring
import Mathlib.Data.List.Induction

/-! The two ways of reading characters from a file: what read-sequence delivers, and where the
line endings of read-char differ. -/
namespace CharacterAgreement

open ExternalFormats IncrementalDecoding CharacterStreams DecoderLaws CharacterReading
  CharacterVectors

variable {handler : Handler} {content : List UInt8}

theorem eq_take_append_drop (n : ℕ) (l : List UInt8) : l = l.take n ++ l.drop (l.take n).length := by
  rw [List.length_take]
  by_cases hn : n ≤ l.length
  · rw [Nat.min_eq_left hn, List.take_append_drop]
  · rw [Nat.min_eq_right (by omega), List.take_of_length_le (by omega),
      List.drop_of_length_le (Nat.le_refl _), List.append_nil]

structure Placed (content : List UInt8) (q : ℕ) (r : FileReader) : Prop where
  content_eq : r.stream.content = content
  stack : r.stream.byteStack = []
  position : r.stream.position = (q + r.pending.length : ℕ)
  pending : content.drop q = r.pending ++ content.drop (q + r.pending.length)
  unit : byteSize r.stream.format ∣ q
  inside : r.pos ≤ r.buffer.length

namespace Placed

variable {q : ℕ} {r : FileReader}

theorem remaining (h : Placed content q r) :
    r.stream.remaining = content.drop (q + r.pending.length) := by
  rw [Stream.remaining, h.stack, h.content_eq, h.position]
  rfl

theorem drop_eq (h : Placed content q r) : content.drop q = r.pending ++ r.stream.remaining := by
  rw [h.remaining]
  exact h.pending

theorem pending_length (h : Placed content q r) :
    r.pending.length + r.pos = r.buffer.length := by
  rw [FileReader.pending, List.length_drop]
  exact Nat.sub_add_cancel h.inside

theorem decoded (h : Placed content q r) {format : ExternalFormat} {rest : List UInt8} {k : ℕ}
    (hunit : byteSize format = byteSize r.stream.format)
    (hlen : r.pending.length = k * byteSize r.stream.format + rest.length)
    (hrest : r.pending.drop (r.pending.length - rest.length) = rest) :
    Placed content (q + k * byteSize r.stream.format) (r.decoded format rest) ∧
      (r.decoded format rest).pending = rest := by
  have hbuffer := h.pending_length
  have hpending : (r.decoded format rest).pending = rest := by
    calc r.buffer.drop (r.buffer.length - rest.length)
        = r.buffer.drop (r.pos + (r.pending.length - rest.length)) := by
          congr 1
          omega
      _ = r.pending.drop (r.pending.length - rest.length) := List.drop_drop.symm
      _ = rest := hrest
  refine ⟨⟨h.content_eq, h.stack, ?_, ?_, ?_, Nat.sub_le _ _⟩, hpending⟩
  · rw [hpending, Nat.add_assoc, ← hlen]
    exact h.position
  · rw [hpending, Nat.add_assoc, ← hlen, ← List.drop_drop, h.pending,
      List.drop_append_of_le_length (by omega)]
    congr 1
    rw [← hrest]
    congr 1
    omega
  · exact Nat.dvd_add (hunit ▸ h.unit) (hunit ▸ Nat.dvd_mul_left _ k)

theorem refill (h : Placed content q r) (n : ℕ) :
    Placed content q (r.refill (r.stream.readByte8 n).1 (r.stream.readByte8 n).2) ∧
      (r.refill (r.stream.readByte8 n).1 (r.stream.readByte8 n).2).pending =
        r.pending ++ (r.stream.readByte8 n).1 := by
  refine ⟨⟨h.content_eq, ?_, ?_, ?_, h.unit, Nat.zero_le _⟩, rfl⟩
  · exact (congrArg (List.drop n) h.stack).trans List.drop_nil
  · have hoctets : (r.stream.readByte8 n).2.position =
        r.stream.position + (r.stream.readByte8 n).1.length := by
      simp only [Stream.readByte8, h.stack, List.take_nil, List.nil_append]
    calc (r.stream.readByte8 n).2.position
        = r.stream.position + (r.stream.readByte8 n).1.length := hoctets
      _ = (q + (r.pending ++ (r.stream.readByte8 n).1).length : ℕ) := by
          rw [h.position, List.length_append]
          omega
  · have hsplit : content.drop (q + r.pending.length) = (r.stream.readByte8 n).1 ++
        content.drop (q + r.pending.length + (r.stream.readByte8 n).1.length) := by
      rw [Stream.readByte8_fst, h.remaining]
      rw [← List.drop_drop (j := q + r.pending.length)]
      exact eq_take_append_drop n _
    calc content.drop q = r.pending ++ content.drop (q + r.pending.length) := h.pending
      _ = (r.pending ++ (r.stream.readByte8 n).1) ++
          content.drop (q + (r.pending ++ (r.stream.readByte8 n).1).length) := by
          rw [List.length_append, ← Nat.add_assoc, List.append_assoc, ← hsplit]

end Placed

structure Fetches (content : List UInt8) (q : ℕ) (r : FileReader) (out : Decoded)
    (fetched : Fetched) : Prop where
  item : ∀ c format rest, out = .item c format rest → c ≠ eof → ∃ previous r' q',
    fetched = .char c previous r' ∧ Placed content q' r' ∧ content.drop q' = rest ∧
      r'.stream.format = format ∧ r'.stream.lineEnding = r.stream.lineEnding ∧
      (Settled r.stream.format → Placed content q { r' with pos := previous })
  stop : ∀ e, out = .stop e → fetched = .unwind e
  more : ∀ format rest, out = .more format rest → fetched = .eof

theorem fetches_stop {content : List UInt8} {q : ℕ} {r : FileReader} (octets : List UInt8) :
    Fetches content q r (.stop octets) (.unwind octets) where
  item _ _ _ h := by cases h
  stop _ h := by
    cases h
    rfl
  more _ _ h := by cases h

theorem fetches_more {content : List UInt8} {q : ℕ} {r : FileReader} (format : ExternalFormat)
    (rest : List UInt8) : Fetches content q r (.more format rest) .eof where
  item _ _ _ h := by cases h
  stop _ h := by cases h
  more _ _ _ := rfl

/-- The buffer does not matter: a fetch finds what the decoder finds in the rest of the file. -/
theorem fetchChar_spec (hd : Decisive handler) {seekable : Bool} {minNeeded n q : ℕ}
    (hneeded : 0 < neededBytes seekable minNeeded) {r : FileReader} (h : Placed content q r)
    (hn : r.stream.remaining.length < n) :
    Fetches content q r (decoder handler r.stream.format (content.drop q))
      (fetchChar handler seekable minNeeded n r) := by
  have hlaw := decoder_lawful hd
  induction n generalizing q r with
  | zero => omega
  | succ n ih =>
    rw [fetchChar, h.drop_eq]
    cases hdec : decoder handler r.stream.format r.pending with
    | stop e =>
      rw [hlaw.stop_append hdec r.stream.remaining]
      exact fetches_stop e
    | item c format rest =>
      have hitem := hlaw.item_append hdec r.stream.remaining
      refine ⟨?_, ?_, ?_⟩
      · intro c' format' rest' hout hc
        cases hitem.symm.trans hout
        obtain ⟨-, k, hk⟩ := hlaw.item_length hdec
        obtain ⟨hplaced, hpending⟩ :=
          h.decoded (hlaw.item_unit hdec) hk (hlaw.item_rest hdec)
        refine ⟨r.pos, r.decoded format rest, _, if_neg hc, hplaced, ?_, rfl, rfl, ?_⟩
        · rw [hplaced.drop_eq, hpending]
          rfl
        · intro hsettled
          obtain rfl := settled_item hd hsettled hdec
          exact ⟨h.content_eq, h.stack, h.position, h.pending, h.unit, h.inside⟩
      · intro e hout
        cases hitem.symm.trans hout
      · intro format' rest' hout
        cases hitem.symm.trans hout
    | more format rest =>
      have hmore := hlaw.more_append hdec r.stream.remaining
      obtain ⟨-, k, hk⟩ := hlaw.more_length hdec
      obtain ⟨hplaced, hpending⟩ := h.decoded (hlaw.more_unit hdec) hk (hlaw.more_rest hdec)
      have hread := Stream.readByte8_fst (r.decoded format rest).stream (neededBytes seekable minNeeded)
      have hremaining : (r.decoded format rest).stream.remaining = r.stream.remaining := rfl
      rw [hremaining] at hread
      dsimp only
      by_cases hnil : ((r.decoded format rest).stream.readByte8
          (neededBytes seekable minNeeded)).1 = []
      · rw [if_pos hnil]
        have hend : r.stream.remaining = [] := by
          rw [hread, List.take_eq_nil_iff] at hnil
          exact hnil.resolve_left (by omega)
        have hout : decoder handler r.stream.format (r.pending ++ r.stream.remaining) =
            .more format rest := by
          rw [hend, List.append_nil]
          exact hdec
        rw [hout]
        exact fetches_more format rest
      · rw [if_neg hnil]
        obtain ⟨hplaced', hpending'⟩ := hplaced.refill (neededBytes seekable minNeeded)
        have hlt : ((r.decoded format rest).stream.readByte8
            (neededBytes seekable minNeeded)).2.remaining.length < n := by
          have hpos : 0 ≤ (r.decoded format rest).stream.position :=
            hplaced.position ▸ Int.natCast_nonneg _
          have hdrop := congrArg List.length (Stream.remaining_skip hpos
            (neededBytes seekable minNeeded))
          rw [hremaining, List.length_drop] at hdrop
          have hne : r.stream.remaining.length ≠ 0 := by
            intro h0
            rw [hread, List.eq_nil_of_length_eq_zero h0, List.take_nil] at hnil
            exact hnil rfl
          exact Nat.lt_of_le_of_lt (Nat.le_of_eq hdrop) (by omega)
        have hrest := ih hplaced' hlt
        have hsame : decoder handler r.stream.format (r.pending ++ r.stream.remaining) =
            decoder handler format (content.drop (q + k * byteSize r.stream.format)) := by
          rw [hmore, hplaced.drop_eq, hpending, hremaining]
        rw [hsame]
        refine ⟨?_, hrest.stop, hrest.more⟩
        intro c format' rest' hout hc
        obtain ⟨previous, r', q', hfetch, hp, hdrop, hformat, hline, hback⟩ :=
          hrest.item c format' rest' hout hc
        refine ⟨previous, r', q', hfetch, hp, hdrop, hformat, hline, fun hsettled => ?_⟩
        -- a settled decoder has kept everything
        obtain ⟨rfl, rfl⟩ := settled_more hd hsettled hdec
        have hk0 : k * byteSize r.stream.format = 0 := by omega
        rw [hk0] at hback
        exact hback hsettled

def crlfVector : List ℤ → List ℤ
  | [] => []
  | [c] => if c = charReturn then [] else [c]
  | c :: c' :: cs =>
    if c = charReturn then
      if c' = charLinefeed then charNewline :: crlfVector cs
      else charReturn :: crlfVector (c' :: cs)
    else c :: crlfVector (c' :: cs)

def vectorText (lineEnding : LineEnding) (t : Text ℤ (List UInt8)) : Text ℤ (List UInt8) :=
  match lineEnding with
  | .lf => t
  | .cr => ⟨t.items.map fun c => if c = charReturn then charNewline else c, t.ending⟩
  | .crlf => ⟨crlfVector t.items, t.ending⟩

section
variable {t : Text ℤ (List UInt8)} {c c' : ℤ}

theorem vectorText_nil (lineEnding : LineEnding) (e : Option (List UInt8)) :
    vectorText lineEnding ⟨[], e⟩ = ⟨[], e⟩ := by
  cases lineEnding <;> rfl

theorem vectorText_other {lineEnding : LineEnding} (hc : c ≠ charReturn) :
    vectorText lineEnding (t.cons c) = (vectorText lineEnding t).cons c := by
  rcases t with ⟨- | ⟨c', cs⟩, e⟩
  · cases lineEnding <;> simp [vectorText, Text.cons, crlfVector, hc]
  · cases lineEnding <;> simp [vectorText, Text.cons, crlfVector, hc]

theorem vectorText_cr :
    vectorText .cr (t.cons charReturn) = (vectorText .cr t).cons charNewline := rfl

theorem vectorText_crlf :
    vectorText .crlf ((t.cons charLinefeed).cons charReturn) =
      (vectorText .crlf t).cons charNewline := by
  simp [vectorText, Text.cons, crlfVector]

theorem vectorText_return (hc : c ≠ charLinefeed) :
    vectorText .crlf ((t.cons c).cons charReturn) =
      (vectorText .crlf (t.cons c)).cons charReturn := by
  simp [vectorText, Text.cons, crlfVector, hc]

theorem vectorText_last (e : Option (List UInt8)) :
    vectorText .crlf ((⟨[], e⟩ : Text ℤ (List UInt8)).cons charReturn) = ⟨[], e⟩ := by
  simp [vectorText, Text.cons, crlfVector]

end

def textAt (handler : Handler) (content : List UInt8) (q : ℕ) (r : FileReader) :
    Text ℤ (List UInt8) :=
  text (decoder handler) r.stream.format (content.drop q)

theorem fetchChar_text (hd : Decisive handler) {seekable : Bool} {minNeeded q : ℕ}
    (hneeded : 0 < neededBytes seekable minNeeded) {r : FileReader} (h : Placed content q r)
    (heof : eof ∉ (textAt handler content q r).items) :
    (∃ c previous r' q',
      fetchChar handler seekable minNeeded (r.stream.remaining.length + 1) r =
        .char c previous r' ∧ Placed content q' r' ∧
      r'.stream.lineEnding = r.stream.lineEnding ∧ Settled r'.stream.format ∧
      textAt handler content q r = (textAt handler content q' r').cons c ∧
      (Settled r.stream.format → r'.stream.format = r.stream.format ∧
        Placed content q { r' with pos := previous })) ∨
    (fetchChar handler seekable minNeeded (r.stream.remaining.length + 1) r = .eof ∧
      textAt handler content q r = ⟨[], none⟩) ∨
    ∃ e, fetchChar handler seekable minNeeded (r.stream.remaining.length + 1) r = .unwind e ∧
      textAt handler content q r = ⟨[], some e⟩ := by
  have hfetch := fetchChar_spec hd hneeded h (Nat.lt_succ_self _)
  cases hdec : decoder handler r.stream.format (content.drop q) with
  | more format rest =>
    exact .inr (.inl ⟨hfetch.more format rest hdec, text_of_more hdec⟩)
  | stop e => exact .inr (.inr ⟨e, hfetch.stop e hdec, text_of_stop hdec⟩)
  | item c format rest =>
    have htext := text_of_item (decoder_lawful hd) hdec
    have hc : c ≠ eof := by
      rintro rfl
      rw [textAt, htext] at heof
      exact heof List.mem_cons_self
    obtain ⟨previous, r', q', hchar, hp, hdrop, hformat, hline, hback⟩ :=
      hfetch.item c format rest hdec hc
    refine .inl ⟨c, previous, r', q', hchar, hp, hline, ?_, ?_, ?_⟩
    · rw [hformat]
      exact settled_after hd hc hdec
    · rw [textAt, htext, textAt, hdrop, hformat]
    · intro hsettled
      exact ⟨hformat.trans (settled_item hd hsettled hdec), hback hsettled⟩

def Delivers (handler : Handler) (content : List UInt8) (q : ℕ) (r : FileReader)
    (decoding : Decoding) : Prop :=
  (∃ c r' q', decoding = .char c r' ∧ Placed content q' r' ∧
    r'.stream.lineEnding = r.stream.lineEnding ∧
    eof ∉ (textAt handler content q' r').items ∧
    vectorText r.stream.lineEnding (textAt handler content q r) =
      (vectorText r.stream.lineEnding (textAt handler content q' r')).cons c) ∨
  (decoding = .eof ∧
    vectorText r.stream.lineEnding (textAt handler content q r) = ⟨[], none⟩) ∨
  ∃ e, decoding = .unwind e ∧
    vectorText r.stream.lineEnding (textAt handler content q r) = ⟨[], some e⟩

theorem decodeCharFromBuffer_spec (hd : Decisive handler) {seekable : Bool} {minNeeded q : ℕ}
    (hneeded : 0 < neededBytes seekable minNeeded) {r : FileReader} (h : Placed content q r)
    (heof : eof ∉ (textAt handler content q r).items) :
    Delivers handler content q r (decodeCharFromBuffer handler seekable minNeeded r) := by
  rw [decodeCharFromBuffer]
  rcases fetchChar_text hd hneeded h heof with
    ⟨c, previous, r', q', hfetch, hp, hline, hsettled, htext, -⟩ | ⟨hfetch, htext⟩ |
      ⟨e, hfetch, htext⟩
  · rw [hfetch]
    have heof' : eof ∉ (textAt handler content q' r').items := by
      rw [htext] at heof
      exact fun hmem => heof (List.mem_cons_of_mem _ hmem)
    by_cases hc : c = charReturn
    · subst hc
      simp only [if_true, hline]
      cases hl : r.stream.lineEnding with
      | lf => exact .inl ⟨_, r', q', rfl, hp, hline, heof', by rw [htext, hl]; rfl⟩
      | cr => exact .inl ⟨_, r', q', rfl, hp, hline, heof', by rw [htext, hl, vectorText_cr]⟩
      | crlf =>
        rcases fetchChar_text hd hneeded hp heof' with
          ⟨c', previous', r'', q'', hfetch', hp', hline', hsettled', htext', hback⟩ |
            ⟨hfetch', htext'⟩ | ⟨e, hfetch', htext'⟩
        · simp only [hfetch']
          by_cases hlf : c' = charLinefeed
          · subst hlf
            have heof'' : eof ∉ (textAt handler content q'' r'').items := by
              rw [htext'] at heof'
              exact fun hmem => heof' (List.mem_cons_of_mem _ hmem)
            rw [if_pos rfl]
            refine .inl ⟨_, r'', q'', rfl, hp', hline'.trans hline, heof'', ?_⟩
            rw [htext, htext', hl, vectorText_crlf]
          · -- the character is put back and decoded again in the same format
            obtain ⟨hformat, hp''⟩ := hback hsettled
            have hagain : textAt handler content q' { r'' with pos := previous' } =
                textAt handler content q' r' := by
              rw [textAt, textAt, ← hformat]
            rw [if_neg hlf]
            refine .inl ⟨_, _, q', rfl, hp'', hline'.trans hline, ?_, ?_⟩
            · rw [hagain]
              exact heof'
            · rw [htext, hagain, htext', hl, vectorText_return hlf]
        · simp only [hfetch']
          exact .inr (.inl ⟨rfl, by rw [htext, htext', hl, vectorText_last]⟩)
        · simp only [hfetch']
          exact .inr (.inr ⟨e, rfl, by rw [htext, htext', hl, vectorText_last]⟩)
    · simp only [if_neg hc]
      exact .inl ⟨c, r', q', rfl, hp, hline, heof', by rw [htext, vectorText_other hc]⟩
  · rw [hfetch]
    exact .inr (.inl ⟨rfl, by rw [htext, vectorText_nil]⟩)
  · rw [hfetch]
    exact .inr (.inr ⟨e, rfl, by rw [htext, vectorText_nil]⟩)

def Leaves (handler : Handler) (content : List UInt8) (lineEnding : LineEnding)
    (rest : Text ℤ (List UInt8)) (r : FileReader) : Prop :=
  ∃ q, Placed content q r ∧ r.stream.lineEnding = lineEnding ∧
    eof ∉ (textAt handler content q r).items ∧
    vectorText lineEnding (textAt handler content q r) = rest

theorem readVectorLoop_spec (hd : Decisive handler) (seekable : Bool) {lineEnding : LineEnding}
    {t : Text ℤ (List UInt8)} {n : ℕ} {r : FileReader}
    (h : Leaves handler content lineEnding t r) :
    (⟨(readVectorLoop handler seekable n r).items,
      (readVectorLoop handler seekable n r).ending⟩ : Text ℤ (List UInt8)) = t.take n ∧
    (n ≤ t.items.length → ∃ r', (readVectorLoop handler seekable n r).reader = some r' ∧
      Leaves handler content lineEnding ⟨t.items.drop n, t.ending⟩ r') ∧
    (t.items.length < n → (readVectorLoop handler seekable n r).reader = none) := by
  induction n generalizing r t with
  | zero =>
    refine ⟨t.take_zero.symm, fun _ => ⟨r, rfl, h⟩, fun hlt => absurd hlt (Nat.not_lt_zero _)⟩
  | succ n ih =>
    obtain ⟨q, hp, rfl, heof, rfl⟩ := h
    have hneeded : 0 < neededBytes seekable ((n + 1) * byteSize r.stream.format) := by
      have hpos := Nat.mul_pos (Nat.succ_pos n) (byteSize_pos r.stream.format)
      rw [neededBytes, vectorEncodingBufferSize]
      split_ifs
      · exact hpos
      · decide
    rw [readVectorLoop]
    rcases decodeCharFromBuffer_spec hd hneeded hp heof with
      ⟨c, r', q', hdecode, hp', hline, heof', htext⟩ | ⟨hdecode, htext⟩ | ⟨e, hdecode, htext⟩
    · obtain ⟨htake, hfull, hshort⟩ := ih ⟨q', hp', hline, heof', rfl⟩
      rw [hdecode, htext, Text.take_cons, ← htake]
      refine ⟨rfl, fun hle => ?_, fun hlt => ?_⟩
      · exact hfull (Nat.le_of_succ_le_succ hle)
      · exact hshort (Nat.lt_of_succ_lt_succ hlt)
    · rw [hdecode, htext, Text.take_nil]
      exact ⟨rfl, fun hle => absurd hle (Nat.not_succ_le_zero n), fun _ => rfl⟩
    · rw [hdecode, htext, Text.take_nil]
      exact ⟨rfl, fun hle => absurd hle (Nat.not_succ_le_zero n), fun _ => rfl⟩

theorem destroyReader_position {q : ℕ} {r : FileReader} (hp : Placed content q r) :
    (destroyReader true r).position = q := by
  obtain ⟨a, ha⟩ := hp.unit
  have hpos := byteSize_pos r.stream.format
  have hk : r.buffer.length - r.pos = r.pending.length := (List.length_drop).symm
  have hdiv : ((q + r.pending.length : ℕ) : ℤ) / (byteSize r.stream.format : ℕ) =
      (a + r.pending.length / byteSize r.stream.format : ℕ) := by
    rw [← Int.natCast_ediv, ha, Nat.mul_add_div hpos]
  rw [destroyReader, if_pos rfl, setFilePosition, filePosition, Stream.here]
  simp only [hp.stack, hp.position, hk, List.length_nil, Nat.cast_zero, sub_zero, hdiv]
  rw [ha]
  push_cast
  ring

theorem destroyReader_spec {lineEnding : LineEnding} {t : Text ℤ (List UInt8)} {r : FileReader}
    (h : Leaves handler content lineEnding t r) :
    Leaves handler content lineEnding t ⟨destroyReader true r, [], 0⟩ := by
  obtain ⟨q, hp, hline, heof, htext⟩ := h
  have hposition := destroyReader_position hp
  refine ⟨q, ⟨?_, rfl, ?_, ?_, hp.unit, Nat.le_refl 0⟩, hline, heof, htext⟩
  · exact hp.content_eq
  · exact hposition.trans (congrArg Nat.cast (Nat.add_zero q).symm)
  · rfl

def total : List ℕ → ℕ
  | [] => 0
  | n :: sizes => n + total sizes

theorem readChunks_spec (hd : Decisive handler) {lineEnding : LineEnding} {sizes : List ℕ}
    {s : Stream} {t : Text ℤ (List UInt8)} (h : Leaves handler content lineEnding t ⟨s, [], 0⟩) :
    readChunks handler true sizes s = t.take (total sizes) := by
  induction sizes generalizing s t with
  | nil => exact t.take_zero.symm
  | cons n sizes ih =>
    rw [readChunks, total, readVector]
    by_cases hn : n = 0
    · subst hn
      rw [if_pos rfl, Nat.zero_add, ← ih h]
      rfl
    · rw [if_neg hn]
      obtain ⟨htake, hfull, hshort⟩ := readVectorLoop_spec hd true (n := n) h
      by_cases hle : n ≤ t.items.length
      · obtain ⟨r', hr', hleaves⟩ := hfull hle
        rw [Text.take_add hle, ← ih (destroyReader_spec hleaves)]
        simp only [hr', Option.map_some, Option.elim_some]
        rw [Text.take, if_pos hle] at htake
        rw [(Text.mk.inj htake).1]
      · simp only [hshort (by omega), Option.map_none, Option.elim_none]
        rw [htake, Text.take_of_short (by omega), Text.take_of_short (by omega)]

def crlfText : List ℤ → List ℤ
  | [] => []
  | [c] => [c]
  | c :: c' :: cs =>
    if c = charReturn ∧ c' = charLinefeed then charNewline :: crlfText cs
    else c :: crlfText (c' :: cs)

def lineText (lineEnding : LineEnding) (t : Text ℤ (List UInt8)) : Text ℤ (List UInt8) :=
  match lineEnding with
  | .lf => t
  | .cr => ⟨t.items.map fun c => if c = charReturn then charNewline else c, t.ending⟩
  | .crlf => ⟨crlfText t.items, t.ending⟩

def ReturnsFollowed : List ℤ → Prop
  | [] => True
  | c :: cs => (c = charReturn → cs.head? = some charLinefeed ∨
      cs.head? = some charReturn ∧ cs.tail.head? = some charLinefeed) ∧ ReturnsFollowed cs

section
variable {c c' : ℤ} {cs : List ℤ} {unwound : Bool}

theorem crlfText_other (hc : c ≠ charReturn) : crlfText (c :: cs) = c :: crlfText cs := by
  cases cs with
  | nil => rfl
  | cons c' cs => rw [crlfText, if_neg (fun h => hc h.1)]

theorem crlfText_newline :
    crlfText (charReturn :: charLinefeed :: cs) = charNewline :: crlfText cs := by
  rw [crlfText, if_pos ⟨rfl, rfl⟩]

theorem crlfText_return (hc : c ≠ charLinefeed) :
    crlfText (charReturn :: c :: cs) = charReturn :: crlfText (c :: cs) := by
  rw [crlfText, if_neg (fun h => hc h.2)]

theorem crlfRead_other (hc : c ≠ charReturn) :
    crlfRead unwound (c :: cs) = c :: crlfRead unwound cs := by
  cases cs with
  | nil => exact if_neg (fun h => hc h.1)
  | cons c' cs => rw [crlfRead, if_neg hc]

theorem crlfVector_other (hc : c ≠ charReturn) : crlfVector (c :: cs) = c :: crlfVector cs := by
  cases cs with
  | nil => exact if_neg hc
  | cons c' cs => rw [crlfVector, if_neg hc]

theorem linefeed_ne_return : charLinefeed ≠ charReturn := by decide

theorem crlfText_length_cons (c : ℤ) (cs : List ℤ) :
    (crlfText cs).length ≤ (crlfText (c :: cs)).length := by
  by_cases hc : c = charReturn
  · subst hc
    cases cs with
    | nil => exact Nat.zero_le _
    | cons c' cs =>
      by_cases hlf : c' = charLinefeed
      · subst hlf
        rw [crlfText_newline, crlfText_other linefeed_ne_return]
        exact Nat.le_refl _
      · rw [crlfText_return hlf]
        exact Nat.le_succ _
  · rw [crlfText_other hc]
    exact Nat.le_succ _

theorem crlfRead_length (unwound : Bool) (l : List ℤ) :
    (crlfRead unwound l).length ≤ (crlfText l).length := by
  induction l using List.twoStepInduction with
  | nil => exact Nat.le_refl 0
  | singleton c =>
    rw [crlfRead, crlfText]
    split_ifs <;> simp
  | cons_cons c c' cs ih ih' =>
    by_cases hc : c = charReturn
    · subst hc
      rw [crlfRead, if_pos rfl]
      by_cases hlf : c' = charLinefeed
      · subst hlf
        rw [crlfText_newline]
        exact Nat.succ_le_succ ih
      · rw [crlfText_return hlf]
        exact Nat.succ_le_succ (Nat.le_trans ih (crlfText_length_cons c' cs))
    · rw [crlfRead_other hc, crlfText_other hc]
      exact Nat.succ_le_succ (ih' c')

theorem crlfRead_shorter (hc : c ≠ charReturn) (cs : List ℤ) :
    crlfRead unwound cs ≠ crlfText (c :: cs) := by
  intro h
  have hlen := crlfRead_length unwound cs
  rw [h, crlfText_other hc, List.length_cons] at hlen
  omega

theorem crlf_agree_return {cs : List ℤ} (hc : c ≠ charLinefeed)
    (ih : crlfRead unwound cs = crlfText cs ∧ crlfVector cs = crlfText cs ↔ ReturnsFollowed cs) :
    crlfRead unwound cs = crlfText (c :: cs) ∧ crlfVector (c :: cs) = crlfText (c :: cs) ↔
      ReturnsFollowed (charReturn :: c :: cs) := by
  by_cases hcr : c = charReturn
  · subst hcr
    cases cs with
    | nil =>
      refine ⟨fun h => absurd h.1 (List.cons_ne_nil _ _).symm, fun h => ?_⟩
      rcases h.1 rfl with h | ⟨-, h⟩
      · cases h
      · cases h
    | cons d cs =>
      by_cases hlf : d = charLinefeed
      · subst hlf
        have hcond : ReturnsFollowed (charReturn :: charReturn :: charLinefeed :: cs) ↔
            ReturnsFollowed (charLinefeed :: cs) :=
          ⟨fun h => h.2.2, fun h => ⟨fun _ => .inr ⟨rfl, rfl⟩, fun _ => .inl rfl, h⟩⟩
        rw [crlfRead_other linefeed_ne_return, crlfVector_other linefeed_ne_return,
          crlfText_other linefeed_ne_return] at ih
        rw [hcond, ← ih, crlfRead_other linefeed_ne_return, crlfText_newline, crlfVector,
          if_pos rfl, if_pos rfl]
        rfl
      · refine ⟨fun h => ?_, fun h => ?_⟩
        · have hlen := crlfRead_length unwound (d :: cs)
          rw [h.1, crlfText_return hlf, List.length_cons] at hlen
          omega
        · rcases h.1 rfl with h | ⟨-, h⟩
          · exact absurd (Option.some.inj h) (by decide)
          · exact absurd (Option.some.inj h) hlf
  · refine ⟨fun h => absurd h.1 (crlfRead_shorter hcr cs), fun h => ?_⟩
    rcases h.1 rfl with h | ⟨h, -⟩
    · exact absurd (Option.some.inj h) hc
    · exact absurd (Option.some.inj h) hcr

theorem crlf_agree_iff (unwound : Bool) (l : List ℤ) :
    crlfRead unwound l = crlfText l ∧ crlfVector l = crlfText l ↔ ReturnsFollowed l := by
  induction l using List.twoStepInduction with
  | nil => exact ⟨fun _ => trivial, fun _ => ⟨rfl, rfl⟩⟩
  | singleton c =>
    by_cases hc : c = charReturn
    · subst hc
      refine ⟨fun h => absurd h.2 (by decide), fun h => ?_⟩
      rcases h.1 rfl with h | h
      · cases h
      · cases h.1
    · rw [crlfRead_other hc, crlfVector_other hc]
      exact ⟨fun _ => ⟨fun h => absurd h hc, trivial⟩, fun _ => ⟨rfl, rfl⟩⟩
  | cons_cons c c' cs ih ih' =>
    by_cases hc : c = charReturn
    · subst hc
      by_cases hlf : c' = charLinefeed
      · subst hlf
        have hcond : ReturnsFollowed (charReturn :: charLinefeed :: cs) ↔ ReturnsFollowed cs :=
          ⟨fun h => h.2.2, fun h => ⟨fun _ => .inl rfl, fun h' => absurd h' linefeed_ne_return, h⟩⟩
        rw [hcond, ← ih, crlfRead, if_pos rfl, if_pos rfl, crlfVector, if_pos rfl, if_pos rfl,
          crlfText_newline]
        simp only [List.cons.injEq, true_and]
      · rw [← crlf_agree_return hlf ih, crlfRead, if_pos rfl, if_neg hlf, crlfVector, if_pos rfl,
          if_neg hlf, crlfText_return hlf]
        simp only [List.cons.injEq, true_and]
    · have hcond : ReturnsFollowed (c :: c' :: cs) ↔ ReturnsFollowed (c' :: cs) :=
        ⟨fun h => h.2, fun h => ⟨fun h' => absurd h' hc, h⟩⟩
      rw [hcond, ← ih' c', crlfRead_other hc, crlfVector_other hc, crlfText_other hc]
      simp only [List.cons.injEq, true_and]

end

/-- Both paths deliver the characters of the file with the line endings of the stream, whatever
the sizes of the chunks. -/
def PathsAgree (handler : Handler) (format : ExternalFormat) (lineEnding : LineEnding)
    (content : List UInt8) : Prop :=
  readAll handler (openInput .file format lineEnding content) =
      lineText lineEnding (text (decoder handler) format content) ∧
    ∀ sizes, readChunks handler true sizes (openInput .file format lineEnding content) =
      (lineText lineEnding (text (decoder handler) format content)).take (total sizes)

theorem take_ext_iff {t t' : Text ℤ (List UInt8)} :
    (∀ sizes, t.take (total sizes) = t'.take (total sizes)) ↔ t = t' := by
  refine ⟨fun h => ?_, fun h _ => by rw [h]⟩
  have hlarge := h [t.items.length + t'.items.length + 1]
  simp only [total, Nat.add_zero] at hlarge
  rwa [Text.take_of_short (by omega), Text.take_of_short (by omega)] at hlarge

theorem text_paths_iff (lineEnding : LineEnding) (t : Text ℤ (List UInt8)) :
    readCharText lineEnding t = lineText lineEnding t ∧
      vectorText lineEnding t = lineText lineEnding t ↔
      (lineEnding = .crlf → ReturnsFollowed t.items) := by
  cases lineEnding with
  | lf | cr => exact ⟨fun _ h => absurd h (by decide), fun _ => ⟨rfl, rfl⟩⟩
  | crlf =>
    simp only [readCharText, vectorText, lineText, Text.mk.injEq, and_true, true_imp_iff,
      crlf_agree_iff]

/-- The paths agree exactly when, in CRLF mode, a newline follows every return or begins with
it. The text of the file does not contain EOF as a character, and the handler does not skip
octets. -/
theorem paths_agree_iff (handler : Handler) (hd : Decisive handler) (format : ExternalFormat)
    (lineEnding : LineEnding) (content : List UInt8)
    (heof : eof ∉ (text (decoder handler) format content).items) :
    PathsAgree handler format lineEnding content ↔
      (lineEnding = .crlf → ReturnsFollowed (text (decoder handler) format content).items) := by
  have hleaves : Leaves handler content lineEnding
      (vectorText lineEnding (text (decoder handler) format content))
      ⟨openInput .file format lineEnding content, [], 0⟩ :=
    ⟨0, ⟨rfl, rfl, rfl, rfl, Nat.dvd_zero _, Nat.le_refl 0⟩, rfl, heof, rfl⟩
  rw [PathsAgree, readAll_openInput hd .file format lineEnding content heof]
  simp only [readChunks_spec hd hleaves, take_ext_iff]
  exact text_paths_iff lineEnding _

/-- Two lines in UTF-8. -/
theorem paths_agree_lines :
    PathsAgree unwinding .utf8 .crlf [0x61, 13, 10, 0xC3, 0xA9, 13, 10] ↔
      (LineEnding.crlf = .crlf → ReturnsFollowed
        (text (decoder unwinding) .utf8 [0x61, 13, 10, 0xC3, 0xA9, 13, 10]).items) :=
  paths_agree_iff unwinding unwinding_decisive .utf8 .crlf _ (by decide +kernel)

/-- read-char loses the letter after a return, and read-sequence a return at the end. -/
theorem characters_lost :
    readAll unwinding (openInput .file .latin1 .crlf [13, 0x41, 0x42]) = ⟨[13, 0x42], none⟩ ∧
      readChunks unwinding true [8] (openInput .file .latin1 .crlf [13, 0x41, 0x42]) =
        ⟨[13, 0x41, 0x42], none⟩ ∧
      readAll unwinding (openInput .file .latin1 .crlf [0x41, 13]) = ⟨[0x41, 13], none⟩ ∧
      readChunks unwinding true [8] (openInput .file .latin1 .crlf [0x41, 13]) =
        ⟨[0x41], none⟩ := by
  decide +kernel

end CharacterAgreement
