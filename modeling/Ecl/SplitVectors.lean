import Ecl.CharacterAgreement
import Ecl.SplitReading

/-! A vector of characters is read from a buffer, and the buffer makes up for short calls. -/
namespace SplitVectors

open ExternalFormats IncrementalDecoding CharacterStreams DecoderLaws CharacterReading
  CharacterVectors CharacterAgreement SplitTransfers

variable {system : System} {handler : Handler} {content : List UInt8}

structure Stands (content : List UInt8) (q : ℕ) (r : FileReader) : Prop where
  placed : Placed content q r
  within : q + r.pending.length ≤ content.length

def Moved (s : Stream) (format : ExternalFormat) (s' : Stream) : Prop :=
  ∃ position, s' = { s with format := format, position := position, byteStack := [] }

theorem Moved.trans {s s' s'' : Stream} {format format' : ExternalFormat}
    (h : Moved s format s') (h' : Moved s' format' s'') : Moved s format' s'' := by
  obtain ⟨p, rfl⟩ := h
  obtain ⟨p', rfl⟩ := h'
  exact ⟨p', rfl⟩

namespace Stands

variable {q : ℕ} {r : FileReader}

theorem moved (h : Stands content q r) : Moved r.stream r.stream.format r.stream :=
  ⟨r.stream.position, by
    have hstack := h.placed.stack
    cases hs : r.stream with
    | mk kind content position byteStack format lineEnding lastChar =>
      rw [hs] at hstack
      cases hstack
      rfl⟩

theorem decoded (h : Stands content q r) {format : ExternalFormat} {rest : List UInt8} {k : ℕ}
    (hunit : byteSize format = byteSize r.stream.format)
    (hlen : r.pending.length = k * byteSize r.stream.format + rest.length)
    (hrest : r.pending.drop (r.pending.length - rest.length) = rest) :
    Stands content (q + k * byteSize r.stream.format) (r.decoded format rest) ∧
      (r.decoded format rest).pending = rest := by
  obtain ⟨hplaced, hpending⟩ := h.placed.decoded hunit hlen hrest
  have hwithin := h.within
  exact ⟨⟨hplaced, by rw [hpending]; omega⟩, hpending⟩

theorem refill (h : Stands content q r) (n : ℕ) :
    Stands content q (r.refill (r.stream.readByte8 n).1 (r.stream.readByte8 n).2) ∧
      (r.refill (r.stream.readByte8 n).1 (r.stream.readByte8 n).2).pending =
        r.pending ++ (r.stream.readByte8 n).1 := by
  obtain ⟨hplaced, hpending⟩ := h.placed.refill n
  refine ⟨⟨hplaced, ?_⟩, hpending⟩
  have hread : (r.stream.readByte8 n).1.length ≤ content.length - (q + r.pending.length) := by
    rw [Stream.readByte8_fst, h.placed.remaining, List.length_take, List.length_drop]
    omega
  have hwithin := h.within
  rw [hpending, List.length_append]
  omega

theorem read (h : Stands content q r) (k : Calls) {n : ℕ} (hn : 0 < n) :
    ∃ m, 0 < m ∧ m ≤ n ∧ (readByte8 system k r.stream n).1 = r.stream.readByte8 m := by
  refine ⟨granted system k.made n, granted_pos system k.made hn, granted_le system k.made n, ?_⟩
  have hstack := h.placed.stack
  have hle : ¬ n ≤ r.stream.byteStack.length := by
    rw [hstack, List.length_nil]
    omega
  rw [readByte8, if_neg hle]
  simp only [hstack, List.length_nil, Nat.sub_zero, Nat.zero_add]

end Stands

structure Finds (content : List UInt8) (q : ℕ) (r : FileReader) (out : Decoded)
    (fetched : Fetched) : Prop where
  item : ∀ c format rest, out = .item c format rest → c ≠ eof → ∃ previous r',
    fetched = .char c previous r' ∧ Stands content (content.length - rest.length) r' ∧
      content.drop (content.length - rest.length) = rest ∧ Moved r.stream format r'.stream ∧
      (Settled r.stream.format → Stands content q { r' with pos := previous })
  stop : ∀ e, out = .stop e → fetched = .unwind e
  more : ∀ format rest, out = .more format rest → fetched = .eof

theorem finds_stop {q : ℕ} {r : FileReader} (octets : List UInt8) :
    Finds content q r (.stop octets) (.unwind octets) where
  item _ _ _ h := by cases h
  stop _ h := by
    cases h
    rfl
  more _ _ h := by cases h

theorem finds_more {q : ℕ} {r : FileReader} (format : ExternalFormat) (rest : List UInt8) :
    Finds content q r (.more format rest) .eof where
  item _ _ _ h := by cases h
  stop _ h := by cases h
  more _ _ _ := rfl

theorem stands_rest {q : ℕ} {r : FileReader} (h : Stands content q r) {rest : List UInt8}
    (hdrop : content.drop q = rest) : q = content.length - rest.length := by
  have hwithin := h.within
  have hlen := congrArg List.length hdrop
  rw [List.length_drop] at hlen
  omega

/-- Neither the buffer nor the sizes of the transfers matter: a fetch finds what the decoder
finds in the rest of the file. -/
theorem splitFetchChar_spec (hd : Decisive handler) {seekable : Bool} {minNeeded n q : ℕ}
    (hneeded : 0 < neededBytes seekable minNeeded) {k : Calls} {r : FileReader}
    (h : Stands content q r) (hn : r.stream.remaining.length < n) :
    Finds content q r (decoder handler r.stream.format (content.drop q))
      (splitFetchChar system handler seekable minNeeded n k r).1 := by
  have hlaw := decoder_lawful hd
  induction n generalizing q k r with
  | zero => omega
  | succ n ih =>
    rw [splitFetchChar, h.placed.drop_eq]
    cases hdec : decoder handler r.stream.format r.pending with
    | stop e =>
      rw [hlaw.stop_append hdec r.stream.remaining]
      exact finds_stop e
    | item c format rest =>
      have hitem := hlaw.item_append hdec r.stream.remaining
      refine ⟨?_, ?_, ?_⟩
      · intro c' format' rest' hout hc
        cases hitem.symm.trans hout
        obtain ⟨-, j, hj⟩ := hlaw.item_length hdec
        obtain ⟨hstands, hpending⟩ := h.decoded (hlaw.item_unit hdec) hj (hlaw.item_rest hdec)
        have hdrop : content.drop (q + j.succ * byteSize r.stream.format) =
            rest ++ r.stream.remaining := by
          rw [hstands.placed.drop_eq, hpending]
          rfl
        have hq := stands_rest hstands hdrop
        rw [hq] at hstands hdrop
        refine ⟨r.pos, r.decoded format rest, ?_, hstands, hdrop, ?_, ?_⟩
        · simp only [if_neg hc]
        · obtain ⟨position, hmoved⟩ := h.moved
          exact ⟨position, by rw [FileReader.decoded, hmoved]⟩
        · intro hsettled
          obtain rfl := settled_item hd hsettled hdec
          exact ⟨⟨h.placed.content_eq, h.placed.stack, h.placed.position, h.placed.pending,
            h.placed.unit, h.placed.inside⟩, h.within⟩
      · intro e hout
        cases hitem.symm.trans hout
      · intro format' rest' hout
        cases hitem.symm.trans hout
    | more format rest =>
      have hmore := hlaw.more_append hdec r.stream.remaining
      obtain ⟨-, j, hj⟩ := hlaw.more_length hdec
      obtain ⟨hstands, hpending⟩ := h.decoded (hlaw.more_unit hdec) hj (hlaw.more_rest hdec)
      obtain ⟨m, hm, -, hcall⟩ := @Stands.read system content _ _ hstands k _ hneeded
      have hread := Stream.readByte8_fst (r.decoded format rest).stream m
      have hremaining : (r.decoded format rest).stream.remaining = r.stream.remaining := rfl
      rw [hremaining] at hread
      simp only [hcall]
      by_cases hnil : ((r.decoded format rest).stream.readByte8 m).1 = []
      · rw [if_pos hnil]
        have hend : r.stream.remaining = [] := by
          rw [hread, List.take_eq_nil_iff] at hnil
          exact hnil.resolve_left (by omega)
        have hout : decoder handler r.stream.format (r.pending ++ r.stream.remaining) =
            .more format rest := by
          rw [hend, List.append_nil]
          exact hdec
        rw [hout]
        exact finds_more format rest
      · rw [if_neg hnil]
        obtain ⟨hstands', hpending'⟩ := hstands.refill m
        have hlt : ((r.decoded format rest).stream.readByte8 m).2.remaining.length < n := by
          have hpos : 0 ≤ (r.decoded format rest).stream.position :=
            hstands.placed.position ▸ Int.natCast_nonneg _
          have hdrop := congrArg List.length (Stream.remaining_skip hpos m)
          rw [hremaining, List.length_drop] at hdrop
          have hne : r.stream.remaining.length ≠ 0 := by
            intro h0
            rw [hread, List.eq_nil_of_length_eq_zero h0, List.take_nil] at hnil
            exact hnil rfl
          exact Nat.lt_of_le_of_lt (Nat.le_of_eq hdrop) (by omega)
        have hrest := ih (k := (readByte8 system k (r.decoded format rest).stream
          (neededBytes seekable minNeeded)).2) hstands' hlt
        have hsame : decoder handler r.stream.format (r.pending ++ r.stream.remaining) =
            decoder handler format (content.drop (q + j * byteSize r.stream.format)) := by
          rw [hmore, hstands.placed.drop_eq, hpending, hremaining]
        rw [hsame]
        refine ⟨?_, hrest.stop, hrest.more⟩
        intro c format' rest' hout hc
        obtain ⟨previous, r', hfetch, hp, hdrop, hmoved, hback⟩ :=
          hrest.item c format' rest' hout hc
        refine ⟨previous, r', hfetch, hp, hdrop, ?_, fun hsettled => ?_⟩
        · obtain ⟨position, hstream⟩ := hmoved
          exact ⟨position, by rw [hstream]; rfl⟩
        · -- a settled decoder has kept everything
          obtain ⟨rfl, rfl⟩ := settled_more hd hsettled hdec
          have hj0 : j * byteSize r.stream.format = 0 := by omega
          rw [hj0] at hback
          exact hback hsettled

structure Twins (content : List UInt8) (q : ℕ) (r₁ r₂ : FileReader) : Prop where
  first : Stands content q r₁
  second : Stands content q r₂
  moved : Moved r₁.stream r₁.stream.format r₂.stream

theorem Moved.format {s s' : Stream} {format : ExternalFormat} (h : Moved s format s') :
    s'.format = format := by
  obtain ⟨position, rfl⟩ := h
  rfl

theorem Moved.lineEnding {s s' : Stream} {format : ExternalFormat} (h : Moved s format s') :
    s'.lineEnding = s.lineEnding := by
  obtain ⟨position, rfl⟩ := h
  rfl

theorem Moved.both {s₁ s₂ s₁' s₂' : Stream} {format : ExternalFormat}
    (h : Moved s₁ s₁.format s₂) (h₁ : Moved s₁ format s₁') (h₂ : Moved s₂ format s₂') :
    Moved s₁' s₁'.format s₂' := by
  obtain ⟨p, rfl⟩ := h
  obtain ⟨p₁, rfl⟩ := h₁
  obtain ⟨p₂, rfl⟩ := h₂
  exact ⟨p₂, rfl⟩

/-- The decoder does not find EOF as a character from octet q on. -/
def NoEof (handler : Handler) (content : List UInt8) (q : ℕ) (r : FileReader) : Prop :=
  eof ∉ (textAt handler content q r).items

section
variable {system₁ system₂ : System} {seekable : Bool} {minNeeded q : ℕ} {k₁ k₂ : Calls}
  {r₁ r₂ : FileReader}

inductive SameFetch (handler : Handler) (content : List UInt8) (q : ℕ) (r₁ r₂ : FileReader) :
    Fetched → Fetched → Prop
  | char (c : ℤ) (p₁ p₂ q' : ℕ) (r₁' r₂' : FileReader) : Twins content q' r₁' r₂' →
      NoEof handler content q' r₁' → r₁'.stream.lineEnding = r₁.stream.lineEnding →
      Settled r₁'.stream.format →
      (Settled r₁.stream.format → r₁'.stream.format = r₁.stream.format ∧
        Twins content q { r₁' with pos := p₁ } { r₂' with pos := p₂ }) →
      SameFetch handler content q r₁ r₂ (.char c p₁ r₁') (.char c p₂ r₂')
  | eof : SameFetch handler content q r₁ r₂ .eof .eof
  | unwind (octets : List UInt8) :
      SameFetch handler content q r₁ r₂ (.unwind octets) (.unwind octets)

theorem fetch_twins (hd : Decisive handler) (hneeded : 0 < neededBytes seekable minNeeded)
    (h : Twins content q r₁ r₂) (heof : NoEof handler content q r₁) :
    SameFetch handler content q r₁ r₂
      (splitFetchChar system₁ handler seekable minNeeded (r₁.stream.remaining.length + 1) k₁ r₁).1
      (splitFetchChar system₂ handler seekable minNeeded
        (r₂.stream.remaining.length + 1) k₂ r₂).1 := by
  have h₁ := (@splitFetchChar_spec system₁ _ _ hd) hneeded (k := k₁) h.first (Nat.lt_succ_self _)
  have h₂ := (@splitFetchChar_spec system₂ _ _ hd) hneeded (k := k₂) h.second (Nat.lt_succ_self _)
  rw [h.moved.format] at h₂
  cases hdec : decoder handler r₁.stream.format (content.drop q) with
  | more format rest =>
    rw [h₁.more format rest hdec, h₂.more format rest hdec]
    exact .eof
  | stop e =>
    rw [h₁.stop e hdec, h₂.stop e hdec]
    exact .unwind e
  | item c format rest =>
    have htext := text_of_item (decoder_lawful hd) hdec
    have hc : c ≠ eof := by
      rintro rfl
      rw [NoEof, textAt, htext] at heof
      exact heof List.mem_cons_self
    obtain ⟨p₁, r₁', hf₁, hs₁, hdrop, hm₁, hback₁⟩ := h₁.item c format rest hdec hc
    obtain ⟨p₂, r₂', hf₂, hs₂, -, hm₂, hback₂⟩ := h₂.item c format rest hdec hc
    have hboth := h.moved.both hm₁ hm₂
    rw [hf₁, hf₂]
    refine .char c p₁ p₂ _ r₁' r₂' ⟨hs₁, hs₂, hboth⟩ ?_ hm₁.lineEnding ?_ fun hsettled => ?_
    · intro hmem
      rw [NoEof, textAt, htext] at heof
      rw [textAt, hdrop, hm₁.format] at hmem
      exact heof (List.mem_cons_of_mem _ hmem)
    · rw [hm₁.format]
      exact settled_after hd hc hdec
    · refine ⟨hm₁.format.trans (settled_item hd hsettled hdec), hback₁ hsettled, hback₂ ?_, hboth⟩
      rw [h.moved.format]
      exact hsettled

inductive SameDecoding (handler : Handler) (content : List UInt8) (s : Stream) :
    Decoding → Decoding → Prop
  | char (c : ℤ) (q' : ℕ) (r₁' r₂' : FileReader) : Twins content q' r₁' r₂' →
      NoEof handler content q' r₁' → r₁'.stream.lineEnding = s.lineEnding →
      (Settled s.format → r₁'.stream.format = s.format) →
      SameDecoding handler content s (.char c r₁') (.char c r₂')
  | eof : SameDecoding handler content s .eof .eof
  | unwind (octets : List UInt8) :
      SameDecoding handler content s (.unwind octets) (.unwind octets)

theorem pairReturn_twins (hsettled : Settled r₁.stream.format) {f₁ f₂ : Fetched}
    (heof : NoEof handler content q r₁) (hf : SameFetch handler content q r₁ r₂ f₁ f₂) :
    SameDecoding handler content r₁.stream (pairReturn f₁) (pairReturn f₂) := by
  cases hf with
  | char c p₁ p₂ q' r₁' r₂' htwins heof' hline _ hback =>
    obtain ⟨hformat, hback⟩ := hback hsettled
    by_cases hc : c = charLinefeed
    · simp only [pairReturn, if_pos hc]
      exact .char _ q' _ _ htwins heof' hline fun _ => hformat
    · simp only [pairReturn, if_neg hc]
      refine .char _ q _ _ hback ?_ hline fun _ => hformat
      rw [NoEof, textAt] at heof ⊢
      rw [hformat]
      exact heof
  | eof => exact .eof
  | unwind octets => exact .unwind octets

theorem decode_twins (hd : Decisive handler) (hneeded : 0 < neededBytes seekable minNeeded)
    (h : Twins content q r₁ r₂) (heof : NoEof handler content q r₁) :
    SameDecoding handler content r₁.stream
      (splitDecodeChar system₁ handler seekable minNeeded k₁ r₁).1
      (splitDecodeChar system₂ handler seekable minNeeded k₂ r₂).1 := by
  have hfetch := @fetch_twins _ _ system₁ system₂ _ _ _ k₁ k₂ _ _ hd hneeded h heof
  rw [splitDecodeChar, splitDecodeChar]
  generalize splitFetchChar system₁ handler seekable minNeeded
    (r₁.stream.remaining.length + 1) k₁ r₁ = f₁ at hfetch ⊢
  generalize splitFetchChar system₂ handler seekable minNeeded
    (r₂.stream.remaining.length + 1) k₂ r₂ = f₂ at hfetch ⊢
  obtain ⟨f₁, k₁'⟩ := f₁
  obtain ⟨f₂, k₂'⟩ := f₂
  dsimp only at hfetch ⊢
  cases hfetch with
  | char c p₁ p₂ q' r₁' r₂' htwins heof' hline hsettled hback =>
    have hformat (hs : Settled r₁.stream.format) := (hback hs).1
    dsimp only
    by_cases hc : c = charReturn
    · rw [if_pos hc, if_pos hc, htwins.moved.lineEnding]
      cases hl : r₁'.stream.lineEnding with
      | lf | cr => exact .char _ q' _ _ htwins heof' hline hformat
      | crlf =>
        have hpair := pairReturn_twins hsettled heof' (@fetch_twins _ _ system₁ system₂ _ _ _
          k₁' k₂' _ _ hd hneeded htwins heof')
        generalize pairReturn (splitFetchChar system₁ handler seekable minNeeded
          (r₁'.stream.remaining.length + 1) k₁' r₁').1 = d₁ at hpair ⊢
        generalize pairReturn (splitFetchChar system₂ handler seekable minNeeded
          (r₂'.stream.remaining.length + 1) k₂' r₂').1 = d₂ at hpair ⊢
        cases hpair with
        | char c' q'' r₁'' r₂'' ht he hl' hf =>
          exact .char _ q'' _ _ ht he (hl'.trans hline)
            fun hs => (hf hsettled).trans (hformat hs)
        | eof => exact .eof
        | unwind octets => exact .unwind octets
    · rw [if_neg hc, if_neg hc]
      exact .char _ q' _ _ htwins heof' hline hformat
  | eof => exact .eof
  | unwind octets => exact .unwind octets

structure SameStored (handler : Handler) (content : List UInt8) (s₁ s₂ : Stored) : Prop where
  items : s₁.items = s₂.items
  ending : s₁.ending = s₂.ending
  reader : (s₁.reader = none ∧ s₂.reader = none) ∨ ∃ q r₁ r₂, s₁.reader = some r₁ ∧
    s₂.reader = some r₂ ∧ Twins content q r₁ r₂

theorem vectorLoop_twins (hd : Decisive handler) (n : ℕ) : ∀ {q : ℕ} {k₁ k₂ : Calls}
    {r₁ r₂ : FileReader}, Twins content q r₁ r₂ → NoEof handler content q r₁ →
      SameStored handler content (splitVectorLoop system₁ handler seekable n k₁ r₁).1
        (splitVectorLoop system₂ handler seekable n k₂ r₂).1 := by
  induction n with
  | zero => exact fun h _ => ⟨rfl, rfl, .inr ⟨_, _, _, rfl, rfl, h⟩⟩
  | succ n ih =>
    intro q k₁ k₂ r₁ r₂ h heof
    have hneeded : 0 < neededBytes seekable ((n + 1) * byteSize r₁.stream.format) := by
      have hpos := Nat.mul_pos (Nat.succ_pos n) (byteSize_pos r₁.stream.format)
      rw [neededBytes, vectorEncodingBufferSize]
      split_ifs
      · exact hpos
      · decide
    have hdecode := @decode_twins _ _ system₁ system₂ _ _ _ k₁ k₂ _ _ hd hneeded h heof
    rw [splitVectorLoop, splitVectorLoop, h.moved.format]
    generalize splitDecodeChar system₁ handler seekable
      ((n + 1) * byteSize r₁.stream.format) k₁ r₁ = d₁ at hdecode ⊢
    generalize splitDecodeChar system₂ handler seekable
      ((n + 1) * byteSize r₁.stream.format) k₂ r₂ = d₂ at hdecode ⊢
    obtain ⟨d₁, k₁'⟩ := d₁
    obtain ⟨d₂, k₂'⟩ := d₂
    dsimp only at hdecode ⊢
    cases hdecode with
    | char c q' r₁' r₂' htwins heof' _ _ =>
      obtain ⟨hitems, hending, hreader⟩ := @ih _ k₁' k₂' _ _ htwins heof'
      exact ⟨congrArg (c :: ·) hitems, hending, hreader⟩
    | eof | unwind octets => exact ⟨rfl, rfl, .inl ⟨rfl, rfl⟩⟩

end

theorem rest_lt (hd : Decisive handler) {format format' : ExternalFormat} (hs : Settled format)
    {b x r : List UInt8} {c : ℤ} (hmore : decoder handler format b = .more format b)
    (hitem : decoder handler format (b ++ x) = .item c format' r) : r.length < x.length := by
  rw [decoder_eq hd, marked_eq_step hs] at hmore hitem
  obtain ⟨-, w, hw, -, hwhole⟩ := plain_item hd hitem
  have hlen := congrArg List.length hw
  simp only [List.length_append] at hlen
  by_contra hle
  -- the character would lie in the buffer
  have hb : b = w ++ b.drop w.length := by
    have htake := congrArg (List.take w.length) hw
    rw [List.take_append_of_le_length (by omega), List.take_left] at htake
    rw [← htake, List.length_take, Nat.min_eq_left (by omega), List.take_append_drop]
  rw [hb, hwhole] at hmore
  cases hmore

section
variable {system : System} {seekable : Bool} {minNeeded bound : ℕ}

theorem splitFetchChar_rest (hd : Decisive handler)
    (hneeded : 0 < neededBytes seekable minNeeded)
    (hbound : neededBytes seekable minNeeded ≤ bound) (n : ℕ) : ∀ {q previous : ℕ} {k : Calls}
    {r r' : FileReader} {b x : List UInt8} {c : ℤ}, Stands content q r →
    NoEof handler content q r → Settled r.stream.format → r.pending = b ++ x →
    decoder handler r.stream.format b = .more r.stream.format b → x.length ≤ bound →
    (splitFetchChar system handler seekable minNeeded n k r).1 = .char c previous r' →
    r'.pending.length < bound := by
  have hlaw := decoder_lawful hd
  induction n with
  | zero => exact fun _ _ _ _ _ _ h => (by cases h)
  | succ n ih =>
    intro q previous k r r' b x c h heof hs hpending hb hx hfetch
    rw [splitFetchChar] at hfetch
    cases hdec : decoder handler r.stream.format r.pending with
    | more format rest =>
      obtain ⟨rfl, rfl⟩ := settled_more hd hs hdec
      obtain ⟨-, j, hj⟩ := hlaw.more_length hdec
      obtain ⟨hstands, hrest⟩ := h.decoded rfl hj (hlaw.more_rest hdec)
      have hj0 : j * byteSize r.stream.format = 0 := by omega
      rw [hj0, Nat.add_zero] at hstands
      obtain ⟨m, -, hle, hcall⟩ := @Stands.read system content _ _ hstands k _ hneeded
      simp only [hdec, hcall] at hfetch
      split_ifs at hfetch
      obtain ⟨hstands', hpending'⟩ := hstands.refill m
      rw [hrest] at hpending'
      refine ih hstands' heof hs hpending' hdec ?_ hfetch
      rw [Stream.readByte8_fst, List.length_take]
      omega
    | item c' format rest =>
      obtain ⟨-, j, hj⟩ := hlaw.item_length hdec
      obtain ⟨-, hrest⟩ := h.decoded (hlaw.item_unit hdec) hj (hlaw.item_rest hdec)
      have hc : c' ≠ eof := by
        rintro rfl
        have hitem := hlaw.item_append hdec r.stream.remaining
        rw [← h.placed.drop_eq] at hitem
        rw [NoEof, textAt, text_of_item hlaw hitem] at heof
        exact heof List.mem_cons_self
      simp only [hdec, if_neg hc] at hfetch
      cases hfetch
      rw [hpending] at hdec
      rw [hrest]
      exact Nat.lt_of_lt_of_le (rest_lt hd hs hb hdec) hx
    | stop octets =>
      simp only [hdec] at hfetch
      cases hfetch

theorem splitDecodeChar_rest (hd : Decisive handler)
    (hneeded : 0 < neededBytes seekable minNeeded)
    (hbound : neededBytes seekable minNeeded ≤ bound) {q : ℕ} {k : Calls} {r r' : FileReader}
    {c : ℤ} (h : Stands content q r) (heof : NoEof handler content q r)
    (hs : Settled r.stream.format) (hline : r.stream.lineEnding ≠ .crlf)
    (hle : r.pending.length ≤ bound)
    (hdecode : (splitDecodeChar system handler seekable minNeeded k r).1 = .char c r') :
    r'.pending.length < bound := by
  have hsame := @fetch_twins _ _ system system _ _ _ k k _ _ hd hneeded ⟨h, h, h.moved⟩ heof
  have hrest (c : ℤ) (previous : ℕ) (r₁ : FileReader) :=
    @splitFetchChar_rest _ _ system _ _ _ hd hneeded hbound (r.stream.remaining.length + 1) q
      previous k r r₁ [] _ c h heof hs (List.nil_append r.pending).symm
      ((decoder_lawful hd).step_nil r.stream.format) hle
  rw [splitDecodeChar] at hdecode
  generalize splitFetchChar system handler seekable minNeeded
    (r.stream.remaining.length + 1) k r = f at hsame hrest hdecode
  obtain ⟨f, k'⟩ := f
  dsimp only at hsame hrest hdecode
  cases hsame with
  | char c₁ p₁ p₂ q' r₁ r₂ htwins heof' hline' hsettled hback =>
    have hlt := hrest c₁ p₁ r₁ rfl
    dsimp only at hdecode
    by_cases hc : c₁ = charReturn
    · rw [if_pos hc] at hdecode
      cases hl : r₁.stream.lineEnding with
      | lf | cr =>
        simp only [hl] at hdecode
        cases hdecode
        exact hlt
      | crlf => exact absurd (hline'.symm.trans hl) hline
    · rw [if_neg hc] at hdecode
      cases hdecode
      exact hlt
  | eof => cases hdecode
  | unwind octets => cases hdecode

theorem splitVectorLoop_rest (hd : Decisive handler) (n : ℕ) : ∀ {q : ℕ} {k : Calls}
    {r r' : FileReader}, Stands content q r → NoEof handler content q r →
    byteSize r.stream.format = 1 → Settled r.stream.format → r.stream.lineEnding ≠ .crlf →
    r.pending.length ≤ n →
    (splitVectorLoop system handler false n k r).1.reader = some r' → r'.pending = [] := by
  induction n with
  | zero =>
    intro q k r r' _ _ _ _ _ hle hr
    cases hr
    exact List.eq_nil_of_length_eq_zero (by omega)
  | succ n ih =>
    intro q k r r' h heof hunit hs hline hle hr
    have hneeded : 0 < neededBytes false ((n + 1) * byteSize r.stream.format) ∧
        neededBytes false ((n + 1) * byteSize r.stream.format) ≤ n + 1 := by
      rw [hunit, neededBytes, vectorEncodingBufferSize]
      split_ifs with hif
      · omega
      · have : ¬ (n + 1) * 1 < 2048 := fun hlt => hif ⟨rfl, hlt⟩
        omega
    have hdecode := @decode_twins _ _ system system _ _ _ k k _ _ hd hneeded.1 ⟨h, h, h.moved⟩ heof
    have hrest (c : ℤ) (r₁ : FileReader) := @splitDecodeChar_rest _ _ system _ _ _ hd
      hneeded.1 hneeded.2 q k r r₁ c h heof hs hline hle
    rw [splitVectorLoop] at hr
    generalize splitDecodeChar system handler false
      ((n + 1) * byteSize r.stream.format) k r = d at hdecode hrest hr
    obtain ⟨d, k'⟩ := d
    dsimp only at hdecode hrest hr
    cases hdecode with
    | char c q' r₁ r₂ htwins heof' hline' hformat =>
      have hlt := hrest c r₁ rfl
      have hsame := hformat hs
      refine ih htwins.first heof' (by rw [hsame, hunit]) (by rw [hsame]; exact hs)
        (by rw [hline']; exact hline) (by omega) hr
    | eof => cases hr
    | unwind octets => cases hr

end

end SplitVectors
