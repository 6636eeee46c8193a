import Ecl.FormatRoundTrip

/-! What the encoders make of a character that has been decoded. -/
namespace DecodedOctets

open ExternalFormats IncrementalDecoding DecoderLaws CharacterReading Utf8Decoding FormatRoundTrip

structure Respelled (format : ExternalFormat) (w e : List UInt8) (c : ℤ) : Prop where
  encoder : encoder format c = some (e, format)
  scan : ∀ x, scan format (e ++ x) = .char c x
  le : e.length ≤ w.length
  eq : e.length = w.length → e = w
  same : format ≠ .utf8 → e = w

theorem octet_ofNat (b : UInt8) : octet b.toNat = b := by
  rw [← UInt8.toNat_inj, octet_toNat]
  exact Nat.mod_eq_of_lt b.toNat_lt

theorem octet_emod (c : ℤ) : ((octet c).toNat : ℤ) = c % 256 := by
  rw [octet, UInt8.ofInt, UInt8.toNat_ofNat']
  omega

theorem octet_eq {c : ℤ} {b : UInt8} (h : c % 256 = b.toNat) : octet c = b := by
  rw [← UInt8.toNat_inj]
  have hc := octet_emod c
  omega

section
variable {order : ByteOrder}

theorem ucs2Unit_of_word (order : ByteOrder) (b0 b1 : UInt8) :
    ucs2Unit order (word (order.arrange [b0, b1]) : ℕ) = [b0, b1] := by
  have hunit : ∀ a b : UInt8,
      [octet ((word [a, b] : ℤ) >>> (8 : ℕ)), octet (word [a, b])] = [a, b] := by
    intro a b
    have ha := a.toNat_lt
    have hb := b.toNat_lt
    have hhigh : octet ((word [a, b] : ℤ) >>> (8 : ℕ)) = a := by
      refine octet_eq ?_
      rw [word_two, Int.shiftRight_eq_div_pow]
      omega
    have hlow : octet (word [a, b]) = b := by
      refine octet_eq ?_
      rw [word_two]
      omega
    rw [hhigh, hlow]
  cases order with
  | be => exact hunit b0 b1
  | le => exact congrArg List.reverse (hunit b1 b0)

theorem ucs4Bytes_of_word (order : ByteOrder) (b0 b1 b2 b3 : UInt8) :
    ucs4Bytes order (int32 (word (order.arrange [b0, b1, b2, b3]))) = [b0, b1, b2, b3] := by
  have hunit : ∀ a b c d : UInt8, [octet (int32 (word [a, b, c, d]) >>> (24 : ℕ)),
      octet (int32 (word [a, b, c, d]) >>> (16 : ℕ)), octet (int32 (word [a, b, c, d]) >>> (8 : ℕ)),
      octet (int32 (word [a, b, c, d]))] = [a, b, c, d] := by
    intro a b c d
    have ha := a.toNat_lt
    have hb := b.toNat_lt
    have hc := c.toNat_lt
    have hd := d.toNat_lt
    have hword := word_four a b c d
    -- either sign has the octets of the word
    have hsign : int32 (word [a, b, c, d]) = word [a, b, c, d] ∨
        int32 (word [a, b, c, d]) = word [a, b, c, d] - 4294967296 := by
      rw [int32]
      split_ifs
      · exact .inl rfl
      · exact .inr rfl
    have h24 : octet (int32 (word [a, b, c, d]) >>> (24 : ℕ)) = a := by
      refine octet_eq ?_
      rw [Int.shiftRight_eq_div_pow]
      omega
    have h16 : octet (int32 (word [a, b, c, d]) >>> (16 : ℕ)) = b := by
      refine octet_eq ?_
      rw [Int.shiftRight_eq_div_pow]
      omega
    have h8 : octet (int32 (word [a, b, c, d]) >>> (8 : ℕ)) = c := by
      refine octet_eq ?_
      rw [Int.shiftRight_eq_div_pow]
      omega
    have h0 : octet (int32 (word [a, b, c, d])) = d := by
      refine octet_eq ?_
      omega
    rw [h24, h16, h8, h0]
  cases order with
  | be => exact hunit b0 b1 b2 b3
  | le => exact congrArg List.reverse (hunit b3 b2 b1 b0)

theorem word_two_lt (order : ByteOrder) (b0 b1 : UInt8) :
    word (order.arrange [b0, b1]) < 65536 := by
  have h0 := b0.toNat_lt
  have h1 := b1.toNat_lt
  cases order with
  | be =>
    rw [ByteOrder.arrange, word_two]
    omega
  | le =>
    change word [b1, b0] < 65536
    rw [word_two]
    omega

theorem ucs4Word_respelled (order : ByteOrder) {b r : List UInt8} {c : ℤ} (h : ucs4Word order b = .char c r) :
    ∃ w, b = w ++ r ∧ ucs4Bytes order c = w ∧ ∀ x, ucs4Word order (w ++ x) = .char c x := by
  rcases b with - | ⟨b0, - | ⟨b1, - | ⟨b2, - | ⟨b3, rest⟩⟩⟩⟩
  · cases h
  · cases h
  · cases h
  · cases h
  · cases h
    exact ⟨[b0, b1, b2, b3], rfl, ucs4Bytes_of_word order b0 b1 b2 b3, fun x => rfl⟩

theorem ucs2Word_respelled (order : ByteOrder) {b r : List UInt8} {c : ℤ} (h : ucs2Word order b = .char c r) :
    ∃ w, b = w ++ r ∧ ucs2Bytes order c = w ∧ ∀ x, ucs2Word order (w ++ x) = .char c x := by
  rcases b with - | ⟨b0, - | ⟨b1, rest⟩⟩
  · cases h
  · cases h
  · have hlt := word_two_lt order b0 b1
    by_cases hhigh : (word (order.arrange [b0, b1]) >>> 8) &&& 0xFC = 0xD8
    · replace h := (if_pos hhigh).symm.trans h
      rcases rest with - | ⟨b2, - | ⟨b3, rest⟩⟩
      · cases h
      · cases h
      · have hlt' := word_two_lt order b2 b3
        by_cases hlow : (word (order.arrange [b2, b3]) >>> 8) &&& 0xFC ≠ 0xDC
        · cases (if_pos hlow).symm.trans h
        · replace h := (if_neg hlow).symm.trans h
          have hscan : ∀ x, ucs2Word order ([b0, b1, b2, b3] ++ x) = .char c x := by
            cases h
            exact fun x => (if_pos hhigh).trans (if_neg hlow)
          refine ⟨[b0, b1, b2, b3], ?_, ?_, hscan⟩
          · cases h
            rfl
          · rw [not_not, surrogate_bits hlt'] at hlow
            rw [surrogate_bits hlt] at hhigh
            have hmask : ∀ k : ℕ, k &&& 0x3FF = k % 1024 :=
              fun k => Nat.and_two_pow_sub_one_eq_mod k 10
            simp only [hmask, Nat.shiftLeft_eq] at h
            cases h
            rw [ucs2Bytes_pair (by omega) (by omega)]
            have hfirst := ucs2Unit_of_word order b0 b1
            have hsecond := ucs2Unit_of_word order b2 b3
            refine (congrArg₂ (· ++ ·) (congrArg (fun k : ℕ => ucs2Unit order k) ?_)
              (congrArg (fun k : ℕ => ucs2Unit order k) ?_)).trans
                (congrArg₂ (· ++ ·) hfirst hsecond)
            · omega
            · omega
    · cases (if_neg hhigh).symm.trans h
      refine ⟨[b0, b1], rfl, ?_, fun x => if_neg hhigh⟩
      rw [ucs2Bytes_low hlt, ucs2Unit_of_word]

end

theorem utf8Sequence_accepts {aux : UInt8} {cum nbytes n : ℕ} {rest r : List UInt8}
    (h : utf8Sequence aux cum nbytes rest = .char n r) : ¬ Rejected n := by
  rw [utf8Sequence] at h
  split_ifs at h
  cases hn : utf8Continue cum (rest.take nbytes) with
  | none =>
    simp only [hn] at h
    cases h
  | some k =>
    simp only [hn] at h
    split_ifs at h with h1 h2
    have hk : (k : ℤ) = n := by
      cases h
      rfl
    rintro (h3 | h3) <;> omega

theorem utf8Decoder_accepts {b r : List UInt8} {n : ℕ} (h : utf8Decoder b = .char n r) :
    ¬ Rejected n := by
  rcases b with - | ⟨a, rest⟩
  · cases h
  · rw [utf8Decoder_toNat] at h
    have ha := a.toNat_lt
    split_ifs at h
    · have hn : (a.toNat : ℤ) = n := by
        cases h
        rfl
      rintro (h1 | h1) <;> omega
    · exact utf8Sequence_accepts h
    · exact utf8Sequence_accepts h
    · exact utf8Sequence_accepts h

theorem sequence_length {w : List UInt8} {n : ℕ} (h : Sequence w n) :
    (utf8Encoder n).length ≤ w.length ∧ ((utf8Encoder n).length = w.length → utf8Encoder n = w) := by
  rcases sequence_spelling h with ⟨-, heq⟩ | ⟨-, hshort⟩
  · exact ⟨Nat.le_of_eq (congrArg List.length heq), fun _ => heq⟩
  · exact ⟨Nat.le_of_lt hshort, fun heq => absurd heq (Nat.ne_of_lt hshort)⟩

def unmarked : ExternalFormat → ExternalFormat
  | .ucs2 => .ucs2be
  | .ucs4 => .ucs4be
  | format => format

theorem scan_unmarked (format : ExternalFormat) : scan (unmarked format) = scan format := by
  cases format <;> rfl

theorem byteSize_unmarked (format : ExternalFormat) :
    byteSize (unmarked format) = byteSize format := by
  cases format <;> rfl

theorem unmarked_of_settled {format : ExternalFormat} (hs : Settled format) :
    unmarked format = format := by
  cases format with
  | ucs2 => cases hs 0
  | ucs4 => cases hs 0
  | latin1 | usAscii | utf8 | ucs2be | ucs2le | ucs4be | ucs4le => rfl

section
variable {format : ExternalFormat} {b r : List UInt8} {c : ℤ}

theorem scan_head (h : scan format b = .char c r) :
    ∃ w, b = w ++ r ∧ byteSize format ∣ w.length ∧ 0 < w.length ∧
      ∀ x, scan format (w ++ x) = .char c x := by
  obtain ⟨-, w, hsplit, hlen, hw⟩ := plain_item unwinding_decisive (plain_of_scan h)
  obtain ⟨hdvd, hpos, -⟩ := extent_spec format b
  rw [← hlen] at hdvd hpos
  exact ⟨w, hsplit, hdvd, hpos, fun x => (plain_unwinding (hw x)).2⟩

structure Decoded (format : ExternalFormat) (b r w e : List UInt8) (c : ℤ) : Prop where
  split : b = w ++ r
  scan : ∀ x, scan format (w ++ x) = .char c x
  respelled : Respelled format w e c

theorem decoded_same {w : List UInt8} (hsplit : b = w ++ r)
    (hscan : ∀ x, scan format (w ++ x) = .char c x) (henc : encoder format c = some (w, format)) :
    ∃ w e, Decoded format b r w e c :=
  ⟨w, w, hsplit, hscan, henc, hscan, Nat.le_refl _, fun _ => rfl, fun _ => rfl⟩

/-- Every character that a settled format reads, it can write. -/
theorem decoded_of_scan (hs : Settled format) (h : scan format b = .char c r) :
    ∃ w e, Decoded format b r w e c := by
  have h2 : ∀ order, scan format = ucs2Word order →
      (∀ c, encoder format c = some (ucs2Bytes order c, format)) →
        ∃ w e, Decoded format b r w e c := by
    intro order hscan henc
    rw [hscan] at h
    obtain ⟨w, hsplit, hbytes, hw⟩ := ucs2Word_respelled order h
    exact decoded_same hsplit (by rw [hscan]; exact hw) (by rw [henc, hbytes])
  have h4 : ∀ order, scan format = ucs4Word order →
      (∀ c, encoder format c = some (ucs4Bytes order c, format)) →
        ∃ w e, Decoded format b r w e c := by
    intro order hscan henc
    rw [hscan] at h
    obtain ⟨w, hsplit, hbytes, hw⟩ := ucs4Word_respelled order h
    exact decoded_same hsplit (by rw [hscan]; exact hw) (by rw [henc, hbytes])
  cases format with
  | latin1 =>
    rcases b with - | ⟨a, rest⟩
    · cases h
    · cases h
      refine decoded_same (w := [a]) rfl (fun x => rfl) ?_
      have ha := a.toNat_lt
      rw [encoder, passthroughEncoder, if_neg (by omega), octet_ofNat]
      rfl
  | usAscii =>
    rcases b with - | ⟨a, rest⟩
    · cases h
    · rw [scan, asciiDecoder] at h
      by_cases ha : 127 < a
      · rw [if_pos ha] at h
        cases h
      · rw [if_neg ha] at h
        cases h
        refine decoded_same (w := [a]) rfl (fun x => if_neg ha) ?_
        rw [UInt8.lt_iff_toNat_lt] at ha
        simp only [UInt8.reduceToNat] at ha
        rw [encoder, asciiEncoder, if_neg (by omega), octet_ofNat]
        rfl
  | utf8 =>
    obtain ⟨w, n, rfl, rfl, hw⟩ := utf8Decoder_char h
    obtain ⟨hle, heq⟩ := sequence_length hw
    have hn : n < 2097152 := by
      cases hw <;> omega
    have hacc := utf8Decoder_accepts h
    obtain ⟨w', hsplit, -, -, hscan⟩ := scan_head (show scan .utf8 _ = _ from h)
    obtain rfl := List.append_cancel_right hsplit
    exact ⟨w, utf8Encoder n, rfl, hscan, rfl,
      fun x => (utf8Decoder_encoder hn x).trans (if_neg hacc), hle, heq, fun hne => absurd rfl hne⟩
  | ucs2be => exact h2 .be rfl fun _ => rfl
  | ucs2le => exact h2 .le rfl fun _ => rfl
  | ucs4be => exact h4 .be rfl fun _ => rfl
  | ucs4le => exact h4 .le rfl fun _ => rfl
  | ucs2 => cases hs 0
  | ucs4 => cases hs 0

theorem Decoded.sizes {w e : List UInt8} (h : Decoded format b r w e c) :
    (byteSize format ∣ w.length ∧ 0 < w.length) ∧ byteSize format ∣ e.length ∧ 0 < e.length := by
  obtain ⟨w', hw, hdvd, hpos, -⟩ := scan_head (h.scan r)
  obtain ⟨e', he, hdvd', hpos', -⟩ := scan_head (h.respelled.scan r)
  obtain rfl := List.append_cancel_right hw
  obtain rfl := List.append_cancel_right he
  exact ⟨⟨hdvd, hpos⟩, hdvd', hpos'⟩

inductive Mark : ExternalFormat → List UInt8 → ExternalFormat → Prop
  | ucs2be : Mark .ucs2 [0xFE, 0xFF] .ucs2be
  | ucs2le : Mark .ucs2 [0xFF, 0xFE] .ucs2le
  | ucs4be : Mark .ucs4 [0, 0, 0xFE, 0xFF] .ucs4be

theorem Mark.length {format format' : ExternalFormat} {m : List UInt8} (h : Mark format m format') :
    m.length = byteSize format' := by
  cases h <;> rfl

theorem ucs4Word_lt (order : ByteOrder) (h : ucs4Word order b = .char c r) : c < 2 ^ 31 := by
  rcases b with - | ⟨b0, - | ⟨b1, - | ⟨b2, - | ⟨b3, rest⟩⟩⟩⟩
  · cases h
  · cases h
  · cases h
  · cases h
  · have hlt : ∀ a b c d : UInt8, word [a, b, c, d] < 2 ^ 32 := by
      intro a b c d
      have ha := a.toNat_lt
      have hb := b.toNat_lt
      have hc := c.toNat_lt
      have hd := d.toNat_lt
      rw [word_four]
      omega
    have hword : word (order.arrange [b0, b1, b2, b3]) < 2 ^ 32 := by
      cases order with
      | be => exact hlt b0 b1 b2 b3
      | le => exact hlt b3 b2 b1 b0
    cases h
    rw [int32]
    split_ifs <;> omega

theorem mark_of_scan {t : ExternalFormat} (h : scan format b = .char c r)
    (hc : formatSwitch format c = .mark t) : ∃ m, b = m ++ r ∧ Mark format m t := by
  cases format with
  | ucs2 =>
    obtain ⟨w, hsplit, hbytes, -⟩ := ucs2Word_respelled .be h
    simp only [formatSwitch] at hc
    split_ifs at hc with h1 h2 h3
    · cases hc
      subst h2 hbytes
      exact ⟨_, hsplit, .ucs2be⟩
    · cases hc
      subst h3 hbytes
      exact ⟨_, hsplit, .ucs2le⟩
  | ucs4 =>
    have hlt := ucs4Word_lt .be h
    simp only [formatSwitch] at hc
    split_ifs at hc with h1 h2 h3
    · cases hc
      obtain ⟨w, hsplit, hbytes, -⟩ := ucs4Word_respelled .be h
      subst h2 hbytes
      exact ⟨_, hsplit, .ucs4be⟩
    · subst h3
      exact absurd hlt (by decide)
  | latin1 | usAscii | utf8 | ucs2be | ucs2le | ucs4be | ucs4le => cases hc

/-- The first character comes after a mark, or without one in the format that has none. -/
theorem decoder_first {format' : ExternalFormat} (hc : c ≠ eof)
    (h : decoder unwinding format b = .item c format' r) :
    ∃ m b', b = m ++ b' ∧ scan format' b' = .char c r ∧ Settled format' ∧
      (Mark format m format' ∨ m = [] ∧ format' = unmarked format ∧
        ∀ t, formatSwitch format c ≠ .mark t) := by
  have hsettled := settled_after unwinding_decisive hc h
  rw [decoder_eq unwinding_decisive] at h
  rcases item_of_marked h with ⟨s₁, hb, hswitch⟩ | ⟨c₁, s₁, r₁, t, hb, hmark, ht⟩
  · obtain ⟨rfl, hscan⟩ := plain_unwinding hb
    have hformat : format' = unmarked s₁ := by
      rcases hswitch with ⟨-, rfl⟩ | hturn
      · exact (unmarked_of_settled hsettled).symm
      · cases s₁ with
        | ucs2 | ucs4 =>
          simp only [formatSwitch] at hturn
          split_ifs at hturn
          cases hturn
          rfl
        | latin1 | usAscii | utf8 | ucs2be | ucs2le | ucs4be | ucs4le => cases hturn
    refine ⟨[], b, rfl, ?_, hsettled, .inr ⟨rfl, hformat, ?_⟩⟩
    · rw [hformat, scan_unmarked]
      exact hscan
    · intro t ht
      rcases hswitch with ⟨hstay, -⟩ | hturn
      · cases hstay.symm.trans ht
      · cases hturn.symm.trans ht
  · obtain ⟨rfl, hscan⟩ := plain_unwinding hb
    obtain ⟨rfl, hscan'⟩ := plain_unwinding ht
    obtain ⟨m, hsplit, hm⟩ := mark_of_scan hscan hmark
    exact ⟨m, r₁, hsplit, hscan', hsettled, .inl hm⟩

structure First (format : ExternalFormat) (b : List UInt8) (c : ℤ) (format' : ExternalFormat)
    (r m w e : List UInt8) : Prop where
  split : b = m ++ (w ++ r)
  decoded : Decoded format' (w ++ r) r w e c
  settled : Settled format'
  mark : Mark format m format' ∨ m = [] ∧ format' = unmarked format ∧
    ∀ t, formatSwitch format c ≠ .mark t

theorem first_of_item {format' : ExternalFormat} (hc : c ≠ eof)
    (h : decoder unwinding format b = .item c format' r) :
    ∃ m w e, First format b c format' r m w e := by
  obtain ⟨m, b', hsplit, hscan, hsettled, hmark⟩ := decoder_first hc h
  obtain ⟨w, e, hdec⟩ := decoded_of_scan hsettled hscan
  obtain rfl := hdec.split
  exact ⟨m, w, e, hsplit, hdec, hsettled, hmark⟩

section
variable {format' : ExternalFormat} {m w e : List UInt8}
  (h : First format b c format' r m w e)
include h

theorem First.byteSize_eq : byteSize format' = byteSize format := by
  rcases h.mark with hmark | ⟨-, rfl, -⟩
  · cases hmark <;> rfl
  · exact byteSize_unmarked format

theorem First.mark_length : m = [] ∨ m.length = byteSize format' ∧ 2 ≤ byteSize format' := by
  rcases h.mark with hmark | ⟨hm, -⟩
  · exact .inr ⟨hmark.length, by cases hmark <;> decide⟩
  · exact .inl hm

theorem First.of_settled (hs : Settled format) : m = [] ∧ format' = format := by
  rcases h.mark with hmark | ⟨hm, hformat, -⟩
  · cases hmark with
    | ucs2be => cases hs 0
    | ucs2le => cases hs 0
    | ucs4be => cases hs 0
  · exact ⟨hm, hformat.trans (unmarked_of_settled hs)⟩

theorem First.length : b.length = m.length + w.length + r.length := by
  rw [h.split, List.length_append, List.length_append, Nat.add_assoc]

end

end
end DecodedOctets
