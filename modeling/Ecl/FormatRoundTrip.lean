import Ecl.Utf8Decoding

/-! What the decoders read of what the encoders have written. -/
namespace FormatRoundTrip

open ExternalFormats IncrementalDecoding CharacterStreams DecoderLaws CharacterReading
  Utf8Decoding

theorem word_two (b0 b1 : UInt8) : word [b0, b1] = b0.toNat * 256 + b1.toNat := by
  simp only [word, List.foldl_cons, List.foldl_nil, Nat.shiftLeft_eq]
  omega

theorem word_four (b0 b1 b2 b3 : UInt8) :
    word [b0, b1, b2, b3] =
      ((b0.toNat * 256 + b1.toNat) * 256 + b2.toNat) * 256 + b3.toNat := by
  simp only [word, List.foldl_cons, List.foldl_nil, Nat.shiftLeft_eq]
  omega

theorem ucs2Unit_word (order : ByteOrder) {n : ℕ} (hn : n < 65536) :
    ∃ b0 b1, ucs2Unit order n = [b0, b1] ∧ word (order.arrange [b0, b1]) = n := by
  have h8 : (octet ((n : ℤ) >>> (8 : ℕ))).toNat = n / 256 % 256 := octet_shift n 8
  have h0 := octet_toNat n
  have hword : word [octet ((n : ℤ) >>> (8 : ℕ)), octet n] = n := by
    rw [word_two, h8, h0]
    omega
  cases order with
  | be => exact ⟨_, _, rfl, hword⟩
  | le => exact ⟨_, _, rfl, hword⟩

theorem ucs4Bytes_word (order : ByteOrder) {n : ℕ} (hn : n < 2 ^ 32) :
    ∃ b0 b1 b2 b3, ucs4Bytes order n = [b0, b1, b2, b3] ∧
      word (order.arrange [b0, b1, b2, b3]) = n := by
  have h24 : (octet ((n : ℤ) >>> (24 : ℕ))).toNat = n / 16777216 % 256 := octet_shift n 24
  have h16 : (octet ((n : ℤ) >>> (16 : ℕ))).toNat = n / 65536 % 256 := octet_shift n 16
  have h8 : (octet ((n : ℤ) >>> (8 : ℕ))).toNat = n / 256 % 256 := octet_shift n 8
  have h0 := octet_toNat n
  have hword : word [octet ((n : ℤ) >>> (24 : ℕ)), octet ((n : ℤ) >>> (16 : ℕ)),
      octet ((n : ℤ) >>> (8 : ℕ)), octet n] = n := by
    rw [word_four, h24, h16, h8, h0]
    omega
  cases order with
  | be => exact ⟨_, _, _, _, rfl, hword⟩
  | le => exact ⟨_, _, _, _, rfl, hword⟩

theorem ucs4Word_bytes (order : ByteOrder) {n : ℕ} (hn : n < 2 ^ 31) (x : List UInt8) :
    ucs4Word order (ucs4Bytes order n ++ x) = .char n x := by
  obtain ⟨b0, b1, b2, b3, hbytes, hword⟩ := ucs4Bytes_word order (n := n) (by omega)
  rw [hbytes]
  simp only [List.cons_append, List.nil_append, ucs4Word, hword, int32, if_pos hn]

theorem surrogate_bits {n : ℕ} (hn : n < 65536) : (n >>> 8) &&& 0xFC = 4 * (n / 1024) := by
  have hmask : ∀ m < 256, m &&& 0xFC = 4 * (m / 4) := by decide +kernel
  rw [Nat.shiftRight_eq_div_pow, hmask _ (by omega)]
  omega

section
variable {order : ByteOrder} {n m : ℕ}

theorem ucs2Word_unit (hn : n < 65536) (h : n / 1024 ≠ 54) (x : List UInt8) :
    ucs2Word order (ucs2Unit order n ++ x) = .char n x := by
  obtain ⟨b0, b1, hunit, hword⟩ := ucs2Unit_word order hn
  have hnot : ¬ (word (order.arrange [b0, b1]) >>> 8) &&& 0xFC = 0xD8 := by
    rw [hword, surrogate_bits hn]
    omega
  rw [hunit]
  exact (if_neg hnot).trans (congrArg (fun k : ℕ => Scan.char k x) hword)

theorem ucs2Word_pair (hn : n < 65536) (hm : m < 65536) (hhigh : n / 1024 = 54)
    (hlow : m / 1024 = 55) (x : List UInt8) :
    ucs2Word order (ucs2Unit order n ++ ucs2Unit order m ++ x) =
      .char (n % 1024 * 1024 + m % 1024 + 65536 : ℕ) x := by
  obtain ⟨b0, b1, hunit, hword⟩ := ucs2Unit_word order hn
  obtain ⟨b2, b3, hunit', hword'⟩ := ucs2Unit_word order hm
  have hmask : ∀ k : ℕ, k &&& 0x3FF = k % 1024 := fun k => Nat.and_two_pow_sub_one_eq_mod k 10
  rw [hunit, hunit']
  simp only [List.cons_append, List.nil_append, ucs2Word, hword, hword', surrogate_bits hn,
    surrogate_bits hm, hmask, Nat.shiftLeft_eq]
  rw [if_pos (by omega), if_neg (by omega)]

theorem ucs2Word_high (hn : n < 65536) (hhigh : n / 1024 = 54) {x r : List UInt8} {c : ℤ}
    (h : ucs2Word order (ucs2Unit order n ++ x) = .char c r) : 65536 ≤ c := by
  obtain ⟨b0, b1, hunit, hword⟩ := ucs2Unit_word order hn
  rw [hunit, List.cons_append, List.cons_append, List.nil_append] at h
  rcases x with - | ⟨b2, - | ⟨b3, x⟩⟩
  · simp only [ucs2Word, hword, surrogate_bits hn, hhigh] at h
    cases h
  · simp only [ucs2Word, hword, surrogate_bits hn, hhigh] at h
    cases h
  · simp only [ucs2Word, hword, surrogate_bits hn, hhigh, if_true] at h
    split_ifs at h
    cases h
    omega

theorem ucs2Bytes_low (hn : n < 65536) : ucs2Bytes order n = ucs2Unit order n := by
  rw [ucs2Bytes]
  exact if_neg (by omega)

theorem ucs2Bytes_pair (hn : 65536 ≤ n) (hlt : n < 1114112) :
    ucs2Bytes order n = ucs2Unit order ((n - 65536) / 1024 + 55296 : ℕ) ++
      ucs2Unit order ((n - 65536) % 1024 + 56320 : ℕ) := by
  have hor : ∀ k < 1024, k ||| 0xD800 = k + 55296 ∧ k ||| 0xDC00 = k + 56320 := by
    intro k hk
    have h54 := Nat.shiftLeft_add_eq_or_of_lt (i := 10) hk 54
    have h55 := Nat.shiftLeft_add_eq_or_of_lt (i := 10) hk 55
    rw [Nat.or_comm, Nat.or_comm k, Nat.add_comm, Nat.add_comm k]
    exact ⟨h54.symm, h55.symm⟩
  have htoNat : ((n : ℤ) - 0x10000).toNat = n - 65536 := by omega
  have hmask : (n - 65536) &&& 0x3FF = (n - 65536) % 1024 := Nat.and_two_pow_sub_one_eq_mod _ 10
  rw [ucs2Bytes, if_pos (by omega)]
  simp only [htoNat, hmask, Nat.shiftRight_eq_div_pow]
  rw [(hor _ (by omega)).1, (hor _ (by omega)).2]

theorem ucs2Word_bytes (hlt : n < 1114112) (h : n / 1024 ≠ 54) (x : List UInt8) :
    ucs2Word order (ucs2Bytes order n ++ x) = .char n x := by
  by_cases hn : n < 65536
  · rw [ucs2Bytes_low hn, ucs2Word_unit hn h]
  · rw [ucs2Bytes_pair (by omega) hlt, ucs2Word_pair (by omega) (by omega) (by omega) (by omega)]
    congr 2
    omega

end

theorem utf8Continue_step {cum k m : ℕ} {c : UInt8} (octets : List UInt8)
    (hc : c.toNat = 128 + k % 64) (hm : cum * 64 + k % 64 = m) (h0 : 0 < m) :
    utf8Continue cum (c :: octets) = utf8Continue m octets := by
  have hlow : c.toNat % 64 = k % 64 := by omega
  rw [utf8Continue_toNat, if_neg (by omega), hlow, hm, if_neg (Nat.ne_of_gt h0)]

/-- The codes that utf_8_decoder does not let through. -/
def Rejected (n : ℕ) : Prop := 0xD800 ≤ n ∧ n ≤ 0xDFFF ∨ 0xFFFE ≤ n ∧ n ≤ 0xFFFF

instance (n : ℕ) : Decidable (Rejected n) := inferInstanceAs (Decidable (_ ∨ _))

theorem utf8Sequence_of_continue {aux : UInt8} {cum nbytes n : ℕ} {octets : List UInt8}
    (hlen : octets.length = nbytes) (hn : utf8Continue cum octets = some n) (x : List UInt8) :
    utf8Sequence aux cum nbytes (octets ++ x) =
      if Rejected n then .error (aux :: octets) x else .char n x := by
  rw [utf8Sequence, if_neg (by rw [List.length_append]; omega)]
  simp only [← hlen, List.take_left, List.drop_left, hn]
  by_cases h1 : 0xD800 ≤ n ∧ n ≤ 0xDFFF
  · rw [if_pos h1, if_pos (.inl h1)]
  · by_cases h2 : 0xFFFE ≤ n ∧ n ≤ 0xFFFF
    · rw [if_neg h1, if_pos h2, if_pos (.inr h2)]
    · have hnot : ¬ Rejected n := not_or.mpr ⟨h1, h2⟩
      rw [if_neg h1, if_neg h2, if_neg hnot]

theorem utf8Decoder_encoder {n : ℕ} (hn : n < 2097152) (x : List UInt8) :
    utf8Decoder (utf8Encoder n ++ x) =
      if Rejected n then .error (utf8Encoder n) x else .char n x := by
  have hmap := utf8Encoder_toNat n
  have hsmall : n < 2048 → ¬ Rejected n := by
    rintro hlt (h | h) <;> omega
  have h6 : n / 64 * 64 + n % 64 = n := Nat.div_add_mod' n 64
  have h12 : n / 4096 * 64 + n / 64 % 64 = n / 64 := by
    rw [show 4096 = 64 * 64 from rfl, ← Nat.div_div_eq_div_mul, Nat.div_add_mod']
  have h18 : n / 262144 * 64 + n / 4096 % 64 = n / 4096 := by
    rw [show 262144 = 4096 * 64 from rfl, ← Nat.div_div_eq_div_mul, Nat.div_add_mod']
  by_cases h1 : n < 128
  · rw [if_pos h1] at hmap
    obtain ⟨a, ha, hn'⟩ := List.map_eq_singleton_iff.mp hmap
    rw [ha, List.cons_append, utf8Decoder_toNat, if_pos (by omega),
      if_neg (hsmall (by omega)), hn']
    rfl
  rw [if_neg h1] at hmap
  by_cases h2 : n < 2048
  · rw [if_pos h2] at hmap
    obtain ⟨a, l, ha, hna, hl⟩ := List.map_eq_cons_iff.mp hmap
    obtain ⟨b, rfl, hnb⟩ := List.map_eq_singleton_iff.mp hl
    have hlead : 192 ≤ a.toNat ∧ a.toNat < 224 ∧ a.toNat % 32 = n / 64 := by omega
    have hn' : utf8Continue (a.toNat % 32) [b] = some n := by
      rw [hlead.2.2, utf8Continue_step _ hnb h6 (by omega), utf8Continue]
    rw [ha, List.cons_append, utf8Decoder_toNat, if_neg (by omega), if_neg (by omega),
      if_pos hlead.2.1]
    exact utf8Sequence_of_continue rfl hn' x
  rw [if_neg h2] at hmap
  by_cases h3 : n < 65536
  · rw [if_pos h3] at hmap
    obtain ⟨a, l, ha, hna, hl⟩ := List.map_eq_cons_iff.mp hmap
    obtain ⟨b, l, rfl, hnb, hl⟩ := List.map_eq_cons_iff.mp hl
    obtain ⟨c, rfl, hnc⟩ := List.map_eq_singleton_iff.mp hl
    have hlead : 224 ≤ a.toNat ∧ a.toNat < 240 ∧ a.toNat % 16 = n / 4096 := by omega
    have hn' : utf8Continue (a.toNat % 16) [b, c] = some n := by
      rw [hlead.2.2, utf8Continue_step _ hnb h12 (by omega), utf8Continue_step _ hnc h6 (by omega),
        utf8Continue]
    rw [ha, List.cons_append, utf8Decoder_toNat, if_neg (by omega), if_neg (by omega),
      if_neg (by omega), if_pos hlead.2.1]
    exact utf8Sequence_of_continue rfl hn' x
  · rw [if_neg h3, if_pos hn] at hmap
    obtain ⟨a, l, ha, hna, hl⟩ := List.map_eq_cons_iff.mp hmap
    obtain ⟨b, l, rfl, hnb, hl⟩ := List.map_eq_cons_iff.mp hl
    obtain ⟨c, l, rfl, hnc, hl⟩ := List.map_eq_cons_iff.mp hl
    obtain ⟨d, rfl, hnd⟩ := List.map_eq_singleton_iff.mp hl
    have hlead : 240 ≤ a.toNat ∧ a.toNat < 248 ∧ a.toNat % 8 = n / 262144 := by omega
    have hn' : utf8Continue (a.toNat % 8) [b, c, d] = some n := by
      rw [hlead.2.2, utf8Continue_step _ hnb h18 (by omega),
        utf8Continue_step _ hnc h12 (by omega), utf8Continue_step _ hnd h6 (by omega), utf8Continue]
    rw [ha, List.cons_append, utf8Decoder_toNat, if_neg (by omega), if_neg (by omega),
      if_neg (by omega), if_neg (by omega), if_pos hlead.2.1]
    exact utf8Sequence_of_continue rfl hn' x

def Unreadable : ExternalFormat → ℤ → Prop
  | .utf8, c => 0xD800 ≤ c ∧ c ≤ 0xDFFF ∨ 0xFFFE ≤ c ∧ c ≤ 0xFFFF
  | .ucs2, c | .ucs2be, c | .ucs2le, c => 0xD800 ≤ c ∧ c ≤ 0xDBFF
  | _, _ => False

instance : ∀ (format : ExternalFormat) (c : ℤ), Decidable (Unreadable format c)
  | .utf8, _ => inferInstanceAs (Decidable (_ ∨ _))
  | .ucs2, _ | .ucs2be, _ | .ucs2le, _ => inferInstanceAs (Decidable (_ ∧ _))
  | .latin1, _ | .usAscii, _ | .ucs4, _ | .ucs4be, _ | .ucs4le, _ =>
    inferInstanceAs (Decidable False)

section
variable {format t : ExternalFormat} {b m x octets : List UInt8} {c : ℤ}

theorem plain_of_scan (h : scan format b = .char c x) :
    plain unwinding format b = .item c format x := by
  rw [plain, h]
  rfl

theorem decoder_of_scan (hstay : ∀ c, formatSwitch format c = .stay)
    (h : scan format b = .char c x) : decoder unwinding format b = .item c format x := by
  rw [decoder_eq unwinding_decisive, marked_eq_step hstay]
  exact plain_of_scan h

theorem decoder_of_mark (hmark : scan format (m ++ b) = .char 0xFEFF b)
    (hswitch : formatSwitch format 0xFEFF = .mark t) (h : scan t b = .char c x) :
    decoder unwinding format (m ++ b) = .item c t x := by
  rw [decoder_eq unwinding_decisive, marked_of_mark (plain_of_scan hmark) hswitch]
  exact plain_of_scan h

theorem octet_of_small {n : ℕ} (hn : n < 256) : (octet n).toNat = n := by
  rw [octet_toNat, Nat.mod_eq_of_lt hn]

theorem scan_encoder {n : ℕ} (hlt : n < 1114112) (henc : encoder format n = some (octets, format))
    (hok : ¬ Unreadable format n) (x : List UInt8) :
    scan format (octets ++ x) = .char n x := by
  cases format with
  | latin1 =>
    rw [encoder, passthroughEncoder] at henc
    by_cases hn : (n : ℤ) > 0xFF
    · rw [if_pos hn] at henc
      cases henc
    · rw [if_neg hn] at henc
      cases henc
      exact congrArg (fun k : ℕ => Scan.char k x) (octet_of_small (by omega))
  | usAscii =>
    rw [encoder, asciiEncoder] at henc
    by_cases hn : (n : ℤ) > 127
    · rw [if_pos hn] at henc
      cases henc
    · rw [if_neg hn] at henc
      cases henc
      have hoctet := octet_of_small (n := n) (by omega)
      have hle : ¬ 127 < octet n := by
        rw [UInt8.lt_iff_toNat_lt, hoctet]
        exact Nat.not_lt.mpr (by simp; omega)
      exact (if_neg hle).trans (congrArg (fun k : ℕ => Scan.char k x) hoctet)
  | utf8 =>
    cases henc
    have hnot : ¬ Rejected n := by
      intro h
      exact hok (by unfold Rejected at h; unfold Unreadable; omega)
    exact (utf8Decoder_encoder (by omega) x).trans (if_neg hnot)
  | ucs2 => cases henc
  | ucs2be | ucs2le =>
    cases henc
    exact ucs2Word_bytes hlt (by unfold Unreadable at hok; omega) x
  | ucs4 => cases henc
  | ucs4be =>
    cases henc
    exact ucs4Word_bytes .be (by omega) x
  | ucs4le =>
    cases henc
    exact ucs4Word_bytes .le (by omega) x

theorem decoder_encoder {format' : ExternalFormat} {n : ℕ} (hlt : n < 1114112)
    (henc : encoder format n = some (octets, format')) (hok : ¬ Unreadable format n)
    (x : List UInt8) : decoder unwinding format (octets ++ x) = .item n format' x := by
  cases format with
  | latin1 =>
    have hsame : format' = .latin1 := by
      rw [encoder, Option.map_eq_some_iff] at henc
      obtain ⟨w, -, hw⟩ := henc
      exact (congrArg Prod.snd hw).symm
    subst hsame
    exact decoder_of_scan (fun _ => rfl) (scan_encoder hlt henc hok x)
  | usAscii =>
    have hsame : format' = .usAscii := by
      rw [encoder, Option.map_eq_some_iff] at henc
      obtain ⟨w, -, hw⟩ := henc
      exact (congrArg Prod.snd hw).symm
    subst hsame
    exact decoder_of_scan (fun _ => rfl) (scan_encoder hlt henc hok x)
  | utf8 | ucs2be | ucs2le | ucs4be | ucs4le =>
    cases henc
    exact decoder_of_scan (fun _ => rfl) (scan_encoder hlt rfl hok x)
  | ucs2 =>
    cases henc
    have hscan : scan .ucs2be (ucs2beEncoder n ++ x) = .char n x :=
      scan_encoder hlt rfl (show ¬ Unreadable .ucs2be n from hok) x
    exact decoder_of_mark (m := [0xFE, 0xFF]) rfl rfl hscan
  | ucs4 =>
    cases henc
    have hscan : scan .ucs4be (ucs4beEncoder n ++ x) = .char n x :=
      scan_encoder hlt rfl (show ¬ Unreadable .ucs4be n from hok) x
    exact decoder_of_mark (m := [0, 0, 0xFE, 0xFF]) rfl rfl hscan

theorem plain_high (order : ByteOrder) (hs : scan t = ucs2Word order) {n : ℕ}
    (hn : 0xD800 ≤ n ∧ n ≤ 0xDBFF) {r : List UInt8} {format' : ExternalFormat}
    (h : plain unwinding t (ucs2Bytes order n ++ x) = .item c format' r) : 65536 ≤ c := by
  obtain ⟨-, hscan⟩ := plain_unwinding h
  rw [hs, ucs2Bytes_low (by omega)] at hscan
  exact ucs2Word_high (by omega) (by omega) hscan

theorem decoder_unreadable {format' t' : ExternalFormat} {n : ℕ}
    (henc : encoder format n = some (octets, format')) (hbad : Unreadable format n)
    {r : List UInt8} (h : decoder unwinding format (octets ++ x) = .item c t' r) :
    n < 65536 ∧ 65536 ≤ c := by
  rw [decoder_eq unwinding_decisive] at h
  cases format with
  | utf8 =>
    cases henc
    have hrej : Rejected n := by
      unfold Unreadable at hbad
      unfold Rejected
      omega
    rw [marked_eq_step (fun _ => rfl)] at h
    have hscan := (plain_unwinding h).2
    rw [scan, utf8Decoder_encoder (by unfold Rejected at hrej; omega), if_pos hrej] at hscan
    cases hscan
  | ucs2be =>
    cases henc
    unfold Unreadable at hbad
    rw [marked_eq_step (fun _ => rfl)] at h
    exact ⟨by omega, plain_high .be rfl (by omega) h⟩
  | ucs2le =>
    cases henc
    unfold Unreadable at hbad
    rw [marked_eq_step (fun _ => rfl)] at h
    exact ⟨by omega, plain_high .le rfl (by omega) h⟩
  | ucs2 =>
    cases henc
    unfold Unreadable at hbad
    have hmark : plain unwinding .ucs2 ([0xFE, 0xFF] ++ (ucs2beEncoder n ++ x)) =
        .item 0xFEFF .ucs2 (ucs2beEncoder n ++ x) := plain_of_scan rfl
    have hbe := (marked_of_mark hmark (t := .ucs2be) rfl).symm.trans h
    exact ⟨by omega, plain_high .be rfl (by omega) hbe⟩
  | latin1 | usAscii | ucs4 | ucs4be | ucs4le => exact absurd hbad not_false

theorem encoder_unreadable {format' : ExternalFormat} {c : ℤ}
    (henc : encoder format c = some (octets, format')) (d : ℤ) :
    Unreadable format' d ↔ Unreadable format d := by
  cases format with
  | latin1 | usAscii =>
    rw [encoder, Option.map_eq_some_iff] at henc
    obtain ⟨w, -, hw⟩ := henc
    cases hw
    rfl
  | utf8 | ucs2 | ucs2be | ucs2le | ucs4 | ucs4be | ucs4le =>
    cases henc
    rfl

end

section
variable {lineEnding : LineEnding} {format format' : ExternalFormat} {octets x : List UInt8}
  {c : ℤ}

theorem text_of_encoder (h0 : 0 ≤ c) (hlt : c < charCodeLimit)
    (henc : encoder format c = some (octets, format')) (hok : ¬ Unreadable format c) :
    text (decoder unwinding) format (octets ++ x) =
      (text (decoder unwinding) format' x).cons c := by
  obtain ⟨n, rfl⟩ := Int.eq_ofNat_of_zero_le h0
  rw [charCodeLimit] at hlt
  exact text_of_item (decoder_lawful unwinding_decisive)
    (decoder_encoder (by omega) henc hok x)

theorem readCharText_cons_kept (t : Text ℤ (List UInt8)) (hc : lineEnding = .lf ∨ c ≠ charReturn) :
    readCharText lineEnding (t.cons c) = (readCharText lineEnding t).cons c := by
  cases lineEnding with
  | lf => rfl
  | cr =>
    rw [readCharText_cons_cr, if_neg (hc.resolve_left (by decide))]
  | crlf => exact readCharText_cons_other (hc.resolve_left (by decide)) t

theorem not_unreadable_control (format : ExternalFormat) (h : c < 256) : ¬ Unreadable format c := by
  cases format <;> simp only [Unreadable, not_false_eq_true] <;> omega

theorem writeChar_cases {e : List UInt8 × ExternalFormat} (h : writeChar lineEnding format c = some e) :
    encoder format c = some e ∧ (c ≠ charNewline ∨ lineEnding = .lf) ∨
    c = charNewline ∧ (lineEnding = .cr ∧ encoder format charReturn = some e ∨
      lineEnding = .crlf ∧ ∃ e₁ e₂, encoder format charReturn = some e₁ ∧
        encoder e₁.2 charLinefeed = some e₂ ∧ e = (e₁.1 ++ e₂.1, e₂.2)) := by
  rw [writeChar.eq_def] at h
  by_cases hc : c = charNewline
  · rw [if_pos hc] at h
    cases lineEnding with
    | lf => exact .inl ⟨h, .inr rfl⟩
    | cr => exact .inr ⟨hc, .inl ⟨rfl, h⟩⟩
    | crlf =>
      obtain ⟨e₁, h₁, h⟩ := Option.bind_eq_some_iff.mp h
      obtain ⟨e₂, h₂, h⟩ := Option.map_eq_some_iff.mp h
      exact .inr ⟨hc, .inr ⟨rfl, e₁, e₂, h₁, h₂, h.symm⟩⟩
  · rw [if_neg hc] at h
    exact .inl ⟨h, .inl hc⟩

theorem read_written_char {e : List UInt8 × ExternalFormat} (h0 : 0 ≤ c) (hlt : c < charCodeLimit)
    (hcr : lineEnding = .lf ∨ c ≠ charReturn) (h : writeChar lineEnding format c = some e)
    (hok : ¬ Unreadable format c) (x : List UInt8) :
    readCharText lineEnding (text (decoder unwinding) format (e.1 ++ x)) =
      (readCharText lineEnding (text (decoder unwinding) e.2 x)).cons c := by
  rcases writeChar_cases h with ⟨henc, -⟩ | ⟨rfl, ⟨rfl, henc⟩ | ⟨rfl, e₁, e₂, h₁, h₂, rfl⟩⟩
  · rw [text_of_encoder h0 hlt henc hok, readCharText_cons_kept _ hcr]
  · rw [text_of_encoder (by decide) (by decide) henc (not_unreadable_control _ (by decide)),
      readCharText_cons_cr, if_pos rfl]
  · rw [List.append_assoc,
      text_of_encoder (by decide) (by decide) h₁ (not_unreadable_control _ (by decide)),
      text_of_encoder (by decide) (by decide) h₂ (not_unreadable_control _ (by decide)),
      readCharText_cons_return, if_pos rfl]

theorem read_unreadable {e : List UInt8 × ExternalFormat} (h0 : 0 ≤ c)
    (h : writeChar lineEnding format c = some e) (hbad : Unreadable format c) (x : List UInt8)
    (string : List ℤ) :
    readCharText lineEnding (text (decoder unwinding) format (e.1 ++ x)) ≠ ⟨c :: string, none⟩ := by
  have hnot : ¬ c < 256 := fun hlt => not_unreadable_control format hlt hbad
  rcases writeChar_cases h with ⟨henc, -⟩ | ⟨rfl, -⟩
  · obtain ⟨n, rfl⟩ := Int.eq_ofNat_of_zero_le h0
    intro heq
    cases hdec : decoder unwinding format (e.1 ++ x) with
    | more s r =>
      rw [text_of_more hdec, readCharText_nil] at heq
      cases heq
    | stop o =>
      rw [text_of_stop hdec, readCharText_nil] at heq
      cases heq
    | item d s r =>
      obtain ⟨hn, hd⟩ := decoder_unreadable henc hbad hdec
      have hcr : d ≠ charReturn := by
        rintro rfl
        exact absurd hd (by decide)
      rw [text_of_item (decoder_lawful unwinding_decisive) hdec,
        readCharText_cons_kept _ (.inr hcr)] at heq
      obtain ⟨rfl, -⟩ := Text.cons_inj (u := ⟨string, none⟩).mp heq
      omega
  · exact absurd (by decide) hnot

theorem writeChar_unreadable {e : List UInt8 × ExternalFormat}
    (h : writeChar lineEnding format c = some e) (d : ℤ) :
    Unreadable e.2 d ↔ Unreadable format d := by
  rcases writeChar_cases h with ⟨henc, -⟩ | ⟨-, ⟨-, henc⟩ | ⟨-, e₁, e₂, h₁, h₂, rfl⟩⟩
  · exact encoder_unreadable henc d
  · exact encoder_unreadable henc d
  · exact (encoder_unreadable h₂ d).trans (encoder_unreadable h₁ d)

theorem scan_nonneg (hsize : byteSize format ≠ 4) {b r : List UInt8}
    (h : scan format b = .char c r) : 0 ≤ c := by
  have hword : ∀ order, ucs2Word order b = .char c r → 0 ≤ c := by
    intro order h
    rcases b with - | ⟨b0, - | ⟨b1, rest⟩⟩
    · cases h
    · cases h
    · rw [ucs2Word.eq_def] at h
      dsimp only at h
      split_ifs at h with hhigh
      · rcases rest with - | ⟨b2, - | ⟨b3, rest⟩⟩
        · cases h
        · cases h
        · dsimp only at h
          split_ifs at h
          cases h
          exact Int.natCast_nonneg _
      · cases h
        exact Int.natCast_nonneg _
  cases format with
  | latin1 =>
    rcases b with - | ⟨b, rest⟩
    · cases h
    · cases h
      exact Int.natCast_nonneg _
  | usAscii =>
    rcases b with - | ⟨b, rest⟩
    · cases h
    · rw [scan, asciiDecoder] at h
      split_ifs at h
      cases h
      exact Int.natCast_nonneg _
  | utf8 =>
    obtain ⟨w, n, -, rfl, -⟩ := utf8Decoder_char h
    exact Int.natCast_nonneg n
  | ucs2 => exact hword .be h
  | ucs2be => exact hword .be h
  | ucs2le => exact hword .le h
  | ucs4 | ucs4be | ucs4le => exact absurd rfl hsize

theorem nonneg_items (hsize : byteSize format ≠ 4) (b : List UInt8) :
    eof ∉ (text (decoder unwinding) format b).items := by
  have hitems : ∀ c ∈ (run (decoder unwinding) (b.length + 1) format b).items, 0 ≤ c := by
    refine run_items (I := (byteSize · ≠ 4)) (P := (0 ≤ ·)) ?_ hsize
    intro s b c s' r hs h
    refine ⟨?_, fun h4 => hs (((decoder_lawful unwinding_decisive).item_unit h).symm.trans h4)⟩
    rw [decoder_eq unwinding_decisive] at h
    rcases item_of_marked h with ⟨s₁, hb, -⟩ | ⟨c₁, s₁, r₁, t, hb, hc, ht⟩
    · exact scan_nonneg hs (plain_unwinding hb).2
    · refine scan_nonneg ?_ (plain_unwinding ht).2
      exact fun h4 => hs (((formatSwitch_lawful .file).mark_unit hc).symm.trans h4)
  exact fun h => absurd (hitems eof h) (by decide)

theorem readable_of_wide (hsize : byteSize format = 4) (c : ℤ) : ¬ Unreadable format c := by
  cases format with
  | ucs4 | ucs4be | ucs4le => exact not_false
  | latin1 | usAscii | utf8 | ucs2 | ucs2be | ucs2le => exact absurd hsize (by decide)

theorem encoder_size {format format' : ExternalFormat} {octets : List UInt8}
    (henc : encoder format c = some (octets, format')) (hok : ¬ Unreadable format c) (h0 : 0 ≤ c)
    (hlt : c < charCodeLimit) : byteSize format' = byteSize format := by
  obtain ⟨n, rfl⟩ := Int.eq_ofNat_of_zero_le h0
  rw [charCodeLimit] at hlt
  exact (decoder_lawful unwinding_decisive).item_unit
    (decoder_encoder (x := []) (by omega) henc hok)

theorem written_items {string : List ℤ} {bytes : List UInt8} (hsize : byteSize format = 4)
    (hstring : ∀ c ∈ string, 0 ≤ c ∧ c < charCodeLimit)
    (hwrite : writeString lineEnding format string = some bytes) :
    eof ∉ (text (decoder unwinding) format bytes).items := by
  -- one encoded character in front of a text without EOF
  have hone : ∀ {format d e x}, byteSize format = 4 → 0 ≤ d → d < charCodeLimit →
      encoder format d = some e → eof ∉ (text (decoder unwinding) e.2 x).items →
      eof ∉ (text (decoder unwinding) format (e.1 ++ x)).items ∧ byteSize e.2 = 4 := by
    intro format d e x hsize h0 hlt henc hx
    have hok := readable_of_wide hsize d
    rw [text_of_encoder h0 hlt henc hok]
    refine ⟨fun h => ?_, (encoder_size henc hok h0 hlt).trans hsize⟩
    rcases List.mem_cons.mp h with h | h
    · rw [← h] at h0
      exact absurd h0 (by decide)
    · exact hx h
  have hsized : ∀ {format d e}, byteSize format = 4 → 0 ≤ d → d < charCodeLimit →
      encoder format d = some e → byteSize e.2 = 4 := by
    intro format d e hsize h0 hlt henc
    exact (encoder_size henc (readable_of_wide hsize d) h0 hlt).trans hsize
  induction string generalizing format bytes with
  | nil =>
    cases hwrite
    rw [text_of_more ((decoder_lawful unwinding_decisive).step_nil format)]
    exact List.not_mem_nil
  | cons c string ih =>
    obtain ⟨e, he, hwrite⟩ := Option.bind_eq_some_iff.mp hwrite
    obtain ⟨bytes', hbytes', rfl⟩ := Option.map_eq_some_iff.mp hwrite
    obtain ⟨h0, hlt⟩ := hstring c List.mem_cons_self
    have hstring' : ∀ d ∈ string, 0 ≤ d ∧ d < charCodeLimit :=
      fun d hd => hstring d (List.mem_cons_of_mem _ hd)
    rcases writeChar_cases he with ⟨henc, -⟩ | ⟨-, ⟨-, henc⟩ | ⟨-, e₁, e₂, h₁, h₂, rfl⟩⟩
    · exact (hone hsize h0 hlt henc (ih (hsized hsize h0 hlt henc) hstring' hbytes')).1
    · have hcr : (0 : ℤ) ≤ charReturn ∧ charReturn < charCodeLimit := by decide
      exact (hone hsize hcr.1 hcr.2 henc (ih (hsized hsize hcr.1 hcr.2 henc) hstring' hbytes')).1
    · have hcr : (0 : ℤ) ≤ charReturn ∧ charReturn < charCodeLimit := by decide
      have hlf : (0 : ℤ) ≤ charLinefeed ∧ charLinefeed < charCodeLimit := by decide
      have hsize₁ := hsized hsize hcr.1 hcr.2 h₁
      rw [List.append_assoc]
      refine (hone hsize hcr.1 hcr.2 h₁ ?_).1
      exact (hone hsize₁ hlf.1 hlf.2 h₂ (ih (hsized hsize₁ hlf.1 hlf.2 h₂) hstring' hbytes')).1

/-- What was written reads back, but for the characters the format does not read. -/
theorem readCharText_written_iff {string : List ℤ} {bytes : List UInt8}
    (hstring : ∀ c ∈ string, 0 ≤ c ∧ c < charCodeLimit)
    (hcr : lineEnding = .lf ∨ charReturn ∉ string)
    (hwrite : writeString lineEnding format string = some bytes) :
    readCharText lineEnding (text (decoder unwinding) format bytes) = ⟨string, none⟩ ↔
      ∀ c ∈ string, ¬ Unreadable format c := by
  induction string generalizing format bytes with
  | nil =>
    cases hwrite
    rw [text_of_more ((decoder_lawful unwinding_decisive).step_nil format), readCharText_nil]
    exact ⟨fun _ c hc => absurd hc List.not_mem_nil, fun _ => rfl⟩
  | cons c string ih =>
    obtain ⟨e, he, hwrite⟩ := Option.bind_eq_some_iff.mp hwrite
    obtain ⟨bytes', hbytes', rfl⟩ := Option.map_eq_some_iff.mp hwrite
    obtain ⟨h0, hlt⟩ := hstring c List.mem_cons_self
    have hcr' : lineEnding = .lf ∨ charReturn ∉ string :=
      hcr.imp_right fun h hmem => h (List.mem_cons_of_mem _ hmem)
    have hc : lineEnding = .lf ∨ c ≠ charReturn := by
      refine hcr.imp_right fun h => ?_
      rintro rfl
      exact h List.mem_cons_self
    have hrest := ih (fun d hd => hstring d (List.mem_cons_of_mem _ hd)) hcr' hbytes'
    by_cases hok : Unreadable format c
    · refine ⟨fun h => absurd h (read_unreadable h0 he hok _ _), fun h => ?_⟩
      exact absurd hok (h c List.mem_cons_self)
    · rw [read_written_char h0 hlt hc he hok]
      have htail : (∀ d ∈ string, ¬ Unreadable e.2 d) ↔ ∀ d ∈ string, ¬ Unreadable format d := by
        simp only [writeChar_unreadable he]
      constructor
      · intro h
        obtain ⟨-, heq⟩ := Text.cons_inj (u := ⟨string, none⟩).mp h
        intro d hd
        rcases List.mem_cons.mp hd with rfl | hd
        · exact hok
        · exact htail.mp (hrest.mp heq) d hd
      · intro h
        rw [hrest.mpr (htail.mpr fun d hd => h d (List.mem_cons_of_mem _ hd))]
        rfl

end

/-- Every format reads back what it writes except for the characters its decoder rejects: the
surrogates and two noncharacters in UTF-8, the high surrogates in UTF-16. -/
theorem round_trip_iff (kind : StreamKind) (format : ExternalFormat) (lineEnding : LineEnding)
    (string : List ℤ) (bytes : List UInt8)
    (hstring : ∀ c ∈ string, 0 ≤ c ∧ c < charCodeLimit)
    (hcr : lineEnding = .lf ∨ charReturn ∉ string)
    (hwrite : writeString lineEnding format string = some bytes) :
    readAll unwinding (openInput kind format lineEnding bytes) = ⟨string, none⟩ ↔
      ∀ c ∈ string, ¬ Unreadable format c := by
  have heof : eof ∉ (text (decoder unwinding) format bytes).items := by
    by_cases hsize : byteSize format = 4
    · exact written_items hsize hstring hwrite
    · exact nonneg_items hsize bytes
  rw [readAll_openInput unwinding_decisive kind format lineEnding bytes heof]
  exact readCharText_written_iff hstring hcr hwrite

/-- Two lines with a mark and a pair of surrogates. -/
theorem round_trip_lines :
    readAll unwinding (openInput .file .ucs2 .crlf [0xFE, 0xFF, 0, 0x41, 0, 13, 0, 10, 0xD8, 1,
        0xDC, 2]) = ⟨[0x41, 10, 0x10402], none⟩ ↔
      ∀ c ∈ [0x41, 10, 0x10402], ¬ Unreadable .ucs2 c :=
  round_trip_iff .file .ucs2 .crlf [0x41, 10, 0x10402] _ (by decide) (.inr (by decide))
    (by decide +kernel)

/-- The UTF-8 writer accepts a surrogate, and the reader calls the handler. -/
theorem surrogate_not_read :
    writeString .lf .utf8 [0xD800] = some [0xED, 0xA0, 0x80] ∧
      readAll unwinding (openInput .file .utf8 .lf [0xED, 0xA0, 0x80]) =
        ⟨[], some [0x80, 0xA0, 0xED]⟩ := by
  decide +kernel

end FormatRoundTrip
