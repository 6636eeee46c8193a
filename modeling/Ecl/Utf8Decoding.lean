import Ecl.CharacterReading

/-! The UTF-8 decoder and encoder as arithmetic, and which octets they agree about. -/
namespace Utf8Decoding

open ExternalFormats IncrementalDecoding CharacterStreams DecoderLaws CharacterReading

theorem first_bits (b : UInt8) :
    (b &&& 0x80 = 0 ↔ b.toNat < 128) ∧ (128 ≤ b.toNat → (b &&& 0x40 = 0 ↔ b.toNat < 192)) ∧
      (192 ≤ b.toNat → (b &&& 0x20 = 0 ↔ b.toNat < 224)) ∧
      (224 ≤ b.toNat → (b &&& 0x10 = 0 ↔ b.toNat < 240)) ∧
      (240 ≤ b.toNat → (b &&& 0x08 = 0 ↔ b.toNat < 248)) := by
  have hbits : ∀ n < 256, (n &&& 0x80 = 0 ↔ n < 128) ∧ (128 ≤ n → (n &&& 0x40 = 0 ↔ n < 192)) ∧
      (192 ≤ n → (n &&& 0x20 = 0 ↔ n < 224)) ∧ (224 ≤ n → (n &&& 0x10 = 0 ↔ n < 240)) ∧
      (240 ≤ n → (n &&& 0x08 = 0 ↔ n < 248)) := by decide +kernel
  simp only [← UInt8.toNat_inj, UInt8.toNat_and]
  exact hbits b.toNat b.toNat_lt

theorem first_choice {α : Sort*} (b : UInt8) (v w x y z u : α) :
    (if b &&& 0x80 = 0 then v else if b &&& 0x40 = 0 then w else if b &&& 0x20 = 0 then x
      else if b &&& 0x10 = 0 then y else if b &&& 0x08 = 0 then z else u) =
    if b.toNat < 128 then v else if b.toNat < 192 then w else if b.toNat < 224 then x
      else if b.toNat < 240 then y else if b.toNat < 248 then z else u := by
  obtain ⟨h80, h40, h20, h10, h08⟩ := first_bits b
  by_cases h1 : b.toNat < 128
  · rw [if_pos (h80.mpr h1), if_pos h1]
  rw [if_neg (fun h => h1 (h80.mp h)), if_neg h1]
  have h40 := h40 (by omega)
  by_cases h2 : b.toNat < 192
  · rw [if_pos (h40.mpr h2), if_pos h2]
  rw [if_neg (fun h => h2 (h40.mp h)), if_neg h2]
  have h20 := h20 (by omega)
  by_cases h3 : b.toNat < 224
  · rw [if_pos (h20.mpr h3), if_pos h3]
  rw [if_neg (fun h => h3 (h20.mp h)), if_neg h3]
  have h10 := h10 (by omega)
  by_cases h4 : b.toNat < 240
  · rw [if_pos (h10.mpr h4), if_pos h4]
  rw [if_neg (fun h => h4 (h10.mp h)), if_neg h4]
  have h08 := h08 (by omega)
  by_cases h5 : b.toNat < 248
  · rw [if_pos (h08.mpr h5), if_pos h5]
  · rw [if_neg (fun h => h5 (h08.mp h)), if_neg h5]

theorem utf8Extent_toNat (aux : UInt8) (rest : List UInt8) :
    utf8Extent (aux :: rest) = if aux.toNat < 192 then 1 else if aux.toNat < 224 then 2
      else if aux.toNat < 240 then 3 else if aux.toNat < 248 then 4 else 1 := by
  have hsame : ∀ k : ℕ, (if aux.toNat < 128 then 1 else if aux.toNat < 192 then 1 else k) =
      if aux.toNat < 192 then 1 else k := by
    intro k
    by_cases h : aux.toNat < 128
    · rw [if_pos h, if_pos (by omega)]
    · rw [if_neg h]
  rw [← hsame, ← first_choice]
  rfl

theorem utf8Decoder_toNat (aux : UInt8) (rest : List UInt8) :
    utf8Decoder (aux :: rest) = if aux.toNat < 128 then .char aux.toNat rest
      else if aux.toNat < 192 then .error [aux] rest
      else if aux.toNat < 224 then utf8Sequence aux (aux.toNat % 32) 1 rest
      else if aux.toNat < 240 then utf8Sequence aux (aux.toNat % 16) 2 rest
      else if aux.toNat < 248 then utf8Sequence aux (aux.toNat % 8) 3 rest
      else .error [aux] rest := by
  have h5 : (aux &&& 0x1F).toNat = aux.toNat % 32 :=
    (UInt8.toNat_and aux 0x1F).trans (Nat.and_two_pow_sub_one_eq_mod aux.toNat 5)
  have h4 : (aux &&& 0x0F).toNat = aux.toNat % 16 :=
    (UInt8.toNat_and aux 0x0F).trans (Nat.and_two_pow_sub_one_eq_mod aux.toNat 4)
  have h3 : (aux &&& 0x07).toNat = aux.toNat % 8 :=
    (UInt8.toNat_and aux 0x07).trans (Nat.and_two_pow_sub_one_eq_mod aux.toNat 3)
  rw [utf8Decoder, first_choice, h5, h4, h3]

theorem utf8Continue_toNat (cum : ℕ) (c : UInt8) (octets : List UInt8) :
    utf8Continue cum (c :: octets) = if c.toNat < 128 ∨ 192 ≤ c.toNat then none
      else if cum * 64 + c.toNat % 64 = 0 then none
      else utf8Continue (cum * 64 + c.toNat % 64) octets := by
  have hlow : (c &&& 0x3F).toNat = c.toNat % 64 :=
    (UInt8.toNat_and c 0x3F).trans (Nat.and_two_pow_sub_one_eq_mod c.toNat 6)
  have hhigh : c &&& 0xC0 ≠ 0x80 ↔ c.toNat < 128 ∨ 192 ≤ c.toNat := by
    have hbits : ∀ n < 256, (n &&& 0xC0 ≠ 0x80 ↔ n < 128 ∨ 192 ≤ n) := by decide +kernel
    rw [ne_eq, ← UInt8.toNat_inj, UInt8.toNat_and]
    exact hbits c.toNat c.toNat_lt
  have hor : (cum <<< 6) ||| c.toNat % 64 = cum * 64 + c.toNat % 64 := by
    rw [← Nat.shiftLeft_add_eq_or_of_lt (Nat.mod_lt _ (by decide)), Nat.shiftLeft_eq]
  rw [utf8Continue]
  simp only [hlow, hor]
  by_cases hc : c &&& 0xC0 ≠ 0x80
  · rw [if_pos hc, if_pos (hhigh.mp hc)]
  · rw [if_neg hc, if_neg (fun h => hc (hhigh.mpr h))]

theorem utf8Continue_cons {cum n : ℕ} {c : UInt8} {octets : List UInt8}
    (h : utf8Continue cum (c :: octets) = some n) :
    128 ≤ c.toNat ∧ c.toNat < 192 ∧ utf8Continue (cum * 64 + c.toNat % 64) octets = some n := by
  rw [utf8Continue_toNat] at h
  by_cases hc : c.toNat < 128 ∨ 192 ≤ c.toNat
  · rw [if_pos hc] at h
    cases h
  · rw [if_neg hc] at h
    by_cases h0 : cum * 64 + c.toNat % 64 = 0
    · rw [if_pos h0] at h
      cases h
    · rw [if_neg h0] at h
      exact ⟨by omega, by omega, h⟩

theorem octet_toNat (n : ℕ) : (octet n).toNat = n % 256 := by
  rw [octet, UInt8.ofInt, UInt8.toNat_ofNat']
  omega

theorem octet_shift (n k : ℕ) : (octet ((n : ℤ) >>> k)).toNat = n / 2 ^ k % 256 := by
  rw [← Int.natCast_shiftRight, octet_toNat, Nat.shiftRight_eq_div_pow]

theorem utf8Encoder_toNat (n : ℕ) :
    (utf8Encoder n).map UInt8.toNat =
      if n < 128 then [n]
      else if n < 2048 then [192 + n / 64, 128 + n % 64]
      else if n < 65536 then [224 + n / 4096, 128 + n / 64 % 64, 128 + n % 64]
      else if n < 2097152 then
        [240 + n / 262144, 128 + n / 4096 % 64, 128 + n / 64 % 64, 128 + n % 64]
      else [] := by
  have hbits : ∀ n < 256, (n < 32 → n ||| 0xC0 = 192 + n) ∧ (n < 16 → n ||| 0xE0 = 224 + n) ∧
      (n < 8 → n ||| 0xF0 = 240 + n) ∧ (n &&& 0x3F) ||| 0x80 = 128 + n % 64 := by decide +kernel
  have hlead : ∀ b : UInt8, (b.toNat < 32 → (b ||| 0xC0).toNat = 192 + b.toNat) ∧
      (b.toNat < 16 → (b ||| 0xE0).toNat = 224 + b.toNat) ∧
      (b.toNat < 8 → (b ||| 0xF0).toNat = 240 + b.toNat) ∧
      ((b &&& 0x3F) ||| 0x80).toNat = 128 + b.toNat % 64 := by
    intro b
    simp only [UInt8.toNat_or, UInt8.toNat_and]
    exact hbits b.toNat b.toNat_lt
  have hsmall : ∀ k : ℕ, n / 2 ^ k < 256 → (octet ((n : ℤ) >>> k)).toNat = n / 2 ^ k := by
    intro k hk
    rw [octet_shift, Nat.mod_eq_of_lt hk]
  have hlow : ∀ k : ℕ, (octet ((n : ℤ) >>> k)).toNat % 64 = n / 2 ^ k % 64 := by
    intro k
    rw [octet_shift, Nat.mod_mod_of_dvd _ (by decide)]
  have hlast : (octet (n : ℤ)).toNat % 64 = n % 64 := by
    rw [octet_toNat, Nat.mod_mod_of_dvd _ (by decide)]
  rw [utf8Encoder]
  by_cases h1 : n < 128
  · rw [if_pos (by omega), if_pos h1, List.map_singleton, octet_toNat, Nat.mod_eq_of_lt (by omega)]
  rw [if_neg (by omega), if_neg h1]
  by_cases h2 : n < 2048
  · have h6 := hsmall 6 (by omega)
    rw [if_pos (by omega), if_pos h2]
    simp only [List.map_cons, List.map_nil, (hlead _).2.2.2, hlast]
    rw [(hlead _).1 (by omega), h6]
    rfl
  rw [if_neg (by omega), if_neg h2]
  by_cases h3 : n < 65536
  · have h12 := hsmall 12 (by omega)
    rw [if_pos (by omega), if_pos h3]
    simp only [List.map_cons, List.map_nil, (hlead _).2.2.2, hlow, hlast]
    rw [(hlead _).2.1 (by omega), h12]
    rfl
  rw [if_neg (by omega), if_neg h3]
  by_cases h4 : n < 2097152
  · have h18 := hsmall 18 (by omega)
    rw [if_pos (by omega), if_pos h4]
    simp only [List.map_cons, List.map_nil, (hlead _).2.2.2, hlow, hlast]
    rw [(hlead _).2.2.1 (by omega), h18]
    rfl
  · rw [if_neg (by omega), if_neg h4]
    rfl

/-- The sequences of the decoder and their codes, overlong ones among them. -/
inductive Sequence : List UInt8 → ℕ → Prop
  | one {a : UInt8} (ha : a.toNat < 128) : Sequence [a] a.toNat
  | two {a b : UInt8} (ha : 192 ≤ a.toNat ∧ a.toNat < 224) (hb : 128 ≤ b.toNat ∧ b.toNat < 192) :
    Sequence [a, b] ((a.toNat - 192) * 64 + (b.toNat - 128))
  | three {a b c : UInt8} (ha : 224 ≤ a.toNat ∧ a.toNat < 240)
    (hb : 128 ≤ b.toNat ∧ b.toNat < 192) (hc : 128 ≤ c.toNat ∧ c.toNat < 192) :
    Sequence [a, b, c]
      (((a.toNat - 224) * 64 + (b.toNat - 128)) * 64 + (c.toNat - 128))
  | four {a b c d : UInt8} (ha : 240 ≤ a.toNat ∧ a.toNat < 248)
    (hb : 128 ≤ b.toNat ∧ b.toNat < 192) (hc : 128 ≤ c.toNat ∧ c.toNat < 192)
    (hd : 128 ≤ d.toNat ∧ d.toNat < 192) :
    Sequence [a, b, c, d]
      ((((a.toNat - 240) * 64 + (b.toNat - 128)) * 64 + (c.toNat - 128)) * 64 + (d.toNat - 128))

theorem utf8Sequence_char {aux : UInt8} {cum nbytes : ℕ} {rest r : List UInt8} {c : ℤ}
    (h : utf8Sequence aux cum nbytes rest = .char c r) :
    ∃ octets n, rest = octets ++ r ∧ octets.length = nbytes ∧ c = (n : ℕ) ∧
      utf8Continue cum octets = some n := by
  rw [utf8Sequence] at h
  by_cases hlen : rest.length < nbytes
  · rw [if_pos hlen] at h
    cases h
  · rw [if_neg hlen] at h
    refine ⟨rest.take nbytes, ?_⟩
    cases hn : utf8Continue cum (rest.take nbytes) with
    | none =>
      simp only [hn] at h
      cases h
    | some n =>
      simp only [hn] at h
      have hchar : (Scan.char n (rest.drop nbytes) : Scan) = .char c r := by
        split_ifs at h
        exact h
      cases hchar
      refine ⟨n, (List.take_append_drop nbytes rest).symm, ?_, rfl, rfl⟩
      rw [List.length_take]
      omega

theorem utf8Decoder_char {b r : List UInt8} {c : ℤ} (h : utf8Decoder b = .char c r) :
    ∃ w n, b = w ++ r ∧ c = (n : ℕ) ∧ Sequence w n := by
  rcases b with - | ⟨a, rest⟩
  · cases h
  · rw [utf8Decoder_toNat] at h
    by_cases h1 : a.toNat < 128
    · rw [if_pos h1] at h
      cases h
      exact ⟨[a], a.toNat, rfl, rfl, .one h1⟩
    rw [if_neg h1] at h
    by_cases h2 : a.toNat < 192
    · rw [if_pos h2] at h
      cases h
    rw [if_neg h2] at h
    by_cases h3 : a.toNat < 224
    · rw [if_pos h3] at h
      obtain ⟨octets, n, rfl, hlen, hc, hn⟩ := utf8Sequence_char h
      obtain ⟨b, rfl⟩ := List.length_eq_one_iff.mp hlen
      obtain ⟨hb, hb', hn⟩ := utf8Continue_cons hn
      cases hn
      refine ⟨[a, b], _, rfl, hc, ?_⟩
      convert Sequence.two ⟨by omega, h3⟩ ⟨hb, hb'⟩ using 1
      omega
    rw [if_neg h3] at h
    by_cases h4 : a.toNat < 240
    · rw [if_pos h4] at h
      obtain ⟨octets, n, rfl, hlen, hc, hn⟩ := utf8Sequence_char h
      obtain ⟨b, c', rfl⟩ := List.length_eq_two.mp hlen
      obtain ⟨hb, hb', hn⟩ := utf8Continue_cons hn
      obtain ⟨hc1, hc2, hn⟩ := utf8Continue_cons hn
      cases hn
      refine ⟨[a, b, c'], _, rfl, hc, ?_⟩
      convert Sequence.three ⟨by omega, h4⟩ ⟨hb, hb'⟩ ⟨hc1, hc2⟩ using 1
      omega
    rw [if_neg h4] at h
    by_cases h5 : a.toNat < 248
    · rw [if_pos h5] at h
      obtain ⟨octets, n, rfl, hlen, hc, hn⟩ := utf8Sequence_char h
      obtain ⟨b, c', d, rfl⟩ := List.length_eq_three.mp hlen
      obtain ⟨hb, hb', hn⟩ := utf8Continue_cons hn
      obtain ⟨hc1, hc2, hn⟩ := utf8Continue_cons hn
      obtain ⟨hd1, hd2, hn⟩ := utf8Continue_cons hn
      cases hn
      refine ⟨[a, b, c', d], _, rfl, hc, ?_⟩
      convert Sequence.four ⟨by omega, h5⟩ ⟨hb, hb'⟩ ⟨hc1, hc2⟩ ⟨hd1, hd2⟩ using 1
      omega
    · rw [if_neg h5] at h
      cases h

def ShortestLead : List UInt8 → Prop
  | a :: b :: _ :: _ :: _ => (a = 0xF0 → 0x90 ≤ b) ∧ a ≤ 0xF4 ∧ (a = 0xF4 → b < 0x90)
  | a :: b :: _ :: _ => a = 0xE0 → 0xA0 ≤ b
  | a :: _ :: _ => 0xC2 ≤ a
  | _ => True

theorem map_toNat_inj {l l' : List UInt8} : l.map UInt8.toNat = l'.map UInt8.toNat ↔ l = l' := by
  refine ⟨fun h => ?_, fun h => congrArg _ h⟩
  have hinj : Function.Injective UInt8.toNat := by
    intro a b hab
    exact UInt8.toNat_inj.mp hab
  exact hinj.list_map h

theorem sextets (x : ℕ) {y z : ℕ} (hy : y < 64) (hz : z < 64) :
    ((x * 64 + y) * 64 + z) / 4096 = x ∧ ((x * 64 + y) * 64 + z) / 64 = x * 64 + y ∧
      ((x * 64 + y) * 64 + z) / 64 % 64 = y ∧ ((x * 64 + y) * 64 + z) % 64 = z := by
  have hdiv : ((x * 64 + y) * 64 + z) / 64 = x * 64 + y := by omega
  refine ⟨?_, hdiv, ?_, ?_⟩
  · rw [show 4096 = 64 * 64 from rfl, ← Nat.div_div_eq_div_mul, hdiv]
    omega
  · rw [hdiv]
    omega
  · omega

def leastCode : ℕ → ℕ
  | 2 => 128
  | 3 => 2048
  | 4 => 65536
  | _ => 0

/-- A sequence is what the encoder writes, unless its code needs fewer octets. -/
theorem sequence_spelling {w : List UInt8} {n : ℕ} (h : Sequence w n) :
    leastCode w.length ≤ n ∧ utf8Encoder n = w ∨
      n < leastCode w.length ∧ (utf8Encoder n).length < w.length := by
  rw [← map_toNat_inj, ← @List.length_map _ _ (utf8Encoder n) UInt8.toNat, utf8Encoder_toNat]
  cases h with
  | one ha =>
    rw [if_pos ha]
    exact Or.inl ⟨Nat.zero_le _, rfl⟩
  | @two a b ha hb =>
    obtain ⟨x, hx⟩ := Nat.exists_eq_add_of_le ha.1
    obtain ⟨y, hy⟩ := Nat.exists_eq_add_of_le hb.1
    simp only [List.map_cons, List.map_nil, hx, hy, Nat.add_sub_cancel_left]
    have hx' : x < 32 := by omega
    have hy' : y < 64 := by omega
    rcases Nat.lt_or_ge (x * 64 + y) 128 with h1 | h1
    · rw [if_pos h1]
      exact Or.inr ⟨h1, Nat.lt_succ_self 1⟩
    · have hdiv : (x * 64 + y) / 64 = x ∧ (x * 64 + y) % 64 = y := by omega
      rw [if_neg (Nat.not_lt.mpr h1), if_pos (by omega), hdiv.1, hdiv.2]
      exact Or.inl ⟨h1, rfl⟩
  | @three a b c ha hb hc =>
    obtain ⟨x, hx⟩ := Nat.exists_eq_add_of_le ha.1
    obtain ⟨y, hy⟩ := Nat.exists_eq_add_of_le hb.1
    obtain ⟨z, hz⟩ := Nat.exists_eq_add_of_le hc.1
    simp only [List.map_cons, List.map_nil, hx, hy, hz, Nat.add_sub_cancel_left]
    have hx' : x < 16 := by omega
    have hy' : y < 64 := by omega
    have hz' : z < 64 := by omega
    obtain ⟨h12, -, h6, h0⟩ := sextets x hy' hz'
    rcases Nat.lt_or_ge ((x * 64 + y) * 64 + z) 2048 with h1 | h1
    · refine Or.inr ⟨h1, ?_⟩
      split_ifs
      · exact Nat.lt_of_sub_eq_succ rfl
      · exact Nat.lt_of_sub_eq_succ rfl
    · rw [if_neg (by omega), if_neg (Nat.not_lt.mpr h1), if_pos (by omega), h12, h6, h0]
      exact Or.inl ⟨h1, rfl⟩
  | @four a b c d ha hb hc hd =>
    obtain ⟨x, hx⟩ := Nat.exists_eq_add_of_le ha.1
    obtain ⟨y, hy⟩ := Nat.exists_eq_add_of_le hb.1
    obtain ⟨z, hz⟩ := Nat.exists_eq_add_of_le hc.1
    obtain ⟨u, hu⟩ := Nat.exists_eq_add_of_le hd.1
    simp only [List.map_cons, List.map_nil, hx, hy, hz, hu, Nat.add_sub_cancel_left]
    have hx' : x < 8 := by omega
    have hy' : y < 64 := by omega
    have hz' : z < 64 := by omega
    have hu' : u < 64 := by omega
    obtain ⟨h12, -, h6, h0⟩ := sextets (x * 64 + y) hz' hu'
    rcases Nat.lt_or_ge (((x * 64 + y) * 64 + z) * 64 + u) 65536 with h1 | h1
    · refine Or.inr ⟨h1, ?_⟩
      split_ifs
      · exact Nat.lt_of_sub_eq_succ rfl
      · exact Nat.lt_of_sub_eq_succ rfl
      · exact Nat.lt_of_sub_eq_succ rfl
    · have hdiv : (x * 64 + y) % 64 = y ∧ (((x * 64 + y) * 64 + z) * 64 + u) / 262144 = x := by
        rw [show 262144 = 4096 * 64 from rfl, ← Nat.div_div_eq_div_mul, h12]
        omega
      rw [if_neg (by omega), if_neg (by omega), if_neg (Nat.not_lt.mpr h1), if_pos (by omega),
        hdiv.2, h12, hdiv.1, h6, h0]
      exact Or.inl ⟨h1, rfl⟩

theorem encoder_eq_iff {w : List UInt8} {n : ℕ} (h : Sequence w n) :
    utf8Encoder n = w ↔ leastCode w.length ≤ n := by
  rcases sequence_spelling h with ⟨hle, heq⟩ | ⟨hlt, hshort⟩
  · exact iff_of_true heq hle
  · refine iff_of_false (fun heq => ?_) (by omega)
    rw [heq] at hshort
    omega

theorem sequence_shortest {w : List UInt8} {n : ℕ} (h : Sequence w n) :
    (n : ℤ) < charCodeLimit ∧ utf8Encoder n = w ↔ ShortestLead w := by
  have hlimit : (n : ℤ) < charCodeLimit ↔ n < 1114112 := by
    rw [charCodeLimit]
    omega
  rw [hlimit, encoder_eq_iff h]
  cases h with
  | one ha => exact ⟨fun _ => trivial, fun _ => ⟨by omega, Nat.zero_le _⟩⟩
  | @two a b ha hb =>
    have hlead : ShortestLead [a, b] ↔ 194 ≤ a.toNat := UInt8.le_iff_toNat_le
    rw [hlead]
    simp only [List.length_cons, List.length_nil, leastCode]
    omega
  | @three a b c ha hb hc =>
    have hlead : ShortestLead [a, b, c] ↔ (a.toNat = 224 → 160 ≤ b.toNat) := by
      simp only [ShortestLead, UInt8.le_iff_toNat_le, ← UInt8.toNat_inj]
      rfl
    rw [hlead]
    simp only [List.length_cons, List.length_nil, leastCode]
    omega
  | @four a b c d ha hb hc hd =>
    have hlead : ShortestLead [a, b, c, d] ↔ (a.toNat = 240 → 144 ≤ b.toNat) ∧ a.toNat ≤ 244 ∧
        (a.toNat = 244 → b.toNat < 144) := by
      simp only [ShortestLead, UInt8.le_iff_toNat_le, UInt8.lt_iff_toNat_lt, ← UInt8.toNat_inj]
      rfl
    rw [hlead]
    simp only [List.length_cons, List.length_nil, leastCode]
    omega

/-- The encoder never writes more octets than the decoder has read, and what it writes announces
its own length. -/
theorem sequence_encoder {w : List UInt8} {n : ℕ} (h : Sequence w n) (x : List UInt8) :
    utf8Extent (utf8Encoder n ++ x) = (utf8Encoder n).length := by
  have hmap := utf8Encoder_toNat n
  have hn : n < 2097152 := by
    cases h <;> omega
  have hlen := congrArg List.length hmap
  rw [List.length_map] at hlen
  rw [hlen]
  by_cases h1 : n < 128
  · rw [if_pos h1] at hmap ⊢
    obtain ⟨a, l, hw, ha, -⟩ := List.map_eq_cons_iff.mp hmap
    rw [hw, List.cons_append, utf8Extent_toNat, if_pos (by omega)]
    rfl
  rw [if_neg h1] at hmap ⊢
  by_cases h2 : n < 2048
  · rw [if_pos h2] at hmap ⊢
    obtain ⟨a, l, hw, ha, -⟩ := List.map_eq_cons_iff.mp hmap
    rw [hw, List.cons_append, utf8Extent_toNat, if_neg (by omega), if_pos (by omega)]
    rfl
  rw [if_neg h2] at hmap ⊢
  by_cases h3 : n < 65536
  · rw [if_pos h3] at hmap ⊢
    obtain ⟨a, l, hw, ha, -⟩ := List.map_eq_cons_iff.mp hmap
    rw [hw, List.cons_append, utf8Extent_toNat, if_neg (by omega), if_neg (by omega),
      if_pos (by omega)]
    rfl
  · rw [if_neg h3, if_pos hn] at hmap ⊢
    obtain ⟨a, l, hw, ha, -⟩ := List.map_eq_cons_iff.mp hmap
    rw [hw, List.cons_append, utf8Extent_toNat, if_neg (by omega), if_neg (by omega),
      if_neg (by omega), if_pos (by omega)]
    rfl

theorem sequence_extent {w : List UInt8} {n : ℕ} (h : Sequence w n) (x : List UInt8) :
    utf8Extent (w ++ x) = w.length := by
  cases h with
  | one ha => rw [List.cons_append, utf8Extent_toNat, if_pos (by omega)]; rfl
  | two ha hb => rw [List.cons_append, utf8Extent_toNat, if_neg (by omega), if_pos (by omega)]; rfl
  | three ha hb hc =>
    rw [List.cons_append, utf8Extent_toNat, if_neg (by omega), if_neg (by omega),
      if_pos (by omega)]
    rfl
  | four ha hb hc hd =>
    rw [List.cons_append, utf8Extent_toNat, if_neg (by omega), if_neg (by omega),
      if_neg (by omega), if_pos (by omega)]
    rfl

theorem encoder_append_inj {w x y : List UInt8} {n : ℕ} (h : Sequence w n)
    (heq : utf8Encoder n ++ x = w ++ y) : utf8Encoder n = w ∧ x = y := by
  have hlen := (sequence_encoder h x).symm.trans
    ((congrArg utf8Extent heq).trans (sequence_extent h y))
  exact List.append_inj heq hlen

/-- Octets in shortest forms of codes of Unicode, a whole sequence at the end too. What the
decoder checks anyway is left out: the continuation octets and the surrogates. -/
inductive Shortest : List UInt8 → Prop
  | nil : Shortest []
  | one {a l} (ha : a < 0x80) (hl : Shortest l) : Shortest (a :: l)
  | two {a b l} (ha : 0xC2 ≤ a ∧ a < 0xE0) (hl : Shortest l) : Shortest (a :: b :: l)
  | three {a b c l} (ha : 0xE0 ≤ a ∧ a < 0xF0) (hb : a = 0xE0 → 0xA0 ≤ b) (hl : Shortest l) :
    Shortest (a :: b :: c :: l)
  | four {a b c d l} (ha : 0xF0 ≤ a ∧ a ≤ 0xF4) (hb : a = 0xF0 → 0x90 ≤ b)
    (hb' : a = 0xF4 → b < 0x90) (hl : Shortest l) : Shortest (a :: b :: c :: d :: l)

theorem shortest_append {w r : List UInt8} {n : ℕ} (h : Sequence w n) :
    Shortest (w ++ r) ↔ ShortestLead w ∧ Shortest r := by
  -- the first octet says which rule has been used
  have hlead : ∀ {x y : UInt8}, x ≤ y ↔ x.toNat ≤ y.toNat := UInt8.le_iff_toNat_le
  have hlead' : ∀ {x y : UInt8}, x < y ↔ x.toNat < y.toNat := UInt8.lt_iff_toNat_lt
  cases h with
  | one ha =>
    constructor
    · intro h
      cases h with
      | one ha hl => exact ⟨trivial, hl⟩
      | two ha' hl | three ha' hb hl | four ha' hb hb' hl =>
        exact absurd (hlead.mp ha'.1) (by simp; omega)
    · rintro ⟨-, hl⟩
      exact .one (hlead'.mpr ha) hl
  | two ha hb =>
    constructor
    · intro h
      cases h with
      | one ha' hl => exact absurd (hlead'.mp ha') (by simp; omega)
      | two ha' hl => exact ⟨ha'.1, hl⟩
      | three ha' hb hl | four ha' hb hb' hl => exact absurd (hlead.mp ha'.1) (by simp; omega)
    · rintro ⟨hw, hl⟩
      exact .two ⟨hw, hlead'.mpr ha.2⟩ hl
  | three ha hb hc =>
    constructor
    · intro h
      cases h with
      | one ha' hl => exact absurd (hlead'.mp ha') (by simp; omega)
      | two ha' hl => exact absurd (hlead'.mp ha'.2) (by simp; omega)
      | three ha' hb hl => exact ⟨hb, hl⟩
      | four ha' hb hb' hl => exact absurd (hlead.mp ha'.1) (by simp; omega)
    · rintro ⟨hw, hl⟩
      exact .three ⟨hlead.mpr ha.1, hlead'.mpr ha.2⟩ hw hl
  | four ha hb hc hd =>
    constructor
    · intro h
      cases h with
      | one ha' hl => exact absurd (hlead'.mp ha') (by simp; omega)
      | two ha' hl | three ha' hb hl => exact absurd (hlead'.mp ha'.2) (by simp; omega)
      | four ha' hb hb' hl => exact ⟨⟨hb, ha'.2, hb'⟩, hl⟩
    · rintro ⟨⟨hw, hw', hw''⟩, hl⟩
      exact .four ⟨hlead.mpr ha.1, hw'⟩ hw hw'' hl

theorem not_shortest_of_short {b : List UInt8} (hb : b ≠ []) (h : b.length < utf8Extent b) :
    ¬ Shortest b := by
  intro hs
  cases hs with
  | nil => exact hb rfl
  | one ha hl =>
    have ha := UInt8.lt_iff_toNat_lt.mp ha
    rw [utf8Extent_toNat, if_pos (by simp at ha; omega), List.length_cons] at h
    omega
  | two ha hl =>
    have ha := UInt8.lt_iff_toNat_lt.mp ha.2
    rw [utf8Extent_toNat, List.length_cons, List.length_cons] at h
    simp at ha
    split_ifs at h <;> omega
  | three ha hb hl =>
    have ha := UInt8.lt_iff_toNat_lt.mp ha.2
    rw [utf8Extent_toNat, List.length_cons, List.length_cons, List.length_cons] at h
    simp at ha
    split_ifs at h <;> omega
  | four ha hb hb' hl =>
    simp only [List.length_cons] at h
    exact absurd (Nat.lt_of_lt_of_le h (utf8Extent_pos _).2) (by omega)

theorem decoder_utf8_item {b r : List UInt8} {c : ℤ} {format : ExternalFormat}
    (h : decoder unwinding .utf8 b = .item c format r) :
    format = .utf8 ∧ utf8Decoder b = .char c r := by
  rw [decoder_eq unwinding_decisive, marked_eq_step (fun _ => rfl)] at h
  exact plain_unwinding h

theorem utf8_items (b : List UInt8) :
    eof ∉ (text (decoder unwinding) .utf8 b).items := by
  have hitems : ∀ c ∈ (run (decoder unwinding) (b.length + 1) .utf8 b).items, 0 ≤ c := by
    refine run_items (I := (· = .utf8)) (P := (0 ≤ ·)) ?_ rfl
    rintro s b c s' r rfl h
    obtain ⟨rfl, hscan⟩ := decoder_utf8_item h
    obtain ⟨w, n, -, rfl, -⟩ := utf8Decoder_char hscan
    exact ⟨Int.natCast_nonneg n, rfl⟩
  exact fun h => absurd (hitems eof h) (by decide)

theorem text_strict_iff {b : List UInt8} {chars : List ℤ}
    (h : text (decoder unwinding) .utf8 b = ⟨chars, none⟩) :
    (∀ c ∈ chars, c < charCodeLimit) ∧ chars.flatMap utf8Encoder = b ↔ Shortest b := by
  have hlaw := decoder_lawful unwinding_decisive
  induction chars generalizing b with
  | nil =>
    cases hb : decoder unwinding .utf8 b with
    | stop e =>
      rw [text_of_stop hb] at h
      cases h
    | item c s r =>
      rw [text_of_item hlaw hb] at h
      cases h
    | more s r =>
      rw [decoder_eq unwinding_decisive, marked_eq_step (fun _ => rfl)] at hb
      obtain ⟨-, -, hshort⟩ := plain_more unwinding_decisive hb
      by_cases hnil : b = []
      · subst hnil
        exact ⟨fun _ => .nil, fun _ => ⟨fun c hc => absurd hc List.not_mem_nil, rfl⟩⟩
      · -- the octets at the end are dropped
        refine ⟨fun h => absurd h.2.symm hnil, fun h => ?_⟩
        exact absurd h (not_shortest_of_short hnil hshort)
  | cons c chars ih =>
    cases hb : decoder unwinding .utf8 b with
    | stop e =>
      rw [text_of_stop hb] at h
      cases h
    | more s r =>
      rw [text_of_more hb] at h
      cases h
    | item c' s r =>
      obtain ⟨rfl, hscan⟩ := decoder_utf8_item hb
      obtain ⟨w, n, rfl, rfl, hseq⟩ := utf8Decoder_char hscan
      rw [text_of_item hlaw hb] at h
      obtain ⟨rfl, hrest⟩ := Text.cons_inj (u := ⟨chars, none⟩).mp h
      rw [shortest_append hseq, ← sequence_shortest hseq]
      refine Iff.trans ?_ (and_congr_right' (ih hrest))
      constructor
      · rintro ⟨hlt, heq⟩
        obtain ⟨henc, hflat⟩ := encoder_append_inj hseq heq
        exact ⟨⟨hlt _ List.mem_cons_self, henc⟩,
          fun c hc => hlt c (List.mem_cons_of_mem _ hc), hflat⟩
      · rintro ⟨⟨hlt, henc⟩, hlts, hflat⟩
        refine ⟨?_, ?_⟩
        · intro c hc
          rcases List.mem_cons.mp hc with rfl | hc
          · exact hlt
          · exact hlts c hc
        · rw [List.flatMap_cons, henc, hflat]

/-- Decoding without a call of the handler is strict exactly for the shortest forms: overlong
sequences, codes above the limit and an incomplete sequence at the end of the input are all
accepted. -/
theorem decoding_is_strict_iff (kind : StreamKind) (bytes : List UInt8) (chars : List ℤ)
    (h : readAll unwinding (openInput kind .utf8 .lf bytes) = ⟨chars, none⟩) :
    (∀ c ∈ chars, c < charCodeLimit) ∧ chars.flatMap utf8Encoder = bytes ↔ Shortest bytes := by
  rw [readAll_openInput unwinding_decisive kind .utf8 .lf bytes (utf8_items bytes)] at h
  exact text_strict_iff h

/-- Text with a character of each length. -/
theorem decoding_is_strict_text :
    readAll unwinding (openInput .file .utf8 .lf [0x41, 0xC3, 0xA9, 0xE2, 0x82, 0xAC]) =
        ⟨[0x41, 0xE9, 0x20AC], none⟩ ∧
      ((∀ c ∈ [0x41, 0xE9, 0x20AC], c < charCodeLimit) ∧
        [0x41, 0xE9, 0x20AC].flatMap utf8Encoder = [0x41, 0xC3, 0xA9, 0xE2, 0x82, 0xAC] ↔
        Shortest [0x41, 0xC3, 0xA9, 0xE2, 0x82, 0xAC]) := by
  have h : readAll unwinding (openInput .file .utf8 .lf [0x41, 0xC3, 0xA9, 0xE2, 0x82, 0xAC]) =
      ⟨[0x41, 0xE9, 0x20AC], none⟩ := by decide +kernel
  exact ⟨h, decoding_is_strict_iff .file _ _ h⟩

/-- An overlong A, a code beyond the limit and half a character at the end are read without a
call of the handler, and other octets are written for them. -/
theorem loose_octets_accepted :
    readAll unwinding (openInput .file .utf8 .lf [0xC1, 0x81, 0xF4, 0x90, 0x80, 0x80, 0xE2, 0x82]) =
        ⟨[0x41, 0x110000], none⟩ ∧
      charCodeLimit ≤ 0x110000 ∧
      [0x41, 0x110000].flatMap utf8Encoder = [0x41, 0xF4, 0x90, 0x80, 0x80] := by
  decide +kernel

end Utf8Decoding
