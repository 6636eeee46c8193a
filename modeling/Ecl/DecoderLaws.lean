import Ecl.ExternalFormats

/-! What the decoders make of octets that arrive one unit after the other, as long as the handler
of decoding errors does not ask for the next character. -/
namespace DecoderLaws

open ExternalFormats IncrementalDecoding

def ucs2Extent (order : ByteOrder) : List UInt8 → ℕ
  | b0 :: b1 :: _ => if (word (order.arrange [b0, b1]) >>> 8) &&& 0xFC = 0xD8 then 4 else 2
  | _ => 2

def utf8Extent : List UInt8 → ℕ
  | [] => 1
  | aux :: _ =>
    if aux &&& 0x80 = 0 then 1
    else if aux &&& 0x40 = 0 then 1
    else if aux &&& 0x20 = 0 then 2
    else if aux &&& 0x10 = 0 then 3
    else if aux &&& 0x08 = 0 then 4
    else 1

def extent : ExternalFormat → List UInt8 → ℕ
  | .latin1, _ | .usAscii, _ => 1
  | .utf8, b => utf8Extent b
  | .ucs2, b | .ucs2be, b => ucs2Extent .be b
  | .ucs2le, b => ucs2Extent .le b
  | .ucs4, _ | .ucs4be, _ | .ucs4le, _ => 4

theorem utf8Extent_pos (b : List UInt8) : 1 ≤ utf8Extent b ∧ utf8Extent b ≤ 4 := by
  rcases b with - | ⟨aux, rest⟩
  · exact ⟨Nat.le_refl 1, by simp [utf8Extent]⟩
  · rw [utf8Extent]
    split_ifs <;> decide

theorem ucs2Extent_eq (order : ByteOrder) (b : List UInt8) :
    ucs2Extent order b = 2 ∨ ucs2Extent order b = 4 := by
  rcases b with - | ⟨b0, - | ⟨b1, rest⟩⟩
  · exact .inl rfl
  · exact .inl rfl
  · rw [ucs2Extent]
    split_ifs
    · exact .inr rfl
    · exact .inl rfl

theorem extent_spec (format : ExternalFormat) (b : List UInt8) :
    byteSize format ∣ extent format b ∧ 0 < extent format b ∧ extent format b ≤ 4 := by
  have h2 : ∀ order, 2 ∣ ucs2Extent order b ∧ 0 < ucs2Extent order b ∧ ucs2Extent order b ≤ 4 := by
    intro order
    rcases ucs2Extent_eq order b with h | h <;> rw [h] <;> decide
  have h1 : 1 ∣ 1 ∧ 0 < 1 ∧ 1 ≤ 4 := by decide
  have h4 : 4 ∣ 4 ∧ 0 < 4 ∧ 4 ≤ 4 := by decide
  cases format with
  | latin1 => exact h1
  | usAscii => exact h1
  | utf8 => exact ⟨Nat.one_dvd _, utf8Extent_pos b⟩
  | ucs2 => exact h2 .be
  | ucs2be => exact h2 .be
  | ucs2le => exact h2 .le
  | ucs4 => exact h4
  | ucs4be => exact h4
  | ucs4le => exact h4

theorem extent_append {format : ExternalFormat} {b : List UInt8}
    (hb : byteSize format ≤ b.length) (x : List UInt8) :
    extent format (b ++ x) = extent format b := by
  have h2 : 2 ≤ b.length → ∀ order, ucs2Extent order (b ++ x) = ucs2Extent order b := by
    intro hlen order
    obtain ⟨b0, b1, rest, rfl⟩ : ∃ b0 b1 rest, b = b0 :: b1 :: rest := by
      rcases b with - | ⟨b0, - | ⟨b1, rest⟩⟩
      · simp at hlen
      · simp at hlen
      · exact ⟨b0, b1, rest, rfl⟩
    rfl
  cases format with
  | latin1 => rfl
  | usAscii => rfl
  | utf8 =>
    rcases b with - | ⟨aux, rest⟩
    · simp [byteSize] at hb
    · rfl
  | ucs2 => exact h2 hb .be
  | ucs2be => exact h2 hb .be
  | ucs2le => exact h2 hb .le
  | ucs4 => rfl
  | ucs4be => rfl
  | ucs4le => rfl

def Whole (format : ExternalFormat) (w : List UInt8) : Prop :=
  (∃ c, ∀ x, scan format (w ++ x) = .char c x) ∨ ∃ o, ∀ x, scan format (w ++ x) = .error o x

inductive Buffered (format : ExternalFormat) : List UInt8 → Prop
  | short {b} (hlen : b.length < extent format b) (hscan : scan format b = .eof) :
    Buffered format b
  | whole {w r} (hlen : w.length = extent format (w ++ r)) (hw : Whole format w) :
    Buffered format (w ++ r)

theorem ucs4_buffered {format : ExternalFormat} (order : ByteOrder)
    (hs : scan format = ucs4Word order) (he : ∀ b, extent format b = 4) (b : List UInt8) :
    Buffered format b := by
  rcases b with - | ⟨b0, - | ⟨b1, - | ⟨b2, - | ⟨b3, r⟩⟩⟩⟩
  · exact .short (by simp [he]) (by rw [hs]; rfl)
  · exact .short (by simp [he]) (by rw [hs]; rfl)
  · exact .short (by simp [he]) (by rw [hs]; rfl)
  · exact .short (by simp [he]) (by rw [hs]; rfl)
  · refine Buffered.whole (w := [b0, b1, b2, b3]) (he _).symm (.inl ?_)
    rw [hs]
    exact ⟨_, fun x => rfl⟩

theorem ucs2_buffered {format : ExternalFormat} (order : ByteOrder)
    (hs : scan format = ucs2Word order) (he : extent format = ucs2Extent order)
    (b : List UInt8) : Buffered format b := by
  rcases b with - | ⟨b0, - | ⟨b1, r⟩⟩
  · exact .short (by simp [he, ucs2Extent]) (by rw [hs]; rfl)
  · exact .short (by simp [he, ucs2Extent]) (by rw [hs]; rfl)
  · by_cases hhigh : (word (order.arrange [b0, b1]) >>> 8) &&& 0xFC = 0xD8
    · have hext : ∀ x, extent format (b0 :: b1 :: x) = 4 := by
        intro x
        rw [he, ucs2Extent, if_pos hhigh]
      rcases r with - | ⟨b2, - | ⟨b3, r⟩⟩
      · exact .short (by simp [hext]) ((congrFun hs _).trans (if_pos hhigh))
      · exact .short (by simp [hext]) ((congrFun hs _).trans (if_pos hhigh))
      · refine Buffered.whole (w := [b0, b1, b2, b3]) (hext _).symm ?_
        rw [Whole, hs]
        by_cases hlow : (word (order.arrange [b2, b3]) >>> 8) &&& 0xFC ≠ 0xDC
        · exact .inr ⟨[b0, b1, b2, b3], fun x => (if_pos hhigh).trans (if_pos hlow)⟩
        · exact .inl ⟨_, fun x => (if_pos hhigh).trans (if_neg hlow)⟩
    · refine Buffered.whole (w := [b0, b1]) ?_ (.inl ?_)
      · rw [he, List.cons_append, List.cons_append, ucs2Extent, if_neg hhigh]
        rfl
      · rw [hs]
        exact ⟨word (order.arrange [b0, b1]), fun x => if_neg hhigh⟩

theorem utf8Sequence_short {aux : UInt8} {cum nbytes : ℕ} {rest : List UInt8}
    (h : rest.length < nbytes) : utf8Sequence aux cum nbytes rest = .eof := by
  rw [utf8Sequence, if_pos h]

theorem utf8Sequence_whole (aux : UInt8) (cum : ℕ) {nbytes : ℕ} {octets : List UInt8}
    (h : octets.length = nbytes) :
    (∃ c, ∀ x, utf8Sequence aux cum nbytes (octets ++ x) = .char c x) ∨
      ∃ o, ∀ x, utf8Sequence aux cum nbytes (octets ++ x) = .error o x := by
  have hnot : ∀ x : List UInt8, ¬ (octets ++ x).length < nbytes := by
    intro x
    rw [List.length_append]
    omega
  have htake : ∀ x, (octets ++ x).take nbytes = octets := by
    intro x
    rw [← h, List.take_left]
  have hdrop : ∀ x, (octets ++ x).drop nbytes = x := by
    intro x
    rw [← h, List.drop_left]
  cases hc : utf8Continue cum octets with
  | none =>
    refine .inr ⟨aux :: octets, fun x => ?_⟩
    simp only [utf8Sequence, hnot, if_false, htake, hdrop, hc]
  | some c =>
    by_cases h1 : 0xD800 ≤ c ∧ c ≤ 0xDFFF
    · refine .inr ⟨aux :: octets, fun x => ?_⟩
      simp only [utf8Sequence, hnot, if_false, htake, hdrop, hc, if_pos h1]
    · by_cases h2 : 0xFFFE ≤ c ∧ c ≤ 0xFFFF
      · refine .inr ⟨aux :: octets, fun x => ?_⟩
        simp only [utf8Sequence, hnot, if_false, htake, hdrop, hc, if_neg h1, if_pos h2]
      · refine .inl ⟨c, fun x => ?_⟩
        simp only [utf8Sequence, hnot, if_false, htake, hdrop, hc, if_neg h1, if_neg h2]

theorem utf8_announced {aux : UInt8} (cum : ℕ) {n : ℕ} {rest : List UInt8}
    (hs : ∀ x, utf8Decoder (aux :: x) = utf8Sequence aux cum n x)
    (he : ∀ x, utf8Extent (aux :: x) = n + 1) : Buffered .utf8 (aux :: rest) := by
  by_cases hlen : rest.length < n
  · exact .short (Nat.lt_of_lt_of_eq (Nat.succ_lt_succ hlen) (he rest).symm)
      ((hs rest).trans (utf8Sequence_short hlen))
  · have hsplit : aux :: rest = (aux :: rest.take n) ++ rest.drop n := by
      rw [List.cons_append, List.take_append_drop]
    have hn : (rest.take n).length = n := by
      rw [List.length_take]
      omega
    rw [hsplit]
    refine Buffered.whole ?_ ?_
    · exact (congrArg (· + 1) hn).trans (he (rest.take n ++ rest.drop n)).symm
    · rcases utf8Sequence_whole aux cum hn with ⟨c, hc⟩ | ⟨o, ho⟩
      · exact .inl ⟨c, fun x => (hs _).trans (hc x)⟩
      · exact .inr ⟨o, fun x => (hs _).trans (ho x)⟩

theorem utf8_single {aux : UInt8} {rest : List UInt8} (he : ∀ x, utf8Extent (aux :: x) = 1)
    (hw : Whole .utf8 [aux]) : Buffered .utf8 (aux :: rest) :=
  Buffered.whole (w := [aux]) (he rest).symm hw

theorem utf8_buffered (b : List UInt8) : Buffered .utf8 b := by
  rcases b with - | ⟨aux, rest⟩
  · exact .short Nat.one_pos rfl
  · by_cases h80 : aux &&& 0x80 = 0
    · refine utf8_single ?_ (.inl ⟨aux.toNat, ?_⟩) <;> intro x
      · rw [utf8Extent, if_pos h80]
      · exact if_pos h80
    by_cases h40 : aux &&& 0x40 = 0
    · refine utf8_single ?_ (.inr ⟨[aux], ?_⟩) <;> intro x
      · rw [utf8Extent, if_neg h80, if_pos h40]
      · exact (if_neg h80).trans (if_pos h40)
    by_cases h20 : aux &&& 0x20 = 0
    · refine utf8_announced (aux &&& 0x1F).toNat (n := 1) ?_ ?_ <;> intro x
      · rw [utf8Decoder, if_neg h80, if_neg h40, if_pos h20]
      · rw [utf8Extent, if_neg h80, if_neg h40, if_pos h20]
    by_cases h10 : aux &&& 0x10 = 0
    · refine utf8_announced (aux &&& 0x0F).toNat (n := 2) ?_ ?_ <;> intro x
      · rw [utf8Decoder, if_neg h80, if_neg h40, if_neg h20, if_pos h10]
      · rw [utf8Extent, if_neg h80, if_neg h40, if_neg h20, if_pos h10]
    by_cases h08 : aux &&& 0x08 = 0
    · refine utf8_announced (aux &&& 0x07).toNat (n := 3) ?_ ?_ <;> intro x
      · rw [utf8Decoder, if_neg h80, if_neg h40, if_neg h20, if_neg h10, if_pos h08]
      · rw [utf8Extent, if_neg h80, if_neg h40, if_neg h20, if_neg h10, if_pos h08]
    · refine utf8_single ?_ (.inr ⟨[aux], ?_⟩) <;> intro x
      · rw [utf8Extent, if_neg h80, if_neg h40, if_neg h20, if_neg h10, if_neg h08]
      · rw [List.cons_append, List.nil_append, scan, utf8Decoder, if_neg h80, if_neg h40,
          if_neg h20, if_neg h10, if_neg h08]

theorem single_buffered {format : ExternalFormat} (hnil : scan format [] = .eof)
    (he : ∀ b, extent format b = 1) (hw : ∀ b, Whole format [b]) (b : List UInt8) :
    Buffered format b := by
  rcases b with - | ⟨b, rest⟩
  · exact .short (by rw [he]; exact Nat.one_pos) hnil
  · exact Buffered.whole (w := [b]) (he _).symm (hw b)

theorem buffered (format : ExternalFormat) (b : List UInt8) : Buffered format b := by
  cases format with
  | latin1 => exact single_buffered rfl (fun _ => rfl) (fun b => .inl ⟨b.toNat, fun _ => rfl⟩) b
  | usAscii =>
    refine single_buffered rfl (fun _ => rfl) ?_ b
    intro b
    by_cases h : 127 < b
    · exact .inr ⟨[b], fun x => if_pos h⟩
    · exact .inl ⟨b.toNat, fun x => if_neg h⟩
  | utf8 => exact utf8_buffered b
  | ucs2 => exact ucs2_buffered .be rfl rfl b
  | ucs2be => exact ucs2_buffered .be rfl rfl b
  | ucs2le => exact ucs2_buffered .le rfl rfl b
  | ucs4 | ucs4be => exact ucs4_buffered .be rfl (fun _ => rfl) b
  | ucs4le => exact ucs4_buffered .le rfl (fun _ => rfl) b

/-- No error is answered with NIL, which would have the decoder go on by itself. -/
def Decisive (handler : Handler) : Prop := ∀ octets, handler octets ≠ .ignore

section
variable {handler : Handler} {format : ExternalFormat}

/-- A decoder without marks; what an ignored error leads to is left open. -/
def plain (handler : Handler) (format : ExternalFormat) (buffer : List UInt8) : Decoded :=
  settle handler (fun format rest => .more format rest) format buffer (scan format buffer)

def Answered (handler : Handler) (format : ExternalFormat) (w : List UInt8) : Prop :=
  (∃ c, ∀ x, plain handler format (w ++ x) = .item c format x) ∨
    ∃ e, ∀ x, plain handler format (w ++ x) = .stop e

theorem Whole.answered (hd : Decisive handler) {w : List UInt8} (hw : Whole format w) :
    Answered handler format w := by
  rcases hw with ⟨c, hc⟩ | ⟨o, ho⟩
  · exact .inl ⟨c, fun x => by rw [plain, hc]; rfl⟩
  · cases ha : handler o.reverse with
    | ignore => exact absurd ha (hd _)
    | unwind => exact .inr ⟨o.reverse, fun x => by rw [plain, ho, settle, decodingError, ha]⟩
    | supply c => exact .inl ⟨c, fun x => by rw [plain, ho, settle, decodingError, ha]⟩

inductive PlainView (handler : Handler) (format : ExternalFormat) : List UInt8 → Prop
  | short {b} (hlen : b.length < extent format b) (hmore : plain handler format b = .more format b) :
    PlainView handler format b
  | whole {w r} (hlen : w.length = extent format (w ++ r)) (hw : Answered handler format w) :
    PlainView handler format (w ++ r)

theorem plain_view (hd : Decisive handler) (format : ExternalFormat) (b : List UInt8) :
    PlainView handler format b := by
  cases buffered format b with
  | short hlen hscan => exact .short hlen (by rw [plain, hscan]; rfl)
  | whole hlen hw => exact .whole hlen (hw.answered hd)

theorem plain_more (hd : Decisive handler) {b r : List UInt8} {format' : ExternalFormat}
    (h : plain handler format b = .more format' r) :
    format' = format ∧ r = b ∧ b.length < extent format b := by
  cases plain_view hd format b with
  | short hlen hmore =>
    cases hmore.symm.trans h
    exact ⟨rfl, rfl, hlen⟩
  | @whole w r' hlen hw =>
    rcases hw with ⟨c, hc⟩ | ⟨e, he⟩
    · cases (hc r').symm.trans h
    · cases (he r').symm.trans h

theorem more_of_short (hd : Decisive handler) {b : List UInt8} (h : b.length < extent format b) :
    plain handler format b = .more format b := by
  cases plain_view hd format b with
  | short hlen hmore => exact hmore
  | whole hlen hw =>
    rw [List.length_append] at h
    omega

theorem plain_item (hd : Decisive handler) {b r : List UInt8} {c : ℤ} {format' : ExternalFormat}
    (h : plain handler format b = .item c format' r) :
    format' = format ∧ ∃ w, b = w ++ r ∧ w.length = extent format b ∧
      ∀ x, plain handler format (w ++ x) = .item c format x := by
  cases plain_view hd format b with
  | short hlen hmore => cases hmore.symm.trans h
  | @whole w r' hlen hw =>
    rcases hw with ⟨c', hc⟩ | ⟨e, he⟩
    · cases (hc r').symm.trans h
      exact ⟨rfl, w, rfl, hlen, hc⟩
    · cases (he r').symm.trans h

theorem plain_stop (hd : Decisive handler) {b e : List UInt8}
    (h : plain handler format b = .stop e) (x : List UInt8) :
    plain handler format (b ++ x) = .stop e := by
  cases plain_view hd format b with
  | short hlen hmore => cases hmore.symm.trans h
  | @whole w r' hlen hw =>
    rcases hw with ⟨c', hc⟩ | ⟨e', he⟩
    · cases (hc r').symm.trans h
    · rw [List.append_assoc, he]
      exact (he r').symm.trans h

theorem add_unit_le {a e n : ℕ} (ha : n ∣ a) (he : n ∣ e) (h : a < e) : a + n ≤ e :=
  Nat.le_of_lt_add_of_dvd (Nat.add_lt_add_right h n) (Nat.dvd_add ha (Nat.dvd_refl n)) he

theorem byteSize_pos (format : ExternalFormat) : 0 < byteSize format := by
  cases format <;> decide

theorem unit_dvd (kind : StreamKind) (format : ExternalFormat) :
    kind.unit format ∣ byteSize format := by
  cases kind with
  | file => exact Nat.dvd_refl _
  | sequence => exact Nat.one_dvd _

theorem unit_pos (kind : StreamKind) (format : ExternalFormat) : 0 < kind.unit format :=
  Nat.pos_of_dvd_of_pos (unit_dvd kind format) (byteSize_pos format)

theorem unit_congr {format' : ExternalFormat} (kind : StreamKind)
    (h : byteSize format' = byteSize format) : kind.unit format' = kind.unit format := by
  cases kind with
  | file => exact h
  | sequence => rfl

theorem extent_room (kind : StreamKind) {b : List UInt8} (hlen : b.length < extent format b)
    (hdvd : kind.unit format ∣ b.length) (x : List UInt8) :
    b.length + kind.unit format ≤ extent format (b ++ x) := by
  have hunit := unit_dvd kind format
  by_cases hb : byteSize format ≤ b.length
  · rw [extent_append hb]
    exact add_unit_le hdvd (Nat.dvd_trans hunit (extent_spec format b).1) hlen
  · obtain ⟨hext, hpos, -⟩ := extent_spec format (b ++ x)
    exact Nat.le_trans (add_unit_le hdvd hunit (by omega)) (Nat.le_of_dvd hpos hext)

theorem extent_incomplete {kind : StreamKind} {b x : List UInt8} (hlen : b.length < extent format b)
    (hdvd : kind.unit format ∣ b.length) (hx : x.length < kind.unit format) :
    (b ++ x).length < extent format (b ++ x) := by
  have hroom := extent_room kind hlen hdvd x
  rw [List.length_append]
  omega

theorem extent_minimal {kind : StreamKind} {b x w r : List UInt8}
    (hlen : b.length < extent format b) (hdvd : kind.unit format ∣ b.length)
    (hx : x.length = kind.unit format) (hsplit : b ++ x = w ++ r)
    (hw : w.length = extent format (b ++ x)) : r = [] := by
  have htotal := congrArg List.length hsplit
  rw [List.length_append, List.length_append] at htotal
  have hroom := extent_room kind hlen hdvd x
  exact List.length_eq_zero_iff.mp (by omega)

theorem plain_lawful (hd : Decisive handler) (kind : StreamKind) :
    Lawful (plain handler) kind.unit 4 where
  item_append := by
    intro s b c s' r h x
    obtain ⟨rfl, w, rfl, -, hw⟩ := plain_item hd h
    rw [List.append_assoc, hw]
  stop_append := plain_stop hd
  more_append := by
    intro s b s' r h x
    obtain ⟨rfl, rfl, -⟩ := plain_more hd h
    rfl
  more_again := by
    intro s b s' r h
    obtain ⟨rfl, rfl, -⟩ := plain_more hd h
    exact h
  more_partial := by
    intro s b s' r h x hx hdvd
    obtain ⟨rfl, rfl, hlen⟩ := plain_more hd h
    exact ⟨s', r ++ x, more_of_short hd (extent_incomplete hlen hdvd hx)⟩
  more_unit := by
    intro s b s' r h
    obtain ⟨rfl, -, -⟩ := plain_more hd h
    rfl
  more_suffix := by
    intro s b s' r h
    obtain ⟨-, rfl, -⟩ := plain_more hd h
    exact List.suffix_refl r
  more_length := by
    intro s b s' r h
    obtain ⟨rfl, rfl, hlen⟩ := plain_more hd h
    exact ⟨Nat.lt_of_lt_of_le hlen (extent_spec s' r).2.2, 0, by rw [Nat.zero_mul, Nat.zero_add]⟩
  item_unit := by
    intro s b c s' r h
    obtain ⟨rfl, -⟩ := plain_item hd h
    rfl
  item_suffix := by
    intro s b c s' r h
    obtain ⟨-, w, rfl, -⟩ := plain_item hd h
    exact List.suffix_append w r
  item_length := by
    intro s b c s' r h
    obtain ⟨rfl, w, rfl, hw, -⟩ := plain_item hd h
    obtain ⟨hdvd, hpos, hle⟩ := extent_spec s' (w ++ r)
    obtain ⟨k, hk⟩ := Nat.dvd_trans (unit_dvd kind s') hdvd
    rw [List.length_append]
    refine ⟨by omega, k - 1, ?_⟩
    have hk0 : k ≠ 0 := by
      rintro rfl
      omega
    rw [Nat.sub_add_cancel (Nat.one_le_iff_ne_zero.mpr hk0), Nat.mul_comm, ← hk, hw]
  item_minimal := by
    intro s b c s' r x h hdvd hitem hx
    obtain ⟨-, -, hlen⟩ := plain_more hd h
    obtain ⟨rfl, w, hsplit, hw, -⟩ := plain_item hd hitem
    exact extent_minimal hlen hdvd hx hsplit hw
  step_nil s := more_of_short hd (extent_spec s []).2.1
  unit_pos := unit_pos kind

def formatSwitch : ExternalFormat → ℤ → Switch ExternalFormat
  | .ucs2, c => if c = eof then .stay else if c = 0xFEFF then .mark .ucs2be
    else if c = 0xFFFE then .mark .ucs2le else .turn .ucs2be
  | .ucs4, c => if c = eof then .stay else if c = 0xFEFF then .mark .ucs4be
    else if c = 0xFFFE0000 then .mark .ucs4le else .turn .ucs4be
  | _, _ => .stay

def Settled (format : ExternalFormat) : Prop := ∀ c, formatSwitch format c = .stay

theorem formatSwitch_cases (format : ExternalFormat) (c : ℤ) :
    formatSwitch format c = .stay ∧ (c = eof ∨ Settled format) ∨
      ∃ format', byteSize format' = byteSize format ∧ Settled format' ∧
        (formatSwitch format c = .turn format' ∨ formatSwitch format c = .mark format') := by
  cases format with
  | ucs2 =>
    simp only [formatSwitch]
    split_ifs with h
    · exact .inl ⟨rfl, .inl h⟩
    · exact .inr ⟨.ucs2be, rfl, fun _ => rfl, .inr rfl⟩
    · exact .inr ⟨.ucs2le, rfl, fun _ => rfl, .inr rfl⟩
    · exact .inr ⟨.ucs2be, rfl, fun _ => rfl, .inl rfl⟩
  | ucs4 =>
    simp only [formatSwitch]
    split_ifs with h
    · exact .inl ⟨rfl, .inl h⟩
    · exact .inr ⟨.ucs4be, rfl, fun _ => rfl, .inr rfl⟩
    · exact .inr ⟨.ucs4le, rfl, fun _ => rfl, .inr rfl⟩
    · exact .inr ⟨.ucs4be, rfl, fun _ => rfl, .inl rfl⟩
  | latin1 | usAscii | utf8 | ucs2be | ucs2le | ucs4be | ucs4le =>
    exact .inl ⟨rfl, .inr fun _ => rfl⟩

theorem formatSwitch_lawful (kind : StreamKind) : LawfulSwitch formatSwitch kind.unit where
  turn_unit := by
    intro s c t h
    rcases formatSwitch_cases s c with ⟨hc, -⟩ | ⟨t', hunit, -, hc | hc⟩
    · cases hc.symm.trans h
    · cases hc.symm.trans h
      exact unit_congr kind hunit
    · cases hc.symm.trans h
  mark_unit := by
    intro s c t h
    rcases formatSwitch_cases s c with ⟨hc, -⟩ | ⟨t', hunit, -, hc | hc⟩
    · cases hc.symm.trans h
    · cases hc.symm.trans h
    · cases hc.symm.trans h
      exact unit_congr kind hunit
  mark_stay := by
    intro s c t h
    rcases formatSwitch_cases s c with ⟨hc, -⟩ | ⟨t', -, hstay, hc | hc⟩
    · cases hc.symm.trans h
    · cases hc.symm.trans h
    · cases hc.symm.trans h
      exact hstay

theorem settle_decisive (hd : Decisive handler) (decode decode' : ExternalFormat → List UInt8 → Decoded)
    (b : List UInt8) (out : Scan) :
    settle handler decode format b out = settle handler decode' format b out := by
  cases out with
  | eof => rfl
  | char c rest => rfl
  | error octets rest =>
    rw [settle, settle, decodingError, decodingError]
    cases ha : handler octets.reverse with
    | ignore => exact absurd ha (hd _)
    | unwind => rfl
    | supply c => rfl

theorem settle_eq_plain (hd : Decisive handler) (decode : ExternalFormat → List UInt8 → Decoded)
    (b : List UInt8) : settle handler decode format b (scan format b) = plain handler format b :=
  settle_decisive hd _ _ b _

theorem markDecoder_eq (hd : Decisive handler) (decode : ExternalFormat → List UInt8 → Decoded)
    {be le : ExternalFormat} {swapped : ℤ}
    (hswitch : ∀ c, formatSwitch format c = if c = eof then .stay else if c = 0xFEFF then .mark be
      else if c = swapped then .mark le else .turn be) (b : List UInt8) :
    markDecoder handler decode format be le swapped b =
      marked (plain handler) formatSwitch format b := by
  rw [markDecoder, settle_eq_plain hd]
  cases hb : plain handler format b with
  | more s r => exact (marked_of_more hb).symm
  | stop e => exact (marked_of_stop hb).symm
  | item c s r =>
    simp only [settle_eq_plain hd]
    have hc := hswitch c
    by_cases h1 : c = eof
    · rw [if_pos h1] at hc ⊢
      exact (marked_of_stay hb hc).symm
    rw [if_neg h1] at hc ⊢
    by_cases h2 : c = 0xFEFF
    · rw [if_pos h2] at hc ⊢
      exact (marked_of_mark hb hc).symm
    rw [if_neg h2] at hc ⊢
    by_cases h3 : c = swapped
    · rw [if_pos h3] at hc ⊢
      exact (marked_of_mark hb hc).symm
    · rw [if_neg h3] at hc ⊢
      exact (marked_of_turn hb hc).symm

theorem decoder_eq (hd : Decisive handler) (format : ExternalFormat) (b : List UInt8) :
    decoder handler format b = marked (plain handler) formatSwitch format b := by
  rw [decoder, decoderLoop]
  cases format with
  | ucs2 | ucs4 => exact markDecoder_eq hd _ (fun _ => rfl) b
  | latin1 | usAscii | utf8 | ucs2be | ucs2le | ucs4be | ucs4le =>
    exact (settle_eq_plain hd _ b).trans (marked_eq_step (fun _ => rfl)).symm

theorem decoder_lawful_unit (hd : Decisive handler) (kind : StreamKind) :
    Lawful (decoder handler) kind.unit encodingBufferMaxSize := by
  have heq : decoder handler = marked (plain handler) formatSwitch := by
    funext format b
    exact decoder_eq hd format b
  rw [heq]
  exact (plain_lawful hd kind).marked (formatSwitch_lawful kind) (fun h => (plain_more hd h).1)

theorem decoder_lawful (hd : Decisive handler) :
    Lawful (decoder handler) byteSize encodingBufferMaxSize :=
  decoder_lawful_unit hd .file

theorem settled_item (hd : Decisive handler) {format' : ExternalFormat}
    {b r : List UInt8} {c : ℤ} (hs : Settled format)
    (h : decoder handler format b = .item c format' r) : format' = format := by
  rw [decoder_eq hd, marked_eq_step hs] at h
  exact (plain_item hd h).1

theorem settled_more (hd : Decisive handler) {format' : ExternalFormat}
    {b r : List UInt8} (hs : Settled format)
    (h : decoder handler format b = .more format' r) : format' = format ∧ r = b := by
  rw [decoder_eq hd, marked_eq_step hs] at h
  exact ⟨(plain_more hd h).1, (plain_more hd h).2.1⟩

theorem settled_after (hd : Decisive handler) {format' : ExternalFormat}
    {b r : List UInt8} {c : ℤ} (hc : c ≠ eof)
    (h : decoder handler format b = .item c format' r) : Settled format' := by
  rw [decoder_eq hd] at h
  rcases item_of_marked h with ⟨s₁, hb, hswitch⟩ | ⟨c₁, s₁, r₁, t, hb, hmark, ht⟩
  · obtain ⟨hs₁, -⟩ := plain_item hd hb
    rcases formatSwitch_cases format c with ⟨hstay, heof | hsettled⟩ | ⟨t, -, hsettled, hturn | hmark⟩
    · exact absurd heof hc
    · rcases hswitch with ⟨-, rfl⟩ | hturn
      · rw [hs₁]
        exact hsettled
      · cases hstay.symm.trans hturn
    · rcases hswitch with ⟨hstay, -⟩ | hturn'
      · cases hstay.symm.trans hturn
      · cases hturn.symm.trans hturn'
        exact hsettled
    · rcases hswitch with ⟨hstay, -⟩ | hturn
      · cases hstay.symm.trans hmark
      · cases hmark.symm.trans hturn
  · obtain ⟨rfl, -⟩ := plain_item hd ht
    exact (formatSwitch_lawful .file).mark_stay hmark

end

end DecoderLaws
