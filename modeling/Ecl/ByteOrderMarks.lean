import Ecl.DecodedOctets
import Ecl.ResumedReading

/-! Byte order marks of ucs-2 and ucs-4 streams. -/
namespace ByteOrderMarks

open ExternalFormats IncrementalDecoding CharacterStreams DecoderLaws CharacterReading
  FormatRoundTrip DecodedOctets ResumedReading

inductive MarkedFormat where
  | ucs2 | ucs4
  deriving DecidableEq

namespace MarkedFormat

def format : MarkedFormat → ExternalFormat
  | ucs2 => .ucs2
  | ucs4 => .ucs4

def ordered : MarkedFormat → ByteOrder → ExternalFormat
  | ucs2, .be => .ucs2be
  | ucs2, .le => .ucs2le
  | ucs4, .be => .ucs4be
  | ucs4, .le => .ucs4le

/-- U+FEFF as a unit. -/
def mark : MarkedFormat → ByteOrder → List UInt8
  | ucs2, order => order.arrange [0xFE, 0xFF]
  | ucs4, order => order.arrange [0, 0, 0xFE, 0xFF]

end MarkedFormat

/-- A stream of the format reads the octets of the units, after their mark if there is one, like a
stream without marks. -/
def ReadsInOrder (handler : Handler) (kind : StreamKind) (lineEnding : LineEnding)
    (m : MarkedFormat) (mark : Option ByteOrder) (units : List UInt8) : Prop :=
  readAll handler (openInput kind m.format lineEnding (mark.elim [] m.mark ++ units)) =
    readAll handler (openInput kind (m.ordered (mark.getD .be)) lineEnding units)

def Leads (handler : Handler) (format : ExternalFormat) (w : List UInt8) (a : Answer) : Prop :=
  w.length = extent format w ∧ answer handler format (scan format w) = a

def Overrun (handler : Handler) (format : ExternalFormat) (b : List UInt8) : Prop :=
  ∃ w x r, b = w ++ (x ++ r) ∧ Leads handler format w (.skip format) ∧ x.length = 4 ∧
    x.length = extent format x ∧ ¬ Leads handler format x (.skip format)

def LateMark (handler : Handler) (format t : ExternalFormat) (b : List UInt8) : Prop :=
  ∃ w x r, b = w ++ (x ++ r) ∧ (w = [] ∨ Leads handler format w (.skip format)) ∧
    Leads handler format x (.skip t)

def InOrder (handler : Handler) (m : MarkedFormat) (units : List UInt8) : Option ByteOrder → Prop
  | none => ∀ t, t ≠ m.format → ¬ LateMark handler m.format t units
  | some order => ¬ (m = .ucs4 ∧ order = .le) ∧ ¬ Overrun handler (m.ordered order) units

variable {handler : Handler} {format : ExternalFormat}

theorem whole_extent {w r : List UInt8} :
    w.length = extent format (w ++ r) ↔ w.length = extent format w := by
  constructor
  · intro h
    obtain ⟨hdvd, hpos, -⟩ := extent_spec format (w ++ r)
    rw [← h] at hdvd hpos
    rw [h, extent_append (Nat.le_of_dvd hpos hdvd)]
  · intro h
    obtain ⟨hdvd, hpos, -⟩ := extent_spec format w
    rw [← h] at hdvd hpos
    rw [h, extent_append (Nat.le_of_dvd hpos hdvd)]

theorem characterAnswer_settled (hs : Settled format) (c : ℤ) :
    characterAnswer format c = if c = eof then .skip format else .deliver c format := by
  rw [characterAnswer, hs c]

theorem answer_settled (hs : Settled format) {out : Scan} {t : ExternalFormat}
    (h : answer handler format out = .skip t) : t = format := by
  have hchar : ∀ c, characterAnswer format c = .skip t → t = format := by
    intro c hc
    rw [characterAnswer_settled hs] at hc
    split_ifs at hc
    cases hc
    rfl
  cases out with
  | eof =>
    cases h
    rfl
  | char c rest => exact hchar c h
  | error octets rest =>
    rw [answer] at h
    cases ha : handler octets.reverse with
    | unwind =>
      rw [ha] at h
      cases h
    | ignore =>
      rw [ha] at h
      cases h
      rfl
    | supply c =>
      rw [ha] at h
      exact hchar c h

theorem ucs2_skip_length {order : ByteOrder} (hscan : scan format = ucs2Word order)
    (hextent : extent format = ucs2Extent order) {w : List UInt8}
    (h : Leads handler format w (.skip format)) : w.length = 4 := by
  obtain ⟨hlen, ha⟩ := h
  rw [hextent] at hlen
  rcases ucs2Extent_eq order w with he | he
  · exfalso
    rw [he] at hlen
    obtain ⟨b0, b1, rfl⟩ := List.length_eq_two.mp hlen
    have hlow : ¬ (word (order.arrange [b0, b1]) >>> 8) &&& 0xFC = 0xD8 := by
      intro hhigh
      rw [ucs2Extent, if_pos hhigh] at he
      cases he
    have hunit : ucs2Word order [b0, b1] = .char (word (order.arrange [b0, b1])) [] := if_neg hlow
    rw [hscan, hunit, answer, characterAnswer, if_neg (by simp [eof])] at ha
    rcases formatSwitch_cases format (word (order.arrange [b0, b1])) with
      ⟨hc, -⟩ | ⟨t, -, hs, hc | hc⟩
    · rw [hc] at ha
      cases ha
    · rw [hc] at ha
      cases ha
    · rw [hc] at ha
      cases ha
      cases (hs _).symm.trans hc
  · exact hlen.trans he

theorem MarkedFormat.skip_length (m : MarkedFormat) {w : List UInt8} {format : ExternalFormat}
    (hf : format = m.format ∨ ∃ order, format = m.ordered order)
    (h : Leads handler format w (.skip format)) : w.length = 4 := by
  cases m with
  | ucs2 =>
    rcases hf with rfl | ⟨order, rfl⟩
    · exact @ucs2_skip_length handler _ .be rfl rfl _ h
    · cases order with
      | be => exact @ucs2_skip_length handler _ .be rfl rfl _ h
      | le => exact @ucs2_skip_length handler _ .le rfl rfl _ h
  | ucs4 =>
    rcases hf with rfl | ⟨order, rfl⟩
    · exact h.1
    · cases order with
      | be => exact h.1
      | le => exact h.1

def IsMore (out : Decoded) : Prop := ∃ format rest, out = .more format rest

def SameRead (out out' : Decoded) : Prop := out = out' ∨ IsMore out ∧ IsMore out'

theorem isMore_short {room : ℕ} {b : List UInt8}
    (h : b.length < extent format b ∨ room < extent format b) :
    IsMore (readIn handler format room b) :=
  ⟨_, _, readIn_short h⟩

theorem readIn_room {room room' : ℕ} (hle : room ≤ room') (b : List UInt8) :
    IsMore (readIn handler format room b) ∨
      readIn handler format room b = readIn handler format room' b := by
  induction room using Nat.strong_induction_on generalizing format room' b with
  | _ room ih =>
    rcases front_cases format b with hshort | ⟨w, r, rfl, hw, -⟩
    · exact .inl (isMore_short (.inl hshort))
    · by_cases hroom : w.length ≤ room
      · have hpos := (extent_spec format (w ++ r)).2.1
        cases ha : answer handler format (scan format w) with
        | exit octets =>
          rw [readIn_exit hw hroom ha, readIn_exit hw (Nat.le_trans hroom hle) ha]
          exact .inr rfl
        | deliver c f =>
          rw [readIn_deliver hw hroom ha, readIn_deliver hw (Nat.le_trans hroom hle) ha]
          exact .inr rfl
        | skip f =>
          rw [readIn_skip hw hroom ha, readIn_skip hw (Nat.le_trans hroom hle) ha]
          exact ih (room - w.length) (by omega) (by omega) r
      · exact .inl (isMore_short (.inr (by omega)))

def MarkedFormat.room (m : MarkedFormat) : ℕ := encodingBufferMaxSize - byteSize m.format

theorem MarkedFormat.beyond_room (m : MarkedFormat) (order : ByteOrder) {x : List UInt8}
    (hx : x.length = extent (m.ordered order) x) (hroom : ¬ x.length ≤ m.room - 4) :
    x.length = 4 := by
  cases m with
  | ucs2 =>
    have hextent : extent (MarkedFormat.ordered .ucs2 order) x = ucs2Extent order x := by
      cases order <;> rfl
    rw [hextent] at hx
    rcases ucs2Extent_eq order x with h | h
    · exact absurd (show x.length ≤ 2 by omega) hroom
    · omega
  | ucs4 => cases order <;> exact hx

theorem MarkedFormat.ordered_settled (m : MarkedFormat) (order : ByteOrder) :
    Settled (m.ordered order) := by
  cases m <;> cases order <;> exact fun _ => rfl

theorem MarkedFormat.room_bounds (m : MarkedFormat) :
    4 ≤ m.room ∧ m.room - 4 < 4 ∧ m.room ≤ encodingBufferMaxSize := by
  cases m <;> decide

section
variable {m : MarkedFormat} {order : ByteOrder} {b : List UInt8}

theorem overrun_reads (h : Overrun handler (m.ordered order) b) :
    IsMore (readIn handler (m.ordered order) m.room b) ∧
      ¬ IsMore (firstRead handler (m.ordered order) b) := by
  obtain ⟨w, x, r, rfl, hskip, hfour, hx, hother⟩ := h
  have hw := m.skip_length (.inr ⟨order, rfl⟩) hskip
  have hwhole := (whole_extent (r := x ++ r)).mpr hskip.1
  have hwhole' := (whole_extent (r := r)).mpr hx
  obtain ⟨h4, hsmall, -⟩ := m.room_bounds
  constructor
  · rw [readIn_skip hwhole (by omega) hskip.2]
    exact isMore_short (.inr (by omega))
  · rw [firstRead, readIn_skip hwhole (by rw [hw]; decide) hskip.2, hw]
    have hroom : x.length ≤ encodingBufferMaxSize - 4 := by
      rw [hfour]
      decide
    rintro ⟨f, rest, heq⟩
    cases ha : answer handler (m.ordered order) (scan (m.ordered order) x) with
    | exit octets =>
      rw [readIn_exit hwhole' hroom ha] at heq
      cases heq
    | deliver c f =>
      rw [readIn_deliver hwhole' hroom ha] at heq
      cases heq
    | skip f =>
      rw [answer_settled (m.ordered_settled order) ha] at ha
      exact hother ⟨hx, ha⟩

theorem reads_unless_overrun (h : ¬ Overrun handler (m.ordered order) b) :
    SameRead (readIn handler (m.ordered order) m.room b) (firstRead handler (m.ordered order) b) := by
  obtain ⟨h4, hsmall, hle⟩ := m.room_bounds
  rcases @readIn_room handler (m.ordered order) _ _ hle b with hmore | heq
  · refine .inr ⟨hmore, ?_⟩
    rcases front_cases (m.ordered order) b with hshort | ⟨w, y, rfl, hw, -⟩
    · exact isMore_short (.inl hshort)
    · have hfour := (extent_spec (m.ordered order) (w ++ y)).2.2
      have hroom : w.length ≤ m.room := by omega
      cases ha : answer handler (m.ordered order) (scan (m.ordered order) w) with
      | exit octets =>
        rw [readIn_exit hw hroom ha] at hmore
        obtain ⟨f, rest, heq⟩ := hmore
        cases heq
      | deliver c f =>
        rw [readIn_deliver hw hroom ha] at hmore
        obtain ⟨f, rest, heq⟩ := hmore
        cases heq
      | skip f =>
        obtain rfl := answer_settled (m.ordered_settled order) ha
        have hskip : Leads handler (m.ordered order) w (.skip (m.ordered order)) :=
          ⟨whole_extent.mp hw, ha⟩
        have hlen := m.skip_length (.inr ⟨order, rfl⟩) hskip
        rw [readIn_skip hw hroom ha, hlen] at hmore
        rw [firstRead, readIn_skip hw (Nat.le_trans hroom hle) ha, hlen]
        -- the next sequence
        rcases front_cases (m.ordered order) y with hshort | ⟨x, r, rfl, hx, -⟩
        · exact isMore_short (.inl hshort)
        · have hx' := whole_extent.mp hx
          by_cases hfit : x.length ≤ m.room - 4
          · cases hax : answer handler (m.ordered order) (scan (m.ordered order) x) with
            | exit octets =>
              rw [readIn_exit hx hfit hax] at hmore
              obtain ⟨f, rest, heq⟩ := hmore
              cases heq
            | deliver c f =>
              rw [readIn_deliver hx hfit hax] at hmore
              obtain ⟨f, rest, heq⟩ := hmore
              cases heq
            | skip f =>
              obtain rfl := answer_settled (m.ordered_settled order) hax
              have hxfour := m.skip_length (.inr ⟨order, rfl⟩) ⟨hx', hax⟩
              omega
          · have hxfour := m.beyond_room order hx' hfit
            have hskip' : Leads handler (m.ordered order) x (.skip (m.ordered order)) := by
              by_contra hother
              exact h ⟨w, x, r, rfl, hskip, hxfour, hx', hother⟩
            rw [readIn_skip hx (by rw [hxfour]; decide) hskip'.2, hxfour]
            apply isMore_short
            right
            exact (extent_spec (m.ordered order) r).2.1
  · exact .inl heq

theorem marked_first (h : ¬ (m = .ucs4 ∧ order = .le)) :
    firstRead handler m.format (m.mark order ++ b) = readIn handler (m.ordered order) m.room b := by
  have hlen : (m.mark order).length = byteSize m.format := by
    cases m <;> cases order <;> rfl
  have hwhole : (m.mark order).length = extent m.format (m.mark order) := by
    cases m <;> cases order <;> rfl
  have hans : answer handler m.format (scan m.format (m.mark order)) = .skip (m.ordered order) := by
    cases m with
    | ucs2 => cases order <;> rfl
    | ucs4 =>
      cases order with
      | be => rfl
      | le => exact absurd ⟨rfl, rfl⟩ h
  rw [firstRead, readIn_skip (whole_extent.mpr hwhole) (by rw [hlen]; cases m <;> decide) hans, hlen]
  rfl

theorem formatSwitch_marked {c : ℤ} (hc : c ≠ eof) :
    formatSwitch m.format c = .turn (m.ordered .be) ∨
      ∃ t, t ≠ m.format ∧ formatSwitch m.format c = .mark t := by
  cases m with
  | ucs2 =>
    by_cases hbe : c = 0xFEFF
    · exact .inr ⟨.ucs2be, by decide, (if_neg hc).trans (if_pos hbe)⟩
    · by_cases hle : c = 0xFFFE
      · exact .inr ⟨.ucs2le, by decide, (if_neg hc).trans ((if_neg hbe).trans (if_pos hle))⟩
      · exact .inl ((if_neg hc).trans ((if_neg hbe).trans (if_neg hle)))
  | ucs4 =>
    by_cases hbe : c = 0xFEFF
    · exact .inr ⟨.ucs4be, by decide, (if_neg hc).trans (if_pos hbe)⟩
    · by_cases hle : c = 0xFFFE0000
      · exact .inr ⟨.ucs4le, by decide, (if_neg hc).trans ((if_neg hbe).trans (if_pos hle))⟩
      · exact .inl ((if_neg hc).trans ((if_neg hbe).trans (if_neg hle)))

inductive Beside (m : MarkedFormat) : Answer → Answer → Prop
  | exit (octets) : Beside m (.exit octets) (.exit octets)
  | deliver (c) : Beside m (.deliver c (m.ordered .be)) (.deliver c (m.ordered .be))
  | skip : Beside m (.skip m.format) (.skip (m.ordered .be))
  | mark {t c} (ht : t ≠ m.format) (hc : formatSwitch m.format c = .mark t) :
    Beside m (.skip t) (.deliver c (m.ordered .be))

theorem characterAnswer_beside (c : ℤ) :
    Beside m (characterAnswer m.format c) (characterAnswer (m.ordered .be) c) := by
  rw [characterAnswer_settled (m.ordered_settled .be), characterAnswer]
  by_cases hc : c = eof
  · rw [if_pos hc, if_pos hc]
    exact .skip
  · rw [if_neg hc, if_neg hc]
    rcases formatSwitch_marked hc with h | ⟨t, ht, h⟩
    · rw [h]
      exact .deliver c
    · rw [h]
      exact .mark ht h

theorem answer_beside (out : Scan) :
    Beside m (answer handler m.format out) (answer handler (m.ordered .be) out) := by
  cases out with
  | eof => exact .skip
  | char c rest => exact characterAnswer_beside c
  | error octets rest =>
    simp only [answer]
    cases handler octets.reverse with
    | unwind => exact .exit _
    | ignore => exact .skip
    | supply c => exact characterAnswer_beside c

theorem MarkedFormat.same_scan (m : MarkedFormat) :
    scan (m.ordered .be) = scan m.format ∧ extent (m.ordered .be) = extent m.format := by
  cases m <;> exact ⟨rfl, rfl⟩

theorem read_beside {room : ℕ}
    (hlate : ∀ w r t, b = w ++ r → t ≠ m.format → ¬ Leads handler m.format w (.skip t))
    (hskip : ∀ w r, b = w ++ r → Leads handler m.format w (.skip m.format) →
      SameRead (readIn handler m.format (room - w.length) r)
        (readIn handler (m.ordered .be) (room - w.length) r)) :
    SameRead (readIn handler m.format room b) (readIn handler (m.ordered .be) room b) := by
  obtain ⟨hscan, hextent⟩ := m.same_scan
  rcases front_cases m.format b with hshort | ⟨w, r, rfl, hw, -⟩
  · exact .inr ⟨isMore_short (.inl hshort), isMore_short (.inl (by rwa [hextent]))⟩
  · have hw' : w.length = extent (m.ordered .be) (w ++ r) := by rwa [hextent]
    by_cases hfit : w.length ≤ room
    · have hbeside := @answer_beside handler m (scan m.format w)
      generalize ha : answer handler m.format (scan m.format w) = a at hbeside
      generalize ha' : answer handler (m.ordered .be) (scan m.format w) = a' at hbeside
      rw [← hscan] at ha'
      cases hbeside with
      | exit octets =>
        rw [readIn_exit hw hfit ha, readIn_exit hw' hfit ha']
        exact .inl rfl
      | deliver c =>
        rw [readIn_deliver hw hfit ha, readIn_deliver hw' hfit ha']
        exact .inl rfl
      | skip =>
        rw [readIn_skip hw hfit ha, readIn_skip hw' hfit ha']
        exact hskip w r rfl ⟨whole_extent.mp hw, ha⟩
      | @mark t c ht hc => exact absurd ⟨whole_extent.mp hw, ha⟩ (hlate w r t rfl ht)
    · exact .inr ⟨isMore_short (.inr (by omega)), isMore_short (.inr (by omega))⟩

theorem read_unmarked (h : ∀ t, t ≠ m.format → ¬ LateMark handler m.format t b) :
    SameRead (firstRead handler m.format b) (firstRead handler (m.ordered .be) b) := by
  apply read_beside
  · rintro w r t rfl ht hw
    exact h t ht ⟨[], w, r, rfl, .inl rfl, hw⟩
  · rintro w b rfl hw
    have hfour := m.skip_length (.inl rfl) hw
    apply read_beside
    · rintro x r t rfl ht hx
      exact h t ht ⟨w, x, r, rfl, .inr hw, hx⟩
    · rintro x r rfl hx
      -- the buffer is full
      have hfour' := m.skip_length (.inl rfl) hx
      rw [hfour, hfour']
      exact .inr ⟨isMore_short (.inr (extent_spec _ r).2.1), isMore_short (.inr (extent_spec _ r).2.1)⟩

theorem answer_of_mark {out : Scan} {t : ExternalFormat} (ht : t ≠ m.format)
    (h : answer handler m.format out = .skip t) :
    ∃ c, formatSwitch m.format c = .mark t ∧
      answer handler (m.ordered .be) out = .deliver c (m.ordered .be) := by
  have hbeside := @answer_beside handler m out
  generalize answer handler (m.ordered .be) out = a at hbeside
  rw [h] at hbeside
  cases hbeside with
  | skip => exact absurd rfl ht
  | @mark _ c _ hc => exact ⟨c, hc, rfl⟩

theorem mark_be {c : ℤ} (h : formatSwitch m.format c = .mark (m.ordered .be)) : c = 0xFEFF := by
  cases m with
  | ucs2 | ucs4 =>
    simp only [MarkedFormat.format, formatSwitch] at h
    split_ifs at h with h1 h2 h3
    · exact h2
    · cases h

theorem mark_reads {room : ℕ} {x r : List UInt8}
    (hx : Leads handler m.format x (.skip (m.ordered .be))) (hroom : x.length ≤ room) :
    readIn handler m.format room (x ++ r) = readIn handler (m.ordered .be) (room - x.length) r ∧
      readIn handler (m.ordered .be) room (x ++ r) = .item 0xFEFF (m.ordered .be) r := by
  obtain ⟨hscan, hextent⟩ := m.same_scan
  have hwhole := (whole_extent (r := r)).mpr hx.1
  have ht : m.ordered .be ≠ m.format := by cases m <;> decide
  obtain ⟨c, hc, ha⟩ := answer_of_mark ht hx.2
  rw [← hscan, mark_be hc] at ha
  exact ⟨readIn_skip hwhole hroom hx.2, readIn_deliver (by rwa [hextent]) hroom ha⟩

theorem lateMark_reads (h : LateMark handler m.format (m.ordered .be) b) :
    ∃ room ≤ encodingBufferMaxSize, ∃ r, r.length < b.length ∧
      firstRead handler m.format b = readIn handler (m.ordered .be) room r ∧
      firstRead handler (m.ordered .be) b = .item 0xFEFF (m.ordered .be) r := by
  obtain ⟨hscan, hextent⟩ := m.same_scan
  obtain ⟨w, x, r, rfl, hw, hx⟩ := h
  have hpos := (extent_spec m.format x).2.1
  have hfour := (extent_spec m.format x).2.2
  rw [← hx.1] at hpos hfour
  have hsize : encodingBufferMaxSize = 8 := rfl
  rcases hw with rfl | hw
  · obtain ⟨hread, hbe⟩ := @mark_reads _ _ encodingBufferMaxSize x r hx (by omega)
    exact ⟨_, Nat.sub_le _ _, r, by simp; omega, hread, hbe⟩
  · have hlen := m.skip_length (.inl rfl) hw
    have hwhole := (whole_extent (r := x ++ r)).mpr hw.1
    have hskip : answer handler (m.ordered .be) (scan (m.ordered .be) w) = .skip (m.ordered .be) := by
      have hbeside := @answer_beside handler m (scan m.format w)
      rw [hw.2] at hbeside
      rw [hscan]
      generalize answer handler (m.ordered .be) (scan m.format w) = a at hbeside
      cases hbeside with
      | skip => rfl
      | mark ht hc => exact absurd rfl ht
    obtain ⟨hread, hbe⟩ := @mark_reads _ _ (encodingBufferMaxSize - w.length) x r hx (by omega)
    refine ⟨encodingBufferMaxSize - w.length - x.length, by omega, r, ?_, ?_, ?_⟩
    · simp only [List.length_append]
      omega
    · rw [firstRead, readIn_skip hwhole (by omega) hw.2, hread]
    · rw [firstRead, readIn_skip (by rwa [hextent]) (by omega) hskip, hbe]

end

section
variable {lineEnding : LineEnding} {n : ℕ} {b r : List UInt8} {c : ℤ} {format' : ExternalFormat}

theorem textWithin_more (h : IsMore (firstRead handler format b)) :
    textWithin handler lineEnding n format b = ⟨[], none⟩ := by
  obtain ⟨f, rest, hmore⟩ := h
  cases n with
  | zero => rfl
  | succ n => rw [textWithin, readOne, hmore]

theorem textWithin_same {b' : List UInt8}
    (h : SameRead (firstRead handler format b) (firstRead handler format' b')) :
    textWithin handler lineEnding n format b = textWithin handler lineEnding n format' b' := by
  rcases h with heq | ⟨hmore, hmore'⟩
  · cases n with
    | zero => rfl
    | succ n => rw [textWithin, textWithin, readOne, readOne, heq]
  · rw [textWithin_more hmore, textWithin_more hmore']

theorem textWithin_not_more (h : ¬ IsMore (firstRead handler format b)) :
    textWithin handler lineEnding (n + 1) format b ≠ ⟨[], none⟩ := by
  rw [textWithin]
  cases hone : readOne handler lineEnding format b with
  | item c f r => simp [Text.cons]
  | stop octets => simp
  | more f r =>
    exfalso
    rw [readOne] at hone
    cases hfirst : firstRead handler format b with
    | more f' r' => exact h ⟨f', r', hfirst⟩
    | stop octets =>
      rw [hfirst] at hone
      cases hone
    | item c f' r' =>
      rw [hfirst] at hone
      change lineRead handler lineEnding c f' r' = _ at hone
      cases lineEnding with
      | lf => cases hone
      | cr => cases hone
      | crlf =>
        rw [lineRead] at hone
        split_ifs at hone
        cases hnext : firstRead handler f' r' with
        | more f'' r'' | stop octets | item c' f'' r'' =>
          rw [hnext] at hone
          cases hone

theorem textWithin_item (h : firstRead handler format b = .item c format' r) (hc : c ≠ charReturn) :
    textWithin handler lineEnding (n + 1) format b =
      (textWithin handler lineEnding n format' r).cons c := by
  have hone : readOne handler lineEnding format b = .item c format' r := by
    rw [readOne, h]
    change lineRead handler lineEnding c format' r = _
    cases lineEnding with
    | lf => rfl
    | cr => rw [lineRead, if_neg hc]
    | crlf => rw [lineRead, if_neg hc]
  rw [textWithin, hone]

theorem first_of_text {t : Text ℤ (List UInt8)}
    (h : textWithin handler lineEnding (n + 1) format b = t.cons c) (hc : c ≠ charReturn)
    (hc' : c ≠ charNewline) :
    ∃ format' r, firstRead handler format b = .item c format' r ∧
      textWithin handler lineEnding n format' r = t := by
  rw [textWithin] at h
  cases hone : readOne handler lineEnding format b with
  | more f r =>
    rw [hone] at h
    cases h
  | stop octets =>
    rw [hone] at h
    cases h
  | item c₁ f r =>
    rw [hone] at h
    obtain ⟨rfl, ht⟩ := Text.cons_inj.mp h
    refine ⟨f, r, ?_, ht⟩
    rw [readOne] at hone
    cases hfirst : firstRead handler format b with
    | more f' r' | stop octets =>
      rw [hfirst] at hone
      cases hone
    | item c₂ f' r' =>
      rw [hfirst] at hone
      change lineRead handler lineEnding c₂ f' r' = _ at hone
      cases lineEnding with
      | lf => exact hone
      | cr =>
        rw [lineRead] at hone
        split_ifs at hone
        · cases hone
          exact absurd rfl hc'
        · exact hone
      | crlf =>
        rw [lineRead] at hone
        split_ifs at hone
        · cases hnext : firstRead handler f' r' with
          | more f'' r'' =>
            rw [hnext] at hone
            cases hone
            exact absurd rfl hc
          | stop octets =>
            rw [hnext] at hone
            cases hone
          | item c' f'' r'' =>
            rw [hnext, afterReturn] at hone
            split_ifs at hone
            · cases hone
              exact absurd rfl hc'
            · cases hone
              exact absurd rfl hc
        · exact hone

theorem readAll_within (kind : StreamKind) (content : List UInt8) :
    readAll handler (openInput kind format lineEnding content) =
      textWithin handler lineEnding (content.length + 1) format content :=
  readChars_within (Int.le_refl 0)

end

section
variable {order : ByteOrder} {u w r b : List UInt8} {c d : ℤ} {format' : ExternalFormat}

theorem ucs4_whole (hw : ucs4Word order w = .char c []) :
    Leads handler (MarkedFormat.ordered .ucs4 order) w
      (if c = eof then .skip (MarkedFormat.ordered .ucs4 order)
        else .deliver c (MarkedFormat.ordered .ucs4 order)) := by
  have hscan : scan (MarkedFormat.ordered .ucs4 order) = ucs4Word order := by cases order <;> rfl
  have hlen : w.length = 4 := by
    obtain ⟨w', hsplit, hbytes, -⟩ := ucs4Word_respelled order hw
    rw [List.append_nil] at hsplit
    rw [hsplit, ← hbytes, ucs4Bytes]
    cases order <;> rfl
  refine ⟨hlen.trans (by cases order <;> rfl), ?_⟩
  rw [hscan, hw, answer, characterAnswer_settled (MarkedFormat.ordered_settled _ _)]

theorem ucs4_read (hu : u = [] ∨ u = [0xFF, 0xFF, 0xFF, 0xFF]) (hw : ucs4Word order w = .char c [])
    (hc : c ≠ eof) :
    firstRead handler (MarkedFormat.ordered .ucs4 order) (u ++ (w ++ r)) =
      .item c (MarkedFormat.ordered .ucs4 order) r := by
  have hlead := @ucs4_whole handler _ _ _ hw
  rw [if_neg hc] at hlead
  have hwhole := (whole_extent (r := r)).mpr hlead.1
  have hfour : w.length = 4 := hlead.1.trans (by cases order <;> rfl)
  rcases hu with rfl | rfl
  · exact readIn_deliver hwhole (by rw [hfour]; decide) hlead.2
  · have hskip : Leads handler (MarkedFormat.ordered .ucs4 order) [0xFF, 0xFF, 0xFF, 0xFF]
        (.skip (MarkedFormat.ordered .ucs4 order)) := by
      cases order <;> exact ⟨rfl, rfl⟩
    rw [firstRead, readIn_skip (whole_extent.mpr hskip.1) (by decide) hskip.2]
    exact readIn_deliver hwhole (by rw [hfour]; decide) hlead.2

theorem ucs4_front {room : ℕ}
    (hb : ¬ IsMore (readIn handler (MarkedFormat.ordered .ucs4 order) room b)) :
    ∃ w r c, b = w ++ r ∧ ucs4Word order w = .char c [] ∧ w.length ≤ room := by
  have hextent : extent (MarkedFormat.ordered .ucs4 order) b = 4 := by cases order <;> rfl
  by_cases hroom : room < 4
  · exact absurd (isMore_short (.inr (by omega))) hb
  · rcases b with - | ⟨b0, - | ⟨b1, - | ⟨b2, - | ⟨b3, r⟩⟩⟩⟩
    · exact absurd (isMore_short (.inl (by rw [hextent]; simp))) hb
    · exact absurd (isMore_short (.inl (by rw [hextent]; simp))) hb
    · exact absurd (isMore_short (.inl (by rw [hextent]; simp))) hb
    · exact absurd (isMore_short (.inl (by rw [hextent]; simp))) hb
    · exact ⟨[b0, b1, b2, b3], r, _, rfl, rfl, Nat.le_of_not_lt hroom⟩

/-- The first character of a read, perhaps behind a word that counts as EOF. -/
theorem ucs4_first
    (h : firstRead handler (MarkedFormat.ordered .ucs4 order) b = .item c format' r) :
    format' = MarkedFormat.ordered .ucs4 order ∧ c ≠ eof ∧
      ∃ u w, (u = [] ∨ u = [0xFF, 0xFF, 0xFF, 0xFF]) ∧ b = u ++ (w ++ r) ∧
        ucs4Word order w = .char c [] := by
  have hitem : ∀ {room : ℕ} {b' : List UInt8},
      readIn handler (MarkedFormat.ordered .ucs4 order) room b' = .item c format' r →
      ¬ IsMore (readIn handler (MarkedFormat.ordered .ucs4 order) room b') := by
    rintro room b' h ⟨f, rest, hmore⟩
    cases h.symm.trans hmore
  obtain ⟨w, y, c₁, rfl, hw, hroom⟩ := ucs4_front (hitem h)
  have hlead := @ucs4_whole handler _ _ _ hw
  have hwhole := (whole_extent (r := y)).mpr hlead.1
  have hfour : w.length = 4 := hlead.1.trans (by cases order <;> rfl)
  by_cases hc₁ : c₁ = eof
  · rw [if_pos hc₁] at hlead
    rw [firstRead, readIn_skip hwhole hroom hlead.2] at h
    have heof : w = [0xFF, 0xFF, 0xFF, 0xFF] := by
      obtain ⟨w', hsplit, hbytes, -⟩ := ucs4Word_respelled order hw
      rw [List.append_nil] at hsplit
      rw [hsplit, ← hbytes, hc₁]
      cases order <;> decide
    obtain ⟨w₂, y₂, c₂, rfl, hw₂, hroom₂⟩ := ucs4_front (hitem h)
    have hlead₂ := @ucs4_whole handler _ _ _ hw₂
    have hwhole₂ := (whole_extent (r := y₂)).mpr hlead₂.1
    have hfour₂ : w₂.length = 4 := hlead₂.1.trans (by cases order <;> rfl)
    by_cases hc₂ : c₂ = eof
    · rw [if_pos hc₂] at hlead₂
      rw [readIn_skip hwhole₂ hroom₂ hlead₂.2, hfour, hfour₂] at h
      exact absurd (isMore_short (.inr (extent_spec _ y₂).2.1)) (hitem h)
    · rw [if_neg hc₂] at hlead₂
      rw [readIn_deliver hwhole₂ hroom₂ hlead₂.2] at h
      cases h
      exact ⟨rfl, hc₂, w, w₂, .inr heof, rfl, hw₂⟩
  · rw [if_neg hc₁] at hlead
    rw [firstRead, readIn_deliver hwhole hroom hlead.2] at h
    cases h
    exact ⟨rfl, hc₁, [], w, .inl rfl, rfl, hw⟩

theorem swapped_word (hcd : c = 0xFEFF ∧ d = -131072 ∨ c = -131072 ∧ d = 0xFEFF)
    (hw : ucs4Word .le w = .char c []) : ucs4Word .be w = .char d [] := by
  obtain ⟨w', hsplit, hbytes, -⟩ := ucs4Word_respelled .le hw
  rw [List.append_nil] at hsplit
  rw [hsplit, ← hbytes]
  rcases hcd with ⟨rfl, rfl⟩ | ⟨rfl, rfl⟩
  · decide
  · decide

/-- A text read with the wrong order of octets never catches up by one character. -/
theorem never_shifted {lineEnding : LineEnding} {n : ℕ} (hn : b.length < n)
    (hcd : c = 0xFEFF ∧ d = -131072 ∨ c = -131072 ∧ d = 0xFEFF) :
    (textWithin handler lineEnding n .ucs4be b).cons c ≠
      textWithin handler lineEnding n .ucs4le b := by
  induction n generalizing b c d with
  | zero => omega
  | succ n ih =>
    intro h
    have hc : c ≠ charReturn ∧ c ≠ charNewline := by
      rcases hcd with ⟨rfl, -⟩ | ⟨rfl, -⟩ <;> decide
    have hd : d ≠ charReturn ∧ d ≠ eof := by
      rcases hcd with ⟨-, rfl⟩ | ⟨-, rfl⟩ <;> decide
    obtain ⟨f, r, hfirst, hrest⟩ := first_of_text h.symm hc.1 hc.2
    have hlt := readIn_item_length hfirst
    obtain ⟨rfl, -, u, w, hu, rfl, hw⟩ := @ucs4_first _ .le _ _ _ _ hfirst
    have hbe := @ucs4_read handler _ _ _ r _ hu (swapped_word hcd hw) hd.2
    rw [show ExternalFormat.ucs4be = MarkedFormat.ordered .ucs4 .be from rfl,
      textWithin_item hbe hd.1] at hrest
    exact ih (by omega) (hcd.symm.imp And.symm And.symm) hrest.symm

end

section
variable {m : MarkedFormat} {order : ByteOrder} {units : List UInt8}

theorem ucs4_no_swapped (out : List UInt8) :
    answer handler .ucs4 (scan .ucs4 out) ≠ .skip .ucs4le := by
  intro h
  rcases out with - | ⟨b0, - | ⟨b1, - | ⟨b2, - | ⟨b3, r⟩⟩⟩⟩
  · cases h
  · cases h
  · cases h
  · cases h
  · have hscan : scan .ucs4 (b0 :: b1 :: b2 :: b3 :: r) =
        .char (int32 (word (ByteOrder.be.arrange [b0, b1, b2, b3]))) r := rfl
    rw [hscan, answer, characterAnswer] at h
    split_ifs at h
    · cases h
    · obtain ⟨t, ht⟩ : ∃ t, formatSwitch .ucs4
          (int32 (word (ByteOrder.be.arrange [b0, b1, b2, b3]))) = t := ⟨_, rfl⟩
      rw [ht] at h
      cases t with
      | stay => cases h
      | turn t => cases h
      | mark t =>
        cases h
        obtain ⟨_, -, hmark⟩ := mark_of_scan hscan ht
        cases hmark

theorem lateMark_cases {t : ExternalFormat} (ht : t ≠ m.format)
    (h : LateMark handler m.format t units) : t = m.ordered .be ∨ t = .ucs2le := by
  obtain ⟨w, x, r, -, -, -, hx⟩ := h
  obtain ⟨c, hc, -⟩ := answer_of_mark ht hx
  cases m with
  | ucs2 =>
    simp only [MarkedFormat.format, formatSwitch] at hc
    split_ifs at hc
    · cases hc
      exact .inl rfl
    · cases hc
      exact .inr rfl
  | ucs4 =>
    simp only [MarkedFormat.format, formatSwitch] at hc
    split_ifs at hc
    · cases hc
      exact .inl rfl
    · cases hc
      exact absurd hx (ucs4_no_swapped x)

theorem reads_of_inOrder {mark : Option ByteOrder} (kind : StreamKind) (lineEnding : LineEnding)
    (h : InOrder handler m units mark) :
    ReadsInOrder handler kind lineEnding m mark units := by
  rw [ReadsInOrder, readAll_within, readAll_within]
  cases mark with
  | none => exact textWithin_same (read_unmarked h)
  | some order =>
    have hsame := reads_unless_overrun h.2
    rw [← marked_first h.1] at hsame
    refine (textWithin_same hsame).trans (textWithin_fuel ?_ (Nat.lt_succ_self _))
    change units.length < (m.mark order ++ units).length + 1
    rw [List.length_append]
    omega

theorem inOrder_of_reads {mark : Option ByteOrder} {kind : StreamKind} {lineEnding : LineEnding}
    (hlate : mark = none → ¬ LateMark handler m.format .ucs2le units)
    (h : ReadsInOrder handler kind lineEnding m mark units) : InOrder handler m units mark := by
  rw [ReadsInOrder, readAll_within, readAll_within] at h
  cases mark with
  | none =>
    intro t ht hmark
    rcases lateMark_cases ht hmark with rfl | rfl
    · obtain ⟨room, hroom, r, hr, hfirst, hbe⟩ := lateMark_reads hmark
      have hright := @textWithin_item _ _ lineEnding units.length _ _ _ _ hbe (by decide)
      have hfull : textWithin handler lineEnding units.length (m.ordered .be) r =
          textWithin handler lineEnding (units.length + 1) (m.ordered .be) r :=
        textWithin_fuel hr (by omega)
      replace h := h.trans hright
      change textWithin handler lineEnding (units.length + 1) m.format units = _ at h
      rcases @readIn_room handler (m.ordered .be) _ _ hroom r with hmore | heq
      · rw [textWithin_more (hfirst ▸ hmore)] at h
        cases h
      · rw [textWithin_same (.inl (hfirst.trans heq)), hfull] at h
        have hlen := congrArg (fun t => t.items.length) h
        simp [Text.cons] at hlen
    · exact hlate rfl hmark
  | some order =>
    have hmark : ¬ (m = .ucs4 ∧ order = .le) := by
      rintro ⟨rfl, rfl⟩
      -- the mark is the first character
      have hfirst : firstRead handler .ucs4 ([0xFF, 0xFE, 0, 0] ++ units) =
          .item (-131072) .ucs4be units :=
        readIn_deliver (whole_extent.mpr rfl) (by decide) rfl
      have hleft := @textWithin_item _ _ lineEnding (units.length + 4) _ _ _ _ hfirst
        (by decide)
      have hfull : textWithin handler lineEnding (units.length + 4) .ucs4be units =
          textWithin handler lineEnding (units.length + 1) .ucs4be units :=
        textWithin_fuel (by omega) (by omega)
      rw [hfull] at hleft
      exact never_shifted (Nat.lt_succ_self _) (.inr ⟨rfl, rfl⟩) (hleft.symm.trans h)
    refine ⟨hmark, fun hover => ?_⟩
    obtain ⟨hmore, hnot⟩ := overrun_reads hover
    rw [← marked_first hmark] at hmore
    exact textWithin_not_more hnot (h.symm.trans (textWithin_more hmore))

/-- A mark is followed unless it is the little endian one of ucs-4, as long as the read that meets
it has room for the first character; without one the units are read big endian unless something
that is skipped stands before a mark. Where a stream without a mark meets the little endian one of
ucs-2 so late, both readings may happen to agree. -/
theorem reads_in_order_iff (handler : Handler) (kind : StreamKind) (lineEnding : LineEnding)
    (m : MarkedFormat) (mark : Option ByteOrder) (units : List UInt8) :
    (InOrder handler m units mark → ReadsInOrder handler kind lineEnding m mark units) ∧
      ((mark = none → ¬ LateMark handler m.format .ucs2le units) →
        ReadsInOrder handler kind lineEnding m mark units → InOrder handler m units mark) :=
  ⟨reads_of_inOrder kind lineEnding, inOrder_of_reads⟩

/-- The letter A with a little endian mark of 32 bits. -/
theorem little_endian_mark_ignored :
    ¬ ReadsInOrder unwinding .file .lf .ucs4 (some .le) [0x41, 0, 0, 0] := by
  unfold ReadsInOrder
  decide

theorem reads_in_order_iff_letter :
    ReadsInOrder unwinding .file .lf .ucs2 (some .le) [0x41, 0] ∧
      ¬ ReadsInOrder unwinding .file .lf .ucs4 (some .le) [0x41, 0, 0, 0] := by
  have hover : ¬ Overrun unwinding (MarkedFormat.ordered .ucs2 .le) [0x41, 0] := by
    rintro ⟨w, x, r, hsplit, -, hx, -⟩
    have hlen := congrArg List.length hsplit
    simp only [List.length_append, List.length_cons, List.length_nil] at hlen
    omega
  constructor
  · exact (reads_in_order_iff unwinding .file .lf .ucs2 (some .le) _).1 ⟨by decide, hover⟩
  · intro h
    exact ((reads_in_order_iff unwinding .file .lf .ucs4 (some .le) _).2 (by simp) h).1 ⟨rfl, rfl⟩

end

end ByteOrderMarks
