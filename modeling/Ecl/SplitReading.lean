import Ecl.SplitTransfers

/-! Reading through calls of which none is cut is reading from the file itself. -/
namespace SplitReading

open ExternalFormats IncrementalDecoding CharacterStreams CharacterVectors SplitTransfers

variable {system : System} {handler : Handler}

theorem readByte8_eq_of_length {s : Stream} {m n : ℕ} (hm : s.byteStack.length ≤ m) (hmn : m ≤ n)
    (hlen : ¬ (s.readByte8 m).1.length < (s.readByte8 n).1.length) :
    s.readByte8 m = s.readByte8 n := by
  have hstack {i : ℕ} (hi : s.byteStack.length ≤ i) : s.byteStack.take i = s.byteStack :=
    List.take_of_length_le hi
  simp only [Stream.readByte8, hstack hm, hstack (Nat.le_trans hm hmn), List.length_append,
    List.length_take, List.length_drop] at hlen
  have htake : (s.content.drop s.position.toNat).take (m - s.byteStack.length) =
      (s.content.drop s.position.toNat).take (n - s.byteStack.length) := by
    by_cases h : m = n
    · rw [h]
    · rw [List.take_of_length_le (i := m - s.byteStack.length),
        List.take_of_length_le (i := n - s.byteStack.length)]
      · rw [List.length_drop]
        omega
      · rw [List.length_drop]
        omega
  simp only [Stream.readByte8, hstack hm, hstack (Nat.le_trans hm hmn), htake,
    List.drop_of_length_le hm, List.drop_of_length_le (Nat.le_trans hm hmn)]

theorem readByte8_whole {k : Calls} {s : Stream} {n : ℕ}
    (h : (readByte8 system k s n).2.cut = false) :
    k.cut = false ∧ (readByte8 system k s n).1 = s.readByte8 n := by
  rw [readByte8] at h ⊢
  by_cases hn : n ≤ s.byteStack.length
  · rw [if_pos hn] at h ⊢
    exact ⟨h, rfl⟩
  · rw [if_neg hn] at h ⊢
    have hg := granted_le system k.made (n - s.byteStack.length)
    simp only [Calls.next, Bool.or_eq_false_iff, decide_eq_false_iff_not] at h
    exact ⟨h.1, readByte8_eq_of_length (Nat.le_add_right _ _) (by omega) h.2⟩

theorem readCharLoop_whole (n : ℕ) : ∀ {k : Calls} {s : Stream} {pending : List UInt8},
    (splitReadCharLoop system handler n k s pending).2.cut = false →
    k.cut = false ∧
      (splitReadCharLoop system handler n k s pending).1 = readCharLoop handler n s pending := by
  induction n with
  | zero => exact fun h => ⟨h, rfl⟩
  | succ n ih =>
    intro k s pending h
    have hread := @readByte8_whole system k s (s.kind.unit s.format)
    rw [splitReadCharLoop] at h ⊢
    rw [readCharLoop]
    by_cases hshort : (readByte8 system k s (s.kind.unit s.format)).1.1.length <
        s.kind.unit s.format
    · simp only [if_pos hshort] at h ⊢
      obtain ⟨hk, heq⟩ := hread h
      rw [heq] at hshort ⊢
      exact ⟨hk, by rw [if_pos hshort]⟩
    · simp only [if_neg hshort] at h ⊢
      cases hdec : decoder handler s.format
          (pending ++ (readByte8 system k s (s.kind.unit s.format)).1.1) with
      | more format rest =>
        simp only [hdec] at h ⊢
        obtain ⟨hcut, hrest⟩ := ih h
        obtain ⟨hk, heq⟩ := hread hcut
        rw [heq] at hshort hdec hrest ⊢
        simp only [if_neg hshort, hdec]
        exact ⟨hk, hrest⟩
      | item c format rest =>
        simp only [hdec] at h ⊢
        by_cases hc : c = eof
        · simp only [if_pos hc] at h ⊢
          obtain ⟨hcut, hrest⟩ := ih h
          obtain ⟨hk, heq⟩ := hread hcut
          rw [heq] at hshort hdec hrest ⊢
          simp only [if_neg hshort, hdec, if_pos hc]
          exact ⟨hk, hrest⟩
        · simp only [if_neg hc] at h ⊢
          obtain ⟨hk, heq⟩ := hread h
          rw [heq] at hshort hdec ⊢
          simp only [if_neg hshort, hdec, if_neg hc]
          exact ⟨hk, trivial⟩
      | stop octets =>
        simp only [hdec] at h ⊢
        obtain ⟨hk, heq⟩ := hread h
        rw [heq] at hshort hdec
        simp only [if_neg hshort, hdec]
        exact ⟨hk, trivial⟩

theorem eformatReadChar_whole {k : Calls} {s : Stream}
    (h : (splitEformatReadChar system handler k s).2.cut = false) :
    k.cut = false ∧ (splitEformatReadChar system handler k s).1 = eformatReadChar handler s :=
  readCharLoop_whole _ h

theorem readChar_whole {k : Calls} {s : Stream}
    (h : (splitReadChar system handler k s).2.cut = false) :
    k.cut = false ∧ (splitReadChar system handler k s).1 = readChar handler s := by
  have hread := @eformatReadChar_whole system handler k s
  rw [splitReadChar] at h ⊢
  rw [readChar]
  cases hline : s.lineEnding with
  | lf =>
    simp only [hline] at h ⊢
    exact hread h
  | cr =>
    rw [eformatReadCharCr]
    cases hr : (splitEformatReadChar system handler k s).1 with
    | char c s' | eof s' | unwind octets =>
      simp only [hline, hr] at h ⊢
      obtain ⟨hk, heq⟩ := hread h
      rw [← heq, hr]
      exact ⟨hk, rfl⟩
  | crlf =>
    rw [eformatReadCharCrlf]
    cases hr : (splitEformatReadChar system handler k s).1 with
    | char c s' =>
      simp only [hline, hr] at h ⊢
      by_cases hc : c = charReturn
      · simp only [if_pos hc] at h ⊢
        obtain ⟨hcut, heq'⟩ := eformatReadChar_whole h
        obtain ⟨hk, heq⟩ := hread hcut
        rw [← heq, hr, heq']
        simp only [if_pos hc]
        exact ⟨hk, trivial⟩
      · simp only [if_neg hc] at h ⊢
        obtain ⟨hk, heq⟩ := hread h
        rw [← heq, hr]
        simp only [if_neg hc]
        exact ⟨hk, trivial⟩
    | eof s' | unwind octets =>
      simp only [hline, hr] at h ⊢
      obtain ⟨hk, heq⟩ := hread h
      rw [← heq, hr]
      exact ⟨hk, rfl⟩

section
variable {seekable : Bool} {minNeeded : ℕ}

theorem refill_whole {n : ℕ} {k : Calls} {r : FileReader}
    (ih : ∀ {k : Calls} {r : FileReader},
      (splitFetchChar system handler seekable minNeeded n k r).2.cut = false → k.cut = false ∧
        (splitFetchChar system handler seekable minNeeded n k r).1 =
          fetchChar handler seekable minNeeded n r)
    {out : Fetched × Calls}
    (hout : out = if (readByte8 system k r.stream (neededBytes seekable minNeeded)).1.1 = []
      then (.eof, (readByte8 system k r.stream (neededBytes seekable minNeeded)).2)
      else splitFetchChar system handler seekable minNeeded n
        (readByte8 system k r.stream (neededBytes seekable minNeeded)).2
        (r.refill (readByte8 system k r.stream (neededBytes seekable minNeeded)).1.1
          (readByte8 system k r.stream (neededBytes seekable minNeeded)).1.2))
    (h : out.2.cut = false) :
    k.cut = false ∧ out.1 =
      if (r.stream.readByte8 (neededBytes seekable minNeeded)).1 = [] then .eof
      else fetchChar handler seekable minNeeded n
        (r.refill (r.stream.readByte8 (neededBytes seekable minNeeded)).1
          (r.stream.readByte8 (neededBytes seekable minNeeded)).2) := by
  have hread := @readByte8_whole system k r.stream (neededBytes seekable minNeeded)
  subst hout
  by_cases hnil : (readByte8 system k r.stream (neededBytes seekable minNeeded)).1.1 = []
  · rw [if_pos hnil] at h ⊢
    obtain ⟨hk, heq⟩ := hread h
    rw [heq] at hnil
    exact ⟨hk, by rw [if_pos hnil]⟩
  · rw [if_neg hnil] at h ⊢
    obtain ⟨hcut, hrest⟩ := ih h
    obtain ⟨hk, heq⟩ := hread hcut
    rw [heq] at hnil hrest ⊢
    exact ⟨hk, by rw [if_neg hnil, hrest]⟩

theorem fetchChar_whole (n : ℕ) : ∀ {k : Calls} {r : FileReader},
    (splitFetchChar system handler seekable minNeeded n k r).2.cut = false →
    k.cut = false ∧ (splitFetchChar system handler seekable minNeeded n k r).1 =
      fetchChar handler seekable minNeeded n r := by
  induction n with
  | zero => exact fun h => ⟨h, rfl⟩
  | succ n ih =>
    intro k r h
    rw [splitFetchChar] at h ⊢
    rw [fetchChar]
    cases hdec : decoder handler r.stream.format r.pending with
    | more format rest =>
      simp only [hdec] at h ⊢
      exact refill_whole ih rfl h
    | item c format rest =>
      simp only [hdec] at h ⊢
      by_cases hc : c = eof
      · simp only [if_pos hc] at h ⊢
        exact refill_whole ih rfl h
      · simp only [if_neg hc] at h ⊢
        exact ⟨h, trivial⟩
    | stop octets =>
      simp only [hdec] at h ⊢
      exact ⟨h, trivial⟩

theorem decodeChar_whole {k : Calls} {r : FileReader}
    (h : (splitDecodeChar system handler seekable minNeeded k r).2.cut = false) :
    k.cut = false ∧ (splitDecodeChar system handler seekable minNeeded k r).1 =
      decodeCharFromBuffer handler seekable minNeeded r := by
  have hfetch := @fetchChar_whole system handler seekable minNeeded
    (r.stream.remaining.length + 1) k r
  rw [splitDecodeChar] at h ⊢
  rw [decodeCharFromBuffer]
  cases hf : (splitFetchChar system handler seekable minNeeded
      (r.stream.remaining.length + 1) k r).1 with
  | char c previous r' =>
    simp only [hf] at h ⊢
    by_cases hc : c = charReturn
    · simp only [if_pos hc] at h ⊢
      cases hline : r'.stream.lineEnding with
      | lf | cr =>
        simp only [hline] at h ⊢
        obtain ⟨hk, heq⟩ := hfetch h
        simp only [← heq, hf, if_pos hc, hline]
        exact ⟨hk, trivial⟩
      | crlf =>
        simp only [hline] at h ⊢
        obtain ⟨hcut, hnext⟩ := fetchChar_whole _ h
        obtain ⟨hk, heq⟩ := hfetch hcut
        simp only [← heq, hf, if_pos hc, hline, hnext]
        refine ⟨hk, ?_⟩
        cases fetchChar handler seekable minNeeded (r'.stream.remaining.length + 1) r' <;> rfl
    · simp only [if_neg hc] at h ⊢
      obtain ⟨hk, heq⟩ := hfetch h
      simp only [← heq, hf, if_neg hc]
      exact ⟨hk, trivial⟩
  | eof | unwind octets =>
    simp only [hf] at h ⊢
    obtain ⟨hk, heq⟩ := hfetch h
    simp only [← heq, hf]
    exact ⟨hk, trivial⟩

theorem vectorLoop_whole (n : ℕ) : ∀ {k : Calls} {r : FileReader},
    (splitVectorLoop system handler seekable n k r).2.cut = false →
    k.cut = false ∧ (splitVectorLoop system handler seekable n k r).1 =
      readVectorLoop handler seekable n r := by
  induction n with
  | zero => exact fun h => ⟨h, rfl⟩
  | succ n ih =>
    intro k r h
    have hdecode := @decodeChar_whole system handler seekable
      ((n + 1) * byteSize r.stream.format) k r
    rw [splitVectorLoop] at h ⊢
    rw [readVectorLoop]
    cases hd : (splitDecodeChar system handler seekable
        ((n + 1) * byteSize r.stream.format) k r).1 with
    | char c r' =>
      simp only [hd] at h ⊢
      obtain ⟨hcut, hrest⟩ := ih h
      obtain ⟨hk, heq⟩ := hdecode hcut
      simp only [← heq, hd, hrest]
      exact ⟨hk, trivial⟩
    | eof | unwind octets =>
      simp only [hd] at h ⊢
      obtain ⟨hk, heq⟩ := hdecode h
      simp only [← heq, hd]
      exact ⟨hk, trivial⟩

end

theorem characterRead_whole {seekable : Bool} {op : CharacterRead} {s : Stream} {k : Calls}
    (h : (splitCharacterRead system handler seekable op (s, k)).2.2.cut = false) :
    (splitCharacterRead system handler seekable op (s, k)).1 =
        (characterRead handler seekable op s).1 ∧
      (splitCharacterRead system handler seekable op (s, k)).2.1 =
        (characterRead handler seekable op s).2 := by
  cases op with
  | char =>
    have heq := (@readChar_whole system handler _ s h).2
    simp only [splitCharacterRead, characterRead, heq]
    exact ⟨trivial, trivial⟩
  | vector n =>
    rw [splitCharacterRead] at h ⊢
    rw [characterRead]
    by_cases hn : n = 0
    · simp only [if_pos hn]
      exact ⟨trivial, trivial⟩
    · simp only [if_neg hn] at h ⊢
      rw [(vectorLoop_whole n h).2]
      exact ⟨rfl, rfl⟩

section
open BinaryStreams

theorem splitOps_whole {m : File × Calls} {n : ℕ}
    (h : ((splitOps system).readByte8 m n).2.2.cut = false) :
    m.2.cut = false ∧ ((splitOps system).readByte8 m n).1 = (fileOps.readByte8 m.1 n).1 ∧
      ((splitOps system).readByte8 m n).2.1 = (fileOps.readByte8 m.1 n).2 := by
  have hle := granted_le system m.2.made n
  simp only [splitOps, fileOps, Calls.next, Bool.or_eq_false_iff, decide_eq_false_iff_not,
    List.length_take, List.length_drop] at h ⊢
  have htake : (m.1.content.drop m.1.position).take (granted system m.2.made n) =
      (m.1.content.drop m.1.position).take n := by
    by_cases hn : granted system m.2.made n = n
    · rw [hn]
    · rw [List.take_of_length_le, List.take_of_length_le]
      · rw [List.length_drop]
        omega
      · rw [List.length_drop]
        omega
  have hlen := congrArg List.length htake
  simp only [List.length_take, List.length_drop] at hlen
  exact ⟨h.1, htake, by rw [hlen]⟩

theorem binaryRead_whole {op : BinaryRead} {s : BinaryStreams.Stream} {f : File} {k : Calls}
    (h : (splitBinaryRead system op (s, f, k)).2.2.2.cut = false) :
    (splitBinaryRead system op (s, f, k)).1 = (binaryRead fileOps op (s, f)).1 ∧
      (splitBinaryRead system op (s, f, k)).2.1 = (binaryRead fileOps op (s, f)).2.1 ∧
      (splitBinaryRead system op (s, f, k)).2.2.1 = (binaryRead fileOps op (s, f)).2.2 := by
  cases op with
  | byte =>
    have hcut : ((splitOps system).readByte8 (f, k.start) (s.byteSize / 8)).2.2.cut = false := by
      simp only [splitBinaryRead, binaryRead, binaryReadByte] at h
      split_ifs at h <;> exact h
    obtain ⟨-, hoctets, hfile⟩ := splitOps_whole hcut
    simp only [splitBinaryRead, binaryRead, binaryReadByte, hoctets]
    split_ifs <;> exact ⟨rfl, rfl, hfile⟩
  | memory size n =>
    simp only [splitBinaryRead, binaryRead, readMemory] at h ⊢
    by_cases hn : n = 0
    · simp only [if_pos hn]
      exact ⟨trivial, trivial, trivial⟩
    · simp only [if_neg hn] at h ⊢
      obtain ⟨-, hoctets, hfile⟩ := splitOps_whole h
      simp only [hoctets, hfile]
      exact ⟨trivial, trivial, trivial⟩

end

end SplitReading
