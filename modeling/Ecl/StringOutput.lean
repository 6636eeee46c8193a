import Ecl.ArrayBounds
import Ecl.Strings

/-! String output streams of src/c/streams/strm_string.d and the extension of their strings in
src/c/vector_push.d. The column of a stream is left out, and so are arrays displaced to a string. -/
namespace StringOutput

open ArrayBounds (arrayDimensionLimit)
open Integers (mostPositiveFixnum)
open Strings

structure OutputString extends LispString where
  adjustable : Bool
  hasFillPointer : Bool

inductive OutputError where
  | simple (message : String)
  | noFillPointer
  | dimension (n : ℕ)
  | size (n : ℤ)
  | index (n : ℕ)
  deriving DecidableEq

/-- si_make_vector and ecl_copy_subarray; nothing has been written yet behind the fill pointer. -/
def OutputString.copied (v : OutputString) (length : ℕ) : OutputString where
  extended := v.extended
  self := v.active ++ List.replicate (length - v.fillp) 0
  fillp := v.fillp
  fillp_le := by
    rw [List.length_append, LispString.active, List.length_take, Nat.min_eq_left v.fillp_le]
    exact Nat.le_add_right _ _
  base_lt := by
    intro hbase c hc
    rcases List.mem_append.mp hc with hc | hc
    · exact v.base_lt hbase c (List.mem_of_mem_take hc)
    · rw [List.eq_of_mem_replicate hc]
      decide
  adjustable := true
  hasFillPointer := true

def newLength (v : OutputString) (amount : ℕ) : ℕ :=
  min (v.dim + if amount = 0 then v.dim / 2 + 1 else amount) arrayDimensionLimit

/-- The last test is the one in si_make_vector. -/
def extendVector (v : OutputString) (amount : ℕ) : Except OutputError OutputString :=
  if v.adjustable = false then
    .error (.simple "vector-push-extend: the array ~S is not adjustable.")
  else if v.dim ≥ arrayDimensionLimit then .error (.simple "Can't extend the array.")
  else if 4 * newLength v amount + 3 > arrayDimensionLimit then
    .error (.dimension (newLength v amount))
  else .ok (v.copied (newLength v amount))

/-- ecl_char_set or ecl_aset1 at the fill pointer, which goes on by one. -/
def setNext (s : OutputString) (c : ℕ) : Except OutputError OutputString :=
  if h : s.fillp < s.dim then
    .ok { s with
      toLispString := { s.set s.fillp c with
        fillp := s.fillp + 1
        fillp_le := by
          rw [LispString.set, List.length_set]
          exact h } }
  else .error (.index s.fillp)

def stringPushExtend (s : OutputString) (c : ℕ) : Except OutputError OutputString :=
  if s.fillp ≥ s.dim then (extendVector s 0).bind (setNext · c) else setNext s c

def vectorPushExtend (value : ℕ) (v : OutputString) (extent : ℤ) :
    Except OutputError OutputString :=
  if v.hasFillPointer = false then .error .noFillPointer
  else if v.fillp ≥ v.dim then
    if 0 ≤ extent ∧ extent ≤ mostPositiveFixnum then
      (extendVector v extent.toNat).bind (setNext · value)
    else .error (.size extent)
  else setNext v value

def getOutputStreamString (s : OutputString) : LispString × OutputString :=
  (s.copySeq, { s with fillp := 0, fillp_le := Nat.zero_le _ })

inductive Operation where
  | writeChar (c : ℕ)
  | vectorPushExtend (value : ℕ) (extent : ℤ)
  | getOutputStreamString

inductive Outcome where
  | written
  | error (e : OutputError)
  | string (s : LispString)

/-- An error leaves the string as it is. -/
def outcome (s : OutputString) : Except OutputError OutputString → Outcome × OutputString
  | .ok s' => (.written, s')
  | .error e => (.error e, s)

def step (s : OutputString) : Operation → Outcome × OutputString
  | .writeChar c => outcome s (stringPushExtend s c)
  | .vectorPushExtend value extent => outcome s (vectorPushExtend value s extent)
  | .getOutputStreamString =>
    (.string (getOutputStreamString s).1, (getOutputStreamString s).2)

def pendingAfter (pending : List ℕ) : Operation → Outcome → List ℕ
  | _, .error _ => pending
  | .writeChar c, _ => pending ++ [c]
  | .vectorPushExtend value _, _ => pending ++ [value]
  | .getOutputStreamString, _ => []

structure LosslessStep (s : OutputString) (pending : List ℕ) (op : Operation) : Prop where
  returned : ∀ t, (step s op).1 = .string t → t.active = pending
  kept : (step s op).2.active = pendingAfter pending op (step s op).1

def Lossless (s : OutputString) (pending : List ℕ) : List Operation → Prop
  | [] => True
  | op :: ops =>
    LosslessStep s pending op ∧ Lossless (step s op).2 (pendingAfter pending op (step s op).1) ops

def Extends (v : OutputString) (amount : ℕ) : Prop :=
  v.adjustable = true ∧ v.dim < arrayDimensionLimit ∧
    4 * newLength v amount + 3 ≤ arrayDimensionLimit

def Fits (s : OutputString) (c : ℕ) : Prop := s.extended = true ∨ c < 256

def StepFits (s : OutputString) : Operation → Prop
  | .writeChar c => s.fillp < s.dim ∨ Extends s 0 → Fits s c
  | .vectorPushExtend value extent =>
    s.hasFillPointer = true →
      s.fillp < s.dim ∨ (0 ≤ extent ∧ extent ≤ mostPositiveFixnum ∧ Extends s extent.toNat) →
      Fits s value
  | .getOutputStreamString => True

def AllFit (s : OutputString) : List Operation → Prop
  | [] => True
  | op :: ops => StepFits s op ∧ AllFit (step s op).2 ops

variable {s s' v : OutputString} {c amount : ℕ} {pending : List ℕ}

theorem cell_eq_iff (s : LispString) (c : ℕ) : s.cell c = c ↔ s.extended = true ∨ c < 256 := by
  unfold LispString.cell
  cases s.extended with
  | true => simp
  | false =>
    simp only [Bool.false_eq_true, if_false, false_or]
    exact ⟨fun h => h ▸ Nat.mod_lt c (by decide), Nat.mod_eq_of_lt⟩

theorem setNext_active (h : s.fillp < s.dim) (c : ℕ) :
    ∃ s', setNext s c = .ok s' ∧ s'.active = s.active ++ [s.cell c] := by
  refine ⟨_, dif_pos h, ?_⟩
  change (s.self.set s.fillp (s.cell c)).take (s.fillp + 1) = s.self.take s.fillp ++ [s.cell c]
  have hlength : s.fillp < (s.self.set s.fillp (s.cell c)).length := by
    rw [List.length_set]
    exact h
  rw [List.take_succ_eq_append_getElem hlength, List.take_set_of_le (le_refl _),
    List.getElem_set_self]

theorem lt_newLength (hlimit : v.dim < arrayDimensionLimit) (amount : ℕ) :
    v.dim < newLength v amount := by
  apply lt_min _ hlimit
  split <;> omega

theorem active_copied (v : OutputString) (length : ℕ) : (v.copied length).active = v.active := by
  have hfillp : v.active.length = v.fillp := List.length_take_of_le v.fillp_le
  exact List.take_left' hfillp

theorem dim_copied (v : OutputString) {length : ℕ} (h : v.dim < length) :
    (v.copied length).dim = length := by
  have hfillp := v.fillp_le
  have hdim : v.self.length < length := h
  change (v.active ++ List.replicate (length - v.fillp) 0).length = length
  rw [List.length_append, List.length_replicate, LispString.active, List.length_take]
  omega

theorem extendVector_ok (h : Extends v amount) :
    ∃ v', extendVector v amount = .ok v' ∧ v'.active = v.active ∧ v'.extended = v.extended ∧
      v'.fillp < v'.dim := by
  obtain ⟨hadjustable, hlimit, hlength⟩ := h
  have hlt := lt_newLength hlimit amount
  refine ⟨v.copied (newLength v amount), ?_, active_copied v _, rfl, ?_⟩
  · rw [extendVector, if_neg (by simp [hadjustable]), if_neg (not_le.mpr hlimit),
      if_neg (not_lt.mpr hlength)]
  · rw [dim_copied v hlt]
    exact lt_of_le_of_lt v.fillp_le hlt

theorem extendVector_error (h : ¬Extends v amount) : ∃ e, extendVector v amount = .error e := by
  unfold extendVector
  split_ifs with hadjustable hlimit hlength
  · exact ⟨_, rfl⟩
  · exact ⟨_, rfl⟩
  · exact ⟨_, rfl⟩
  · exact absurd ⟨Bool.eq_true_of_not_eq_false hadjustable, not_le.mp hlimit, not_lt.mp hlength⟩ h

theorem extendVector_setNext (h : Extends v amount) (c : ℕ) :
    ∃ s', (extendVector v amount).bind (setNext · c) = .ok s' ∧
      s'.active = v.active ++ [v.cell c] := by
  obtain ⟨v', hv, hactive, hextended, hroom⟩ := extendVector_ok h
  obtain ⟨s', hs, hnext⟩ := setNext_active hroom c
  refine ⟨s', ?_, ?_⟩
  · rw [hv]
    exact hs
  · rw [hnext, hactive, LispString.cell, LispString.cell, hextended]

theorem stringPushExtend_ok (h : s.fillp < s.dim ∨ Extends s 0) (c : ℕ) :
    ∃ s', stringPushExtend s c = .ok s' ∧ s'.active = s.active ++ [s.cell c] := by
  unfold stringPushExtend
  by_cases hroom : s.fillp < s.dim
  · rw [if_neg (not_le.mpr hroom)]
    exact setNext_active hroom c
  · rw [if_pos (not_lt.mp hroom)]
    exact extendVector_setNext (h.resolve_left hroom) c

theorem stringPushExtend_error (h : ¬(s.fillp < s.dim ∨ Extends s 0)) (c : ℕ) :
    ∃ e, stringPushExtend s c = .error e := by
  obtain ⟨hroom, hextends⟩ := not_or.mp h
  obtain ⟨e, he⟩ := extendVector_error hextends
  refine ⟨e, ?_⟩
  rw [stringPushExtend, if_pos (not_lt.mp hroom), he]
  rfl

theorem vectorPushExtend_ok {extent : ℤ} (hpointer : s.hasFillPointer = true)
    (h : s.fillp < s.dim ∨
      (0 ≤ extent ∧ extent ≤ mostPositiveFixnum ∧ Extends s extent.toNat)) (value : ℕ) :
    ∃ s', vectorPushExtend value s extent = .ok s' ∧ s'.active = s.active ++ [s.cell value] := by
  unfold vectorPushExtend
  rw [if_neg (by simp [hpointer])]
  by_cases hroom : s.fillp < s.dim
  · rw [if_neg (not_le.mpr hroom)]
    exact setNext_active hroom value
  · obtain ⟨h0, hfixnum, hextends⟩ := h.resolve_left hroom
    rw [if_pos (not_lt.mp hroom), if_pos ⟨h0, hfixnum⟩]
    exact extendVector_setNext hextends value

theorem vectorPushExtend_error {extent : ℤ}
    (h : ¬(s.hasFillPointer = true ∧ (s.fillp < s.dim ∨
      (0 ≤ extent ∧ extent ≤ mostPositiveFixnum ∧ Extends s extent.toNat)))) (value : ℕ) :
    ∃ e, vectorPushExtend value s extent = .error e := by
  unfold vectorPushExtend
  by_cases hpointer : s.hasFillPointer = false
  · exact ⟨_, if_pos hpointer⟩
  · have hroom := fun hor => h ⟨Bool.eq_true_of_not_eq_false hpointer, hor⟩
    obtain ⟨hfull, hextends⟩ := not_or.mp hroom
    rw [if_neg hpointer, if_pos (not_lt.mp hfull)]
    by_cases hsize : 0 ≤ extent ∧ extent ≤ mostPositiveFixnum
    · obtain ⟨e, he⟩ := extendVector_error (fun hext => hextends ⟨hsize.1, hsize.2, hext⟩)
      refine ⟨e, ?_⟩
      rw [if_pos hsize, he]
      rfl
    · exact ⟨_, if_neg hsize⟩

theorem losslessStep_written {op : Operation} (hactive : s.active = pending)
    (hstep : step s op = (.written, s'))
    (hpending : pendingAfter pending op .written = pending ++ [c])
    (hs : s'.active = s.active ++ [s.cell c]) : LosslessStep s pending op ↔ Fits s c := by
  rw [Fits, ← cell_eq_iff]
  constructor
  · intro h
    have hkept := h.kept
    rw [hstep, hpending, hs, hactive] at hkept
    exact List.singleton_inj.mp (List.append_cancel_left hkept)
  · intro hcell
    refine ⟨fun t ht => ?_, ?_⟩
    · rw [hstep] at ht
      exact absurd ht (by simp)
    · rw [hstep, hpending, hs, hactive, hcell]

theorem losslessStep_error {op : Operation} {e : OutputError} (hactive : s.active = pending)
    (hstep : step s op = (.error e, s)) : LosslessStep s pending op := by
  refine ⟨fun t ht => ?_, ?_⟩
  · rw [hstep] at ht
    exact absurd ht (by simp)
  · rw [hstep, hactive]
    cases op <;> rfl

theorem losslessStep_iff (hactive : s.active = pending) (op : Operation) :
    LosslessStep s pending op ↔ StepFits s op := by
  cases op with
  | writeChar c =>
    by_cases hroom : s.fillp < s.dim ∨ Extends s 0
    · obtain ⟨s', hok, hs⟩ := stringPushExtend_ok hroom c
      have hstep : step s (.writeChar c) = (.written, s') := by rw [step, hok, outcome]
      rw [losslessStep_written hactive hstep rfl hs]
      exact ⟨fun hfits _ => hfits, fun h => h hroom⟩
    · obtain ⟨e, he⟩ := stringPushExtend_error hroom c
      have hstep : step s (.writeChar c) = (.error e, s) := by rw [step, he, outcome]
      exact iff_of_true (losslessStep_error hactive hstep) (fun h => absurd h hroom)
  | vectorPushExtend value extent =>
    by_cases hroom : s.hasFillPointer = true ∧ (s.fillp < s.dim ∨
        (0 ≤ extent ∧ extent ≤ mostPositiveFixnum ∧ Extends s extent.toNat))
    · obtain ⟨s', hok, hs⟩ := vectorPushExtend_ok hroom.1 hroom.2 value
      have hstep : step s (.vectorPushExtend value extent) = (.written, s') := by
        rw [step, hok, outcome]
      rw [losslessStep_written hactive hstep rfl hs]
      exact ⟨fun hfits _ _ => hfits, fun h => h hroom.1 hroom.2⟩
    · obtain ⟨e, he⟩ := vectorPushExtend_error hroom value
      have hstep : step s (.vectorPushExtend value extent) = (.error e, s) := by
        rw [step, he, outcome]
      exact iff_of_true (losslessStep_error hactive hstep) (fun hp h => absurd ⟨hp, h⟩ hroom)
  | getOutputStreamString =>
    refine iff_of_true ⟨fun t ht => ?_, rfl⟩ trivial
    cases ht
    have hall : s.active.take s.fillp = s.active := by
      rw [LispString.active, List.take_take, Nat.min_self]
    exact hall.trans hactive

/-- Over a whole run, every call returns what has been written since the call before it. -/
theorem run_lossless_iff (s : OutputString) (ops : List Operation) :
    Lossless s s.active ops ↔ AllFit s ops := by
  have hrun (pending : List ℕ) (hactive : s.active = pending) :
      Lossless s pending ops ↔ AllFit s ops := by
    induction ops generalizing s pending with
    | nil => exact Iff.rfl
    | cons op ops ih =>
      have hstep := losslessStep_iff hactive op
      constructor
      · rintro ⟨hl, hrest⟩
        exact ⟨hstep.mp hl, (ih _ _ hl.kept).mp hrest⟩
      · rintro ⟨hfits, hrest⟩
        have hl := hstep.mpr hfits
        exact ⟨hl, (ih _ _ hl.kept).mpr hrest⟩
  exact hrun _ rfl

/-- An empty string for base characters, as make-string-output-stream makes it. -/
def baseString (n : ℕ) : OutputString where
  extended := false
  self := List.replicate n 0
  fillp := 0
  fillp_le := Nat.zero_le _
  base_lt := by
    intro _ c hc
    rw [List.eq_of_mem_replicate hc]
    decide
  adjustable := true
  hasFillPointer := true

/-- A small alpha is written to a stream of base characters and comes out as another character. -/
theorem alpha_becomes_plus_minus :
    (∃ t, (step (step (baseString 4) (.writeChar 945)).2 .getOutputStreamString).1 = .string t ∧
      t.active = [177]) ∧
    ¬Lossless (baseString 4) (baseString 4).active [.writeChar 945, .getOutputStreamString] := by
  refine ⟨⟨_, rfl, by decide⟩, fun h => ?_⟩
  have hkept := h.1.kept
  revert hkept
  decide

end StringOutput
