import Mathlib.Data.Int.Basic
import Mathlib.Data.List.Basic

/-! String input streams of src/c/streams/strm_string.d, and sequences of the operations for
character input that a stream has in its dispatch table. -/
namespace StringStreams

/-- ecl_unread_error and ecl_unread_twice. -/
inductive UnreadError where
  | unreadError
  | unreadTwice
  deriving DecidableEq

/-- The ECL_LISTEN constants. -/
inductive Listening where
  | noChar | available | eof
  deriving DecidableEq

/-- Characters are codes; none is the end of file. A peek of a stream without an own one reads
and unreads. -/
structure CharacterInput (σ : Type*) where
  readChar : σ → Option ℤ × σ
  unreadChar : σ → ℤ → Except UnreadError σ
  peekChar : σ → Except UnreadError (Option ℤ × σ)
  listen : σ → Listening × σ

section
variable {σ : Type*}

def genericPeekChar (readChar : σ → Option ℤ × σ) (unreadChar : σ → ℤ → Except UnreadError σ)
    (s : σ) : Except UnreadError (Option ℤ × σ) :=
  match readChar s with
  | (some c, s') => (unreadChar s' c).map fun s'' => (some c, s'')
  | (none, s') => .ok (none, s')

/-- PEEK-CHAR with a type is a sequence of peeks and reads. -/
inductive Operation where
  | readChar
  | unreadChar (c : ℤ)
  | peekChar
  | listen
  deriving DecidableEq

inductive Answer where
  | char (c : Option ℤ)
  | unread
  | listens (available : Bool)
  | error (e : UnreadError)
  deriving DecidableEq

variable (input : CharacterInput σ)

/-- An error leaves the stream as it was. -/
def perform (s : σ) : Operation → Answer × σ
  | .readChar => (.char (input.readChar s).1, (input.readChar s).2)
  | .unreadChar c =>
    match input.unreadChar s c with
    | .ok s' => (.unread, s')
    | .error e => (.error e, s)
  | .peekChar =>
    match input.peekChar s with
    | .ok r => (.char r.1, r.2)
    | .error e => (.error e, s)
  | .listen => (.listens ((input.listen s).1 = .available), (input.listen s).2)

def trace (remaining : σ → List ℤ) (s : σ) : List Operation → List (Answer × List ℤ)
  | [] => []
  | o :: os =>
    let r := perform input s o
    (r.1, remaining r.2) :: trace remaining r.2 os

def Along (P : σ → Operation → Prop) (s : σ) : List Operation → Prop
  | [] => True
  | o :: os => P s o ∧ Along P (perform input s o).2 os

/-- The character that may be unread after an operation: the last one that was read, until it is
unread. -/
def lastRead (last : Option ℤ) : Operation → Answer → Option ℤ
  | .readChar, .char (some c) => some c
  | .unreadChar _, _ => none
  | _, _ => last

def Legal (last : Option ℤ) (s : σ) : List Operation → Prop
  | [] => True
  | o :: os => (∀ c, o = .unreadChar c → last = some c) ∧
    Legal (lastRead last o (perform input s o).1) (perform input s o).2 os

end

/-- STRING_INPUT_STRING with its POSITION and LIMIT. -/
structure StringInput where
  string : List ℤ
  position : ℕ
  limit : ℕ
  position_le : position ≤ limit
  limit_le : limit ≤ string.length
  deriving DecidableEq

namespace StringInput

def ofText (text : List ℤ) : StringInput := ⟨text, 0, text.length, Nat.zero_le _, Nat.le_refl _⟩

def remaining (s : StringInput) : List ℤ := (s.string.take s.limit).drop s.position

def previous (s : StringInput) : Option ℤ :=
  if s.position = 0 then none else s.string[s.position - 1]?

def advance (s : StringInput) (h : s.position < s.limit) : StringInput :=
  { s with position := s.position + 1, position_le := h }

def back (s : StringInput) : StringInput :=
  { s with
    position := s.position - 1
    position_le := Nat.le_trans (Nat.sub_le _ _) s.position_le }

end StringInput

def strInReadChar (s : StringInput) : Option ℤ × StringInput :=
  if h : s.position < s.limit then
    (some (s.string.get ⟨s.position, Nat.lt_of_lt_of_le h s.limit_le⟩), s.advance h)
  else (none, s)

def strInUnreadChar (s : StringInput) (_ : ℤ) : Except UnreadError StringInput :=
  if s.position ≤ 0 then .error .unreadError else .ok s.back

def strInPeekChar (s : StringInput) : Option ℤ :=
  if h : s.position < s.limit then
    some (s.string.get ⟨s.position, Nat.lt_of_lt_of_le h s.limit_le⟩)
  else none

def strInListen (s : StringInput) : Listening :=
  if s.position < s.limit then .available else .eof

def strInOps : CharacterInput StringInput where
  readChar := strInReadChar
  unreadChar := strInUnreadChar
  peekChar s := .ok (strInPeekChar s, s)
  listen s := (strInListen s, s)

theorem remaining_eq_cons {s : StringInput} (h : s.position < s.limit) :
    s.remaining =
      s.string.get ⟨s.position, Nat.lt_of_lt_of_le h s.limit_le⟩ :: (s.advance h).remaining := by
  have hlen : s.position < (s.string.take s.limit).length := by
    rw [List.length_take]
    exact lt_min h (Nat.lt_of_lt_of_le h s.limit_le)
  rw [StringInput.remaining, List.drop_eq_getElem_cons hlen, List.getElem_take]
  rfl

theorem remaining_eq_nil {s : StringInput} (h : ¬ s.position < s.limit) : s.remaining = [] := by
  apply List.drop_eq_nil_of_le
  rw [List.length_take]
  exact Nat.le_trans (Nat.min_le_left _ _) (Nat.le_of_not_lt h)

theorem strInReadChar_fst (s : StringInput) : (strInReadChar s).1 = s.remaining.head? := by
  simp only [strInReadChar]
  split
  next h => rw [remaining_eq_cons h, List.head?_cons]
  next h => rw [remaining_eq_nil h, List.head?_nil]

theorem strInReadChar_remaining (s : StringInput) :
    (strInReadChar s).2.remaining = s.remaining.tail := by
  simp only [strInReadChar]
  split
  next h => rw [remaining_eq_cons h, List.tail_cons]
  next h => rw [remaining_eq_nil h, List.tail_nil]

theorem strInReadChar_previous {s : StringInput} {c : ℤ} (h : (strInReadChar s).1 = some c) :
    (strInReadChar s).2.previous = some c := by
  simp only [strInReadChar] at h ⊢
  split at h
  next hp =>
    have hlen : s.position < s.string.length := Nat.lt_of_lt_of_le hp s.limit_le
    simp only [hp, dif_pos, StringInput.previous, StringInput.advance, Nat.add_one_ne_zero,
      if_false, Nat.add_sub_cancel, List.getElem?_eq_getElem hlen]
    simpa using h
  next hp => exact absurd h (by simp)

theorem strInPeekChar_eq (s : StringInput) : strInPeekChar s = s.remaining.head? := by
  simp only [strInPeekChar]
  split
  next h => rw [remaining_eq_cons h, List.head?_cons]
  next h => rw [remaining_eq_nil h, List.head?_nil]

theorem strInListen_eq (s : StringInput) :
    strInListen s = if s.remaining = [] then .eof else .available := by
  simp only [strInListen]
  split
  next h => simp [remaining_eq_cons h]
  next h => simp [remaining_eq_nil h]

theorem strInUnreadChar_eq {s : StringInput} {p : ℤ} (h : s.previous = some p) (c : ℤ) :
    ∃ s', strInUnreadChar s c = .ok s' ∧ s'.remaining = p :: s.remaining := by
  simp only [StringInput.previous] at h
  split at h
  next h0 => exact absurd h (by simp)
  next h0 =>
    have hpos : s.back.position < s.back.limit := by
      have := s.position_le
      simp only [StringInput.back]
      omega
    refine ⟨s.back, if_neg (by omega), ?_⟩
    obtain ⟨hlen, hget⟩ := List.getElem?_eq_some_iff.mp h
    rw [remaining_eq_cons hpos]
    have hback : (s.back.advance hpos).remaining = s.remaining := by
      simp only [StringInput.remaining, StringInput.advance, StringInput.back]
      rw [Nat.sub_add_cancel (by omega)]
    rw [hback, ← hget]
    rfl

theorem strInUnreadChar_error {s : StringInput} (h : s.previous = none) (c : ℤ) :
    strInUnreadChar s c = .error .unreadError := by
  have hle := s.position_le
  have hlim := s.limit_le
  simp only [StringInput.previous] at h
  split at h
  next h0 => exact if_pos (by omega)
  next h0 =>
    have := List.getElem?_eq_none_iff.mp h
    omega

end StringStreams
