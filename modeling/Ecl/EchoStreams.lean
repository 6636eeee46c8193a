import Ecl.StringStreams

/-! Echo streams of src/c/streams/strm_composite.d over a character input and a character output,
with the vector reads of src/c/streams/strm_common.d. -/
namespace EchoStreams

open StringStreams

/-- lastByte tells whether last_byte is set; the output is what was written to it. -/
structure Echo (σ : Type*) where
  input : σ
  output : List ℤ
  lastByte : Bool
  deriving DecidableEq

section
variable {σ : Type*} (component : CharacterInput σ)

def echoReadChar (s : Echo σ) : Option ℤ × Echo σ :=
  if s.lastByte = true then
    let r := component.readChar s.input
    (r.1, { s with lastByte := false, input := r.2 })
  else
    match component.readChar s.input with
    | (some c, input) => (some c, { s with input, output := s.output ++ [c] })
    | (none, input) => (none, { s with input })

def echoUnreadChar (s : Echo σ) (c : ℤ) : Option UnreadError × Echo σ :=
  if s.lastByte = true then (some .unreadTwice, s)
  else
    match component.unreadChar s.input c with
    | .ok input => (none, { s with lastByte := true, input })
    | .error e => (some e, { s with lastByte := true })

def echoPeekChar (s : Echo σ) : Except UnreadError (Option ℤ × Echo σ) :=
  (component.peekChar s.input).map fun r => (r.1, { s with input := r.2 })

def echoListen (s : Echo σ) : Listening × Echo σ :=
  let r := component.listen s.input
  (r.1, { s with input := r.2 })

/-- ecl_generic_read_vector for the element types of characters: n elements of the data are left
from start on. The first answer is the index where it stops, the last the character that was
read last, if any. -/
def readVectorLoop : ℕ → Echo σ → List ℤ → ℕ → Option ℤ → ℕ × List ℤ × Echo σ × Option ℤ
  | 0, s, data, start, last => (start, data, s, last)
  | n + 1, s, data, start, last =>
    match echoReadChar component s with
    | (none, s') => (start, data, s', last)
    | (some c, s') => readVectorLoop n s' (data.set start c) (start + 1) (some c)

def echoReadVector (s : Echo σ) (data : List ℤ) (start stop : ℕ) :
    ℕ × List ℤ × Echo σ × Option ℤ :=
  readVectorLoop component (stop - start) s data start none

inductive EchoOperation where
  | character (o : Operation)
  | readVector (data : List ℤ) (start stop : ℕ)
  deriving DecidableEq

/-- The stream after an operation, and the character that may be unread then. -/
def echoStep (s : Echo σ) (last : Option ℤ) : EchoOperation → Echo σ × Option ℤ
  | .character .readChar =>
    let r := echoReadChar component s
    (r.2, r.1.or last)
  | .character (.unreadChar c) => ((echoUnreadChar component s c).2, none)
  | .character .peekChar =>
    match echoPeekChar component s with
    | .ok r => (r.2, last)
    | .error _ => (s, last)
  | .character .listen => ((echoListen component s).2, last)
  | .readVector data start stop =>
    let r := echoReadVector component s data start stop
    (r.2.2.1, r.2.2.2.or last)

def EchoLegal (s : Echo σ) (last : Option ℤ) : List EchoOperation → Prop
  | [] => True
  | o :: os => (∀ c, o = .character (.unreadChar c) → last = some c) ∧
    EchoLegal (echoStep component s last o).1 (echoStep component s last o).2 os

def run (s : Echo σ) (last : Option ℤ) : List EchoOperation → Echo σ
  | [] => s
  | o :: os => run (echoStep component s last o).1 (echoStep component s last o).2 os

end

def furthest (s : Echo StringInput) (last : Option ℤ) : List EchoOperation → ℕ
  | [] => s.input.position
  | o :: os => max s.input.position
      (furthest (echoStep strInOps s last o).1 (echoStep strInOps s last o).2 os)

def start (input : StringInput) : Echo StringInput := ⟨input, [], false⟩

structure Echoed (first : StringInput) (s : Echo StringInput) (top : ℕ) : Prop where
  string : s.input.string = first.string
  limit : s.input.limit = first.limit
  first_le : first.position ≤ s.input.position
  top_eq : top = s.input.position + if s.lastByte = true then 1 else 0
  top_le : top ≤ first.limit
  output : s.output = first.remaining.take (top - first.position)

theorem Echoed.max_top {first : StringInput} {s : Echo StringInput} {top : ℕ}
    (h : Echoed first s top) : max top s.input.position = top := by
  have := h.top_eq
  split at this <;> omega

structure Ready (first : StringInput) (s : Echo StringInput) (last : Option ℤ) (top : ℕ) : Prop
    extends Echoed first s top where
  last : ∀ c, last = some c → s.lastByte = false ∧ first.position < s.input.position

theorem ready_start (input : StringInput) : Ready input (start input) none input.position where
  string := rfl
  limit := rfl
  first_le := Nat.le_refl _
  top_eq := rfl
  top_le := input.position_le
  output := by simp [start]
  last c h := absurd h (by simp)

theorem take_succ_remaining {first s : StringInput} (hstring : s.string = first.string)
    (hlimit : s.limit = first.limit) (hfirst : first.position ≤ s.position)
    (h : s.position < s.limit) :
    first.remaining.take (s.position + 1 - first.position) =
      first.remaining.take (s.position - first.position) ++
        [s.string.get ⟨s.position, Nat.lt_of_lt_of_le h s.limit_le⟩] := by
  have hsub : s.position + 1 - first.position = s.position - first.position + 1 := by omega
  have hlim := first.limit_le
  have hlen : s.position - first.position < first.remaining.length := by
    simp only [StringInput.remaining, List.length_drop, List.length_take]
    omega
  have hget : first.remaining[s.position - first.position] =
      s.string.get ⟨s.position, Nat.lt_of_lt_of_le h s.limit_le⟩ := by
    simp only [StringInput.remaining, List.getElem_drop, List.getElem_take, List.get_eq_getElem,
      hstring]
    congr 1
    omega
  rw [hsub, List.take_succ_eq_append_getElem hlen, hget]

theorem echoReadChar_some {first : StringInput} {s : Echo StringInput} {top : ℕ}
    (h : Echoed first s top) (hp : s.input.position < s.input.limit) :
    ∃ c s', echoReadChar strInOps s = (some c, s') ∧ s'.lastByte = false ∧
      s'.input.position = s.input.position + 1 ∧
      Echoed first s' (max top s'.input.position) := by
  have hread : strInOps.readChar s.input = (some (s.input.string.get
      ⟨s.input.position, Nat.lt_of_lt_of_le hp s.input.limit_le⟩), s.input.advance hp) := by
    simp only [strInOps, strInReadChar, dif_pos hp]
  have hlimit := h.limit
  have htop := h.top_eq
  have hfirst := h.first_le
  cases hb : s.lastByte with
  | true =>
    rw [hb, if_pos rfl] at htop
    refine ⟨_, _, by rw [echoReadChar, if_pos hb, hread], rfl, rfl, ?_⟩
    have hmax : max top (s.input.advance hp).position = top := by
      simp only [StringInput.advance, htop, Nat.max_self]
    rw [hmax]
    exact {
      string := h.string
      limit := h.limit
      first_le := Nat.le_succ_of_le hfirst
      top_eq := htop
      top_le := h.top_le
      output := h.output }
  | false =>
    rw [hb, if_neg (by decide), Nat.add_zero] at htop
    have hecho : echoReadChar strInOps s = (some (s.input.string.get
        ⟨s.input.position, Nat.lt_of_lt_of_le hp s.input.limit_le⟩),
        { s with
          input := s.input.advance hp
          output := s.output ++ [s.input.string.get
            ⟨s.input.position, Nat.lt_of_lt_of_le hp s.input.limit_le⟩] }) := by
      rw [echoReadChar, if_neg (by simp [hb]), hread]
    refine ⟨_, _, hecho, hb, rfl, ?_⟩
    have hmax : max top (s.input.advance hp).position = s.input.position + 1 := by
      simp only [StringInput.advance, htop]
      omega
    rw [hmax]
    exact {
      string := h.string
      limit := h.limit
      first_le := Nat.le_succ_of_le hfirst
      top_eq := by simp [StringInput.advance, hb]
      top_le := by omega
      output := by
        rw [take_succ_remaining h.string h.limit hfirst hp]
        simp only [h.output, htop] }

theorem echoReadChar_none {first : StringInput} {s : Echo StringInput} {top : ℕ}
    (h : Echoed first s top) (hp : ¬ s.input.position < s.input.limit) :
    echoReadChar strInOps s = (none, s) := by
  have hb : s.lastByte = false := by
    have htop := h.top_eq
    have hle := h.top_le
    have hlimit := h.limit
    cases hb : s.lastByte with
    | false => rfl
    | true =>
      rw [hb, if_pos rfl] at htop
      omega
  have hread : strInOps.readChar s.input = (none, s.input) := by
    simp only [strInOps, strInReadChar, dif_neg hp]
  rw [echoReadChar, if_neg (by simp [hb]), hread]

theorem readVectorLoop_spec {first : StringInput} (n : ℕ) {s : Echo StringInput} {top : ℕ}
    (h : Echoed first s top) (data : List ℤ) (start : ℕ) (last : Option ℤ)
    (hl : ∀ c, last = some c → s.lastByte = false ∧ first.position < s.input.position) :
    let r := readVectorLoop strInOps n s data start last
    s.input.position ≤ r.2.2.1.input.position ∧
      Echoed first r.2.2.1 (max top r.2.2.1.input.position) ∧
      (∀ c, r.2.2.2 = some c → r.2.2.1.lastByte = false ∧
        first.position < r.2.2.1.input.position) ∧
      (r.2.2.2 = none → last = none ∧ r.2.2.1 = s) := by
  have htop := h.max_top
  induction n generalizing s top data start last with
  | zero =>
    refine ⟨Nat.le_refl _, ?_, hl, fun hn => ⟨hn, rfl⟩⟩
    simp only [readVectorLoop]
    rwa [htop]
  | succ n ih =>
    by_cases hp : s.input.position < s.input.limit
    · obtain ⟨c, s', hr, hb, hpos, he⟩ := echoReadChar_some h hp
      simp only [readVectorLoop, hr]
      have hle := h.first_le
      have hi := ih he (data.set start c) (start + 1) (some c)
        (fun _ _ => ⟨hb, by omega⟩) (by omega)
      refine ⟨by have := hi.1; omega, ?_, hi.2.2.1, fun hn => ?_⟩
      · have hmax : max (max top s'.input.position) _ = max top _ :=
          (Nat.max_assoc _ _ _).trans (congrArg (max top) (Nat.max_eq_right hi.1))
        rw [← hmax]
        exact hi.2.1
      · exact absurd (hi.2.2.2 hn).1 (by simp)
    · simp only [readVectorLoop, echoReadChar_none h hp]
      refine ⟨Nat.le_refl _, ?_, hl, fun hn => ⟨hn, trivial⟩⟩
      rwa [htop]

theorem Ready.step {first : StringInput} {s : Echo StringInput} {last : Option ℤ} {top : ℕ}
    (h : Ready first s last top) {o : EchoOperation}
    (ho : ∀ c, o = .character (.unreadChar c) → last = some c) :
    Ready first (echoStep strInOps s last o).1 (echoStep strInOps s last o).2
      (max top (echoStep strInOps s last o).1.input.position) := by
  have htop := h.max_top
  cases o with
  | character o =>
    cases o with
    | readChar =>
      by_cases hp : s.input.position < s.input.limit
      · obtain ⟨c, s', hr, hb, hpos, he⟩ := echoReadChar_some h.toEchoed hp
        have hfirst := h.first_le
        simp only [echoStep, hr, Option.some_or]
        exact { toEchoed := he, last := fun _ _ => ⟨hb, by omega⟩ }
      · simp only [echoStep, echoReadChar_none h.toEchoed hp, Option.none_or, htop]
        exact h
    | unreadChar c =>
      obtain ⟨hb, hpos⟩ := h.last c (ho c rfl)
      have hunread : strInOps.unreadChar s.input c = .ok s.input.back := if_neg (by omega)
      have hback : s.input.back.position = s.input.position - 1 := rfl
      have hmax : max top s.input.back.position = top := by omega
      have htop_eq := h.top_eq
      rw [hb, if_neg (by decide), Nat.add_zero] at htop_eq
      simp only [echoStep, echoUnreadChar, hb, Bool.false_eq_true, if_false, hunread, hmax]
      exact {
        string := h.string
        limit := h.limit
        first_le := by rw [hback]; omega
        top_eq := by rw [if_pos rfl, hback]; omega
        top_le := h.top_le
        output := h.output
        last := fun d hd => absurd hd (by simp) }
    | peekChar =>
      simp only [echoStep, echoPeekChar, strInOps, Except.map, htop]
      exact h
    | listen =>
      simp only [echoStep, echoListen, strInOps, htop]
      exact h
  | readVector data start stop =>
    obtain ⟨-, he, hsome, hnone⟩ := readVectorLoop_spec (stop - start) h.toEchoed data start none
      (fun c hc => absurd hc (by simp))
    simp only [echoStep, echoReadVector]
    refine { toEchoed := he, last := fun c hc => ?_ }
    cases hr : (readVectorLoop strInOps (stop - start) s data start none).2.2.2 with
    | some d => exact hsome d hr
    | none =>
      rw [hr, Option.none_or] at hc
      rw [(hnone hr).2]
      exact h.last c hc

theorem furthest_ge (s : Echo StringInput) (last : Option ℤ) (os : List EchoOperation) :
    s.input.position ≤ furthest s last os := by
  cases os with
  | nil => exact Nat.le_refl _
  | cons o os => exact Nat.le_max_left _ _

theorem run_echoed {first : StringInput} {s : Echo StringInput} {last : Option ℤ} {top : ℕ}
    (h : Ready first s last top) (os : List EchoOperation) (hl : EchoLegal strInOps s last os) :
    (run strInOps s last os).output =
      first.remaining.take (max top (furthest s last os) - first.position) := by
  induction os generalizing s last top with
  | nil =>
    have htop := h.max_top
    simp only [run, furthest, htop, h.output]
  | cons o os ih =>
    obtain ⟨ho, hrest⟩ := hl
    have htop := h.max_top
    have hge := furthest_ge (echoStep strInOps s last o).1 (echoStep strInOps s last o).2 os
    rw [run, ih (h.step ho) hrest, furthest]
    congr 2
    omega

end EchoStreams
