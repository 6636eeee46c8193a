import Ecl.StringStreams

/-! Concatenated streams of src/c/streams/strm_composite.d over string input streams, against one
string input stream over the texts that are left. -/
namespace ConcatenatedStreams

open StringStreams

section
variable {σ : Type*} (component : CharacterInput σ)

/-- The argument and the second answer are CONCATENATED_STREAM_LIST, whose streams are distinct
objects. -/
def concatenatedReadChar : List σ → Option ℤ × List σ
  | [] => (none, [])
  | s :: l =>
    match component.readChar s with
    | (some c, s') => (some c, s' :: l)
    | (none, _) => concatenatedReadChar l

def concatenatedUnreadChar (l : List σ) (c : ℤ) : Except UnreadError (List σ) :=
  match l with
  | [] => .error .unreadError
  | s :: l => (component.unreadChar s c).map (· :: l)

def concatenatedListen : List σ → Listening × List σ
  | [] => (.eof, [])
  | s :: l =>
    match component.listen s with
    | (.eof, _) => concatenatedListen l
    | (f, s') => (f, s' :: l)

def concatenatedOps : CharacterInput (List σ) where
  readChar := concatenatedReadChar component
  unreadChar := concatenatedUnreadChar component
  peekChar := genericPeekChar (concatenatedReadChar component) (concatenatedUnreadChar component)
  listen := concatenatedListen component

end

def text (l : List StringInput) : List ℤ := l.flatMap StringInput.remaining

def previous (l : List StringInput) : Option ℤ := l.head?.bind StringInput.previous

theorem text_cons (s : StringInput) (l : List StringInput) : text (s :: l) = s.remaining ++ text l :=
  List.flatMap_cons

theorem concatenatedReadChar_spec (l : List StringInput) :
    (concatenatedReadChar strInOps l).1 = (text l).head? ∧
      text (concatenatedReadChar strInOps l).2 = (text l).tail ∧
      ∀ c, (concatenatedReadChar strInOps l).1 = some c →
        previous (concatenatedReadChar strInOps l).2 = some c := by
  induction l with
  | nil => exact ⟨rfl, rfl, fun c h => absurd h (by simp [concatenatedReadChar])⟩
  | cons s l ih =>
    have hfst := strInReadChar_fst s
    have hrem := strInReadChar_remaining s
    rw [concatenatedReadChar]
    cases hr : strInReadChar s with
    | mk c s' =>
      have hread : strInOps.readChar s = (c, s') := hr
      rw [hr] at hfst hrem
      rw [hread]
      cases c with
      | none =>
        have hnil : s.remaining = [] := List.head?_eq_none_iff.mp hfst.symm
        rw [text_cons, hnil, List.nil_append]
        exact ih
      | some c =>
        obtain ⟨t, ht⟩ := List.head?_eq_some_iff.mp hfst.symm
        rw [ht, List.tail_cons] at hrem
        refine ⟨?_, ?_, fun c' hc => ?_⟩
        · rw [text_cons, ht, List.cons_append, List.head?_cons]
        · rw [text_cons, text_cons, ht, List.cons_append, List.tail_cons, hrem]
        · have hp := strInReadChar_previous (s := s) (c := c) (by rw [hr])
          rw [hr] at hp
          rw [← Option.some_inj.mp hc]
          exact hp

theorem concatenatedListen_spec (l : List StringInput) :
    (concatenatedListen strInOps l).1 = (if text l = [] then .eof else .available) ∧
      text (concatenatedListen strInOps l).2 = text l := by
  induction l with
  | nil => exact ⟨rfl, rfl⟩
  | cons s l ih =>
    have hl : strInOps.listen s = (strInListen s, s) := rfl
    rw [concatenatedListen, hl, strInListen_eq]
    by_cases hs : s.remaining = []
    · rw [if_pos hs, text_cons, hs, List.nil_append]
      exact ih
    · rw [if_neg hs, text_cons, if_neg (by simp [hs])]
      exact ⟨rfl, text_cons s l⟩

theorem concatenatedUnreadChar_some {l : List StringInput} {p : ℤ} (h : previous l = some p)
    (c : ℤ) : ∃ l', concatenatedUnreadChar strInOps l c = .ok l' ∧ text l' = p :: text l := by
  cases l with
  | nil => exact absurd h (by simp [previous])
  | cons s l =>
    obtain ⟨s', hs', hrem⟩ := strInUnreadChar_eq (s := s) h c
    refine ⟨s' :: l, ?_, ?_⟩
    · have : strInOps.unreadChar s c = .ok s' := hs'
      rw [concatenatedUnreadChar, this]
      rfl
    · rw [text_cons, text_cons, hrem, List.cons_append]

theorem concatenatedUnreadChar_none {l : List StringInput} (h : previous l = none) (c : ℤ) :
    concatenatedUnreadChar strInOps l c = .error .unreadError := by
  cases l with
  | nil => rfl
  | cons s l =>
    have : strInOps.unreadChar s c = .error .unreadError := strInUnreadChar_error h c
    rw [concatenatedUnreadChar, this]
    rfl

theorem peekChar_spec (l : List StringInput) :
    ∃ l', (concatenatedOps strInOps).peekChar l = .ok ((text l).head?, l') ∧ text l' = text l := by
  obtain ⟨hfst, htail, hprev⟩ := concatenatedReadChar_spec l
  show ∃ l', genericPeekChar (concatenatedReadChar strInOps) (concatenatedUnreadChar strInOps) l =
    .ok ((text l).head?, l') ∧ text l' = text l
  rw [genericPeekChar]
  cases hr : concatenatedReadChar strInOps l with
  | mk c l₁ =>
    rw [hr] at hfst htail hprev
    cases c with
    | none =>
      have hnil : text l = [] := List.head?_eq_none_iff.mp hfst.symm
      refine ⟨l₁, by rw [← hfst], ?_⟩
      rw [htail, hnil, List.tail_nil]
    | some c =>
      obtain ⟨l', hl', htext⟩ := concatenatedUnreadChar_some (hprev c rfl) c
      obtain ⟨t, ht⟩ := List.head?_eq_some_iff.mp hfst.symm
      refine ⟨l', ?_, ?_⟩
      · simp only [hl', ← hfst, Except.map]
      · rw [htext, htail, ht, List.tail_cons]

structure Tracks (l : List StringInput) (s : StringInput) (last : Option ℤ) : Prop where
  remaining : s.remaining = text l
  last : ∀ c, last = some c → s.previous = some c

def UnreadFinds (l : List StringInput) (o : Operation) : Prop :=
  ∀ c, o = .unreadChar c → previous l = some c

theorem tracks_ofText (l : List StringInput) : Tracks l (StringInput.ofText (text l)) none where
  remaining := by simp [StringInput.ofText, StringInput.remaining]
  last c h := absurd h (by simp)

theorem Tracks.step {l : List StringInput} {s : StringInput} {last : Option ℤ}
    (h : Tracks l s last) {o : Operation} (ho : ∀ c, o ≠ .unreadChar c) :
    (perform (concatenatedOps strInOps) l o).1 = (perform strInOps s o).1 ∧
      Tracks (perform (concatenatedOps strInOps) l o).2 (perform strInOps s o).2
        (lastRead last o (perform strInOps s o).1) := by
  cases o with
  | readChar =>
    obtain ⟨hfst, htail, -⟩ := concatenatedReadChar_spec l
    refine ⟨?_, ?_, fun c hc => ?_⟩
    · show Answer.char _ = Answer.char _
      exact congrArg _ (hfst.trans ((strInReadChar_fst s).trans (by rw [h.remaining])).symm)
    · exact (strInReadChar_remaining s).trans (by rw [h.remaining]; exact htail.symm)
    · change lastRead last .readChar (.char (strInReadChar s).1) = some c at hc
      change (strInReadChar s).2.previous = some c
      cases hr : (strInReadChar s).1 with
      | some d =>
        rw [hr] at hc
        rw [strInReadChar_previous hr]
        exact hc
      | none =>
        rw [hr] at hc
        have hend : ¬ s.position < s.limit := by
          intro hp
          simp [strInReadChar, hp] at hr
        simp only [strInReadChar, dif_neg hend]
        exact h.last c hc
  | unreadChar c => exact absurd rfl (ho c)
  | peekChar =>
    obtain ⟨l', hpeek, htext⟩ := peekChar_spec l
    simp only [perform, hpeek]
    refine ⟨?_, h.remaining.trans htext.symm, h.last⟩
    show Answer.char _ = Answer.char _
    rw [strInPeekChar_eq, h.remaining]
  | listen =>
    obtain ⟨hfst, htext⟩ := concatenatedListen_spec l
    refine ⟨?_, h.remaining.trans htext.symm, h.last⟩
    show Answer.listens (decide ((concatenatedListen strInOps l).1 = .available)) =
      Answer.listens (decide (strInListen s = .available))
    rw [hfst, strInListen_eq, h.remaining]

theorem Tracks.unread {l : List StringInput} {s : StringInput} {c : ℤ}
    (h : Tracks l s (some c)) :
    ∃ s', perform strInOps s (.unreadChar c) = (.unread, s') ∧ s'.remaining = c :: text l := by
  obtain ⟨s', hs', hrem⟩ := strInUnreadChar_eq (h.last c rfl) c
  refine ⟨s', ?_, by rw [hrem, h.remaining]⟩
  have : strInOps.unreadChar s c = .ok s' := hs'
  simp only [perform, this]

theorem unread_agrees_iff (l : List StringInput) (c : ℤ) :
    ((perform (concatenatedOps strInOps) l (.unreadChar c)).1 = .unread ∧
      text (perform (concatenatedOps strInOps) l (.unreadChar c)).2 = c :: text l) ↔
      previous l = some c := by
  cases hp : previous l with
  | none =>
    have : (concatenatedOps strInOps).unreadChar l c = .error .unreadError :=
      concatenatedUnreadChar_none hp c
    simp [perform, this]
  | some p =>
    obtain ⟨l', hl', htext⟩ := concatenatedUnreadChar_some hp c
    have : (concatenatedOps strInOps).unreadChar l c = .ok l' := hl'
    simp [perform, this, htext]

theorem trace_eq_iff {l : List StringInput} {s : StringInput} {last : Option ℤ}
    (h : Tracks l s last) (os : List Operation) (hl : Legal strInOps last s os) :
    trace (concatenatedOps strInOps) text l os = trace strInOps StringInput.remaining s os ↔
      Along (concatenatedOps strInOps) UnreadFinds l os := by
  induction os generalizing l s last with
  | nil => exact ⟨fun _ => trivial, fun _ => rfl⟩
  | cons o os ih =>
    obtain ⟨hlegal, hrest⟩ := hl
    simp only [trace, Along, List.cons.injEq, Prod.mk.injEq]
    by_cases ho : ∃ c, o = .unreadChar c
    · obtain ⟨c, rfl⟩ := ho
      obtain rfl := hlegal c rfl
      obtain ⟨s', hs', hrem⟩ := h.unread
      rw [hs'] at hrest ⊢
      have hfinds : UnreadFinds l (.unreadChar c) ↔ previous l = some c :=
        ⟨fun hu => hu c rfl, fun hp d hd => by cases hd; exact hp⟩
      rw [hfinds, hrem, unread_agrees_iff]
      refine and_congr_right fun hp => ?_
      obtain ⟨-, htext⟩ := (unread_agrees_iff l c).mpr hp
      exact ih ⟨by rw [hrem, htext], fun d hd => absurd hd (by simp [lastRead])⟩ hrest
    · have hne : ∀ c, o ≠ .unreadChar c := fun c hc => ho ⟨c, hc⟩
      obtain ⟨hans, htracks⟩ := h.step hne
      have hfinds : UnreadFinds l o := fun c hc => absurd hc (hne c)
      rw [ih htracks hrest]
      constructor
      · exact fun hr => ⟨hfinds, hr.2⟩
      · exact fun hr => ⟨⟨hans, htracks.remaining.symm⟩, hr.2⟩

/-- The components behave like one stream as long as every unread finds the component that the
character came from, or one with the same character before its position, first in the list. -/
theorem concatenated_streams_agree_iff (components : List StringInput) (os : List Operation)
    (hl : Legal strInOps none (StringInput.ofText (text components)) os) :
    trace (concatenatedOps strInOps) text components os =
        trace strInOps StringInput.remaining (StringInput.ofText (text components)) os ↔
      Along (concatenatedOps strInOps) UnreadFinds components os :=
  trace_eq_iff (tracks_ofText components) os hl

theorem concatenated_streams_agree_two :
    trace (concatenatedOps strInOps) text [.ofText [97], .ofText [98]]
        [.listen, .readChar, .unreadChar 97, .readChar] =
      trace strInOps StringInput.remaining (.ofText (text [.ofText [97], .ofText [98]]))
        [.listen, .readChar, .unreadChar 97, .readChar] :=
  (concatenated_streams_agree_iff [.ofText [97], .ofText [98]]
    [.listen, .readChar, .unreadChar 97, .readChar]
    ⟨fun c h => (by cases h), fun c h => (by cases h), fun c h => (by cases h; decide),
      fun c h => (by cases h), trivial⟩).mpr
    ⟨fun c h => (by cases h), fun c h => (by cases h), fun c h => (by cases h; decide),
      fun c h => (by cases h), trivial⟩

/-- LISTEN at the end of the first component drops it, and the character that was read from there
cannot be unread. -/
theorem unread_after_listen_fails :
    Legal strInOps none (.ofText (text [.ofText [97], .ofText [98]]))
        [.readChar, .listen, .unreadChar 97] ∧
      trace (concatenatedOps strInOps) text [.ofText [97], .ofText [98]]
          [.readChar, .listen, .unreadChar 97] ≠
        trace strInOps StringInput.remaining (.ofText (text [.ofText [97], .ofText [98]]))
          [.readChar, .listen, .unreadChar 97] :=
  ⟨⟨fun c h => (by cases h), fun c h => (by cases h), fun c h => (by cases h; decide), trivial⟩,
    by decide⟩

end ConcatenatedStreams
