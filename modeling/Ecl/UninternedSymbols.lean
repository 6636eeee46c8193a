import Ecl.SymbolRoundTrip

/-! The reader of #: in src/c/reader/rtab_cl.d beside the reader of plain tokens. -/
namespace UninternedSymbols

open Characters NumberReader SymbolPrinter SymbolReader

/-- Where in the loops the reader is. -/
inductive Place where
  | normal | single | multiple | multipleSingle
  deriving DecidableEq

inductive SharpError where
  | endOfFile
  | extraArgument (d : ℕ)
  | packagePrefix
  deriving DecidableEq

structure NewSymbol where
  name : List ℕ
  hpack : Option ℕ
  deriving DecidableEq

def makeSymbol (name : List ℕ) : NewSymbol := ⟨name, none⟩

section
variable (ucd : Ucd) (suppress : Bool)

/-- The loop of sharp_colon_reader, with the input left. The character that ends the token is
unread. -/
def sharpLoop : Place → List ℕ → TokenString → Except SharpError (TokenString × List ℕ)
  | .normal, [], token => .ok (token, [])
  | _, [], _ => .error .endOfFile
  | .normal, c :: rest, token =>
    match readtableGet c with
    | .singleEscape => sharpLoop .single rest token
    | .multipleEscape => sharpLoop .multiple rest token
    | a =>
      if ucd.lowerCaseP c = false ∧ c = 58 ∧ suppress = false then .error .packagePrefix
      else
        let c := if ucd.lowerCaseP c then ucd.charUpcase c else c
        if a = .whitespace ∨ a = .terminating then .ok (token, c :: rest)
        else sharpLoop .normal rest (pushExtend token c)
  | .single, c :: rest, token => sharpLoop .normal rest (pushExtend token c)
  | .multiple, c :: rest, token =>
    match readtableGet c with
    | .singleEscape => sharpLoop .multipleSingle rest token
    | .multipleEscape => sharpLoop .normal rest token
    | _ => sharpLoop .multiple rest (pushExtend token c)
  | .multipleSingle, c :: rest, token => sharpLoop .multiple rest (pushExtend token c)

/-- The argument d stands between the characters # and :. -/
def sharpColonReader (buffer : TokenString) (d : Option ℕ) (input : List ℕ) :
    Except SharpError (Option NewSymbol × List ℕ) := do
  if let some d := d then
    if suppress = false then throw (.extraArgument d)
  if input = [] then throw .endOfFile
  let (token, rest) ← sharpLoop ucd suppress .normal input { buffer with chars := [] }
  return (if suppress then none else some (makeSymbol token.chars), rest)

end

/-- The characters of a token, each with whether it is escaped, and the input behind them. -/
def tokenText : Place → List ℕ → Option (List (ℕ × Bool) × List ℕ)
  | .normal, [] => some ([], [])
  | _, [] => none
  | .normal, c :: rest =>
    match readtableGet c with
    | .singleEscape => tokenText .single rest
    | .multipleEscape => tokenText .multiple rest
    | .whitespace | .terminating => some ([], c :: rest)
    | _ => (tokenText .normal rest).map fun t => ((c, false) :: t.1, t.2)
  | .single, c :: rest => (tokenText .normal rest).map fun t => ((c, true) :: t.1, t.2)
  | .multiple, c :: rest =>
    match readtableGet c with
    | .singleEscape => tokenText .multipleSingle rest
    | .multipleEscape => tokenText .normal rest
    | _ => (tokenText .multiple rest).map fun t => ((c, true) :: t.1, t.2)
  | .multipleSingle, c :: rest => (tokenText .multiple rest).map fun t => ((c, true) :: t.1, t.2)

def unescaped (t : List (ℕ × Bool)) : List ℕ := (t.filter fun c => !c.2).map Prod.fst

/-- A conversion of the characters that are not escaped. -/
def convert (f : ℕ → ℕ) (t : List (ℕ × Bool)) : List ℕ :=
  t.map fun c => if c.2 then c.1 else f c.1

section
variable {f g : ℕ → ℕ} {c : ℕ} {t : List (ℕ × Bool)}

theorem convert_escaped : convert f ((c, true) :: t) = c :: convert f t := rfl

theorem convert_unescaped : convert f ((c, false) :: t) = f c :: convert f t := rfl

theorem unescaped_escaped : unescaped ((c, true) :: t) = unescaped t := rfl

theorem unescaped_unescaped : unescaped ((c, false) :: t) = c :: unescaped t := rfl

theorem convert_eq_iff : convert f t = convert g t ↔ ∀ c ∈ unescaped t, f c = g c := by
  induction t with
  | nil => simp [convert, unescaped]
  | cons c t ih =>
    rcases c with ⟨c, escaped⟩
    cases escaped with
    | true => rw [convert_escaped, convert_escaped, unescaped_escaped, List.cons.injEq, ih,
        and_iff_right rfl]
    | false => rw [convert_unescaped, convert_unescaped, unescaped_unescaped, List.cons.injEq, ih,
        List.forall_mem_cons]

end

theorem tokenText_cons {place : Place} {c : ℕ} {e : Bool} {input rest : List ℕ}
    {t : List (ℕ × Bool)}
    (h : (tokenText place input).map (fun t => ((c, e) :: t.1, t.2)) = some (t, rest)) :
    ∃ t', tokenText place input = some (t', rest) ∧ t = (c, e) :: t' := by
  rw [Option.map_eq_some_iff] at h
  obtain ⟨⟨t', rest'⟩, ht', heq⟩ := h
  cases heq
  exact ⟨t', ht', rfl⟩

section
variable {ucd : Ucd}

theorem chars_pushExtend {token token' : TokenString} {c : ℕ} {rest : List ℕ}
    (h : token'.chars = (pushExtend token c).chars ++ rest) :
    token'.chars = token.chars ++ c :: rest := by
  rw [h, pushExtend, List.append_assoc, List.singleton_append]

theorem sharpLoop_end (hucd : ucd.Lawful) {c : ℕ}
    (hget : readtableGet c = .whitespace ∨ readtableGet c = .terminating) (input : List ℕ)
    (token : TokenString) :
    sharpLoop ucd false .normal (c :: input) token = .ok (token, c :: input) := by
  have hconstituent : readtableGet c ≠ .constituent := by
    rcases hget with hget | hget <;> simp [hget]
  have hlower : ucd.lowerCaseP c = false := by
    rw [← Bool.not_eq_true]
    exact fun hlower => hconstituent (Ucd.constituent_of_lower hucd hlower).1
  have hne : c ≠ 58 := by
    rintro rfl
    exact hconstituent (by decide)
  rw [sharpLoop]
  rcases hget with hget | hget <;> simp [hget, hlower, hne]

theorem sharpLoop_eq (hucd : ucd.Lawful) {place : Place} {input : List ℕ} {t : List (ℕ × Bool)}
    {rest : List ℕ} (ht : tokenText place input = some (t, rest)) (hcolon : 58 ∉ unescaped t)
    (token : TokenString) :
    ∃ token', sharpLoop ucd false place input token = .ok (token', rest) ∧
      token'.chars = token.chars ++ convert ucd.charUpcase t := by
  induction input generalizing place t token with
  | nil =>
    cases place with
    | normal =>
      cases ht
      exact ⟨token, rfl, (List.append_nil _).symm⟩
    | single => cases ht
    | multiple => cases ht
    | multipleSingle => cases ht
  | cons c input ih =>
    have hpush : ∀ {place : Place} {e : Bool},
        (tokenText place input).map (fun t => ((c, e) :: t.1, t.2)) = some (t, rest) →
        ∃ t', t = (c, e) :: t' ∧ (58 ∉ unescaped t' → ∀ d, ∃ token',
          sharpLoop ucd false place input (pushExtend token d) = .ok (token', rest) ∧
            token'.chars = token.chars ++ d :: convert ucd.charUpcase t') := by
      intro place e h
      obtain ⟨t', ht', rfl⟩ := tokenText_cons h
      refine ⟨t', rfl, fun hcolon d => ?_⟩
      obtain ⟨token', hloop, hchars⟩ := ih ht' hcolon (pushExtend token d)
      exact ⟨token', hloop, chars_pushExtend hchars⟩
    cases place with
    | normal =>
      rw [tokenText] at ht
      have hupcase : (if ucd.lowerCaseP c then ucd.charUpcase c else c) = ucd.charUpcase c := by
        unfold Ucd.charUpcase
        split <;> rfl
      cases hget : readtableGet c with
      | singleEscape | multipleEscape =>
        simp only [hget] at ht
        simp only [sharpLoop, hget]
        exact ih ht hcolon token
      | whitespace =>
        simp only [hget, Option.some.injEq, Prod.mk.injEq] at ht
        obtain ⟨rfl, rfl⟩ := ht
        exact ⟨token, sharpLoop_end hucd (.inl hget) input token, (List.append_nil _).symm⟩
      | terminating =>
        simp only [hget, Option.some.injEq, Prod.mk.injEq] at ht
        obtain ⟨rfl, rfl⟩ := ht
        exact ⟨token, sharpLoop_end hucd (.inr hget) input token, (List.append_nil _).symm⟩
      | _ =>
        simp only [hget] at ht
        obtain ⟨t', rfl, hrest⟩ := hpush ht
        rw [unescaped_unescaped, List.mem_cons, not_or] at hcolon
        obtain ⟨token', hloop, hchars⟩ := hrest hcolon.2 (ucd.charUpcase c)
        refine ⟨token', ?_, hchars⟩
        rw [sharpLoop]
        simpa [hget, hupcase, Ne.symm hcolon.1] using hloop
    | single | multipleSingle =>
      obtain ⟨t', rfl, hrest⟩ := hpush ht
      exact hrest hcolon c
    | multiple =>
      rw [tokenText] at ht
      rw [sharpLoop]
      cases hget : readtableGet c with
      | singleEscape | multipleEscape =>
        simp only [hget] at ht ⊢
        exact ih ht hcolon token
      | _ =>
        simp only [hget] at ht ⊢
        obtain ⟨t', rfl, hrest⟩ := hpush ht
        exact hrest hcolon c

end

def place : Mode → Place
  | .normal => .normal
  | .single => .single
  | .multiple _ => .multiple
  | .multipleSingle _ => .multipleSingle

def Marks (escape : List (ℕ × ℕ)) (flags : List Bool) : Prop :=
  ∀ fillp i, flags.length ≤ fillp →
    ((runs 0 escape fillp).any (fun run => run.1 ≤ i && i < run.2) = true ↔
      flags[i]? = some false ∨ flags.length ≤ i ∧ i < fillp)

theorem runs_append (index low high fillp : ℕ) (escape : List (ℕ × ℕ)) :
    runs index (escape ++ [(low, high)]) fillp = runs index escape low ++ [(high, fillp)] := by
  induction escape generalizing index with
  | nil => rfl
  | cons part escape ih =>
    rcases part with ⟨low', high'⟩
    rw [List.cons_append, runs, runs, ih, List.cons_append]

theorem marks_nil : Marks [] [] := by
  intro fillp i _
  simp [runs]

section
variable {escape : List (ℕ × ℕ)} {flags : List Bool}

theorem Marks.unescaped (h : Marks escape flags) : Marks escape (flags ++ [false]) := by
  intro fillp i hfillp
  rw [List.length_append, List.length_singleton] at hfillp ⊢
  rw [h fillp i (by omega)]
  rcases Nat.lt_trichotomy i flags.length with hi | hi | hi
  · rw [List.getElem?_append_left hi]
    constructor <;> rintro (hflag | hout)
    exacts [.inl hflag, absurd hout.1 (by omega), .inl hflag, absurd hout.1 (by omega)]
  · subst hi
    simp only [List.getElem?_concat_length, true_or, iff_true]
    exact .inr ⟨le_rfl, by omega⟩
  · rw [List.getElem?_eq_none (by omega), List.getElem?_eq_none (by simp; omega)]
    simp only [reduceCtorEq, false_or]
    omega

theorem Marks.escaped (h : Marks escape flags) (k : ℕ) :
    Marks (escape ++ [(flags.length, flags.length + k)]) (flags ++ List.replicate k true) := by
  intro fillp i hfillp
  rw [List.length_append, List.length_replicate] at hfillp ⊢
  rw [runs_append, List.any_append, Bool.or_eq_true, h _ i le_rfl]
  simp only [List.any_cons, List.any_nil, Bool.or_false, Bool.and_eq_true, decide_eq_true_eq]
  by_cases hi : i < flags.length
  · rw [List.getElem?_append_left hi]
    constructor
    · rintro ((hflag | hout) | hout)
      exacts [.inl hflag, absurd hout.1 (by omega), absurd hout.1 (by omega)]
    · rintro (hflag | hout)
      exacts [.inl (.inl hflag), absurd hout.1 (by omega)]
  · have hflag : (flags ++ List.replicate k true)[i]? ≠ some false := by
      rw [List.getElem?_append_right (by omega), List.getElem?_replicate]
      split <;> simp
    have hnone : flags[i]? ≠ some false := by
      rw [List.getElem?_eq_none (by omega)]
      simp
    simp only [hflag, hnone, false_or]
    omega

end

def Marked : Mode → List (ℕ × ℕ) → List Bool → Prop
  | .normal, escape, flags | .single, escape, flags => Marks escape flags
  | .multiple start, escape, flags | .multipleSingle start, escape, flags =>
    ∃ before k, flags = before ++ List.replicate k true ∧ before.length = start ∧
      Marks escape before

def pushed (ucd : Ucd) (readCase : ReadtableCase) (c : ℕ) : ℕ :=
  if readCase = .preserve then c
  else if ucd.upperCaseP c then if readCase = .downcase then ucd.charDowncase c else c
  else if ucd.lowerCaseP c then if readCase = .upcase then ucd.charUpcase c else c
  else c

structure Recorded (ucd : Ucd) (readCase : ReadtableCase) (st : TokenState)
    (t : List (ℕ × Bool)) : Prop where
  chars : st.string.chars = convert (pushed ucd readCase) t
  escape : Marked st.mode st.escape (t.map Prod.snd)
  upcase : readCase ≠ .preserve →
    st.upcase = (unescaped t).countP ucd.upperCaseP - (unescaped t).countP ucd.lowerCaseP
  count : readCase ≠ .preserve →
    st.count = (unescaped t).countP ucd.upperCaseP + (unescaped t).countP ucd.lowerCaseP

section
variable {ucd : Ucd} {readCase : ReadtableCase} {st st' : TokenState} {t : List (ℕ × Bool)} {c : ℕ}

theorem unescaped_append (t t' : List (ℕ × Bool)) :
    unescaped (t ++ t') = unescaped t ++ unescaped t' := by
  simp [unescaped]

theorem convert_append (f : ℕ → ℕ) (t t' : List (ℕ × Bool)) :
    convert f (t ++ t') = convert f t ++ convert f t' := List.map_append

theorem Recorded.length (h : Recorded ucd readCase st t) :
    st.string.chars.length = (t.map Prod.snd).length := by
  rw [h.chars, convert, List.length_map, List.length_map]

variable (ucd readCase) in
theorem pushCase_eq (st : TokenState) (c : ℕ) :
    (st.pushCase ucd readCase c).string = pushExtend st.string (pushed ucd readCase c) ∧
      (st.pushCase ucd readCase c).escape = st.escape ∧
      (st.pushCase ucd readCase c).mode = st.mode := by
  unfold TokenState.pushCase pushed
  split
  · exact ⟨rfl, rfl, rfl⟩
  · split
    · exact ⟨rfl, rfl, rfl⟩
    · split
      · exact ⟨rfl, rfl, rfl⟩
      · exact ⟨rfl, rfl, rfl⟩

theorem pushCase_counts (hcase : readCase ≠ .preserve) (st : TokenState) (c : ℕ) :
    (st.pushCase ucd readCase c).upcase =
        st.upcase + (if ucd.upperCaseP c then 1 else 0) - (if ucd.lowerCaseP c then 1 else 0) ∧
      (st.pushCase ucd readCase c).count =
        st.count + (if ucd.upperCaseP c then 1 else 0) + (if ucd.lowerCaseP c then 1 else 0) := by
  unfold TokenState.pushCase
  rw [if_neg hcase]
  by_cases hupper : ucd.upperCaseP c = true
  · simp [hupper, Ucd.not_lower_of_upper hupper, TokenState.push]
  · by_cases hlower : ucd.lowerCaseP c = true
    · simp [hupper, hlower, TokenState.push]
    · simp [hupper, hlower, TokenState.push]

theorem Recorded.pushCase (h : Recorded ucd readCase st t) (hmode : st.mode = .normal) :
    Recorded ucd readCase (st.pushCase ucd readCase c) (t ++ [(c, false)]) := by
  obtain ⟨hstring, hescape, hmode'⟩ := pushCase_eq ucd readCase st c
  have hlist : unescaped [(c, false)] = [c] := rfl
  refine ⟨?_, ?_, fun hcase => ?_, fun hcase => ?_⟩
  · rw [hstring, pushExtend, h.chars, convert_append]
    rfl
  · have hmarked := h.escape
    rw [hmode', hescape, hmode, List.map_append]
    rw [hmode] at hmarked
    exact Marks.unescaped hmarked
  · rw [(pushCase_counts hcase st c).1, h.upcase hcase, unescaped_append, hlist,
      List.countP_append, List.countP_append, List.countP_singleton, List.countP_singleton]
    push_cast
    omega
  · rw [(pushCase_counts hcase st c).2, h.count hcase, unescaped_append, hlist,
      List.countP_append, List.countP_append, List.countP_singleton, List.countP_singleton]
    omega

theorem Recorded.escaped (h : Recorded ucd readCase st t) {e : List (ℕ × Bool)}
    (he : unescaped e = []) (hchars : st'.string.chars = st.string.chars ++ e.map Prod.fst)
    (hcounts : st'.upcase = st.upcase ∧ st'.count = st.count)
    (hmarked : Marked st'.mode st'.escape ((t ++ e).map Prod.snd)) :
    Recorded ucd readCase st' (t ++ e) := by
  have hconvert : convert (pushed ucd readCase) e = e.map Prod.fst := by
    apply List.map_congr_left
    rintro ⟨c, escaped⟩ hc
    cases escaped with
    | true => rfl
    | false =>
      have hmem : c ∈ unescaped e := by
        rw [unescaped, List.mem_map]
        exact ⟨(c, false), List.mem_filter.mpr ⟨hc, rfl⟩, rfl⟩
      rw [he] at hmem
      cases hmem
  refine ⟨?_, hmarked, fun hcase => ?_, fun hcase => ?_⟩
  · rw [hchars, h.chars, convert_append, hconvert]
  · rw [hcounts.1, h.upcase hcase, unescaped_append, he, List.append_nil]
  · rw [hcounts.2, h.count hcase, unescaped_append, he, List.append_nil]

theorem Recorded.go (h : Recorded ucd readCase st t) {mode : Mode} {escape : List (ℕ × ℕ)}
    (hmarked : Marked mode escape (t.map Prod.snd)) :
    Recorded ucd readCase { st with escape := escape, mode := mode } t := by
  have hgo : Recorded ucd readCase { st with escape := escape, mode := mode } (t ++ []) :=
    h.escaped rfl (List.append_nil _).symm ⟨rfl, rfl⟩ (by rwa [List.append_nil])
  rwa [List.append_nil] at hgo

theorem marked_push {start : ℕ} {escape : List (ℕ × ℕ)} {flags : List Bool}
    (h : Marked (.multiple start) escape flags) :
    Marked (.multiple start) escape (flags ++ [true]) := by
  obtain ⟨before, k, rfl, hstart, hmarks⟩ := h
  refine ⟨before, k + 1, ?_, hstart, hmarks⟩
  rw [List.append_assoc, ← List.replicate_succ']

def Follows (ucd : Ucd) (readCase : ReadtableCase) (t : List (ℕ × Bool)) (st : TokenState) (c : ℕ)
    (st' : TokenState) : Prop :=
  ∃ e, Recorded ucd readCase st' (t ++ e) ∧ ∀ input rest t',
    tokenText (place st'.mode) input = some (t', rest) →
      tokenText (place st.mode) (c :: input) = some (e ++ t', rest)

theorem follows_go (h : Recorded ucd readCase st t) {mode : Mode} {escape : List (ℕ × ℕ)}
    (hmarked : Marked mode escape (t.map Prod.snd))
    (htext : ∀ input, tokenText (place st.mode) (c :: input) = tokenText (place mode) input) :
    Follows ucd readCase t st c { st with escape := escape, mode := mode } := by
  refine ⟨[], ?_, fun input rest t' ht' => (htext input).trans ht'⟩
  rw [List.append_nil]
  exact h.go hmarked

theorem follows_push (escaped : Bool) (h : Recorded ucd readCase st' (t ++ [(c, escaped)]))
    (htext : ∀ input, tokenText (place st.mode) (c :: input) =
      (tokenText (place st'.mode) input).map fun t => ((c, escaped) :: t.1, t.2)) :
    Follows ucd readCase t st c st' := by
  refine ⟨[(c, escaped)], h, fun input rest t' ht' => ?_⟩
  rw [htext, ht']
  rfl

theorem readChar_more_multiple (h : Recorded ucd readCase st t) {start : ℕ}
    (hmode : st.mode = .multiple start) (hread : readChar ucd readCase st c = .more st') :
    Follows ucd readCase t st c st' := by
  have hmarked := h.escape
  unfold readChar at hread
  rw [hmode] at hread hmarked
  cases hget : readtableGet c with
  | singleEscape =>
    simp only [hget, Progress.more.injEq] at hread
    subst hread
    exact follows_go h hmarked (fun input => by simp only [hmode, place, tokenText, hget])
  | multipleEscape =>
    simp only [hget, Progress.more.injEq] at hread
    subst hread
    refine follows_go h ?_ (fun input => by simp only [hmode, place, tokenText, hget])
    obtain ⟨before, k, hflags, hstart, hmarks⟩ := hmarked
    rw [h.length, hflags, List.length_append, List.length_replicate, ← hstart]
    exact Marks.escaped hmarks k
  | _ =>
    simp only [hget, Progress.more.injEq] at hread
    subst hread
    have hplace : place (st.push c).mode = .multiple := congrArg place hmode
    apply follows_push true
    · refine h.escaped rfl rfl ⟨rfl, rfl⟩ ?_
      change Marked st.mode _ _
      rw [hmode, List.map_append]
      exact marked_push hmarked
    · intro input
      rw [hplace, hmode]
      simp only [place, tokenText, hget]

theorem readChar_more_normal (h : Recorded ucd readCase st t) (hmode : st.mode = .normal)
    (hread : readChar ucd readCase st c = .more st') : Follows ucd readCase t st c st' := by
  have hmarked := h.escape
  unfold readChar at hread
  rw [hmode] at hread hmarked
  cases hget : readtableGet c with
  | singleEscape =>
    simp only [hget, Progress.more.injEq] at hread
    subst hread
    exact follows_go h hmarked (fun input => by simp only [hmode, place, tokenText, hget])
  | multipleEscape =>
    simp only [hget, Progress.more.injEq] at hread
    subst hread
    exact follows_go h ⟨_, 0, (List.append_nil _).symm, h.length.symm, hmarked⟩
      (fun input => by simp only [hmode, place, tokenText, hget])
  | whitespace => simp [hget] at hread
  | terminating => simp [hget] at hread
  | _ =>
    simp only [hget] at hread
    split at hread
    · cases hread
    · cases hread
      apply follows_push false (h.pushCase hmode)
      intro input
      rw [(pushCase_eq ucd readCase st c).2.2, hmode]
      simp only [place, tokenText, hget]

theorem readChar_more (h : Recorded ucd readCase st t)
    (hread : readChar ucd readCase st c = .more st') : Follows ucd readCase t st c st' := by
  have hmarked := h.escape
  cases hmode : st.mode with
  | single =>
    unfold readChar at hread
    rw [hmode] at hread hmarked
    cases hread
    refine follows_push true (h.escaped rfl rfl ⟨rfl, rfl⟩ ?_) (fun input => by rw [hmode]; rfl)
    rw [h.length, List.map_append]
    exact Marks.escaped hmarked 1
  | multipleSingle start =>
    unfold readChar at hread
    rw [hmode] at hread hmarked
    cases hread
    refine follows_push true (h.escaped rfl rfl ⟨rfl, rfl⟩ ?_) (fun input => by rw [hmode]; rfl)
    rw [List.map_append]
    exact marked_push hmarked
  | multiple start => exact readChar_more_multiple h hmode hread
  | normal => exact readChar_more_normal h hmode hread

theorem readChar_stop (hread : readChar ucd readCase st c = .stop) :
    st.mode = .normal ∧ (readtableGet c = .whitespace ∨ readtableGet c = .terminating) := by
  unfold readChar at hread
  cases hmode : st.mode with
  | normal =>
    rw [hmode] at hread
    cases hget : readtableGet c with
    | whitespace => exact ⟨rfl, .inl rfl⟩
    | terminating => exact ⟨rfl, .inr rfl⟩
    | singleEscape => simp [hget] at hread
    | multipleEscape => simp [hget] at hread
    | _ =>
      simp only [hget] at hread
      split at hread <;> cases hread
  | single => simp [hmode] at hread
  | multiple start =>
    rw [hmode] at hread
    cases hget : readtableGet c <;> simp [hget] at hread
  | multipleSingle start => simp [hmode] at hread

theorem readChars_spec {input rest : List ℕ} (h : Recorded ucd readCase st t)
    (hread : readChars ucd readCase input st = .ok (st', rest)) :
    ∃ t', tokenText (place st.mode) input = some (t', rest) ∧
      Recorded ucd readCase st' (t ++ t') ∧ st'.mode = .normal := by
  induction input generalizing st t with
  | nil =>
    rw [readChars] at hread
    split at hread
    · next hmode =>
      cases hread
      exact ⟨[], by rw [hmode]; rfl, by rwa [List.append_nil], hmode⟩
    · cases hread
  | cons c input ih =>
    rw [readChars] at hread
    cases hchar : readChar ucd readCase st c with
    | more st₁ =>
      simp only [hchar] at hread
      obtain ⟨e, hrecorded, htext⟩ := readChar_more h hchar
      obtain ⟨t', ht', hlast, hmode⟩ := ih hrecorded hread
      exact ⟨e ++ t', htext input rest t' ht', by rwa [← List.append_assoc], hmode⟩
    | stop =>
      simp only [hchar, Except.ok.injEq, Prod.mk.injEq] at hread
      obtain ⟨rfl, rfl⟩ := hread
      have hstop := readChar_stop hchar
      refine ⟨[], ?_, by rwa [List.append_nil], hstop.1⟩
      rw [hstop.1, place, tokenText]
      rcases hstop.2 with hget | hget <;> simp [hget]
    | fail e => simp [hchar] at hread

/-- The conversion of case by ecl_read_token, which for :INVERT depends on the whole token. -/
def conversion (ucd : Ucd) (readCase : ReadtableCase) (letters : List ℕ) : ℕ → ℕ :=
  if readCase = .invert then
    if letters.countP ucd.lowerCaseP = 0 ∧ letters.countP ucd.upperCaseP ≠ 0 then ucd.charDowncase
    else if letters.countP ucd.upperCaseP = 0 then ucd.charUpcase
    else id
  else pushed ucd readCase

theorem invertChar_neg : invertChar ucd (-1) = ucd.charDowncase := by
  funext c
  by_cases hc : ucd.upperCaseP c = true <;> simp [invertChar, Ucd.charDowncase, hc]

theorem invertChar_pos : invertChar ucd 1 = ucd.charUpcase := by
  funext c
  by_cases hc : ucd.lowerCaseP c = true <;> simp [invertChar, Ucd.charUpcase, hc]

theorem pushed_invert (c : ℕ) : pushed ucd .invert c = c := by
  simp [pushed]

theorem mapIdx_convert {f g : ℕ → ℕ} {p : ℕ → Bool}
    (hp : ∀ i < t.length, p i = true ↔ (t.map Prod.snd)[i]? = some false) :
    (convert g t).mapIdx (fun i c => if p i then f c else c) = convert (fun c => f (g c)) t := by
  apply List.ext_getElem?
  intro i
  rw [List.getElem?_mapIdx, convert, convert, List.getElem?_map, List.getElem?_map]
  cases hi : t[i]? with
  | none => rfl
  | some c =>
    have hlt : i < t.length := (List.getElem?_eq_some_iff.mp hi).1
    have hflag := hp i hlt
    rw [List.getElem?_map, hi] at hflag
    rcases c with ⟨c, escaped⟩
    cases escaped with
    | true => simp [show p i = false by simpa using hflag]
    | false => simp [show p i = true by simpa using hflag]

structure TokenOf (ucd : Ucd) (readCase : ReadtableCase) (token : Token) (t : List (ℕ × Bool)) :
    Prop where
  chars : token.string.chars = convert (conversion ucd readCase (unescaped t)) t
  marks : ∀ i < t.length, token.unescaped i = true ↔ (t.map Prod.snd)[i]? = some false

theorem recorded_start (buffer : TokenString) :
    Recorded ucd readCase ⟨{ buffer with chars := [] }, [], 0, 0, .normal⟩ [] :=
  ⟨rfl, marks_nil, fun _ => rfl, fun _ => rfl⟩

theorem Recorded.marks (h : Recorded ucd readCase st t) (hmode : st.mode = .normal) :
    ∀ i < t.length, Token.unescaped ⟨st.string, st.escape⟩ i = true ↔
      (t.map Prod.snd)[i]? = some false := by
  intro i hi
  have hescape := h.escape
  rw [hmode] at hescape
  have hlength : (t.map Prod.snd).length = t.length := List.length_map _
  have hat := hescape st.string.chars.length i (le_of_eq h.length.symm)
  rw [Token.unescaped, Token.runs, hat, hlength]
  simp only [or_iff_left_iff_imp]
  omega

theorem Recorded.plain (h : Recorded ucd .invert st t) : st.string.chars = convert id t :=
  h.chars.trans (convert_eq_iff.mpr fun c _ => pushed_invert c)

theorem tokenOf_inverted (h : Recorded ucd .invert st t) (hmode : st.mode = .normal) {sign : ℤ}
    (hsign : invertChar ucd sign = conversion ucd .invert (unescaped t)) :
    TokenOf ucd .invert (invertBufferCase ucd ⟨st.string, st.escape⟩ sign) t := by
  refine ⟨?_, fun i hi => ?_⟩
  · rw [invertBufferCase]
    dsimp only
    rw [h.plain, mapIdx_convert (h.marks hmode), ← hsign]
    rfl
  · rw [← h.marks hmode i hi, Token.unescaped, Token.runs, invertBufferCase, List.length_mapIdx]
    rfl

theorem tokenOf_same (h : Recorded ucd .invert st t) (hmode : st.mode = .normal)
    (hsame : ∀ c ∈ unescaped t, conversion ucd .invert (unescaped t) c = c) :
    TokenOf ucd .invert ⟨st.string, st.escape⟩ t :=
  ⟨h.plain.trans (convert_eq_iff.mpr fun c hc => (hsame c hc).symm), h.marks hmode⟩

theorem readToken_spec {buffer : TokenString} {input rest : List ℕ} {token : Token}
    (hread : readToken ucd readCase buffer input = .ok (token, rest)) :
    ∃ t, tokenText .normal input = some (t, rest) ∧ TokenOf ucd readCase token t := by
  unfold readToken at hread
  cases hchars : readChars ucd readCase input ⟨{ buffer with chars := [] }, [], 0, 0, .normal⟩ with
  | error e => simp [hchars] at hread
  | ok r =>
    rcases r with ⟨st, rest'⟩
    simp only [hchars] at hread
    obtain ⟨t, ht, hrecorded, hmode⟩ := readChars_spec (recorded_start buffer) hchars
    rw [List.nil_append] at hrecorded
    by_cases hcase : readCase = .invert
    · subst hcase
      have hupcase := hrecorded.upcase (by decide)
      have hcount := hrecorded.count (by decide)
      simp only [true_and] at hread
      split at hread
      · next hne =>
        split at hread
        · next hall =>
          cases hread
          refine ⟨t, ht, tokenOf_inverted hrecorded hmode ?_⟩
          rw [invertChar_neg, conversion, if_pos rfl, if_pos (by omega)]
        · split at hread
          · next hnone =>
            cases hread
            refine ⟨t, ht, tokenOf_inverted hrecorded hmode ?_⟩
            rw [invertChar_pos, conversion, if_pos rfl, if_neg (by omega), if_pos (by omega)]
          · next hall hnone =>
            cases hread
            refine ⟨t, ht, tokenOf_same hrecorded hmode fun c _ => ?_⟩
            rw [conversion, if_pos rfl, if_neg (by omega), if_neg (by omega)]
            rfl
      · next hzero =>
        cases hread
        refine ⟨t, ht, tokenOf_same hrecorded hmode fun c hc => ?_⟩
        have hlower : (unescaped t).countP ucd.lowerCaseP = 0 := by omega
        rw [conversion, if_pos rfl, if_neg (by omega), if_pos (by omega), Ucd.charUpcase,
          if_neg (List.countP_eq_zero.mp hlower c hc)]
    · rw [if_neg fun h => hcase h.1] at hread
      cases hread
      refine ⟨t, ht, ?_, hrecorded.marks hmode⟩
      rw [conversion, if_neg hcase]
      exact hrecorded.chars

theorem scanRun_unmarked {chars : List ℕ} {index : ℕ} {m m' : Markers}
    (h : scanRun chars index m = .ok m') (hm' : m'.symStart = 0) : m.symStart = 0 ∧ 58 ∉ chars := by
  fun_induction scanRun chars index m with
  | case1 index m =>
    cases h
    exact ⟨hm', List.not_mem_nil⟩
  | case2 c index m hc =>
    cases h
    refine ⟨hm', ?_⟩
    rw [List.mem_singleton]
    exact hc.symm
  | case3 => cases h
  | case4 =>
    cases h
    cases hm'
  | case5 c next rest index m hc ih =>
    obtain ⟨hstart, hrest⟩ := ih h
    refine ⟨hstart, ?_⟩
    rw [List.mem_cons, not_or]
    exact ⟨hc.symm, hrest⟩
  | case6 => cases h
  | case7 c rest index m _ _ ih => cases (ih h).1
  | case8 c next rest index m _ _ _ ih => cases (ih h).1

theorem scanRuns_unmarked {chars : List ℕ} {runs : List (ℕ × ℕ)} {m m' : Markers}
    (h : scanRuns chars runs m = .ok m') (hm' : m'.symStart = 0) :
    m.symStart = 0 ∧ ∀ run ∈ runs, 58 ∉ (chars.take run.2).drop run.1 := by
  induction runs generalizing m with
  | nil =>
    cases h
    exact ⟨hm', fun run hrun => absurd hrun List.not_mem_nil⟩
  | cons run runs ih =>
    rw [scanRuns] at h
    split at h
    · cases h
    · next m₁ hrun =>
      obtain ⟨hstart, hruns⟩ := ih h
      obtain ⟨hstart', hchars⟩ := scanRun_unmarked hrun hstart
      refine ⟨hstart', ?_⟩
      rw [List.forall_mem_cons]
      exact ⟨hchars, hruns⟩

theorem colon_uncased (hucd : ucd.Lawful) :
    ucd.upperCaseP 58 = false ∧ ucd.lowerCaseP 58 = false := by
  constructor
  · rw [← Bool.not_eq_true, hucd.asciiUpper 58 (by decide)]
    decide
  · rw [← Bool.not_eq_true, hucd.asciiLower 58 (by decide)]
    decide

theorem conversion_colon (hucd : ucd.Lawful) (letters : List ℕ) :
    conversion ucd readCase letters 58 = 58 := by
  obtain ⟨hupper, hlower⟩ := colon_uncased hucd
  unfold conversion pushed
  split_ifs <;> simp [Ucd.charDowncase, Ucd.charUpcase, hupper, hlower]

theorem TokenOf.no_colon (hucd : ucd.Lawful) {token : Token} (h : TokenOf ucd readCase token t)
    {m : Markers} (hscan : scanRuns token.string.chars token.runs ⟨0, 0, false⟩ = .ok m)
    (hm : m.symStart = 0) : 58 ∉ unescaped t := by
  intro hmem
  rw [unescaped, List.mem_map] at hmem
  obtain ⟨⟨c, escaped⟩, hmem, rfl⟩ := hmem
  obtain ⟨hmem, hescaped⟩ := List.mem_filter.mp hmem
  obtain rfl : escaped = false := by simpa using hescaped
  obtain ⟨i, hi, hget⟩ := List.mem_iff_getElem.mp hmem
  have hunescaped : token.unescaped i = true := by
    rw [h.marks i hi, List.getElem?_map, List.getElem?_eq_getElem hi, hget]
    rfl
  rw [Token.unescaped, List.any_eq_true] at hunescaped
  obtain ⟨run, hrun, hinside⟩ := hunescaped
  rw [Bool.and_eq_true, decide_eq_true_eq, decide_eq_true_eq] at hinside
  apply (scanRuns_unmarked hscan hm).2 run hrun
  have hchar : token.string.chars[i]? = some 58 := by
    rw [h.chars, convert, List.getElem?_map, List.getElem?_eq_getElem hi, hget]
    exact congrArg some (conversion_colon hucd _)
  rw [List.mem_iff_getElem?]
  refine ⟨i - run.1, ?_⟩
  rw [List.getElem?_drop, Nat.add_sub_cancel' hinside.1, List.getElem?_take_of_lt hinside.2, hchar]

end

section
variable {Sym : Type}

def Names (w : World Sym) (name : List ℕ) : Outcome Sym → Prop
  | .symbol x => w.name x = name
  | .intern name' _ => name' = name
  | _ => False

def FoundByName (w : World Sym) : Prop :=
  ∀ name package x flag, w.findSymbol name package = some (x, flag) → w.name x = name

variable {ucd : Ucd} {w : World Sym} {readBase : ℕ} {readCase : ReadtableCase}

theorem parseSymbol_names (hw : FoundByName w) {chars name : List ℕ} {m : Markers}
    (hm : m.symStart = 0) {package : Option ℕ} {o : Outcome Sym}
    (hparse : parseSymbol w chars m package = .ok o) (hname : Names w name o) : name = chars := by
  unfold parseSymbol at hparse
  rw [hm, List.drop_zero] at hparse
  dsimp only at hparse
  split at hparse
  · next x flag hfind =>
    split at hparse
    · cases hparse
    · cases hparse
      exact hname.symm.trans (hw _ _ _ _ hfind)
  · split at hparse
    · cases hparse
    · cases hparse
      exact hname.symm

theorem parseUnmarked_names (hw : FoundByName w) {listDot : Bool} {string : TokenString}
    {name : List ℕ} {m : Markers} (hm : m.symStart = 0) {o : Outcome Sym}
    (hparse : parseUnmarked ucd w readBase listDot string m = .ok o) (hname : Names w name o) :
    name = string.chars := by
  unfold parseUnmarked at hparse
  split at hparse
  · split at hparse
    · cases hparse
      exact hname.elim
    · cases hparse
  · split at hparse
    · cases hparse
    · split at hparse
      · exact parseSymbol_names hw hm hparse hname
      · split at hparse
        · cases hparse
        · cases hparse
        · split at hparse
          · cases hparse
            exact hname.elim
          · exact parseSymbol_names hw hm hparse hname
        · exact parseSymbol_names hw hm hparse hname

theorem parseToken_names (hw : FoundByName w) {listDot : Bool} {token : Token} {name : List ℕ}
    {m : Markers} (hscan : scanRuns token.string.chars token.runs ⟨0, 0, false⟩ = .ok m)
    (hm : m.symStart = 0) {o : Outcome Sym}
    (hparse : parseToken ucd w readBase listDot token = .ok o) (hname : Names w name o) :
    name = token.string.chars := by
  unfold parseToken at hparse
  simp only [hscan] at hparse
  rw [if_neg (not_not.mpr hm)] at hparse
  split at hparse
  · exact parseSymbol_names hw hm hparse hname
  · exact parseUnmarked_names hw hm hparse hname

structure Plain (ucd : Ucd) (w : World Sym) (readBase : ℕ) (readCase : ReadtableCase)
    (buffer : TokenString) (text name : List ℕ) : Prop where
  begins : ∃ c rest, text = c :: rest ∧ readtableGet c ≠ .whitespace
  reads : ∃ o, readObject ucd w readBase readCase buffer text = .ok o ∧ Names w name o
  unmarked : ∀ token rest m, readToken ucd readCase buffer text = .ok (token, rest) →
    scanRuns token.string.chars token.runs ⟨0, 0, false⟩ = .ok m → m.symStart = 0

def unescapedText (text : List ℕ) : List ℕ :=
  (tokenText .normal text).elim [] fun t => unescaped t.1

theorem Plain.name_eq {buffer : TokenString} {text name : List ℕ} (hucd : ucd.Lawful)
    (hw : FoundByName w) (h : Plain ucd w readBase readCase buffer text name) :
    text ≠ [] ∧ ∃ t rest, tokenText .normal text = some (t, rest) ∧ 58 ∉ unescaped t ∧
      name = convert (conversion ucd readCase (unescaped t)) t := by
  obtain ⟨c, cs, rfl, hwhitespace⟩ := h.begins
  obtain ⟨o, hread, hname⟩ := h.reads
  refine ⟨List.cons_ne_nil c cs, ?_⟩
  have htoken : ∃ token rest, readToken ucd readCase buffer (c :: cs) = .ok (token, rest) ∧
      parseToken ucd w readBase false token = .ok o := by
    unfold readObject at hread
    cases hget : readtableGet c with
    | whitespace => exact absurd hget hwhitespace
    | terminating | nonTerminating =>
      simp only [hget, Except.ok.injEq] at hread
      subst hread
      exact hname.elim
    | _ =>
      simp only [hget] at hread
      cases htoken : readToken ucd readCase buffer (c :: cs) with
      | error e => simp [htoken] at hread
      | ok r =>
        rw [htoken] at hread
        exact ⟨r.1, r.2, rfl, hread⟩
  obtain ⟨token, rest, htoken, hparse⟩ := htoken
  obtain ⟨t, ht, htokenOf⟩ := readToken_spec htoken
  obtain ⟨m, hscan⟩ : ∃ m, scanRuns token.string.chars token.runs ⟨0, 0, false⟩ = .ok m := by
    unfold parseToken at hparse
    split at hparse
    · cases hparse
    · next m hscan => exact ⟨m, hscan⟩
  have hm := h.unmarked token rest m htoken hscan
  refine ⟨t, rest, ht, htokenOf.no_colon hucd hscan hm, ?_⟩
  rw [← htokenOf.chars]
  exact parseToken_names hw hscan hm hparse hname

/-- The letters outside the escapes are such that raising them all is what the readtable asks
for. -/
def SameCase (ucd : Ucd) (letters : List ℕ) : ReadtableCase → Prop
  | .upcase => True
  | .preserve => ∀ c ∈ letters, ucd.lowerCaseP c = false
  | .downcase => ∀ c ∈ letters, ucd.lowerCaseP c = false ∧ ucd.upperCaseP c = false
  | .invert => ∀ c ∈ letters, ucd.upperCaseP c = false

instance (ucd : Ucd) (letters : List ℕ) (readCase : ReadtableCase) :
    Decidable (SameCase ucd letters readCase) :=
  match readCase with
  | .upcase => inferInstanceAs (Decidable True)
  | .preserve => inferInstanceAs (Decidable (∀ c ∈ letters, _))
  | .downcase => inferInstanceAs (Decidable (∀ c ∈ letters, _))
  | .invert => inferInstanceAs (Decidable (∀ c ∈ letters, _))

def Raises (ucd : Ucd) : Prop := ∀ c, ucd.lowerCaseP c = true → ucd.charUpcase c ≠ c

theorem charUpcase_eq_iff (hraises : Raises ucd) {c : ℕ} :
    ucd.charUpcase c = c ↔ ucd.lowerCaseP c = false := by
  cases hc : ucd.lowerCaseP c with
  | false => simp [Ucd.charUpcase, hc]
  | true => simpa using hraises c hc

theorem charDowncase_ne (hucd : ucd.Lawful) {c : ℕ} (hc : ucd.upperCaseP c = true) :
    ucd.charDowncase c ≠ c := by
  intro heq
  have hlower := (hucd.upper c hc).1
  rw [heq, Ucd.not_lower_of_upper hc] at hlower
  cases hlower

theorem conversion_eq_iff (hucd : ucd.Lawful) (hraises : Raises ucd) (letters : List ℕ) :
    (∀ c ∈ letters, ucd.charUpcase c = conversion ucd readCase letters c) ↔
      SameCase ucd letters readCase := by
  have hupper : ∀ {c}, ucd.upperCaseP c = true → ucd.charUpcase c = c := by
    intro c hc
    rw [Ucd.charUpcase, Ucd.not_lower_of_upper hc]
    rfl
  cases readCase with
  | upcase =>
    refine iff_of_true (fun c _ => ?_) trivial
    simp only [conversion, reduceCtorEq, if_false, pushed]
    split
    · next hc => exact hupper hc
    · unfold Ucd.charUpcase
      split <;> rfl
  | preserve =>
    apply forall₂_congr
    intro c _
    simp only [conversion, reduceCtorEq, if_false, pushed, if_true]
    exact charUpcase_eq_iff hraises
  | downcase =>
    apply forall₂_congr
    intro c _
    simp only [conversion, reduceCtorEq, if_false, pushed, if_true]
    cases hc : ucd.upperCaseP c with
    | true =>
      simp only [if_true, hupper hc, Bool.true_eq_false, and_false, iff_false]
      exact (charDowncase_ne hucd hc).symm
    | false => simpa [Bool.false_eq_true] using charUpcase_eq_iff hraises
  | invert =>
    have hcount : ∀ p : ℕ → Bool, letters.countP p = 0 ↔ ∀ c ∈ letters, p c = false := by
      intro p
      simp [List.countP_eq_zero]
    rw [conversion, if_pos rfl]
    simp only [SameCase, ← hcount]
    constructor
    · intro hsame
      by_contra hsome
      obtain ⟨c, hmem, hc⟩ := List.countP_pos_iff.mp (Nat.pos_of_ne_zero hsome)
      by_cases hlower : letters.countP ucd.lowerCaseP = 0
      · have hdown := hsame c hmem
        rw [if_pos ⟨hlower, hsome⟩, hupper hc] at hdown
        exact charDowncase_ne hucd hc hdown.symm
      · obtain ⟨d, hmem', hd⟩ := List.countP_pos_iff.mp (Nat.pos_of_ne_zero hlower)
        have hkept := hsame d hmem'
        rw [if_neg (fun h => hlower h.1), if_neg hsome] at hkept
        exact hraises d hd hkept
    · intro hnone c _
      rw [if_neg (fun h => h.2 hnone), if_pos hnone]

/-- #: before a symbol token makes a symbol with the same name if no letter outside the escapes
would have to keep its case or to be lowered. -/
theorem sharpColon_name_iff (hucd : ucd.Lawful) (hraises : Raises ucd) (hw : FoundByName w)
    {buffer buffer' : TokenString} {text name : List ℕ}
    (hplain : Plain ucd w readBase readCase buffer text name) :
    (∃ rest, sharpColonReader ucd false buffer' none text = .ok (some ⟨name, none⟩, rest)) ↔
      SameCase ucd (unescapedText text) readCase := by
  obtain ⟨hne, t, rest, ht, hcolon, rfl⟩ := hplain.name_eq hucd hw
  obtain ⟨token, hloop, hchars⟩ := sharpLoop_eq hucd ht hcolon { buffer' with chars := [] }
  have hsharp : sharpColonReader ucd false buffer' none text =
      .ok (some ⟨convert ucd.charUpcase t, none⟩, rest) := by
    simp only [sharpColonReader, if_neg hne, hloop, bind, Except.bind, pure, Except.pure]
    simp only [hchars, List.nil_append, Bool.false_eq_true, if_false, makeSymbol]
  have htext : unescapedText text = unescaped t := by
    rw [unescapedText, ht]
    rfl
  rw [hsharp, htext, ← conversion_eq_iff hucd hraises, ← convert_eq_iff]
  constructor
  · rintro ⟨rest', h⟩
    simp only [Except.ok.injEq, Prod.mk.injEq, Option.some.injEq, NewSymbol.mk.injEq, and_true] at h
    exact h.1
  · intro h
    exact ⟨rest, by rw [h]⟩

end

section Letters

open SymbolRoundTrip (asciiUcd asciiUcd_lawful oneSymbol emptyBuffer)

theorem asciiUcd_raises : Raises asciiUcd := by
  intro c hc
  have hrange : 97 ≤ c ∧ c ≤ 122 := by
    by_contra hrange
    simp only [Ucd.lowerCaseP, asciiUcd] at hc
    split at hc
    · simp at hc
    · simp at hc
  rw [Ucd.charUpcase, if_pos hc]
  simp only [asciiUcd]
  rw [if_neg (by omega), if_pos hrange]
  dsimp only
  omega

theorem oneSymbol_found (name : List ℕ) : FoundByName (oneSymbol name) := by
  intro name' package x flag hfind
  simp only [oneSymbol] at hfind ⊢
  split at hfind
  · next h => exact h.1.symm
  · cases hfind

theorem letter_plain {c : ℕ} (hc : c = 65 ∨ c = 97) :
    Plain asciiUcd (oneSymbol [c]) 10 .preserve emptyBuffer [c] [c] := by
  rcases hc with rfl | rfl
  · refine ⟨⟨_, _, rfl, by decide⟩, ⟨.symbol (), rfl, rfl⟩, fun token rest m htoken hscan => ?_⟩
    cases htoken
    cases hscan
    rfl
  · refine ⟨⟨_, _, rfl, by decide⟩, ⟨.symbol (), rfl, rfl⟩, fun token rest m htoken hscan => ?_⟩
    cases htoken
    cases hscan
    rfl

/-- The token is the symbol a, and #: makes one with the name A. -/
theorem sharpColon_raises_a : Plain asciiUcd (oneSymbol [97]) 10 .preserve emptyBuffer [97] [97] ∧
    ¬∃ rest, sharpColonReader asciiUcd false emptyBuffer none [97] =
      .ok (some ⟨[97], none⟩, rest) := by
  refine ⟨letter_plain (.inr rfl), ?_⟩
  rintro ⟨rest, h⟩
  have hsharp : sharpColonReader asciiUcd false emptyBuffer none [97] =
      .ok (some ⟨[65], none⟩, []) := rfl
  rw [hsharp] at h
  simp at h

theorem sharpColon_name_capital : ∃ rest, sharpColonReader asciiUcd false emptyBuffer none [65] =
    .ok (some ⟨[65], none⟩, rest) :=
  (sharpColon_name_iff asciiUcd_lawful asciiUcd_raises (oneSymbol_found [65])
    (letter_plain (.inl rfl))).mpr (by decide)

end Letters

end UninternedSymbols
