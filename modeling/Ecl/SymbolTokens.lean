import Ecl.SymbolReader
import Mathlib.Data.List.Forall2

/-! The tokens that the reader makes of printed names. -/
namespace SymbolTokens

open Characters NumberReader SymbolPrinter SymbolReader

variable {ucd : Ucd}

def escapedText (s : List ℕ) : List ℕ := s.flatMap fun c => if c = 124 ∨ c = 92 then [92, c] else [c]

def casedText (ucd : Ucd) (action : ReadtableCase) (printCase : PrintCase) :
    List ℕ → Bool → List ℕ
  | [], _ => []
  | c :: rest, capitalize =>
    if action = .preserve then c :: casedText ucd action printCase rest capitalize
    else (printChar ucd action printCase capitalize c).1 ::
      casedText ucd action printCase rest (printChar ucd action printCase capitalize c).2

def Buffer.text (b : Buffer) : List ℕ := b.stream ++ b.pending

theorem writeChar_text (size : ℕ) (b : Buffer) (c : ℕ) :
    Buffer.text (b.writeChar size c) = Buffer.text b ++ [c] := by
  unfold Buffer.writeChar Buffer.text
  split <;> simp

theorem writeChars_escaped (ucd : Ucd) (size : ℕ) (action : ReadtableCase) (printCase : PrintCase)
    (s : List ℕ) (capitalize : Bool) (b : Buffer) :
    Buffer.text (writeChars ucd size action printCase true s capitalize b) =
      Buffer.text b ++ escapedText s := by
  induction s generalizing b with
  | nil => simp [writeChars, escapedText]
  | cons c rest ih =>
    simp only [writeChars, if_true, ih, writeChar_text]
    by_cases hc : c = 124 ∨ c = 92
    · simp [escapedText, hc, writeChar_text]
    · simp [escapedText, hc]

theorem writeChars_cased (ucd : Ucd) (size : ℕ) (action : ReadtableCase) (printCase : PrintCase)
    (s : List ℕ) (capitalize : Bool) (b : Buffer) :
    Buffer.text (writeChars ucd size action printCase false s capitalize b) =
      Buffer.text b ++ casedText ucd action printCase s capitalize := by
  induction s generalizing b capitalize with
  | nil => simp [writeChars, casedText]
  | cons c rest ih =>
    by_cases haction : action = .preserve
    · simp only [writeChars, casedText, haction, if_true, if_false, Bool.false_eq_true]
      rw [← haction, ih, writeChar_text, List.append_assoc, List.singleton_append]
    · simp only [writeChars, casedText, haction, if_false, Bool.false_eq_true]
      rw [ih, writeChar_text, List.append_assoc, List.singleton_append]

def printAction (ucd : Ucd) (readCase : ReadtableCase) (s : List ℕ) : ReadtableCase :=
  if readCase = .invert ∧ ¬ needsToBeInverted ucd s then .preserve else readCase

def nameText (ucd : Ucd) (st : PrintSettings) (s : List ℕ) (escape : Bool) : List ℕ :=
  if escape then 124 :: (escapedText s ++ [124])
  else casedText ucd (printAction ucd st.readCase s) st.printCase s true

/-- The buffer has no part in what is written. -/
theorem writeSymbolString_eq (st : PrintSettings) (s : List ℕ) (escape : Bool)
    (stream : List ℕ) : writeSymbolString ucd st s escape stream =
      stream ++ nameText ucd st s escape := by
  cases escape with
  | true =>
    have h := writeChars_escaped ucd st.bufferSize (printAction ucd st.readCase s)
      st.printCase s true (Buffer.writeChar st.bufferSize ⟨stream, []⟩ 124)
    change Buffer.text (Buffer.writeChar st.bufferSize _ 124) = _
    rw [writeChar_text]
    simp only [if_true]
    rw [show (if st.readCase = .invert ∧ ¬ needsToBeInverted ucd s then .preserve
      else st.readCase) = printAction ucd st.readCase s from rfl, h, writeChar_text]
    simp [Buffer.text, nameText]
  | false =>
    have h := writeChars_cased ucd st.bufferSize (printAction ucd st.readCase s)
      st.printCase s true ⟨stream, []⟩
    change Buffer.text (writeChars ucd st.bufferSize (printAction ucd st.readCase s)
      st.printCase false s true ⟨stream, []⟩) = _
    rw [h]
    simp [Buffer.text, nameText]

/-- What needs_to_be_escaped found in a name that it leaves alone. -/
structure Bare (ucd : Ucd) (readCase : ReadtableCase) (s : List ℕ) : Prop where
  constituent : ∀ c ∈ s, readtableGet c = .constituent ∧ invalidCharacterP c = false ∧ c ≠ 58
  noLower : ∀ c ∈ s, ucd.lowerCaseP c = false
  noUpper : readCase = .downcase → ∀ c ∈ s, ucd.upperCaseP c = false

theorem bare_cons {readCase : ReadtableCase} {c : ℕ} {s : List ℕ} :
    Bare ucd readCase (c :: s) ↔
      (readtableGet c = .constituent ∧ invalidCharacterP c = false ∧ c ≠ 58) ∧
      ucd.lowerCaseP c = false ∧ (readCase = .downcase → ucd.upperCaseP c = false) ∧
      Bare ucd readCase s := by
  constructor
  · rintro ⟨hc, hl, hu⟩
    exact ⟨hc c (by simp), hl c (by simp), fun h => hu h c (by simp),
      fun d hd => hc d (by simp [hd]), fun d hd => hl d (by simp [hd]),
      fun h d hd => hu h d (by simp [hd])⟩
  · rintro ⟨hc, hl, hu, htail⟩
    refine ⟨?_, ?_, ?_⟩
    · rintro d (- | ⟨-, hd⟩)
      exacts [hc, htail.constituent d hd]
    · rintro d (- | ⟨-, hd⟩)
      exacts [hl, htail.noLower d hd]
    · rintro h d (- | ⟨-, hd⟩)
      exacts [hu h, htail.noUpper h d hd]

theorem bare_of_not_escaped {st : PrintSettings} {s : List ℕ}
    (h : needsToBeEscaped ucd st s = false) :
    potentialNumberP ucd st.printBase s = false ∧ Bare ucd st.readCase s := by
  simp only [needsToBeEscaped, Bool.or_eq_false_iff, List.any_eq_false, ne_eq,
    decide_not, Bool.or_eq_true, Bool.not_eq_true', decide_eq_false_iff_not, decide_eq_true_eq,
    Bool.and_eq_true, not_or, not_not, not_and, Bool.not_eq_true] at h
  obtain ⟨hnumber, hchars⟩ := h
  refine ⟨hnumber, fun c hc => ?_, fun c hc => (hchars c hc).2, fun hcase c hc => ?_⟩
  · obtain ⟨⟨⟨⟨hgrammar, hinvalid⟩, hcolon⟩, -⟩, -⟩ := hchars c hc
    exact ⟨hgrammar, hinvalid, hcolon⟩
  · exact (hchars c hc).1.2 hcase

def Prints (ucd : Ucd) (readCase : ReadtableCase) (c o : ℕ) : Prop :=
  o = c ∧ (readCase = .invert → ucd.upperCaseP c = false) ∨
    ucd.upperCaseP c = true ∧ o = ucd.charDowncase c ∧ (readCase = .invert ∨ readCase = .upcase)

theorem stringCase_upper {s : List ℕ} (hlower : ∀ c ∈ s, ucd.lowerCaseP c = false) :
    ∀ upcase : ℤ, 0 ≤ upcase →
      (stringCase ucd s upcase = 0 ↔ upcase = 0 ∧ ∀ c ∈ s, ucd.upperCaseP c = false) := by
  induction s with
  | nil => simp [stringCase]
  | cons c rest ih =>
    intro upcase hup
    have ih := ih fun d hd => hlower d (by simp [hd])
    rw [stringCase]
    by_cases hc : ucd.upperCaseP c
    · rw [if_pos hc, if_neg (by omega), ih 1 (by omega)]
      simp [hc]
    · rw [if_neg hc, if_neg (by simp [hlower c (by simp)]), ih upcase hup]
      simp [hc]

theorem casedText_prints {readCase action : ReadtableCase} {printCase : PrintCase} {s : List ℕ}
    (hbare : Bare ucd readCase s)
    (haction : action = readCase ∨
      action = .preserve ∧ readCase = .invert ∧ ∀ c ∈ s, ucd.upperCaseP c = false)
    (capitalize : Bool) :
    List.Forall₂ (Prints ucd readCase) s (casedText ucd action printCase s capitalize) := by
  induction s generalizing capitalize with
  | nil => exact .nil
  | cons c rest ih =>
    obtain ⟨-, hlower, hupper, htail⟩ := bare_cons.mp hbare
    have ih := ih htail (haction.imp_right fun h => ⟨h.1, h.2.1, fun d hd => h.2.2 d (by simp [hd])⟩)
    rw [casedText]
    split
    · rename_i hpreserve
      refine .cons (.inl ⟨rfl, fun hinvert => ?_⟩) (ih _)
      rcases haction with hsame | ⟨-, -, hnone⟩
      · rw [hsame, hinvert] at hpreserve
        cases hpreserve
      · exact hnone c (by simp)
    · rename_i hpreserve
      have hsame : action = readCase := haction.resolve_right fun h => hpreserve h.1
      refine .cons ?_ (ih _)
      unfold printChar
      by_cases hc : ucd.upperCaseP c
      · rw [if_pos hc]
        split
        · rename_i hdown
          refine .inr ⟨hc, rfl, ?_⟩
          rw [← hsame]
          exact hdown.imp_right And.left
        · rename_i hdown
          refine .inl ⟨rfl, fun hinvert => ?_⟩
          rw [hsame, hinvert] at hdown
          exact absurd (.inl rfl) hdown
      · rw [if_neg hc, if_neg (by simp [hlower])]
        exact .inl ⟨rfl, fun _ => by simpa using hc⟩

theorem nameText_prints {st : PrintSettings} {s : List ℕ} (hbare : Bare ucd st.readCase s) :
    List.Forall₂ (Prints ucd st.readCase) s (nameText ucd st s false) := by
  refine casedText_prints hbare ?_ true
  unfold printAction
  split
  · rename_i hcase
    refine .inr ⟨rfl, hcase.1, ?_⟩
    have hzero : stringCase ucd s 0 = 0 := by simpa [needsToBeInverted] using hcase.2
    exact ((stringCase_upper hbare.noLower 0 (by omega)).mp hzero).2
  · exact .inl rfl

theorem runs_any_lt {start n m i : ℕ} (escape : List (ℕ × ℕ)) (hi : i < n) (hm : n ≤ m) :
    (runs start escape m).any (fun run => run.1 ≤ i && i < run.2) =
      (runs start escape n).any (fun run => run.1 ≤ i && i < run.2) := by
  induction escape generalizing start with
  | nil =>
    have him : i < m := by omega
    simp [runs, hi, him]
  | cons part escape ih => simp [runs, ih]

def Within (escape : List (ℕ × ℕ)) (n : ℕ) : Prop := ∀ part ∈ escape, part.1 ≤ n ∧ part.2 ≤ n

theorem runs_any_new {start n m i : ℕ} {escape : List (ℕ × ℕ)} (hstart : start ≤ n)
    (hwithin : Within escape n) (hn : n ≤ i) (hi : i < m) :
    (runs start escape m).any (fun run => run.1 ≤ i && i < run.2) = true := by
  induction escape generalizing start with
  | nil =>
    have hsi : start ≤ i := by omega
    simp [runs, hsi, hi]
  | cons part escape ih =>
    have := ih (hwithin part (by simp)).2 fun p hp => hwithin p (by simp [hp])
    simp [runs, this]

theorem runs_any_ge {start n i : ℕ} {escape : List (ℕ × ℕ)} (hwithin : Within escape n)
    (hi : n ≤ i) : (runs start escape n).any (fun run => run.1 ≤ i && i < run.2) = false := by
  induction escape generalizing start with
  | nil => simp [runs]; omega
  | cons part escape ih =>
    have hpart := (hwithin part (by simp)).1
    have htail : (runs part.2 escape n).any (fun run => run.1 ≤ i && i < run.2) = false :=
      ih fun p hp => hwithin p (by simp [hp])
    simp only [runs, List.any_cons, htail, Bool.or_false]
    simp
    omega

theorem runs_append (start n m : ℕ) (escape : List (ℕ × ℕ)) :
    runs start (escape ++ [(n, m)]) m = runs start escape n ++ [(m, m)] := by
  induction escape generalizing start with
  | nil => rfl
  | cons part escape ih => simp [runs, ih]

def raised (ucd : Ucd) (chars : List ℕ) (escape : List (ℕ × ℕ)) : List ℕ :=
  chars.mapIdx fun i c =>
    if (runs 0 escape chars.length).any (fun run => run.1 ≤ i && i < run.2) then
      invertChar ucd 1 c else c

theorem raised_plain {chars : List ℕ} {escape : List (ℕ × ℕ)} (h : Within escape chars.length)
    (out : List ℕ) :
    raised ucd (chars ++ out) escape = raised ucd chars escape ++ out.map (invertChar ucd 1) := by
  rw [raised, List.mapIdx_append]
  congr 1
  · refine List.mapIdx_eq_mapIdx_iff.mpr fun i hi => ?_
    rw [runs_any_lt escape hi (by simp)]
  · refine List.ext_getElem (by simp) fun i hi _ => ?_
    rw [List.length_mapIdx] at hi
    simp only [List.getElem_mapIdx, List.getElem_map]
    rw [runs_any_new (Nat.zero_le _) h (by omega) (by simp; omega), if_pos rfl]

theorem raised_escaped {chars : List ℕ} {escape : List (ℕ × ℕ)} (h : Within escape chars.length)
    (s : List ℕ) :
    raised ucd (chars ++ s) (escape ++ [(chars.length, chars.length + s.length)]) =
      raised ucd chars escape ++ s := by
  rw [raised, List.mapIdx_append, List.length_append, runs_append]
  congr 1
  · refine List.mapIdx_eq_mapIdx_iff.mpr fun i hi => ?_
    simp only [List.any_append]
    have hlast : ([(chars.length + s.length, chars.length + s.length)] : List (ℕ × ℕ)).any
        (fun run => run.1 ≤ i && i < run.2) = false := by
      simp
    rw [hlast, Bool.or_false]
  · refine List.ext_getElem (by simp) fun i hi _ => ?_
    simp only [List.getElem_mapIdx, List.any_append]
    rw [runs_any_ge h (by omega), if_neg (by simp)]

def dimAfter (dim : ℕ) : ℕ → ℕ
  | 0 => dim
  | n + 1 =>
    if dimAfter dim n ≤ n then dimAfter dim n + dimAfter dim n / 2 + 1 else dimAfter dim n

theorem le_dimAfter (dim n : ℕ) : n ≤ dimAfter dim n := by
  induction n with
  | zero => omega
  | succ n ih =>
    unfold dimAfter
    split <;> omega

/-- The token that is being read is the printed one so far. With the case :INVERT the text is
the printed one only after the end, when its small letters become capitals. -/
structure Reads (ucd : Ucd) (readCase : ReadtableCase) (dim : ℕ) (st : TokenState)
    (target : List ℕ) (escape : List (ℕ × ℕ)) : Prop where
  mode : st.mode = .normal
  parts : st.escape = escape
  length : st.string.chars.length = target.length
  within : Within escape target.length
  dim : st.string.dim = dimAfter dim target.length
  text : readCase ≠ .invert → st.string.chars = target
  inverted : readCase = .invert → raised ucd st.string.chars escape = target ∧
    st.upcase = -st.count ∧ (st.count = 0 → st.string.chars = target)

variable {readCase : ReadtableCase} {dim : ℕ} {st : TokenState} {target : List ℕ}
  {escape : List (ℕ × ℕ)}

theorem within_mono {n m : ℕ} (h : Within escape n) (hnm : n ≤ m) : Within escape m :=
  fun part hpart => ⟨Nat.le_trans (h part hpart).1 hnm, Nat.le_trans (h part hpart).2 hnm⟩

theorem pushExtend_dim (h : Reads ucd readCase dim st target escape) (c : ℕ) :
    (pushExtend st.string c).dim = dimAfter dim (target.length + 1) := by
  rw [pushExtend, dimAfter, h.length, h.dim]

theorem invertChar_down {c : ℕ} (hucd : ucd.Lawful) (hc : ucd.upperCaseP c) :
    invertChar ucd 1 (ucd.charDowncase c) = c := by
  obtain ⟨hlower, hup⟩ := hucd.upper c hc
  rw [invertChar, if_neg (by omega), if_pos ⟨hlower, by omega⟩, hup]

theorem invertChar_other {c : ℕ} (hc : ucd.lowerCaseP c = false) : invertChar ucd 1 c = c := by
  rw [invertChar, if_neg (by omega), if_neg (by simp [hc])]

theorem pushCase_prints (st : TokenState) (hucd : ucd.Lawful) {c o : ℕ} (ho : Prints ucd readCase c o)
    (hlower : ucd.lowerCaseP c = false) (hupper : readCase = .downcase → ucd.upperCaseP c = false) :
    (st.pushCase ucd readCase o).escape = st.escape ∧
    (st.pushCase ucd readCase o).mode = st.mode ∧
    (readCase ≠ .invert → (st.pushCase ucd readCase o).string = pushExtend st.string c) ∧
    (readCase = .invert → (st.pushCase ucd readCase o).string = pushExtend st.string o ∧
      invertChar ucd 1 o = c ∧
      ((o = c ∧ (st.pushCase ucd readCase o).upcase = st.upcase ∧
          (st.pushCase ucd readCase o).count = st.count) ∨
        (st.pushCase ucd readCase o).upcase = st.upcase - 1 ∧
          (st.pushCase ucd readCase o).count = st.count + 1)) := by
  unfold TokenState.pushCase TokenState.push
  rcases ho with ⟨rfl, hplain⟩ | ⟨hup, rfl, hcase⟩
  · by_cases hpreserve : readCase = .preserve
    · rw [if_pos hpreserve]
      exact ⟨rfl, rfl, fun _ => rfl, fun h => by rw [hpreserve] at h; cases h⟩
    · rw [if_neg hpreserve]
      by_cases hup : ucd.upperCaseP o
      · rw [if_pos hup]
        have hdown : readCase ≠ ReadtableCase.downcase := fun h => by simp [hupper h] at hup
        rw [if_neg hdown]
        exact ⟨rfl, rfl, fun _ => rfl, fun h => by simp [hplain h] at hup⟩
      · rw [if_neg hup, if_neg (by simp [hlower])]
        exact ⟨rfl, rfl, fun _ => rfl, fun _ => ⟨rfl, invertChar_other hlower, .inl ⟨rfl, rfl, rfl⟩⟩⟩
  · obtain ⟨hdown, hback⟩ := hucd.upper c hup
    have hnot := Ucd.not_upper_of_lower hdown
    have hpreserve : readCase ≠ .preserve := by
      rintro rfl
      simp at hcase
    rw [if_neg hpreserve, if_neg (by simp [hnot]), if_pos hdown]
    refine ⟨rfl, rfl, fun hinvert => ?_, fun hinvert => ?_⟩
    · rw [if_pos (hcase.resolve_left hinvert), hback]
    · rw [if_neg (by rw [hinvert]; simp)]
      exact ⟨rfl, invertChar_down hucd hup, .inr ⟨rfl, rfl⟩⟩

theorem read_one (hucd : ucd.Lawful) (h : Reads ucd readCase dim st target escape) {c o : ℕ}
    (ho : Prints ucd readCase c o) (hgrammar : readtableGet o = .constituent)
    (hvalid : invalidCharacterP o = false) (hlower : ucd.lowerCaseP c = false)
    (hupper : readCase = .downcase → ucd.upperCaseP c = false) (rest : List ℕ) :
    ∃ st', readChars ucd readCase (o :: rest) st = readChars ucd readCase rest st' ∧
      Reads ucd readCase dim st' (target ++ [c]) escape := by
  obtain ⟨hescape, hmode, htext, hinvert⟩ := pushCase_prints st hucd ho hlower hupper
  refine ⟨st.pushCase ucd readCase o, ?_, ?_⟩
  · rw [readChars, readChar, h.mode]
    simp [hgrammar, hvalid]
  · have hstring : (st.pushCase ucd readCase o).string = pushExtend st.string c ∨
        (st.pushCase ucd readCase o).string = pushExtend st.string o := by
      by_cases hcase : readCase = .invert
      · exact .inr (hinvert hcase).1
      · exact .inl (htext hcase)
    refine ⟨hmode.trans h.mode, hescape.trans h.parts, ?_, ?_, ?_, fun hcase => ?_,
      fun hcase => ?_⟩
    · rcases hstring with hstring | hstring <;> simp [hstring, pushExtend, h.length]
    · exact within_mono h.within (by simp)
    · rw [List.length_append, List.length_singleton]
      rcases hstring with hstring | hstring <;> rw [hstring, pushExtend_dim h]
    · rw [htext hcase, pushExtend, h.text hcase]
    · obtain ⟨hpush, hback, hcounts⟩ := hinvert hcase
      obtain ⟨hraised, hup, hnone⟩ := h.inverted hcase
      rw [hpush]
      refine ⟨?_, ?_, fun hzero => ?_⟩
      · rw [pushExtend, raised_plain (h.length ▸ h.within), hraised]
        simp [hback]
      · rcases hcounts with ⟨-, hup', hcount⟩ | ⟨hup', hcount⟩ <;> rw [hup', hcount, hup]
        push_cast
        omega
      · rcases hcounts with ⟨rfl, -, hcount⟩ | ⟨-, hcount⟩
        · rw [pushExtend, hnone (by omega)]
        · omega

theorem read_plain (hucd : ucd.Lawful) {s out : List ℕ} (hbare : Bare ucd readCase s)
    (hout : List.Forall₂ (Prints ucd readCase) s out) (rest : List ℕ) :
    ∀ {st target}, Reads ucd readCase dim st target escape →
      ∃ st', readChars ucd readCase (out ++ rest) st = readChars ucd readCase rest st' ∧
        Reads ucd readCase dim st' (target ++ s) escape := by
  induction hout with
  | nil => exact fun {st target} h => ⟨st, rfl, by simpa using h⟩
  | @cons c o s out hprints hout ih =>
    intro st target h
    obtain ⟨⟨hgrammar, hvalid, -⟩, hlower, hupper, htail⟩ := bare_cons.mp hbare
    have ho : readtableGet o = .constituent ∧ invalidCharacterP o = false := by
      rcases hprints with ⟨rfl, -⟩ | ⟨hup, rfl, -⟩
      · exact ⟨hgrammar, hvalid⟩
      · have := Ucd.constituent_of_lower hucd (hucd.upper c hup).1
        exact ⟨this.1, this.2.1⟩
    obtain ⟨st', hread, hst'⟩ := read_one hucd h hprints ho.1 ho.2 hlower hupper (out ++ rest)
    obtain ⟨st'', hread', hst''⟩ := ih htail hst'
    refine ⟨st'', ?_, by simpa using hst''⟩
    rw [List.cons_append, hread, hread']

theorem readtableGet_escape {c : ℕ} (h : ¬ (c = 124 ∨ c = 92)) :
    readtableGet c ≠ .singleEscape ∧ readtableGet c ≠ .multipleEscape := by
  unfold readtableGet
  constructor
  all_goals
    split
    · simp
    · rw [if_neg (by omega), if_neg (by omega)]
      split
      · simp
      · split <;> simp

theorem read_multiple (s rest : List ℕ) : ∀ (st : TokenState) (start : ℕ),
    st.mode = .multiple start →
      readChars ucd readCase (escapedText s ++ rest) st =
        readChars ucd readCase rest { st with string := s.foldl pushExtend st.string } := by
  induction s with
  | nil => exact fun st start _ => rfl
  | cons c s ih =>
    intro st start hmode
    obtain ⟨string, parts, upcase, count, mode⟩ := st
    subst hmode
    by_cases hc : c = 124 ∨ c = 92
    · have htext : escapedText (c :: s) ++ rest = 92 :: c :: (escapedText s ++ rest) := by
        simp [escapedText, hc]
      rw [htext, readChars, show readChar ucd readCase ⟨string, parts, upcase, count,
        .multiple start⟩ 92 = .more ⟨string, parts, upcase, count, .multipleSingle start⟩ from rfl]
      dsimp only
      rw [readChars]
      exact ih ⟨pushExtend string c, parts, upcase, count, .multiple start⟩ start rfl
    · have htext : escapedText (c :: s) ++ rest = c :: (escapedText s ++ rest) := by
        simp [escapedText, hc]
      obtain ⟨hsingle, hmultiple⟩ := readtableGet_escape hc
      have hpush : readChar ucd readCase ⟨string, parts, upcase, count, .multiple start⟩ c =
          .more ⟨pushExtend string c, parts, upcase, count, .multiple start⟩ := by
        simp only [readChar, TokenState.push]
      rw [htext, readChars, hpush]
      exact ih ⟨pushExtend string c, parts, upcase, count, .multiple start⟩ start rfl

theorem foldl_pushExtend {s : List ℕ} : ∀ {string : TokenString} {n : ℕ},
    string.chars.length = n → string.dim = dimAfter dim n →
      (s.foldl pushExtend string).chars = string.chars ++ s ∧
        (s.foldl pushExtend string).dim = dimAfter dim (n + s.length) := by
  induction s with
  | nil => exact fun {string n} _ hdim => ⟨by simp, hdim⟩
  | cons c s ih =>
    intro string n hlen hdim
    obtain ⟨hchars, hdim'⟩ := @ih (pushExtend string c) (n + 1)
      (by simp [pushExtend, hlen]) (by rw [pushExtend, dimAfter, hlen, hdim])
    refine ⟨by rw [List.foldl_cons, hchars]; simp [pushExtend], ?_⟩
    rw [List.foldl_cons, hdim', List.length_cons, Nat.add_assoc, Nat.add_comm 1]

theorem read_escaped (h : Reads ucd readCase dim st target escape) (s rest : List ℕ) :
    ∃ st', readChars ucd readCase (124 :: (escapedText s ++ 124 :: rest)) st =
        readChars ucd readCase rest st' ∧
      Reads ucd readCase dim st' (target ++ s)
        (escape ++ [(target.length, target.length + s.length)]) := by
  obtain ⟨string, parts, upcase, count, mode⟩ := st
  obtain ⟨rfl, rfl, hlen, hwithin, hdim, htext, hinvert⟩ := h
  dsimp only at hlen hwithin hdim htext hinvert
  obtain ⟨hchars, hdim'⟩ := foldl_pushExtend (s := s) hlen hdim
  have hbar : readtableGet 124 = .multipleEscape := by decide
  refine ⟨⟨s.foldl pushExtend string, parts ++ [(target.length, target.length + s.length)],
    upcase, count, .normal⟩, ?_, ?_⟩
  · rw [readChars, show readChar ucd readCase ⟨string, parts, upcase, count, .normal⟩ 124 =
      .more ⟨string, parts, upcase, count, .multiple string.chars.length⟩ by simp [readChar, hbar]]
    dsimp only
    rw [read_multiple s (124 :: rest) _ _ rfl, readChars]
    simp [readChar, hbar, hchars, hlen]
  · refine ⟨rfl, rfl, ?_, ?_, ?_, fun hcase => ?_, fun hcase => ?_⟩
    · simp [hchars, hlen]
    · rw [List.length_append]
      intro part hpart
      rcases List.mem_append.mp hpart with hpart | hpart
      · exact within_mono hwithin (by omega) part hpart
      · rw [List.mem_singleton.mp hpart]
        exact ⟨by omega, le_rfl⟩
    · rw [hdim', List.length_append]
    · rw [hchars, htext hcase]
    · obtain ⟨hraised, hup, hnone⟩ := hinvert hcase
      refine ⟨?_, hup, fun hzero => ?_⟩
      · rw [hchars, ← hlen, raised_escaped (hlen ▸ hwithin), hraised]
      · rw [hchars, hnone hzero]

def partsOf (start : ℕ) (s : List ℕ) (escaped : Bool) : List (ℕ × ℕ) :=
  if escaped then [(start, start + s.length)] else []

theorem read_name (hucd : ucd.Lawful) {settings : PrintSettings}
    (h : Reads ucd settings.readCase dim st target escape) {s : List ℕ} {escaped : Bool}
    (hbare : escaped = false → Bare ucd settings.readCase s) (rest : List ℕ) :
    ∃ st', readChars ucd settings.readCase (nameText ucd settings s escaped ++ rest) st =
        readChars ucd settings.readCase rest st' ∧
      Reads ucd settings.readCase dim st' (target ++ s)
        (escape ++ partsOf target.length s escaped) := by
  cases escaped with
  | true =>
    have hread := read_escaped h s rest
    simpa [nameText, partsOf] using hread
  | false =>
    have hread := read_plain hucd (hbare rfl) (nameText_prints (hbare rfl)) rest h
    simpa [partsOf] using hread

theorem read_colon (hucd : ucd.Lawful) (h : Reads ucd readCase dim st target escape)
    (rest : List ℕ) :
    ∃ st', readChars ucd readCase (58 :: rest) st = readChars ucd readCase rest st' ∧
      Reads ucd readCase dim st' (target ++ [58]) escape := by
  have hupper : ucd.upperCaseP 58 = false := by
    rw [← Bool.not_eq_true, hucd.asciiUpper 58 (by omega)]
    omega
  have hlower : ucd.lowerCaseP 58 = false := by
    rw [← Bool.not_eq_true, hucd.asciiLower 58 (by omega)]
    omega
  exact read_one hucd h (.inl ⟨rfl, fun _ => hupper⟩) (by decide) (by decide) hlower
    (fun _ => hupper) rest

theorem readToken_eq {input : List ℕ} {buffer : TokenString}
    (hread : readChars ucd readCase input ⟨{ buffer with chars := [] }, [], 0, 0, .normal⟩ =
      readChars ucd readCase [] st)
    (h : Reads ucd readCase dim st target escape) :
    ∃ token, readToken ucd readCase buffer input = .ok (token, []) ∧
      token.string.chars = target ∧ token.escape = escape ∧
      token.string.dim = dimAfter dim target.length := by
  rw [readToken, hread, readChars, if_pos h.mode]
  dsimp only
  by_cases hcase : readCase = .invert
  · obtain ⟨hraised, hup, hnone⟩ := h.inverted hcase
    by_cases hcount : st.count = 0
    · rw [if_neg (by simp [hcount])]
      exact ⟨_, rfl, hnone hcount, h.parts, h.dim⟩
    · rw [if_pos ⟨hcase, hcount⟩, if_neg (by omega), if_pos hup]
      refine ⟨_, rfl, ?_, h.parts, h.dim⟩
      rw [← hraised, ← h.parts]
      rfl
  · rw [if_neg (by simp [hcase])]
    exact ⟨_, rfl, h.text hcase, h.parts, h.dim⟩

end SymbolTokens
