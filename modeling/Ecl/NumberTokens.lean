import Ecl.NumberRangeRefinement
import Ecl.NumberValues

/-! ecl_parse_number on every range of a string: what it returns, and where it looks. -/
namespace NumberRanges

open Characters NumberReader NumberSyntax NumberValues AccessLogs Integers

def Inside (start stop i : ℕ) : Prop := start ≤ i ∧ i < stop

section accesses
variable (ucd : Ucd) {str : List ℕ} {r start stop i n : ℕ}

theorem charAt_within (h : Inside start stop i) : (charAt str i).Within (Inside start stop) :=
  Logged.within_read h

theorem digitLoop_within (value : ℕ) (hstart : start ≤ i) (hi : i + n ≤ stop) :
    (digitLoop ucd str r n i value).Within (Inside start stop) := by
  induction n generalizing i value with
  | zero => exact Logged.within_pure _
  | succ n ih =>
    refine Logged.within_bind (charAt_within ⟨hstart, by omega⟩) fun c hc => ?_
    split
    · exact Logged.within_pure _
    · exact ih _ (by omega) (by omega)

theorem integerFrom_within (sign : ℤ) (hstart : start ≤ i) (hi : i ≤ stop) :
    (integerFrom ucd str stop r sign i).Within (Inside start stop) :=
  Logged.within_bind (digitLoop_within ucd 0 hstart (by omega)) fun _ _ => Logged.within_pure _

theorem parseInteger_within (hstart : start ≤ i) :
    (parseInteger ucd str i stop r).Within (Inside start stop) := by
  rw [parseInteger]
  split
  · exact Logged.within_pure _
  · refine Logged.within_bind (charAt_within ⟨hstart, by omega⟩) fun c hc => ?_
    split
    · exact integerFrom_within ucd 1 (by omega) (by omega)
    · split
      · exact integerFrom_within ucd (-1) (by omega) (by omega)
      · exact integerFrom_within ucd 1 hstart (by omega)

theorem scanRatio_within (sign : ℤ) (num : ℕ) (hstart : start ≤ i) (hi : i + 1 < stop) :
    (scanRatio ucd str stop r sign i num).Within (Inside start stop) := by
  refine Logged.within_bind (charAt_within ⟨by omega, hi⟩) fun c hc => ?_
  split
  · exact Logged.within_pure _
  · refine Logged.within_bind (parseInteger_within ucd (by omega)) fun d hd => ?_
    split
    · exact Logged.within_pure _
    · split
      · exact Logged.within_pure _
      · split
        · exact Logged.within_pure _
        · split
          · exact Logged.within_pure _
          · exact Logged.within_fail

theorem scanExponent_within (marker : ℕ) (sign : ℤ) (decimal num : ℕ) (hstart : start ≤ i) :
    (scanExponent ucd str stop marker sign i decimal num).Within (Inside start stop) := by
  refine Logged.within_bind (parseInteger_within ucd (by omega)) fun d hd => ?_
  split
  · exact Logged.within_pure _
  · split <;> exact Logged.within_pure _

/-- The loop looks beyond its end behind a slash only, and never after a point. -/
theorem scan_within (sign : ℤ) (decimal num : ℕ) (someDigit : Bool) (hstart : start ≤ i)
    (hi : i + n = stop) (hstop : stop ≤ str.length)
    (h : decimal < stop ∨ ∀ ds, slice str i n = ds ++ [47] → ¬ Digits ucd r ds) :
    (scan ucd str stop r sign n i decimal num someDigit).Within (Inside start stop) := by
  induction n generalizing i decimal num someDigit with
  | zero =>
    rw [scan]
    split
    · exact Logged.within_pure _
    · split <;> exact Logged.within_pure _
  | succ n ih =>
    have hin : i < str.length := by omega
    rw [scan]
    refine Logged.within_bind (charAt_within ⟨hstart, by omega⟩) fun c hc => ?_
    obtain rfl : str[i] = c := by
      rw [charAt_inside hin] at hc
      exact Option.some.inj hc
    rw [slice_succ hin] at h
    by_cases hslash : str[i] = 47
    · rw [if_pos hslash]
      split
      · exact Logged.within_pure _
      · next hdecimal =>
        refine scanRatio_within ucd sign num hstart ?_
        by_contra hend
        obtain rfl : n = 0 := by omega
        exact (h.resolve_left hdecimal) [] (by rw [hslash]; simp) (by simp [Digits])
    · rw [if_neg hslash]
      split
      · split
        · exact Logged.within_pure _
        · split
          · exact Logged.within_pure _
          · refine ih (i + 1) num someDigit (by omega) (by omega) ?_
            by_cases hend : i + 1 < stop
            · exact .inl hend
            · obtain rfl : n = 0 := by omega
              exact .inr (by simp)
      · split
        · next d hd =>
          refine ih _ _ true (by omega) (by omega) (h.imp_right fun hds ds heq hdigits => ?_)
          exact hds (str[i] :: ds) (by rw [heq]; rfl) (digits_cons.mpr ⟨by simp [hd], hdigits⟩)
        · split
          · split
            · exact Logged.within_pure _
            · split
              · exact Logged.within_pure _
              · exact scanExponent_within ucd _ sign decimal num hstart
          · split <;> exact Logged.within_pure _

theorem afterSign_within (sign : ℤ) (someDigit : Bool) (hstart : start ≤ i) (hi : i < stop)
    (hstop : stop ≤ str.length)
    (h : ∀ ds, slice str i (stop - i) = ds ++ [47] → ds ≠ [] → ¬ Digits ucd r ds) :
    (afterSign ucd str stop r someDigit sign i str[i]).Within (Inside start stop) := by
  rw [afterSign]
  split
  · exact Logged.within_pure _
  · next hslash =>
    refine scan_within ucd sign _ 0 someDigit hstart (by omega) hstop (.inr fun ds heq => ?_)
    refine h ds heq ?_
    rintro rfl
    rw [show stop - i = (stop - i - 1) + 1 by omega, slice_succ (by omega)] at heq
    exact hslash (List.cons.inj heq).1

theorem signed_within (sign : ℤ) (someDigit : Bool) (hstart : start ≤ i) (hi : i ≤ stop)
    (hstop : stop ≤ str.length)
    (h : ∀ ds, slice str i (stop - i) = ds ++ [47] → ds ≠ [] → ¬ Digits ucd r ds) :
    (signed ucd str stop r someDigit sign i).Within (Inside start stop) := by
  rw [signed]
  split
  · exact Logged.within_pure _
  · have hin : i < str.length := by omega
    refine Logged.within_bind (charAt_within ⟨hstart, by omega⟩) fun c hc => ?_
    obtain rfl : str[i] = c := by
      rw [charAt_inside hin] at hc
      exact Option.some.inj hc
    exact afterSign_within ucd sign someDigit hstart (by omega) hstop h

theorem readPass_within (someDigit : Bool) (hrange : start < stop) (hstop : stop ≤ str.length)
    (h : ∀ s ds, slice str start (stop - start) = s ++ (ds ++ [47]) → Sign s → ds ≠ [] →
      ¬ Digits ucd r ds) :
    (readPass ucd str start stop r someDigit).Within (Inside start stop) := by
  have hin : start < str.length := by omega
  have htext : slice str start (stop - start) =
      str[start] :: slice str (start + 1) (stop - (start + 1)) := by
    rw [show stop - start = (stop - (start + 1)) + 1 by omega, slice_succ hin]
  refine Logged.within_bind (charAt_within ⟨le_rfl, hrange⟩) fun c hc => ?_
  obtain rfl : str[start] = c := by
    rw [charAt_inside hin] at hc
    exact Option.some.inj hc
  split
  · next hplus =>
    refine signed_within ucd 1 someDigit (by omega) (by omega) hstop fun ds heq => ?_
    exact h [43] ds (by rw [htext, heq, hplus]; rfl) (.inr (.inl rfl))
  · split
    · next hminus =>
      refine signed_within ucd (-1) someDigit (by omega) (by omega) hstop fun ds heq => ?_
      exact h [45] ds (by rw [htext, heq, hminus]; rfl) (.inr (.inr rfl))
    · exact afterSign_within ucd 1 someDigit le_rfl hrange hstop fun ds heq =>
        h [] ds heq (.inl rfl)

/-- A number takes the whole range. -/
theorem decimal_ep (fuel : ℕ) (hsize : (str.length : ℤ) ≤ mostPositiveFixnum)
    (hrange : start < stop) (hstop : stop ≤ str.length) {num : Number} {ep : ℕ}
    (h : (passes ucd str start stop (fuel + 1) 10 false).result = some (some (.number num, ep))) :
    ep = stop := by
  have hlen : (token str start stop).chars.length = stop - start :=
    length_token (by omega) hstop
  have hne : (token str start stop).chars ≠ [] := List.ne_nil_of_length_pos (by omega)
  obtain ⟨s, l, hsplit⟩ := NumberParsing.exists_split (token str start stop).chars
  have hsame := decimalPass_refines ucd fuel false hsize hrange hstop
  rw [h] at hsame
  generalize hx : decimalPass ucd (token str start stop) false = x at hsame
  cases hsame with
  | done x x' ep' hx' =>
    cases hx' with
    | number q num hq =>
      have hep := (NumberParsing.decimalPass_sound hne hsplit hx (by simp)).1
      rw [hlen] at hep
      have := hep.resolve_right (by simp)
      omega

theorem keepDecimal_within (num : Number) :
    (keepDecimal str start num stop).Within (Inside start stop) := by
  cases num with
  | float num exp marker sign => exact Logged.within_pure _
  | rational x =>
    cases x with
    | ratio num den => exact Logged.within_pure _
    | integer value =>
      rw [keepDecimal]
      split
      · exact Logged.within_bind (charAt_within ⟨by omega, by omega⟩) fun c _ =>
          Logged.within_pure _
      · exact Logged.within_pure _

theorem passes_within (fuel : ℕ) (someDigit : Bool)
    (hsize : (str.length : ℤ) ≤ mostPositiveFixnum) (hrange : start < stop)
    (hstop : stop ≤ str.length)
    (h : ¬ EndsInSlash ucd r (token str start stop).chars) :
    (passes ucd str start stop fuel r someDigit).Within (Inside start stop) := by
  induction fuel generalizing r someDigit with
  | zero => exact Logged.within_pure _
  | succ fuel ih =>
    have hten : ¬ EndsInSlash ucd 10 (token str start stop).chars := by
      rintro ⟨s, ds, htext, hs, hne, hds⟩
      exact h ⟨s, ds, htext, hs, hne, .inr (hds.elim id id)⟩
    rw [passes]
    refine Logged.within_bind (readPass_within ucd someDigit hrange hstop ?_) fun pass hpass => ?_
    · intro s ds htext hs hne hds
      exact h ⟨s, ds, htext, hs, hne, .inl hds⟩
    · cases pass with
      | done x ep => exact Logged.within_pure _
      | again someDigit => exact ih someDigit hten
      | tryDecimal =>
        refine Logged.within_bind (ih false hten) fun x hx => ?_
        split
        · next num ep =>
          cases fuel with
          | zero => cases hx
          | succ fuel =>
            obtain rfl := decimal_ep ucd fuel hsize hrange hstop hx
            exact keepDecimal_within num
        · exact Logged.within_pure _
        · exact Logged.within_pure _

end accesses

/-- What ecl_parse_number makes of the characters from start up to stop. -/
structure ReadsRange (ucd : Ucd) (str : List ℕ) (start stop r : ℕ)
    (out : Logged ℕ (Option (Parsed × ℕ))) : Prop where
  ends : out.result ≠ some none
  accepts : (∃ num ep, out.result = some (some (.number num, ep))) ↔
    NumberToken ucd r (slice str start (stop - start))
  value : ∀ num ep, out.result = some (some (.number num, ep)) → ep = stop ∧
    ∃ q, TokenValue ucd r (slice str start (stop - start)) q ∧ SameNumber q num
  nil : (∃ ep, out.result = some (some (.nil, ep))) ↔
    ZeroDenominator ucd r (slice str start (stop - start))
  inside : ¬ EndsInSlash ucd r (slice str start (stop - start)) →
    out.result ≠ none ∧ out.Within (Inside start stop)

/-- Characters whose only digits are those of ASCII. -/
def ascii : Ucd := ⟨fun _ => ⟨0, 0⟩, fun _ => 0, fun _ => 255⟩

end NumberRanges
