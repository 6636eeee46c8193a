import Ecl.PackageNaming

/-! Home packages: a symbol is present in the package that is its home. The keyword package
looks up external symbols only, so a symbol in its other table is lost. -/
namespace Packages

variable {s s' : State} {p q : ℕ} {sym x : Symbol} {n : String}

def Holds (p : ℕ) (pack : Package) (sym : Symbol) : Prop :=
  pack.external.gethash sym.name = some sym ∨
    p ≠ keywordPackage ∧ pack.internal.gethash sym.name = some sym

/-- Symbols are held by their home packages, and the internal table of the keyword package has
no symbol of its own. -/
structure Homed (s : State) : Prop where
  live : (s.packages keywordPackage).name ≠ none
  home : ∀ sym p, s.home sym = some p → (s.packages p).name ≠ none → Holds p (s.packages p) sym
  disjoint : ∀ p, p ≠ keywordPackage → ∀ n,
    (s.packages p).external.gethash n = none ∨ (s.packages p).internal.gethash n = none
  keyword : ∀ n sym, (s.packages keywordPackage).internal.gethash n = some sym →
    s.home sym ≠ some keywordPackage ∧ sym.id < s.nextSymbol

theorem Homed.same (h : Homed s) (hhome : s'.home = s.home) (hnext : s'.nextSymbol = s.nextSymbol)
    (htables : ∀ q, (s'.packages q).external = (s.packages q).external ∧
      (s'.packages q).internal = (s.packages q).internal ∧
      (s'.packages q).name = (s.packages q).name) : Homed s' where
  live := (htables keywordPackage).2.2 ▸ h.live
  home sym p hp hname := by
    rw [hhome] at hp
    rw [(htables p).2.2] at hname
    rw [Holds, (htables p).1, (htables p).2.1]
    exact h.home sym p hp hname
  disjoint p hp n := by
    rw [(htables p).1, (htables p).2.1]
    exact h.disjoint p hp n
  keyword n sym hsym := by
    rw [(htables _).2.1] at hsym
    rw [hhome, hnext]
    exact h.keyword n sym hsym

structure ChangesAt (s s' : State) (p : ℕ) (n : String) : Prop where
  others : ∀ q, q ≠ p → s'.packages q = s.packages q
  name : (s'.packages p).name = (s.packages p).name
  external : ∀ m, m ≠ n →
    (s'.packages p).external.gethash m = (s.packages p).external.gethash m
  internal : ∀ m, m ≠ n →
    (s'.packages p).internal.gethash m = (s.packages p).internal.gethash m
  homes : ∀ sym q, s'.home sym = some q → q ≠ p ∨ sym.name ≠ n → s.home sym = some q
  next : s.nextSymbol ≤ s'.nextSymbol

theorem Homed.change (h : Homed s) (hc : ChangesAt s s' p n)
    (hdisjoint : p ≠ keywordPackage →
      (s'.packages p).external.gethash n = none ∨ (s'.packages p).internal.gethash n = none)
    (hhome : ∀ sym, sym.name = n → s'.home sym = some p → (s.packages p).name ≠ none →
      Holds p (s'.packages p) sym)
    (hkeyword : p = keywordPackage → ∀ sym, (s'.packages p).internal.gethash n = some sym →
      s'.home sym ≠ some keywordPackage ∧ sym.id < s'.nextSymbol) : Homed s' where
  live := by
    by_cases hp : keywordPackage = p
    · rw [hp, hc.name, ← hp]
      exact h.live
    · rw [hc.others _ hp]
      exact h.live
  home sym q hq hname := by
    by_cases hqp : q = p
    · subst q
      rw [hc.name] at hname
      by_cases hn : sym.name = n
      · exact hhome sym hn hq hname
      · rw [Holds, hc.external _ hn, hc.internal _ hn]
        exact h.home sym p (hc.homes sym p hq (Or.inr hn)) hname
    · rw [hc.others q hqp] at hname ⊢
      exact h.home sym q (hc.homes sym q hq (Or.inl hqp)) hname
  disjoint q hq m := by
    by_cases hqp : q = p
    · subst q
      by_cases hm : m = n
      · exact hm ▸ hdisjoint hq
      · rw [hc.external m hm, hc.internal m hm]
        exact h.disjoint p hq m
    · rw [hc.others q hqp]
      exact h.disjoint q hq m
  keyword m sym hsym := by
    have hkept : (s.packages keywordPackage).internal.gethash m = some sym →
        keywordPackage ≠ p ∨ sym.name ≠ n →
        s'.home sym ≠ some keywordPackage ∧ sym.id < s'.nextSymbol := by
      intro hold hother
      obtain ⟨hnot, hlt⟩ := h.keyword m sym hold
      exact ⟨fun hnow => hnot (hc.homes sym _ hnow hother), Nat.lt_of_lt_of_le hlt hc.next⟩
    by_cases hp : keywordPackage = p
    · by_cases hm : m = n
      · subst p m
        exact hkeyword rfl sym hsym
      · have hname : sym.name = m := Table.gethash_name hsym
        rw [hp, hc.internal m hm] at hsym
        exact hkept (hp ▸ hsym) (Or.inr (hname ▸ hm))
    · rw [hc.others _ hp] at hsym
      exact hkept hsym (Or.inl hp)

/-- Package p becomes pack, which differs at the name n, and symbols of that name may get other
homes in p. -/
theorem Homed.put (h : Homed s) (p : ℕ) (n : String) (pack : Package) (home : Symbol → Option ℕ)
    (next : ℕ) (hname : pack.name = (s.packages p).name)
    (hext : ∀ m, m ≠ n → pack.external.gethash m = (s.packages p).external.gethash m)
    (hint : ∀ m, m ≠ n → pack.internal.gethash m = (s.packages p).internal.gethash m)
    (hhomes : ∀ sym q, home sym = some q → q ≠ p ∨ sym.name ≠ n → s.home sym = some q)
    (hnext : s.nextSymbol ≤ next)
    (hdisjoint : p ≠ keywordPackage →
      pack.external.gethash n = none ∨ pack.internal.gethash n = none)
    (hhome : ∀ sym, sym.name = n → home sym = some p → (s.packages p).name ≠ none →
      Holds p pack sym)
    (hkeyword : p = keywordPackage → ∀ sym, pack.internal.gethash n = some sym →
      home sym ≠ some keywordPackage ∧ sym.id < next) (answers : List Bool) :
    Homed { s with
      packages := Function.update s.packages p pack
      home := home
      nextSymbol := next
      answers := answers } := by
  have hself : Function.update s.packages p pack p = pack := Function.update_self _ _ _
  apply h.change (p := p) (n := n)
  · constructor
    case others => exact fun q hq => Function.update_of_ne hq _ _
    case name => exact (congrArg Package.name hself).trans hname
    case external =>
      intro m hm
      exact (congrArg (fun k : Package => k.external.gethash m) hself).trans (hext m hm)
    case internal =>
      intro m hm
      exact (congrArg (fun k : Package => k.internal.gethash m) hself).trans (hint m hm)
    case homes => exact hhomes
    case next => exact hnext
  · simpa only [hself] using hdisjoint
  · simpa only [hself] using hhome
  · simpa only [hself] using hkeyword

section find

theorem not_found_elsewhere (h : findSymbolInner n p s = none) :
    (s.packages p).external.gethash n = none ∧
      (p ≠ keywordPackage → (s.packages p).internal.gethash n = none) := by
  unfold findSymbolInner at h
  split at h
  · cases h
  · next hext =>
    refine ⟨hext, fun hp => ?_⟩
    rw [if_neg hp] at h
    split at h
    · cases h
    · next hint => exact hint

theorem found_inherited (h : findSymbolInner n p s = some (x, .inherited)) :
    p ≠ keywordPackage ∧ (s.packages p).external.gethash n = none ∧
      (s.packages p).internal.gethash n = none := by
  unfold findSymbolInner at h
  split at h
  · cases h
  · next hext =>
    split at h
    · cases h
    · next hp =>
      split at h
      · cases h
      · next hint => exact ⟨hp, hext, hint⟩

theorem found_external (h : findSymbolInner n p s = some (x, .external)) :
    (s.packages p).external.gethash n = some x := by
  unfold findSymbolInner at h
  split at h
  · next y hext =>
    cases h
    exact hext
  · split at h
    · cases h
    · split at h
      · cases h
      · obtain ⟨y, -, hy⟩ := Option.map_eq_some_iff.mp h
        cases hy

theorem found_internal (h : findSymbolInner n p s = some (x, .internal)) :
    p ≠ keywordPackage ∧ (s.packages p).external.gethash n = none ∧
      (s.packages p).internal.gethash n = some x := by
  unfold findSymbolInner at h
  split at h
  · cases h
  · next hext =>
    split at h
    · cases h
    · next hp =>
      split at h
      · next y hint =>
        cases h
        exact ⟨hp, hext, hint⟩
      · obtain ⟨y, -, hy⟩ := Option.map_eq_some_iff.mp h
        cases hy

theorem not_present_elsewhere {t : State} (hfind : findSymbolInner n p t = findSymbolInner n p s)
    (hinternal : ∀ x, findSymbolInner n p t ≠ some (x, .internal))
    (hexternal : ∀ x, findSymbolInner n p t ≠ some (x, .external)) :
    (s.packages p).external.gethash n = none ∧
      (p ≠ keywordPackage → (s.packages p).internal.gethash n = none) := by
  cases hcase : findSymbolInner n p s with
  | none => exact not_found_elsewhere hcase
  | some found =>
    obtain ⟨x, flag⟩ := found
    cases flag with
    | internal => exact absurd (hfind.trans hcase) (hinternal x)
    | external => exact absurd (hfind.trans hcase) (hexternal x)
    | inherited => exact ⟨(found_inherited hcase).2.1, fun _ => (found_inherited hcase).2.2⟩

theorem Homed.only (h : Homed s) (hhome : s.home sym = some p) (hname : (s.packages p).name ≠ none)
    (hext : (s.packages p).external.gethash sym.name = none) :
    p ≠ keywordPackage ∧ (s.packages p).internal.gethash sym.name = some sym := by
  rcases h.home sym p hhome hname with hin | hin
  · rw [hext] at hin
    cases hin
  · exact hin

end find

section lock

def Unlocked (p : ℕ) (s : State) : Prop :=
  (s.packages p).locked && !s.ignoreLocks → s.answers.head? = some true

def State.afterLock (s : State) (p : ℕ) : State :=
  { s with answers :=
    if (s.packages p).locked && !s.ignoreLocks then s.answers.tail else s.answers }

theorem Homed.withAnswers (h : Homed s) (answers : List Bool) :
    Homed { s with answers := answers } := ⟨h.live, h.home, h.disjoint, h.keyword⟩

theorem checkLock_homed {e : PackageError} {body : State → Result} (h : Homed s)
    (hbody : Unlocked p s → Homed (body (s.afterLock p)).state) :
    Homed (checkLock e p s body).state := by
  unfold checkLock
  split
  · next hlocked =>
    unfold cePackageError
    split
    · next rest hanswers =>
      have hafter : s.afterLock p = { s with answers := rest } := by
        rw [State.afterLock, if_pos hlocked, hanswers, List.tail_cons]
      rw [← hafter]
      exact hbody fun _ => by rw [hanswers, List.head?_cons]
    · exact h.withAnswers _
  · next hopen =>
    have hafter : s.afterLock p = s := by rw [State.afterLock, if_neg hopen]
    rw [hafter] at hbody
    exact hbody fun hlocked => absurd hlocked hopen

end lock

end Packages
