import Ecl.PackageHomes

/-! Operations on symbols keep each symbol in its home package, as long as the keyword package
gets no symbol that it does not look up. -/
namespace Packages

variable {s : State} {p q : ℕ} {sym x : Symbol}

section operations

theorem Homed.store (h : Homed s) (hp : p ≠ keywordPackage)
    (hext : (s.packages p).external.gethash sym.name = none)
    (hint : (s.packages p).internal.gethash sym.name = none) (shadowings : List Symbol)
    (home : Symbol → Option ℕ) (next : ℕ)
    (hhomes : ∀ y q, home y = some q → q ≠ p ∨ y ≠ sym → s.home y = some q)
    (hnext : s.nextSymbol ≤ next) (answers : List Bool) :
    Homed { s with
      packages := Function.update s.packages p { s.packages p with
        shadowings := shadowings
        internal := (s.packages p).internal.sethash sym }
      home := home
      nextSymbol := next
      answers := answers } := by
  apply h.put p sym.name
  case hname => rfl
  case hext => exact fun m hm => rfl
  case hint => exact fun m hm => by rw [Table.gethash_sethash, if_neg (Ne.symm hm)]
  case hhomes =>
    intro y q hy hother
    apply hhomes y q hy
    exact hother.imp id fun hname heq => hname (heq ▸ rfl)
  case hnext => exact hnext
  case hdisjoint => exact fun _ => Or.inl hext
  case hhome =>
    intro y hname hy hlive
    by_cases hys : y = sym
    · subst y
      exact Or.inr ⟨hp, by rw [Table.gethash_sethash, if_pos rfl]⟩
    · have hin := (h.only (hhomes y p hy (Or.inr hys)) hlive (hname ▸ hext)).2
      rw [hname, hint] at hin
      cases hin
  case hkeyword => exact fun heq => absurd heq hp

theorem intern_homed (h : Homed s) (name : String) (p : ℕ) : Homed (intern name p s).state := by
  unfold intern
  split
  · exact h
  · next hnone =>
    obtain ⟨hext, hint⟩ := not_found_elsewhere hnone
    apply checkLock_homed h
    intro _
    have hhomes : ∀ (y : Symbol) q, (if y = ⟨s.nextSymbol, name⟩ then some p else s.home y) = some q →
        q ≠ p ∨ y ≠ ⟨s.nextSymbol, name⟩ → s.home y = some q := by
      intro y q hy hother
      split at hy
      · next heq =>
        cases hy
        exact absurd heq (hother.resolve_left fun hne => hne rfl)
      · exact hy
    dsimp only [makeSymbol]
    split
    · next hp =>
      subst p
      apply h.put keywordPackage name
      case hname => rfl
      case hext => exact fun m hm => (Table.gethash_sethash _ _ m).trans (if_neg (Ne.symm hm))
      case hint => exact fun m hm => rfl
      case hhomes =>
        intro y q hy hother
        exact hhomes y q hy (hother.imp id fun hname heq => hname (heq ▸ rfl))
      case hnext => exact Nat.le_succ _
      case hdisjoint => exact fun hne => absurd rfl hne
      case hhome =>
        intro y hname hy hlive
        by_cases hys : y = ⟨s.nextSymbol, name⟩
        · subst y
          exact Or.inl ((Table.gethash_sethash _ _ _).trans (if_pos rfl))
        · exact absurd rfl (h.only (hhomes y _ hy (Or.inr hys)) hlive (hname ▸ hext)).1
      case hkeyword =>
        intro _ y hy
        obtain ⟨hnot, hlt⟩ := h.keyword name y hy
        refine ⟨fun hnow => hnot (hhomes y _ hnow (Or.inr fun heq => ?_)), Nat.lt_succ_of_lt hlt⟩
        rw [heq] at hlt
        exact absurd hlt (Nat.lt_irrefl _)
    · next hp =>
      exact h.store hp hext (hint hp) _ _ _ hhomes (Nat.le_succ _) _

def Imports (sym : Symbol) (s : State) : Prop :=
  (s.packages keywordPackage).external.gethash sym.name ≠ none ∨
    s.home sym ≠ none ∧ sym.id < s.nextSymbol

theorem Homed.elsewhere (h : Homed s)
    (hext : (s.packages keywordPackage).external.gethash sym.name ≠ some sym) :
    s.home sym ≠ some keywordPackage := by
  intro hhome
  rcases h.home sym keywordPackage hhome h.live with hin | ⟨hne, -⟩
  · exact hext hin
  · exact hne rfl

theorem Homed.store_keyword (h : Homed s) (hhome : s.home sym ≠ some keywordPackage)
    (hlt : sym.id < s.nextSymbol) (external : Table) (shadowings : List Symbol)
    (hexternal : ∀ m, m ≠ sym.name →
      external.gethash m = (s.packages keywordPackage).external.gethash m)
    (home : Symbol → Option ℕ) (hhomes : ∀ y q, home y = some q → s.home y = some q)
    (hgone : ∀ y, y.name = sym.name → home y ≠ some keywordPackage) (answers : List Bool)
    (internal : Table) (hinternal : ∀ m, internal.gethash m =
      if sym.name = m then some sym else (s.packages keywordPackage).internal.gethash m) :
    Homed { s with
      packages := Function.update s.packages keywordPackage { s.packages keywordPackage with
        shadowings := shadowings
        external := external
        internal := internal }
      home := home
      answers := answers } := by
  apply h.put keywordPackage sym.name
  case hname => rfl
  case hext => exact hexternal
  case hint => exact fun m hm => (hinternal m).trans (if_neg (Ne.symm hm))
  case hhomes => exact fun y q hy _ => hhomes y q hy
  case hnext => exact Nat.le_refl _
  case hdisjoint => exact fun hne => absurd rfl hne
  case hhome => exact fun y hname hy => absurd hy (hgone y hname)
  case hkeyword =>
    intro _ y hy
    obtain rfl := Option.some.inj ((hinternal _).symm.trans hy |>.symm.trans (if_pos rfl)).symm
    exact ⟨fun hnow => hhome (hhomes _ _ hnow), hlt⟩

theorem clImport2_homed (h : Homed s) (hcond : p = keywordPackage → Unlocked p s → Imports sym s) :
    Homed (clImport2 sym p s).state := by
  apply checkLock_homed h
  intro hopen
  have hlock := h.withAnswers (s.afterLock p).answers
  have hfind : findSymbolInner sym.name p (s.afterLock p) = findSymbolInner sym.name p s := rfl
  have hhomes : ∀ (y : Symbol) q, (if y = sym ∧ s.home y = none then some p else s.home y) = some q →
      q ≠ p ∨ y ≠ sym → s.home y = some q := by
    intro y q hy hother
    split at hy
    · next heq =>
      cases hy
      exact absurd heq.1 (hother.resolve_left fun hne => hne rfl)
    · exact hy
  dsimp only
  split
  · next hnone =>
    obtain ⟨hext, hint⟩ := not_found_elsewhere (hfind ▸ hnone)
    by_cases hp : p = keywordPackage
    · subst p
      obtain ⟨hhome, hlt⟩ := (hcond rfl hopen).resolve_left fun hne => hne hext
      have hsame : ∀ (y : Symbol) q, (if y = sym ∧ s.home y = none then some keywordPackage
          else s.home y) = some q → s.home y = some q := by
        intro y q hy
        have hnot : ¬ (y = sym ∧ s.home y = none) := by
          rintro ⟨rfl, hnot⟩
          exact hhome hnot
        rwa [if_neg hnot] at hy
      have helse : ∀ y, y.name = sym.name → s.home y ≠ some keywordPackage := fun y hname =>
        h.elsewhere fun hin => absurd (hext.symm.trans (hname ▸ hin)) (by simp)
      exact h.store_keyword (helse sym rfl) hlt _ _ (fun _ _ => rfl) _ hsame
        (fun y hname hnow => helse y hname (hsame y _ hnow)) _ _ (Table.gethash_sethash _ _)
    · exact h.store hp hext (hint hp) _ _ _ hhomes (Nat.le_refl _) _
  · next x flag hfound =>
    split
    · unfold cePackageError
      split
      · exact hlock.withAnswers _
      · exact hlock.withAnswers _
    · split
      · next hflag =>
        subst hflag
        obtain ⟨hp, hext, hint⟩ := found_inherited (hfind ▸ hfound)
        exact h.store hp hext hint _ _ _ hhomes (Nat.le_refl _) _
      · exact hlock

theorem clImport2_frame (sym : Symbol) (p : ℕ) (s : State) :
    (clImport2 sym p s).state.nextSymbol = s.nextSymbol ∧
      (s.home sym ≠ none → (clImport2 sym p s).state.home sym ≠ none) := by
  have hadd : ∀ s' : State, s'.home = s.home → s.home sym ≠ none →
      (s'.addHome sym p).home sym ≠ none := by
    intro s' hs' hhome
    simp [State.addHome, hs', hhome]
  unfold clImport2 checkLock cePackageError
  split
  · split
    · dsimp only
      split
      · exact ⟨rfl, hadd _ rfl⟩
      · split
        · split <;> exact ⟨rfl, id⟩
        · split
          · exact ⟨rfl, hadd _ rfl⟩
          · exact ⟨rfl, id⟩
    · exact ⟨rfl, id⟩
  · dsimp only
    split
    · exact ⟨rfl, hadd _ rfl⟩
    · split
      · split <;> exact ⟨rfl, id⟩
      · split
        · exact ⟨rfl, hadd _ rfl⟩
        · exact ⟨rfl, id⟩

/-- An inaccessible symbol is imported when the caller continues, and the export starts again. -/
theorem exportAgain_homed (sym : Symbol) (p k : ℕ) : ∀ s : State, Homed s →
    (p = keywordPackage → s.answers.head? = some true → Imports sym s) →
    Homed (exportAgain sym p k s).state := by
  induction k with
  | zero => exact fun s h _ => h
  | succ k ih =>
    intro s h hcond
    unfold exportAgain
    split
    · next hnone =>
      obtain ⟨hext, -⟩ := not_found_elsewhere hnone
      unfold cePackageError
      split
      · next rest hanswers =>
        have himports : p = keywordPackage → s.home sym ≠ none ∧ sym.id < s.nextSymbol := by
          intro hp
          subst p
          exact (hcond rfl (by rw [hanswers, List.head?_cons])).resolve_left fun hne => hne hext
        have hdone : Homed (clImport2 sym p { s with answers := rest }).state :=
          clImport2_homed (h.withAnswers rest) fun hp _ => Or.inr (himports hp)
        obtain ⟨hnext, hhome⟩ := clImport2_frame sym p { s with answers := rest }
        dsimp only
        split
        · next s₁ heq =>
          rw [heq] at hdone hnext hhome
          apply ih s₁ hdone
          intro hp _
          exact Or.inr ⟨hhome (himports hp).1, hnext ▸ (himports hp).2⟩
        · exact hdone
      · exact h.withAnswers _
    · next x flag hfound =>
      split
      · exact h
      · next hx =>
        have hx : x = sym := by simpa using hx
        subst x
        split
        · exact h
        · next hflag =>
          split
          · exact h
          · cases flag with
            | external => exact absurd rfl hflag
            | internal =>
              obtain ⟨hp, hext, hint⟩ := found_internal hfound
              apply h.put p sym.name
              case hname => rfl
              case hext => exact fun m hm => (Table.gethash_sethash _ _ m).trans (if_neg (Ne.symm hm))
              case hint => exact fun m hm => (Table.gethash_remhash _ _ m).trans (if_neg (Ne.symm hm))
              case hhomes => exact fun y q hy _ => hy
              case hnext => exact Nat.le_refl _
              case hdisjoint => exact fun _ => Or.inr ((Table.gethash_remhash _ _ _).trans (if_pos rfl))
              case hhome =>
                intro y hname hy hlive
                have hin := (h.only hy hlive (hname ▸ hext)).2
                rw [hname, hint] at hin
                obtain rfl := Option.some.inj hin
                exact Or.inl ((Table.gethash_sethash _ _ _).trans (if_pos rfl))
              case hkeyword => exact fun heq => absurd heq hp
            | inherited =>
              obtain ⟨hp, hext, hint⟩ := found_inherited hfound
              apply h.put p sym.name
              case hname => rfl
              case hext => exact fun m hm => (Table.gethash_sethash _ _ m).trans (if_neg (Ne.symm hm))
              case hint => exact fun m hm => rfl
              case hhomes => exact fun y q hy _ => hy
              case hnext => exact Nat.le_refl _
              case hdisjoint => exact fun _ => Or.inr hint
              case hhome =>
                intro y hname hy hlive
                have hin := (h.only hy hlive (hname ▸ hext)).2
                rw [hname, hint] at hin
                cases hin
              case hkeyword => exact fun heq => absurd heq hp

theorem clUnexport2_homed (h : Homed s) (sym : Symbol) (p : ℕ) :
    Homed (clUnexport2 sym p s).state := by
  unfold clUnexport2
  split
  · exact h
  · next hp =>
    apply checkLock_homed h
    intro _
    have hlock := h.withAnswers (s.afterLock p).answers
    have hfind : findSymbolInner sym.name p (s.afterLock p) = findSymbolInner sym.name p s := rfl
    split
    · exact hlock
    · next x flag hfound =>
      split
      · exact hlock
      · next hx =>
        have hx : x = sym := by simpa using hx
        subst x
        split
        · exact hlock
        · next hflag =>
          have hflag : flag = .external := by simpa using hflag
          subst flag
          have hext := found_external (hfind ▸ hfound)
          apply h.put p sym.name
          case hname => rfl
          case hext => exact fun m hm => (Table.gethash_remhash _ _ m).trans (if_neg (Ne.symm hm))
          case hint => exact fun m hm => (Table.gethash_sethash _ _ m).trans (if_neg (Ne.symm hm))
          case hhomes => exact fun y q hy _ => hy
          case hnext => exact Nat.le_refl _
          case hdisjoint => exact fun _ => Or.inl ((Table.gethash_remhash _ _ _).trans (if_pos rfl))
          case hhome =>
            intro y hname hy hlive
            have hsym : y = sym := by
              rcases h.home y p hy hlive with hin | ⟨-, hin⟩
              · rw [hname, hext] at hin
                exact (Option.some.inj hin).symm
              · rcases h.disjoint p hp sym.name with hnone | hnone
                · rw [hext] at hnone
                  cases hnone
                · rw [hname, hnone] at hin
                  cases hin
            subst y
            exact Or.inr ⟨hp, (Table.gethash_sethash _ _ _).trans (if_pos rfl)⟩
          case hkeyword => exact fun heq => absurd heq hp

theorem removeHome_home {y : Symbol} (hy : (s.removeHome sym p).home y = some q) :
    s.home y = some q ∧ (q = p → y ≠ sym) := by
  have hhome : (if y = sym ∧ s.home y = some p then none else s.home y) = some q := hy
  split at hhome
  · cases hhome
  · next hnot =>
    refine ⟨hhome, ?_⟩
    rintro rfl rfl
    exact hnot ⟨rfl, hhome⟩

theorem Homed.removal (h : Homed s) {internal external : Table} {shadowings : List Symbol}
    (hcase : ((s.packages p).internal.gethash sym.name = some sym ∧
        internal = (s.packages p).internal.remhash sym.name ∧ external = (s.packages p).external) ∨
      ((s.packages p).external.gethash sym.name = some sym ∧
        internal = (s.packages p).internal ∧
        external = (s.packages p).external.remhash sym.name)) (answers : List Bool) :
    Homed { s with
      packages := Function.update s.packages p { s.packages p with
        shadowings := shadowings
        internal := internal
        external := external }
      home := (s.removeHome sym p).home
      answers := answers } := by
  have hsep : p ≠ keywordPackage → ∀ y : Symbol, y.name = sym.name →
      Holds p (s.packages p) y → y = sym := by
    intro hp y hname hy
    have hdis := h.disjoint p hp sym.name
    rw [Holds, hname] at hy
    rcases hcase with ⟨hin, -⟩ | ⟨hin, -⟩ <;> rcases hy with hy | ⟨-, hy⟩ <;>
      simp_all
  apply h.put p sym.name
  case hname => rfl
  case hext =>
    intro m hm
    rcases hcase with ⟨-, -, rfl⟩ | ⟨-, -, rfl⟩
    · rfl
    · exact (Table.gethash_remhash _ _ m).trans (if_neg (Ne.symm hm))
  case hint =>
    intro m hm
    rcases hcase with ⟨-, rfl, -⟩ | ⟨-, rfl, -⟩
    · exact (Table.gethash_remhash _ _ m).trans (if_neg (Ne.symm hm))
    · rfl
  case hhomes => exact fun y q hy _ => (removeHome_home hy).1
  case hnext => exact Nat.le_refl _
  case hdisjoint =>
    intro hp
    rcases hcase with ⟨-, rfl, -⟩ | ⟨-, -, rfl⟩
    · exact Or.inr ((Table.gethash_remhash _ _ _).trans (if_pos rfl))
    · exact Or.inl ((Table.gethash_remhash _ _ _).trans (if_pos rfl))
  case hhome =>
    intro y hname hy hlive
    obtain ⟨hold, hne⟩ := removeHome_home hy
    have hholds := h.home y p hold hlive
    by_cases hp : p = keywordPackage
    · rcases hcase with ⟨-, -, rfl⟩ | ⟨hin, -, -⟩
      · exact Or.inl (hholds.resolve_right fun hright => hright.1 hp)
      · have hext := hholds.resolve_right fun hright => hright.1 hp
        rw [hname, hin] at hext
        exact absurd (Option.some.inj hext).symm (hne rfl)
    · exact absurd (hsep hp y hname hholds) (hne rfl)
  case hkeyword =>
    intro hp y hy
    subst p
    have hold : (s.packages keywordPackage).internal.gethash sym.name = some y := by
      rcases hcase with ⟨-, rfl, -⟩ | ⟨-, rfl, -⟩
      · have hnone := (Table.gethash_remhash (s.packages keywordPackage).internal
          sym.name sym.name).trans (if_pos rfl)
        exact absurd (hnone.symm.trans hy) (by simp)
      · exact hy
    obtain ⟨hnot, hlt⟩ := h.keyword _ y hold
    exact ⟨fun hnow => hnot (removeHome_home hnow).1, hlt⟩

theorem unintern_homed (h : Homed s) (sym : Symbol) (p : ℕ) : Homed (unintern sym p s).state := by
  apply checkLock_homed h
  intro _
  have hlock := h.withAnswers (s.afterLock p).answers
  dsimp only
  split
  · exact hlock
  · next hpresent =>
    have hfinish : ∀ shadowings, Homed ((((s.afterLock p).modify p fun pack =>
        if (s.packages p).internal.gethash sym.name = some sym then
          { pack with shadowings := shadowings, internal := pack.internal.remhash sym.name }
        else
          { pack with shadowings := shadowings, external := pack.external.remhash sym.name })
        |>.removeHome sym p)) := by
      intro shadowings
      by_cases hin : (s.packages p).internal.gethash sym.name = some sym
      · simp only [if_pos hin]
        exact h.removal (Or.inl ⟨hin, rfl, rfl⟩) _
      · simp only [if_neg hin]
        have hext : (s.packages p).external.gethash sym.name = some sym := by
          by_contra hnot
          exact hpresent ⟨hin, hnot⟩
        exact h.removal (Or.inr ⟨hext, rfl, rfl⟩) _
    split
    · split
      · exact hlock
      · exact hfinish _
    · exact hfinish _

theorem Homed.shadowings (h : Homed s) (p : ℕ) (shadowings : List Symbol) (answers : List Bool) :
    Homed { s with
      packages := Function.update s.packages p { s.packages p with shadowings := shadowings }
      answers := answers } := by
  apply h.same
  · rfl
  · rfl
  · intro q
    by_cases hq : q = p
    · subst q
      simp only [Function.update_self, and_self]
    · simp only [Function.update_of_ne hq, and_self]

theorem Homed.replace (h : Homed s) (hp : p ≠ keywordPackage) (hne : x.name = sym.name)
    (hholds : Holds p (s.packages p) x) {internal external : Table} {shadowings : List Symbol}
    (hinternal : ∀ m, internal.gethash m =
      if sym.name = m then some sym else (s.packages p).internal.gethash m)
    (hexternal : ∀ m, external.gethash m =
      if sym.name = m then none else (s.packages p).external.gethash m) (answers : List Bool) :
    Homed { s with
      packages := Function.update s.packages p { s.packages p with
        shadowings := shadowings
        internal := internal
        external := external }
      home := (s.removeHome x p).home
      answers := answers } := by
  apply h.put p sym.name
  case hname => rfl
  case hext => exact fun m hm => (hexternal m).trans (if_neg (Ne.symm hm))
  case hint => exact fun m hm => (hinternal m).trans (if_neg (Ne.symm hm))
  case hhomes => exact fun y q hy _ => (removeHome_home hy).1
  case hnext => exact Nat.le_refl _
  case hdisjoint => exact fun _ => Or.inl ((hexternal _).trans (if_pos rfl))
  case hhome =>
    intro y hname hy hlive
    obtain ⟨hold, hnot⟩ := removeHome_home hy
    have hyholds := h.home y p hold hlive
    have hdis := h.disjoint p hp sym.name
    rw [Holds, hne] at hholds
    rw [Holds, hname] at hyholds
    have hsame : y = x := by
      rcases hholds with hx | ⟨-, hx⟩ <;> rcases hyholds with hy' | ⟨-, hy'⟩ <;> simp_all
    exact absurd hsame (hnot rfl)
  case hkeyword => exact fun heq => absurd heq hp

theorem shadowingImport_homed (h : Homed s) {p : ℕ}
    (hcond : p = keywordPackage → Unlocked p s → sym.id < s.nextSymbol) :
    Homed (shadowingImport sym p s).state := by
  apply checkLock_homed h
  intro hopen
  have hlock := h.withAnswers (s.afterLock p).answers
  have hfind : findSymbolInner sym.name p (s.afterLock p) = findSymbolInner sym.name p s := rfl
  dsimp only
  split
  · next x hfound =>
    obtain ⟨hp, hext, hint⟩ := found_internal (hfind ▸ hfound)
    have hname := Table.gethash_name hint
    split
    · exact h.shadowings p _ _
    · apply h.replace hp hname
      · exact Or.inr ⟨hp, hname.symm ▸ hint⟩
      · intro m
        refine (Table.gethash_sethash _ _ m).trans ?_
        split
        · rfl
        · next hm => exact (Table.gethash_remhash _ _ m).trans (if_neg hm)
      · intro m
        split
        · next hm => exact hm ▸ hext
        · rfl
  · next x hfound =>
    have hext := found_external (hfind ▸ hfound)
    have hname := Table.gethash_name hext
    split
    · exact h.shadowings p _ _
    · next hne =>
      have hremoved : ∀ m, ((s.packages p).external.remhash sym.name).gethash m =
          if sym.name = m then none else (s.packages p).external.gethash m :=
        Table.gethash_remhash _ _
      by_cases hp : p = keywordPackage
      · subst p
        have hsym : s.home sym ≠ some keywordPackage := by
          apply h.elsewhere
          rw [hext]
          exact fun heq => hne (Option.some.inj heq)
        apply h.store_keyword hsym (hcond rfl hopen)
        · exact fun m hm => (hremoved m).trans (if_neg (Ne.symm hm))
        · exact fun y q hy => (removeHome_home hy).1
        · intro y hyname hy
          obtain ⟨hold, hnot⟩ := removeHome_home hy
          have hin := (h.home y _ hold h.live).resolve_right fun hright => hright.1 rfl
          rw [hyname, hext] at hin
          exact hnot rfl (Option.some.inj hin).symm
        · exact Table.gethash_sethash _ _
      · apply h.replace hp hname (Or.inl (hname.symm ▸ hext))
        · exact Table.gethash_sethash _ _
        · exact hremoved
  · next hinternal hexternal =>
    have habsent := not_present_elsewhere hfind hinternal hexternal
    by_cases hp : p = keywordPackage
    · subst p
      have helse : ∀ y, y.name = sym.name → s.home y ≠ some keywordPackage := fun y hname =>
        h.elsewhere fun hin => absurd (habsent.1.symm.trans (hname ▸ hin)) (by simp)
      exact h.store_keyword (helse sym rfl) (hcond rfl hopen) _ _ (fun _ _ => rfl) _
        (fun _ _ hy => hy) helse _ _ (Table.gethash_sethash _ _)
    · exact h.store hp habsent.1 (habsent.2 hp) _ _ _ (fun _ _ hy _ => hy) (Nat.le_refl _) _

/-- A new symbol shadows nothing of the keyword package: its name is a keyword there. -/
theorem shadow_homed (h : Homed s) {name : String} {p : ℕ}
    (hcond : p = keywordPackage → Unlocked p s →
      (s.packages keywordPackage).external.gethash name ≠ none) :
    Homed (shadow name p s).state := by
  apply checkLock_homed h
  intro hopen
  have hfind : findSymbolInner name p (s.afterLock p) = findSymbolInner name p s := rfl
  dsimp only
  split
  · exact h.shadowings p _ _
  · exact h.shadowings p _ _
  · next hinternal hexternal =>
    have habsent : (s.packages p).external.gethash name = none ∧
        (p ≠ keywordPackage → (s.packages p).internal.gethash name = none) :=
      not_present_elsewhere hfind hinternal hexternal
    have hp : p ≠ keywordPackage := by
      rintro rfl
      exact hcond rfl hopen habsent.1
    apply Homed.store h hp (habsent.1 : (s.packages p).external.gethash
        (⟨s.nextSymbol, name⟩ : Symbol).name = none) (habsent.2 hp)
    · intro y q hy hother
      have hy : (if y = ⟨s.nextSymbol, name⟩ then some p else s.home y) = some q := hy
      split at hy
      · next heq =>
        cases hy
        exact absurd heq (hother.resolve_left fun hne => hne rfl)
      · exact hy
    · exact Nat.le_succ _

end operations

end Packages
