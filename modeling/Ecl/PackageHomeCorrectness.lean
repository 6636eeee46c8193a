import Ecl.PackageHomeOperations

/-! Home packages in runs of all operations. -/
namespace Packages

variable {s : State}

section others

theorem relink_homed (h : Homed s) (p x : ℕ) (uses usedby : List ℕ) (answers : List Bool) :
    Homed { s.relink p x uses usedby with answers := answers } := by
  apply h.same
  · rfl
  · rfl
  · intro q
    obtain ⟨hext, hint, -⟩ := s.relink_tables p x uses usedby q
    exact ⟨hext, hint, PackageSystem.relink_name p x uses usedby q⟩

theorem usePackage_homed (h : Homed s) (x p : ℕ) : Homed (usePackage x p s).state := by
  unfold usePackage
  split
  · exact h
  · split
    · exact h
    · split
      · exact h
      · split
        · exact h
        · apply checkLock_homed h
          intro _
          split
          · exact h.withAnswers _
          · exact relink_homed h p x _ _ _

theorem unusePackage_homed (h : Homed s) (x p : ℕ) : Homed (unusePackage x p s).state := by
  apply checkLock_homed h
  intro _
  exact relink_homed h p x _ _ _

theorem unuseUses_homed (p k : ℕ) : ∀ s : State, Homed s → Homed (unuseUses p k s).state := by
  induction k with
  | zero => exact fun s h => h
  | succ k ih =>
    intro s h
    unfold unuseUses
    split
    · exact h
    · next x rest _ =>
      have hone := unusePackage_homed h x p
      split
      · next s₁ hdone =>
        rw [hdone] at hone
        exact ih s₁ hone
      · exact hone

theorem unuseUsedby_homed (p k : ℕ) : ∀ s : State, Homed s → Homed (unuseUsedby p k s).state := by
  induction k with
  | zero => exact fun s h => h
  | succ k ih =>
    intro s h
    unfold unuseUsedby
    split
    · exact h
    · next q rest _ =>
      have hone := unusePackage_homed h p q
      split
      · next s₁ hdone =>
        rw [hdone] at hone
        exact ih s₁ hone
      · exact hone

theorem removeHomes_home (p : ℕ) (gone : List Symbol) : ∀ s : State,
    (gone.foldl (fun s sym => s.removeHome sym p) s).nextSymbol = s.nextSymbol ∧
    ∀ y q, (gone.foldl (fun s sym => s.removeHome sym p) s).home y = some q → s.home y = some q := by
  induction gone with
  | nil => exact fun s => ⟨rfl, fun y q hy => hy⟩
  | cons sym gone ih =>
    intro s
    obtain ⟨hnext, hhome⟩ := ih (s.removeHome sym p)
    exact ⟨hnext, fun y q hy => (removeHome_home (hhome y q hy)).1⟩

theorem clearPackage_homed (h : Homed s) (hp : p ≠ keywordPackage) : Homed (clearPackage p s) := by
  obtain ⟨hnext, hhome⟩ := removeHomes_home p
    ((s.packages p).internal.entries ++ (s.packages p).external.entries) s
  have hpackages : ∀ q, q ≠ p → (clearPackage p s).packages q = s.packages q := by
    intro q hq
    simp only [clearPackage, State.modify, Function.update_of_ne hq, removeHomes_packages]
  have hself : (clearPackage p s).packages p = { s.packages p with
      internal := .empty, external := .empty, shadowings := [], name := none } := by
    simp only [clearPackage, State.modify, Function.update_self, removeHomes_packages]
  constructor
  case live =>
    rw [hpackages _ (Ne.symm hp)]
    exact h.live
  case home =>
    intro y q hy hlive
    by_cases hq : q = p
    · subst q
      rw [hself] at hlive
      exact absurd rfl hlive
    · rw [hpackages q hq] at hlive ⊢
      exact h.home y q (hhome y q hy) hlive
  case disjoint =>
    intro q hqk m
    by_cases hq : q = p
    · subst q
      rw [hself]
      exact Or.inl rfl
    · rw [hpackages q hq]
      exact h.disjoint q hqk m
  case keyword =>
    intro m y hy
    rw [hpackages _ (Ne.symm hp)] at hy
    obtain ⟨hnot, hlt⟩ := h.keyword m y hy
    exact ⟨fun hnow => hnot (hhome y _ hnow), Nat.lt_of_lt_of_eq hlt hnext.symm⟩

theorem clDeletePackage_homed (h : Homed s) (p : ℕ) : Homed (clDeletePackage p s).state := by
  apply checkLock_homed h
  intro _
  have hlock : Homed (s.afterLock p) := h.withAnswers _
  split
  · exact hlock
  · next hsystem =>
    split
    · exact hlock
    · have huses := unuseUses_homed p ((s.afterLock p).packages p).uses.length _ hlock
      split
      · next hfail =>
        rw [hfail] at huses
        exact huses
      · next s₁ hdone =>
        rw [hdone] at huses
        have husedby := unuseUsedby_homed p (s₁.packages p).usedby.length s₁ huses
        split
        · next hfail =>
          rw [hfail] at husedby
          exact husedby
        · next s₂ hdone' =>
          rw [hdone'] at husedby
          exact clearPackage_homed husedby fun hp => hsystem (Or.inr hp)

end others

section runs

def KeepsHomes (s : State) : Op → Prop
  | .clImport sym p => p = keywordPackage → Unlocked p s → Imports sym s
  | .clExport sym p => p = keywordPackage → Unlocked p s →
    (s.afterLock p).answers.head? = some true → Imports sym s
  | .shadowingImport sym p => p = keywordPackage → Unlocked p s → sym.id < s.nextSymbol
  | .shadow name p => p = keywordPackage → Unlocked p s →
    (s.packages keywordPackage).external.gethash name ≠ none
  | _ => True

theorem step_homed (h : Homed s) (op : Op) (hop : KeepsHomes s op) : Homed (step s op).state := by
  cases op with
  | intern name p => exact intern_homed h name p
  | unintern sym p => exact unintern_homed h sym p
  | clExport sym p =>
    apply checkLock_homed h
    intro hopen
    exact exportAgain_homed sym p _ _ (h.withAnswers _) fun hp hcontinue => hop hp hopen hcontinue
  | unexport sym p => exact clUnexport2_homed h sym p
  | clImport sym p => exact clImport2_homed h hop
  | shadowingImport sym p => exact shadowingImport_homed h hop
  | shadow name p => exact shadow_homed h hop
  | usePackage x p => exact usePackage_homed h x p
  | unusePackage x p => exact unusePackage_homed h x p
  | deletePackage p => exact clDeletePackage_homed h p

def Meets (C : State → Op → Prop) : State → List Op → Prop
  | _, [] => True
  | s, op :: ops => C s op ∧ Meets C (step s op).state ops

theorem run_homed (ops : List Op) : ∀ s : State, Homed s → Meets KeepsHomes s ops →
    Homed (run s ops) := by
  induction ops with
  | nil => exact fun s h _ => h
  | cons op ops ih => exact fun s h hops => ih _ (step_homed h op hops.1) hops.2

/-- A symbol at home in a package that is not deleted is in exactly one of its tables, and the
lookup of its name there finds it. -/
theorem home_packages_hold_their_symbols (h : Homed s) (ops : List Op)
    (hops : Meets KeepsHomes s ops) (sym : Symbol) (p : ℕ)
    (hhome : (run s ops).home sym = some p) (hname : ((run s ops).packages p).name ≠ none) :
    Xor (((run s ops).packages p).external.gethash sym.name = some sym)
      (((run s ops).packages p).internal.gethash sym.name = some sym) ∧
    ∃ flag, findSymbolInner sym.name p (run s ops) = some (sym, flag) := by
  have hrun := run_homed ops s h hops
  by_cases hp : p = keywordPackage
  · subst p
    have hext := (hrun.home sym _ hhome hname).resolve_right fun hright => hright.1 rfl
    refine ⟨Or.inl ⟨hext, fun hint => (hrun.keyword _ sym hint).1 hhome⟩, .external, ?_⟩
    rw [findSymbolInner, hext]
  · rcases hrun.home sym p hhome hname with hext | ⟨-, hint⟩
    · have hnone := (hrun.disjoint p hp sym.name).resolve_left (by rw [hext]; simp)
      refine ⟨Or.inl ⟨hext, by rw [hnone]; simp⟩, .external, ?_⟩
      rw [findSymbolInner, hext]
    · have hnone := (hrun.disjoint p hp sym.name).resolve_right (by rw [hint]; simp)
      refine ⟨Or.inr ⟨hint, by rw [hnone]; simp⟩, .internal, ?_⟩
      rw [findSymbolInner, hnone]
      simp [hp, hint]

theorem fresh_homed : Homed fresh where
  live := Option.some_ne_none _
  home _ _ hhome := absurd hhome (by simp [fresh])
  disjoint _ _ _ := Or.inl rfl
  keyword n sym hsym := by cases hsym

def sharedSymbol : List Op :=
  [.intern "X" 2, .clExport ⟨0, "X"⟩ 2, .clImport ⟨0, "X"⟩ 3, .shadow "X" 4, .unintern ⟨0, "X"⟩ 3]

theorem home_packages_hold_their_symbols_sharedSymbol :
    (run fresh sharedSymbol).home ⟨0, "X"⟩ = some 2 ∧
    Xor (((run fresh sharedSymbol).packages 2).external.gethash "X" = some ⟨0, "X"⟩)
      (((run fresh sharedSymbol).packages 2).internal.gethash "X" = some ⟨0, "X"⟩) ∧
    ∃ flag, findSymbolInner "X" 2 (run fresh sharedSymbol) = some (⟨0, "X"⟩, flag) := by
  have hother : ∀ {q : ℕ} {P : Prop}, q ≠ keywordPackage → q = keywordPackage → P :=
    fun hne heq => absurd heq hne
  refine ⟨by decide, home_packages_hold_their_symbols fresh_homed sharedSymbol
    ⟨trivial, hother (by decide), hother (by decide), hother (by decide), trivial, trivial⟩
    ⟨0, "X"⟩ 2 (by decide) (by decide)⟩

/-- Two uninterned symbols of one name are imported into the keyword package, one after the
other; the second takes the place of the first. -/
def uninternedKeywords : List Op :=
  [.clImport ⟨0, "X"⟩ keywordPackage, .clImport ⟨1, "X"⟩ keywordPackage]

theorem keyword_package_loses_a_symbol :
    (run { fresh with nextSymbol := 2 } uninternedKeywords).home ⟨0, "X"⟩ = some keywordPackage ∧
    ((run { fresh with nextSymbol := 2 } uninternedKeywords).packages keywordPackage).name ≠ none ∧
    ((run { fresh with nextSymbol := 2 } uninternedKeywords).packages
      keywordPackage).external.gethash "X" ≠ some ⟨0, "X"⟩ ∧
    ((run { fresh with nextSymbol := 2 } uninternedKeywords).packages
      keywordPackage).internal.gethash "X" ≠ some ⟨0, "X"⟩ := by
  decide

end runs

end Packages
