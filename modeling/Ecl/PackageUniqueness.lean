import Ecl.PackageNaming

/-! Each name has one bearer among the registered packages, in runs that keep clear of the two
ways in which the check for duplicates is misled. -/
namespace PackageSystem

open Packages (State)

variable {s s' : System} {x : ℕ} {n : String}

def UniqueNames (s : System) : Prop :=
  ∀ n, ∀ p ∈ s.registered, ∀ q ∈ s.registered, s.bears n p → s.bears n q → p = q

def System.Free (s : System) (x : ℕ) (n : String) : Prop :=
  ∀ q ∈ s.registered, s.bears n q → q = x

theorem UniqueNames.shrink (h : UniqueNames s) (hs : Shrinks s s') : UniqueNames s' := by
  intro n p hp q hq hnp hnq
  exact h n p (hs.registered p hp) q (hs.registered q hq) (hs.bears p hp n hnp) (hs.bears q hq n hnq)

theorem unique_of_free (h : UniqueNames s) (hreg : ∀ p ∈ s'.registered, p ≠ x → p ∈ s.registered)
    (hothers : ∀ q, q ≠ x → ∀ n, s'.bears n q = s.bears n q)
    (hown : ∀ n, s'.bears n x → s.Free x n) : UniqueNames s' := by
  have hside : ∀ n, ∀ q ∈ s'.registered, s'.bears n x → s'.bears n q → q = x := by
    intro n q hq hx hnq
    by_contra hne
    rw [hothers q hne] at hnq
    exact hne (hown n hx q (hreg q hq hne) hnq)
  intro n p hp q hq hnp hnq
  by_cases hpx : p = x
  · subst p
    exact (hside n q hq hnp hnq).symm
  · by_cases hqx : q = x
    · subst q
      exact hside n p hp hnq hnp
    · rw [hothers p hpx] at hnp
      rw [hothers q hqx] at hnq
      exact h n p (hreg p hp hpx) q (hreg q hq hqx) hnp hnq

section lookup

theorem free_of_not_found (h : eclFindPackageNolock n s = none) : s.Free x n := by
  intro q hq hn
  have hglobal : findGlobal n s = none := (Option.or_eq_none_iff.mp h).2
  exact absurd hn (List.find?_eq_none.mp hglobal q hq)

theorem free_of_denotes (h : UniqueNames s) (hfound : eclFindPackageNolock n s = some x)
    (hlocal : findLocalNicknamePackage n s = some x → s.Free x n) : s.Free x n := by
  rcases Option.or_eq_some_iff.mp hfound with hfound | ⟨-, hfound⟩
  · exact hlocal hfound
  · intro q hq hn
    exact h n q hq x (List.mem_of_find?_eq_some hfound) hn (List.find?_some hfound)

theorem findGlobal_perm (h : UniqueNames s) {order : List ℕ} (hperm : order.Perm s.registered) :
    findGlobal n { s with registered := order } = findGlobal n s := by
  have hbears : ({ s with registered := order } : System).bears = s.bears := rfl
  unfold findGlobal
  rw [hbears]
  cases hfound : s.registered.find? (s.bears n) with
  | none =>
    apply List.find?_eq_none.mpr
    intro q hq
    exact List.find?_eq_none.mp hfound q (hperm.mem_iff.mp hq)
  | some p =>
    have hp : p ∈ order := hperm.mem_iff.mpr (List.mem_of_find?_eq_some hfound)
    have hn : s.bears n p := List.find?_some hfound
    cases hagain : order.find? (s.bears n) with
    | none => exact absurd hn (List.find?_eq_none.mp hagain p hp)
    | some q =>
      have hq : q ∈ s.registered := hperm.mem_iff.mp (List.mem_of_find?_eq_some hagain)
      rw [h n q hq p (List.mem_of_find?_eq_some hfound) (List.find?_some hagain) hn]

end lookup

section make

structure Outside (x : ℕ) (s s' : System) : Prop where
  registered : s'.registered = s.registered
  bears : ∀ q, q ≠ x → ∀ n, s'.bears n q = s.bears n q

theorem Outside.trans {s'' : System} (h : Outside x s s') (h' : Outside x s' s'') :
    Outside x s s'' :=
  ⟨h'.registered.trans h.registered, fun q hq n => (h'.bears q hq n).trans (h.bears q hq n)⟩

theorem Outside.free (h : Outside x s s') : s'.Free x n ↔ s.Free x n := by
  simp only [System.Free, h.registered]
  refine forall₂_congr fun q hq => ?_
  by_cases hqx : q = x
  · simp [hqx]
  · rw [h.bears q hqx]

theorem outside_alloc (name : String) (s : System) :
    Outside s.nextPackage s (allocPackage name s) := by
  refine ⟨rfl, fun q hq => bears_congr ?_ ?_⟩
  · simp only [allocPackage, State.modify, Function.update_of_ne hq]
  · simp only [allocPackage, Function.update_of_ne hq]

theorem bears_alloc {name : String} (h : (allocPackage name s).bears n s.nextPackage) :
    n = name := by
  simp only [bears_iff, allocPackage, State.modify, Packages.allocPackage, noNames,
    Function.update_self, Option.some.injEq, List.not_mem_nil, or_false] at h
  exact h.symm

theorem outside_modifyNames (f : Names → Names) : Outside x s (s.modifyNames x f) := by
  refine ⟨rfl, fun q hq => bears_congr rfl ?_⟩
  simp only [System.modifyNames, Function.update_of_ne hq]

theorem addNicknames_spec (x : ℕ) (nicknames : List String) : ∀ s,
    Outside x s (addNicknames x nicknames s).2 ∧
    ∀ n, (addNicknames x nicknames s).2.bears n x → s.bears n x ∨ s.Free x n := by
  induction nicknames with
  | nil => exact fun s => ⟨⟨rfl, fun _ _ _ => rfl⟩, fun n hn => Or.inl hn⟩
  | cons nick rest ih =>
    intro s
    unfold addNicknames
    split
    · exact ⟨⟨rfl, fun _ _ _ => rfl⟩, fun n hn => Or.inl hn⟩
    · next hfree =>
      obtain ⟨hout, hown⟩ := ih (s.modifyNames x fun n => { n with nicknames := nick :: n.nicknames })
      have hone : Outside x s (s.modifyNames x fun n => { n with nicknames := nick :: n.nicknames }) :=
        outside_modifyNames _
      refine ⟨hone.trans hout, fun n hn => ?_⟩
      rcases hown n hn with hnow | hlater
      · by_cases heq : n = nick
        · subst n
          exact Or.inr (free_of_not_found hfree)
        · left
          simpa [bears_iff, System.modifyNames, heq] using hnow
      · exact Or.inr (hone.free.mp hlater)

theorem linkUses_bears (x : ℕ) (uses : List ℕ) : ∀ s,
    (linkUses x uses s).registered = s.registered ∧
    ∀ q n, (linkUses x uses s).bears n q = s.bears n q := by
  induction uses with
  | nil => exact fun s => ⟨rfl, fun _ _ => rfl⟩
  | cons y ys ih =>
    intro s
    unfold linkUses
    refine ⟨(ih _).1, fun q n => ((ih _).2 q n).trans ?_⟩
    apply bears_congr
    · exact relink_name _ _ _ _ q
    · rfl

theorem bears_modifyNames (p : ℕ) (f : Names → Names) (hf : ∀ n, (f n).nicknames = n.nicknames)
    (q : ℕ) (n : String) : (s.modifyNames p f).bears n q = s.bears n q := by
  apply bears_congr
  · rfl
  · exact modifyNames_nicknames p f hf q

theorem linkLocalNicknames_bears (x : ℕ) (locals : List (String × ℕ)) : ∀ s,
    (linkLocalNicknames x locals s).registered = s.registered ∧
    ∀ q n, (linkLocalNicknames x locals s).bears n q = s.bears n q := by
  induction locals with
  | nil => exact fun s => ⟨rfl, fun _ _ => rfl⟩
  | cons cell cells ih =>
    intro s
    unfold linkLocalNicknames
    refine ⟨(ih _).1, fun q n => ((ih _).2 q n).trans ?_⟩
    apply Eq.trans (bears_modifyNames _ _ ?_ q n)
    · apply bears_modifyNames
      exact fun _ => rfl
    · exact fun _ => rfl

theorem fillPackage_unique {s₁ : System} (h : UniqueNames s) (hout : Outside x s s₁)
    (hfree : ∀ n, s₁.bears n x → s.Free x n) (nicknames : List String) (uses : List ℕ)
    (locals : List (String × ℕ)) : (fillPackage x nicknames uses locals s₁).All UniqueNames := by
  obtain ⟨hnicks, hown⟩ := addNicknames_spec x nicknames s₁
  have hall : ∀ n, (addNicknames x nicknames s₁).2.bears n x → s.Free x n := by
    intro n hn
    rcases hown n hn with hnow | hlater
    · exact hfree n hnow
    · exact hout.free.mp hlater
  have hstill : UniqueNames (addNicknames x nicknames s₁).2 := by
    apply unique_of_free h _ (hout.trans hnicks).bears hall
    intro p hp _
    rwa [(hout.trans hnicks).registered] at hp
  unfold fillPackage
  split
  · next s₂ hadd =>
    rw [hadd] at hstill
    exact (returnExisting_shrinks _ _ _).mono fun s₃ => hstill.shrink
  · next s₂ hadd =>
    rw [hadd] at hall hnicks
    obtain ⟨hregUses, hbearsUses⟩ := linkUses_bears x uses s₂
    obtain ⟨hreg, hbears⟩ := linkLocalNicknames_bears x locals (linkUses x uses s₂)
    apply unique_of_free (x := x) h
    · intro p hp hne
      rcases List.mem_cons.mp hp with rfl | hp
      · exact absurd rfl hne
      · rwa [hreg, hregUses, (hout.trans hnicks).registered] at hp
    · intro q hq n
      exact (hbears q n).trans ((hbearsUses q n).trans ((hout.trans hnicks).bears q hq n))
    · intro n hn
      exact hall n ((hbearsUses x n).symm.trans ((hbears x n).symm.trans hn))

def AnnouncedFree (name : String) (nicknames : List String) (s : System) : Prop :=
  ∀ pair, findPendingPackage name nicknames s = some pair →
    ∀ n, s.bears n pair.2 → s.Free pair.2 n

theorem eclMakePackage_unique (h : UniqueNames s) {name : String} {nicknames : List String}
    (hannounced : AnnouncedFree name nicknames s) (useList : List Designator)
    (locals : List (String × Designator)) :
    (eclMakePackage name nicknames useList locals s).All UniqueNames := by
  unfold eclMakePackage
  split
  · exact h
  · split
    · exact h
    · split
      · exact (returnExisting_shrinks _ _ s).mono fun _ => h.shrink
      · next x s₁ hobtain =>
        unfold obtainPackage at hobtain
        split at hobtain
        · next pair hpending =>
          cases hobtain
          have hout : Outside pair.2 s { s with pending := s.pending.erase pair } :=
            ⟨rfl, fun _ _ _ => rfl⟩
          exact fillPackage_unique h hout (hannounced pair hpending) _ _ _
        · split at hobtain
          · cases hobtain
          · next hnone =>
            cases hobtain
            apply fillPackage_unique h (outside_alloc name s)
            intro n hn
            rw [bears_alloc hn]
            exact free_of_not_found hnone

end make

section rename

def NotShadowed (x : ℕ) (names : List String) (s : System) : Prop :=
  otherBearer x names s = none →
    ∀ n ∈ names, findLocalNicknamePackage n s = some x → s.Free x n

theorem free_of_no_other (h : UniqueNames s) {names : List String}
    (hnone : otherBearer x names s = none) (hshadow : NotShadowed x names s) (hn : n ∈ names) :
    s.Free x n := by
  have hself := List.find?_eq_none.mp hnone n hn
  cases hfound : eclFindPackageNolock n s with
  | none => exact free_of_not_found hfound
  | some y =>
    have hy : y = x := by simpa [hfound] using hself
    subst y
    exact free_of_denotes h hfound (hshadow hnone n hn)

theorem eclRenamePackage_unique (h : UniqueNames s) {d : Designator} {name : String}
    {nicknames : List String}
    (hshadow : ∀ x, findPackage d s = some x → NotShadowed x (name :: nicknames) s) :
    (eclRenamePackage d name nicknames s).All UniqueNames := by
  apply siCoerceToPackage_all h
  intro x hx
  have hlocked := fun a => h.shrink (shrinks_withAnswers s a)
  apply checkLock_all hlocked
  intro a
  split
  · exact hlocked a
  · next hnone =>
    refine unique_of_free (x := x) h (fun p hp _ => hp) (fun q hq => bears_congr ?_ ?_) ?_
    · simp only [System.withAnswers, State.modify, Function.update_of_ne hq]
    · simp only [System.withAnswers, System.modifyNames, Function.update_of_ne hq]
    · intro n hn
      apply free_of_no_other h hnone (hshadow x hx)
      simp only [bears_iff, System.withAnswers, System.modifyNames, State.modify,
        Function.update_self, Option.some.injEq] at hn
      rcases hn with rfl | hn
      · exact List.mem_cons_self
      · exact List.mem_cons_of_mem name hn

end rename

def KeepsNames (s : System) : Op → Prop
  | .makePackage name nicknames _ _ => AnnouncedFree name nicknames s
  | .renamePackage d name nicknames =>
    ∀ x, findPackage d s = some x → NotShadowed x (name :: nicknames) s
  | _ => True

theorem packageToBeCreated_unique (h : UniqueNames s) (name : String) :
    (packageToBeCreated name s).All UniqueNames := by
  unfold packageToBeCreated
  split
  · exact h
  · next hnew =>
    have hnone : eclFindPackageNolock name s = none := by
      simp only [Bool.or_eq_true, not_or, Option.not_isSome_iff_eq_none] at hnew
      exact hnew.1
    refine unique_of_free (x := s.nextPackage) h (fun p hp _ => hp) ?_ ?_
    · exact (outside_alloc name s).bears
    · intro n hn
      rw [bears_alloc hn]
      exact free_of_not_found hnone

theorem step_unique (h : UniqueNames s) (op : Op) (hop : KeepsNames s op) :
    (step s op).All UniqueNames := by
  have hshrink : ∀ {r : Result Unit}, r.All (Shrinks s) → r.All UniqueNames :=
    fun hr => hr.mono fun _ => h.shrink
  cases op with
  | makePackage name nicknames useList locals =>
    exact all_forget.mpr (eclMakePackage_unique h hop useList locals)
  | renamePackage x name nicknames => exact all_forget.mpr (eclRenamePackage_unique h hop)
  | deletePackage d => exact hshrink (all_forget.mpr (clDeletePackage_shrinks d s))
  | addLocalNickname nickname actual target =>
    exact hshrink (all_forget.mpr (siAddPackageLocalNickname_shrinks nickname actual target s))
  | removeLocalNickname nickname target =>
    exact hshrink (all_forget.mpr (siCoerceToPackage_all (Shrinks.refl s) fun p _ =>
      removeNickname_shrinks nickname p s))
  | usePackage x p => exact hshrink (eclUsePackage_shrinks x p s)
  | unusePackage x p => exact hshrink (eclUnusePackage_shrinks x p s)
  | selectPackage d => exact hshrink (siSelectPackage_shrinks d s)
  | packageToBeCreated name => exact packageToBeCreated_unique h name

theorem run_unique (h : UniqueNames s) (hrun : Run KeepsNames s s') : UniqueNames s' := by
  induction hrun with
  | start => exact h
  | step _ hop hstep ih => exact (step_unique ih _ hop).state hstep

theorem booted_unique : UniqueNames booted := by
  have hdistinct : (booted.registered.map fun p => (booted.core.packages p).name).Nodup := by decide
  intro n p hp q hq hnp hnq
  have hname : ∀ p, booted.bears n p → (booted.core.packages p).name = some n :=
    fun p hn => (bears_iff.mp hn).resolve_right List.not_mem_nil
  exact List.inj_on_of_nodup_map hdistinct hp hq ((hname p hnp).trans (hname q hnq).symm)

/-- Each name has one bearer, so the lookup does not depend on the order of the packages. -/
theorem names_stay_unique (h : UniqueNames s) (hrun : Run KeepsNames s s') :
    UniqueNames s' ∧ ∀ (order : List ℕ) (n : String), order.Perm s'.registered →
      findGlobal n { s' with registered := order } = findGlobal n s' :=
  ⟨run_unique h hrun, fun _ _ hperm => findGlobal_perm (run_unique h hrun) hperm⟩

/-- A package is renamed while the current package has a local nickname for it. -/
def plainRename : List Op :=
  [.makePackage "A" [] [] [], .addLocalNickname "B" (.name "A") (.package 2),
    .renamePackage (.name "A") "C" ["D"]]

theorem names_stay_unique_plainRename : ∃ s', runOps booted plainRename = some s' ∧
    UniqueNames s' ∧ ∀ (order : List ℕ) (n : String), order.Perm s'.registered →
      findGlobal n { s' with registered := order } = findGlobal n s' := by
  refine ⟨_, rfl, names_stay_unique booted_unique
    (((Run.start.step (?_ : KeepsNames _ plainRename[0]) rfl).step
      (?_ : KeepsNames _ plainRename[1]) rfl).step (?_ : KeepsNames _ plainRename[2]) rfl)⟩
  · intro pair hpair
    cases hpair
  · trivial
  · intro x hx _ n hn hlocal
    rcases List.mem_pair.mp hn with rfl | rfl <;> cases hlocal

/-- The current package calls A by the local nickname "B", and there is a package B: the
lookup of "B" finds A, so A is renamed to "B" too. -/
def misledRename : List Op :=
  [.makePackage "A" [] [] [], .makePackage "B" [] [] [],
    .addLocalNickname "B" (.name "A") (.package 2), .renamePackage (.name "A") "B" []]

theorem rename_takes_a_taken_name :
    ∃ s', Run (fun _ _ => True) booted s' ∧ ¬ UniqueNames s' := by
  refine ⟨_, run_of_ops misledRename .start rfl, fun h => ?_⟩
  exact absurd (h "B" 3 (by decide) 4 (by decide) (by decide) (by decide)) (by decide)

end PackageSystem
