import Ecl.PackageSystem

/-! Names of registered packages. Most operations leave them alone; creation and renaming give
out names only when a lookup finds no other bearer, and the lookup can be misled. -/
namespace PackageSystem

open Packages (State PackageError)

section results

variable {α β : Type} {P : System → Prop}

def Result.All (P : System → Prop) : Result α → Prop
  | .returns _ s => P s
  | .fails _ s => P s
  | .hangs _ => True

theorem all_bind {r : Result α} {f : α → System → Result β} (h : r.All P)
    (hf : ∀ a s, P s → (f a s).All P) : (r.bind f).All P := by
  cases r with
  | returns a s => exact hf a s h
  | fails e s => exact h
  | hangs s => trivial

theorem Result.All.mono {Q : System → Prop} {r : Result α} (h : r.All P) (hPQ : ∀ s, P s → Q s) :
    r.All Q := by
  cases r with
  | returns a s => exact hPQ s h
  | fails e s => exact hPQ s h
  | hangs s => trivial

theorem all_forget {r : Result α} : r.forget.All P ↔ r.All P := by
  cases r <;> rfl

theorem Result.All.state {r : Result α} (h : r.All P) {s : System} (hs : r.state = some s) : P s := by
  cases r with
  | returns a s' =>
    cases hs
    exact h
  | fails e s' =>
    cases hs
    exact h
  | hangs s' => cases hs

def System.withAnswers (s : System) (answers : List Bool) : System :=
  { s with core := { s.core with answers := answers } }

variable {e : SystemError} {s : System} {body : System → Result α}

theorem cePackageError_all (hP : ∀ a, P (s.withAnswers a))
    (hbody : ∀ a, (body (s.withAnswers a)).All P) : (cePackageError e s body).All P := by
  unfold cePackageError
  split
  · exact hbody _
  · exact hP _

theorem checkLock_all {p : ℕ} (hP : ∀ a, P (s.withAnswers a))
    (hbody : ∀ a, (body (s.withAnswers a)).All P) : (checkLock e p s body).All P := by
  unfold checkLock
  split
  · exact cePackageError_all hP hbody
  · exact hbody s.core.answers

theorem siCoerceToPackage_all {d : Designator} {body : ℕ → Result α} (hP : P s)
    (hbody : ∀ p, findPackage d s = some p → (body p).All P) : (siCoerceToPackage d s body).All P := by
  unfold siCoerceToPackage
  cases hd : findPackage d s with
  | none => exact hP
  | some p => exact hbody p hd

end results

theorem bears_iff {s : System} {n : String} {p : ℕ} :
    s.bears n p = true ↔ (s.core.packages p).name = some n ∨ n ∈ (s.names p).nicknames := by
  simp [System.bears]

theorem bears_congr {s s' : System} {p : ℕ}
    (hname : (s'.core.packages p).name = (s.core.packages p).name)
    (hnick : (s'.names p).nicknames = (s.names p).nicknames) (n : String) :
    s'.bears n p = s.bears n p := by
  rw [Bool.eq_iff_iff, bears_iff, bears_iff, hname, hnick]

structure Shrinks (s s' : System) : Prop where
  registered : ∀ p ∈ s'.registered, p ∈ s.registered
  bears : ∀ p ∈ s'.registered, ∀ n, s'.bears n p → s.bears n p
  pending : s'.pending.Sublist s.pending
  next : s'.nextPackage = s.nextPackage

theorem Shrinks.refl (s : System) : Shrinks s s :=
  ⟨fun _ h => h, fun _ _ _ h => h, List.Sublist.refl _, rfl⟩

theorem Shrinks.trans {s s' s'' : System} (h : Shrinks s s') (h' : Shrinks s' s'') : Shrinks s s'' where
  registered p hp := h.registered p (h'.registered p hp)
  bears p hp n hn := h.bears p (h'.registered p hp) n (h'.bears p hp n hn)
  pending := h'.pending.trans h.pending
  next := h'.next.trans h.next

theorem shrinks_of_same {s s' : System} (hreg : s'.registered = s.registered)
    (hname : ∀ p, (s'.core.packages p).name = (s.core.packages p).name)
    (hnick : ∀ p, (s'.names p).nicknames = (s.names p).nicknames) (hpending : s'.pending = s.pending)
    (hnext : s'.nextPackage = s.nextPackage) : Shrinks s s' where
  registered p hp := hreg ▸ hp
  bears p _ n hn := bears_congr (hname p) (hnick p) n ▸ hn
  pending := by rw [hpending]
  next := hnext

section core

variable {c : State}

theorem relink_name (p x : ℕ) (uses usedby : List ℕ) (q : ℕ) :
    ((c.relink p x uses usedby).packages q).name = (c.packages q).name := by
  rw [State.relink_packages]

def SameNames (c c' : State) : Prop := ∀ q, (c'.packages q).name = (c.packages q).name

theorem checkLock_names {e : PackageError} {p : ℕ} {body : State → Packages.Result}
    (hbody : ∀ c' : State, c'.packages = c.packages → SameNames c (body c').state) :
    SameNames c (Packages.checkLock e p c body).state := by
  unfold Packages.checkLock
  split
  · unfold Packages.cePackageError
    split
    · exact hbody _ rfl
    · exact fun q => rfl
  · exact hbody c rfl

theorem usePackage_names (x p : ℕ) (c : State) : SameNames c (Packages.usePackage x p c).state := by
  unfold Packages.usePackage
  split
  · exact fun q => rfl
  · split
    · exact fun q => rfl
    · split
      · exact fun q => rfl
      · split
        · exact fun q => rfl
        · apply checkLock_names
          intro c' hc
          split
          · exact fun q => by rw [Packages.Result.state_failed, hc]
          · intro q
            rw [Packages.Result.state_done, relink_name, hc]

theorem unusePackage_names (x p : ℕ) (c : State) : SameNames c (Packages.unusePackage x p c).state := by
  apply checkLock_names
  intro c' hc q
  rw [Packages.Result.state_done, relink_name, hc]

theorem unuseUses_names (p n : ℕ) : ∀ c : State, SameNames c (Packages.unuseUses p n c).state := by
  induction n with
  | zero => exact fun c q => rfl
  | succ n ih =>
    intro c q
    unfold Packages.unuseUses
    split
    · rfl
    · next x rest _ =>
      have hone := unusePackage_names x p c q
      split
      · next c' hdone =>
        rw [hdone] at hone
        exact (ih c' q).trans hone
      · exact hone

theorem unuseUsedby_names (p n : ℕ) : ∀ c : State, SameNames c (Packages.unuseUsedby p n c).state := by
  induction n with
  | zero => exact fun c q => rfl
  | succ n ih =>
    intro c q
    unfold Packages.unuseUsedby
    split
    · rfl
    · next x rest _ =>
      have hone := unusePackage_names p x c q
      split
      · next c' hdone =>
        rw [hdone] at hone
        exact (ih c' q).trans hone
      · exact hone

end core

section operations

variable {s : System}

theorem shrinks_withAnswers (s : System) (a : List Bool) : Shrinks s (s.withAnswers a) :=
  shrinks_of_same rfl (fun _ => rfl) (fun _ => rfl) rfl rfl

theorem ofCore_shrinks {r : Packages.Result} (h : SameNames s.core r.state) :
    (ofCore s r).All (Shrinks s) := by
  cases r with
  | done c | failed e c => exact shrinks_of_same rfl h (fun _ => rfl) rfl rfl

theorem modifyNames_nicknames (p : ℕ) (f : Names → Names)
    (hf : ∀ n, (f n).nicknames = n.nicknames) (q : ℕ) :
    ((s.modifyNames p f).names q).nicknames = (s.names q).nicknames := by
  by_cases hq : q = p
  · subst q
    simp only [System.modifyNames, Function.update_self, hf]
  · simp only [System.modifyNames, Function.update_of_ne hq]

theorem shrinks_modifyNames (p : ℕ) (f : Names → Names) (hf : ∀ n, (f n).nicknames = n.nicknames) :
    Shrinks s (s.modifyNames p f) :=
  shrinks_of_same rfl (fun _ => rfl) (modifyNames_nicknames p f hf) rfl rfl

theorem deleteCell_shrinks (cell : String × ℕ) (target : ℕ) (s : System) :
    Shrinks s (deleteCell cell target s) := by
  unfold deleteCell
  apply Shrinks.trans ?_ (shrinks_modifyNames _ _ ?_)
  · apply shrinks_modifyNames
    exact fun _ => rfl
  · exact fun _ => rfl

theorem removeNickname_shrinks (nickname : String) (target : ℕ) (s : System) :
    (removeNickname nickname target s).All (Shrinks s) := by
  apply checkLock_all (shrinks_withAnswers s)
  intro a
  split
  · exact shrinks_withAnswers s a
  · exact (shrinks_withAnswers s a).trans (deleteCell_shrinks _ _ _)

theorem removeOwn_shrinks (p n : ℕ) : ∀ s, (removeOwn p n s).All (Shrinks s) := by
  induction n with
  | zero => exact fun s => Shrinks.refl s
  | succ n ih =>
    intro s
    unfold removeOwn
    split
    · exact Shrinks.refl s
    · apply all_bind (removeNickname_shrinks _ p s)
      intro _ s' h
      exact (ih s').mono fun s'' h' => h.trans h'

theorem removeOthers_shrinks (p n : ℕ) : ∀ s, (removeOthers p n s).All (Shrinks s) := by
  induction n with
  | zero => exact fun s => trivial
  | succ n ih =>
    intro s
    unfold removeOthers
    split
    · exact Shrinks.refl s
    · split
      · trivial
      · apply all_bind (removeNickname_shrinks _ _ s)
        intro _ s' h
        exact (ih s').mono fun s'' h' => h.trans h'

theorem siAddPackageLocalNickname_shrinks (nickname : String) (actual target : Designator) (s : System) :
    (siAddPackageLocalNickname nickname actual target s).All (Shrinks s) := by
  apply siCoerceToPackage_all (Shrinks.refl s)
  intro x _
  apply siCoerceToPackage_all (Shrinks.refl s)
  intro p _
  apply checkLock_all (shrinks_withAnswers s)
  intro a
  have h := shrinks_withAnswers s a
  split
  · split
    · exact h
    · exact h
  · apply Shrinks.trans (h.trans ?_) (shrinks_modifyNames _ _ ?_)
    · apply shrinks_modifyNames
      exact fun _ => rfl
    · exact fun _ => rfl

theorem unregister_shrinks (p : ℕ) (s : System) : Shrinks s { s with
    core := Packages.clearPackage p s.core
    registered := s.registered.filter (· ≠ p) } where
  registered q hq := (List.mem_filter.mp hq).1
  bears q hq n hn := by
    obtain ⟨-, hne⟩ := List.mem_filter.mp hq
    have hqp : q ≠ p := by simpa using hne
    have hpack : (Packages.clearPackage p s.core).packages q = s.core.packages q := by
      simp only [Packages.clearPackage, State.modify, Function.update_of_ne hqp]
      rw [Packages.removeHomes_packages]
    rw [bears_iff] at hn ⊢
    rwa [hpack] at hn
  pending := List.Sublist.refl _
  next := rfl

theorem clDeletePackage_shrinks (d : Designator) (s : System) :
    (clDeletePackage d s).All (Shrinks s) := by
  unfold clDeletePackage
  cases findPackage d s with
  | none => exact cePackageError_all (shrinks_withAnswers s) (shrinks_withAnswers s)
  | some p =>
    apply checkLock_all (shrinks_withAnswers s)
    intro a
    have ha := shrinks_withAnswers s a
    split
    · exact ha
    · split
      · exact ha
      · apply all_bind ((ofCore_shrinks (unuseUses_names p _ _)).mono fun _ h => ha.trans h)
        intro _ s₁ h₁
        apply all_bind ((ofCore_shrinks (unuseUsedby_names p _ _)).mono fun _ h => h₁.trans h)
        intro _ s₂ h₂
        apply all_bind ((removeOwn_shrinks p _ s₂).mono fun _ h => h₂.trans h)
        intro _ s₃ h₃
        apply all_bind ((removeOthers_shrinks p _ s₃).mono fun _ h => h₃.trans h)
        intro _ s₄ h₄
        exact h₄.trans (unregister_shrinks p s₄)

theorem eclUsePackage_shrinks (x p : Designator) (s : System) : (eclUsePackage x p s).All (Shrinks s) := by
  apply siCoerceToPackage_all (Shrinks.refl s)
  intro x _
  apply siCoerceToPackage_all (Shrinks.refl s)
  intro p _
  exact ofCore_shrinks (usePackage_names x p s.core)

theorem eclUnusePackage_shrinks (x p : Designator) (s : System) :
    (eclUnusePackage x p s).All (Shrinks s) := by
  apply siCoerceToPackage_all (Shrinks.refl s)
  intro x _
  apply siCoerceToPackage_all (Shrinks.refl s)
  intro p _
  exact ofCore_shrinks (unusePackage_names x p s.core)

theorem siSelectPackage_shrinks (d : Designator) (s : System) : (siSelectPackage d s).All (Shrinks s) := by
  apply siCoerceToPackage_all (Shrinks.refl s)
  intro p _
  exact shrinks_of_same rfl (fun _ => rfl) (fun _ => rfl) rfl rfl

theorem returnExisting_shrinks (other : ℕ) (name : String) (s : System) :
    (returnExisting other name s).All (Shrinks s) :=
  cePackageError_all (shrinks_withAnswers s) (shrinks_withAnswers s)

end operations

end PackageSystem

namespace PackageSystem

open Packages (Package Symbol State present Inherits NoConflict)

variable {s s' : System} {x : ℕ} {name n : String} {nicknames : List String}

def packageToFill (name : String) (nicknames : List String) (s : System) : Package :=
  (findPendingPackage name nicknames s).elim (Packages.allocPackage name) fun pair =>
    s.core.packages pair.2

def Offers (P : ℕ → Package) (pack : Package) (uses : List ℕ) (n : String) (y : Symbol) : Prop :=
  ∃ u ∈ uses ++ pack.uses, (P u).external.gethash n = some y

def Agree (P : ℕ → Package) (pack : Package) (uses : List ℕ) (n : String) : Prop :=
  (∀ own, present pack n = some own → own ∉ pack.shadowings → ∀ y, Offers P pack uses n y → y = own) ∧
  (present pack n = none → ∀ y z, Offers P pack uses n y → Offers P pack uses n z → y = z)

theorem addNicknames_core (x : ℕ) (nicknames : List String) : ∀ s,
    (addNicknames x nicknames s).2.core = s.core ∧
    (addNicknames x nicknames s).2.registered = s.registered := by
  induction nicknames with
  | nil => exact fun s => ⟨rfl, rfl⟩
  | cons nick rest ih =>
    intro s
    unfold addNicknames
    split
    · exact ⟨rfl, rfl⟩
    · exact ih _

theorem linkLocalNicknames_core (x : ℕ) (locals : List (String × ℕ)) : ∀ s,
    (linkLocalNicknames x locals s).core = s.core := by
  induction locals with
  | nil => exact fun s => rfl
  | cons cell cells ih => exact fun s => ih _

def SameTables (pack pack' : Package) : Prop :=
  pack'.external = pack.external ∧ pack'.internal = pack.internal ∧
    pack'.shadowings = pack.shadowings

theorem SameTables.present {pack pack' : Package} (h : SameTables pack pack') (n : String) :
    present pack' n = present pack n := by
  rw [Packages.present, Packages.present, h.1, h.2.1]

theorem linkUses_packages (x : ℕ) (uses : List ℕ) : ∀ s,
    (∀ q, SameTables (s.core.packages q) ((linkUses x uses s).core.packages q)) ∧
    ∀ u, u ∈ ((linkUses x uses s).core.packages x).uses ↔
      u ∈ uses ++ (s.core.packages x).uses := by
  induction uses with
  | nil => exact fun s => ⟨fun q => ⟨rfl, rfl, rfl⟩, fun u => Iff.rfl⟩
  | cons y ys ih =>
    intro s
    unfold linkUses
    obtain ⟨htables, huses⟩ := ih { s with
      core := s.core.relink x y (y :: (s.core.packages x).uses) (x :: (s.core.packages y).usedby) }
    constructor
    · intro q
      have hone := s.core.relink_tables x y (y :: (s.core.packages x).uses)
        (x :: (s.core.packages y).usedby) q
      obtain ⟨hext, hint, hsh⟩ := htables q
      exact ⟨hext.trans hone.1, hint.trans hone.2.1, hsh.trans hone.2.2⟩
    · intro u
      rw [huses, Packages.State.relink_uses, if_pos rfl]
      simp only [List.mem_append, List.mem_cons]
      tauto

theorem noConflict_iff_agree {P P' : ℕ → Package} {uses : List ℕ}
    (htables : ∀ q, SameTables (P q) (P' q))
    (huses : ∀ u, u ∈ (P' x).uses ↔ u ∈ uses ++ (P x).uses) :
    NoConflict P' x n ↔ Agree P (P x) uses n := by
  have hin : ∀ y, Inherits P' x n y ↔ Offers P (P x) uses n y := by
    intro y
    refine exists_congr fun u => ?_
    rw [huses, (htables u).1]
  rw [NoConflict, Packages.Settled, (htables x).present, (htables x).2.2]
  simp only [hin]
  cases hown : present (P x) n with
  | none =>
    constructor
    · rintro (⟨own, hcase, -⟩ | ⟨-, hone⟩)
      · exact absurd hcase (Option.some_ne_none own).symm
      · exact ⟨fun own hsome => absurd (hown.symm.trans hsome) (by simp), fun _ => hone⟩
    · exact fun h => Or.inr ⟨rfl, h.2 hown⟩
  | some own =>
    constructor
    · rintro (⟨own', hcase, hok⟩ | ⟨hcase, -⟩)
      · obtain rfl := Option.some.inj hcase
        refine ⟨fun own' hsome hnot => ?_, fun hnone => absurd (hown.symm.trans hnone) (by simp)⟩
        obtain rfl := Option.some.inj (hown.symm.trans hsome)
        exact hok.resolve_right hnot
      · exact absurd hcase (Option.some_ne_none own)
    · intro h
      refine Or.inl ⟨own, rfl, ?_⟩
      by_cases hsh : own ∈ (P x).shadowings
      · exact Or.inr hsh
      · exact Or.inl (h.1 own hown hsh)

/-- A request that registers a package has filled the one that was announced, or a new one. -/
theorem eclMakePackage_made {useList : List Designator} {locals : List (String × Designator)}
    (h : eclMakePackage name nicknames useList locals s = .returns x s')
    (hmade : s'.registered = x :: s.registered) :
    ∃ uses s₁, processPackageList s useList = .ok uses ∧
      obtainPackage name nicknames s = .inr (x, s₁) ∧
      (∀ q, SameTables (s₁.core.packages q) (s'.core.packages q)) ∧
      ∀ u, u ∈ (s'.core.packages x).uses ↔ u ∈ uses ++ (s₁.core.packages x).uses := by
  have hexisting : ∀ {other : ℕ} {name : String} {s₁ : System}, s₁.registered = s.registered →
      returnExisting other name s₁ ≠ .returns x s' := by
    intro other name s₁ hreg heq
    have hall := returnExisting_shrinks other name s₁
    unfold returnExisting cePackageError at heq
    split at heq
    · cases heq
      exact absurd (congrArg List.length (hreg.symm.trans hmade)) (by simp)
    · cases heq
  unfold eclMakePackage at h
  split at h
  · cases h
  · next uses huses =>
    split at h
    · cases h
    · split at h
      · exact absurd h (hexisting rfl)
      · next y s₁ hobtain =>
        have hreg : s₁.registered = s.registered := by
          unfold obtainPackage at hobtain
          split at hobtain
          · cases hobtain
            rfl
          · split at hobtain
            · cases hobtain
            · cases hobtain
              rfl
        obtain ⟨hcore, haddreg⟩ := addNicknames_core y nicknames s₁
        unfold fillPackage at h
        split at h
        · next s₂ hadd =>
          rw [hadd] at haddreg
          exact absurd h (hexisting (haddreg.trans hreg))
        · next s₂ hadd =>
          rw [hadd] at hcore
          cases h
          refine ⟨uses, s₁, huses, hobtain, ?_⟩
          rw [← hcore]
          simp only [linkLocalNicknames_core]
          exact linkUses_packages x uses s₂

theorem obtainPackage_packages {s₁ : System} (h : obtainPackage name nicknames s = .inr (x, s₁)) :
    s₁.core.packages x = packageToFill name nicknames s ∧
    ∀ q, s₁.core.packages q = s.core.packages q ∨
      q = s.nextPackage ∧ (s₁.core.packages q).external = .empty := by
  unfold obtainPackage at h
  split at h
  · next pair hpending =>
    cases h
    exact ⟨by rw [packageToFill, hpending]; rfl, fun q => Or.inl rfl⟩
  · next hpending =>
    split at h
    · cases h
    · cases h
      have hself : (allocPackage name s).core.packages s.nextPackage = Packages.allocPackage name :=
        Function.update_self _ _ _
      refine ⟨by rw [packageToFill, hpending]; exact hself, fun q => ?_⟩
      by_cases hq : q = s.nextPackage
      · subst q
        exact Or.inr ⟨rfl, by rw [hself]; rfl⟩
      · exact Or.inl (Function.update_of_ne hq _ _)

/-- A package is made free of conflicts exactly when the packages of the use list agree on every
name, with one another and with the package that is filled. -/
theorem made_without_conflict_iff (name : String) (nicknames : List String)
    (useList : List Designator) (locals : List (String × Designator)) (s s' : System) (x : ℕ)
    (hnext : (s.core.packages s.nextPackage).external = .empty)
    (h : eclMakePackage name nicknames useList locals s = .returns x s')
    (hmade : s'.registered = x :: s.registered) :
    (∀ n, NoConflict s'.core.packages x n) ↔ ∃ uses, processPackageList s useList = .ok uses ∧
      ∀ n, Agree s.core.packages (packageToFill name nicknames s) uses n := by
  obtain ⟨uses, s₁, huses, hobtain, htables, hmem⟩ := eclMakePackage_made h hmade
  obtain ⟨hfill, hothers⟩ := obtainPackage_packages hobtain
  have hext : ∀ q, (s₁.core.packages q).external = (s.core.packages q).external := by
    intro q
    rcases hothers q with hsame | ⟨rfl, hempty⟩
    · rw [hsame]
    · rw [hempty, hnext]
  have hagree : ∀ n, NoConflict s'.core.packages x n ↔
      Agree s.core.packages (packageToFill name nicknames s) uses n := by
    intro n
    rw [noConflict_iff_agree htables hmem, hfill]
    simp only [Agree, Offers, hext]
  constructor
  · exact fun hfree => ⟨uses, huses, fun n => (hagree n).mp (hfree n)⟩
  · rintro ⟨uses', huses', hall⟩ n
    obtain rfl := Except.ok.inj (huses.symm.trans huses')
    exact (hagree n).mpr (hall n)

def exporters (a b : String) : System :=
  let s := (runOps booted [.makePackage "A" [] [] [], .makePackage "B" [] [] []]).getD booted
  let exports : List Packages.Op :=
    [.intern a 3, .clExport ⟨0, a⟩ 3, .intern b 4, .clExport ⟨1, b⟩ 4]
  { s with core := Packages.run s.core exports }

theorem made_without_conflict_iff_two_names : ∃ s' uses,
    eclMakePackage "C" [] [.name "A", .name "B"] [] (exporters "X" "Y") = .returns 5 s' ∧
    processPackageList (exporters "X" "Y") [.name "A", .name "B"] = .ok uses ∧
    ((∀ n, NoConflict s'.core.packages 5 n) ↔
      ∃ uses, processPackageList (exporters "X" "Y") [.name "A", .name "B"] = .ok uses ∧
        ∀ n, Agree (exporters "X" "Y").core.packages
          (packageToFill "C" [] (exporters "X" "Y")) uses n) :=
  ⟨_, [3, 4], rfl, rfl,
    made_without_conflict_iff "C" [] [.name "A", .name "B"] [] _ _ 5 rfl rfl rfl⟩

/-- USE-PACKAGE rejects the second package, and MAKE-PACKAGE takes both. -/
theorem make_package_lets_names_clash : ∃ s' s₁ s₂ s₃,
    eclMakePackage "C" [] [.name "A", .name "B"] [] (exporters "X" "X") = .returns 5 s' ∧
    ¬ NoConflict s'.core.packages 5 "X" ∧
    eclMakePackage "C" [] [] [] (exporters "X" "X") = .returns 5 s₁ ∧
    eclUsePackage (.name "A") (.name "C") s₁ = .returns () s₂ ∧
    eclUsePackage (.name "B") (.name "C") s₂ =
      .fails (.core (.useConflict 4 5 ⟨1, "X"⟩ ⟨0, "X"⟩)) s₃ := by
  refine ⟨_, _, _, _, rfl, ?_, rfl, rfl, rfl⟩
  rintro (⟨y, hy, -⟩ | ⟨-, hone⟩)
  · cases hy
  · have heq := hone ⟨0, "X"⟩ ⟨1, "X"⟩ ⟨3, by decide, by decide⟩ ⟨4, by decide, by decide⟩
    exact absurd heq (by decide)

end PackageSystem
