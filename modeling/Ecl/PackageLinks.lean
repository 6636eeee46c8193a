import Ecl.PackageNaming

/-! The two directions of the references between packages: use lists against users, local
nicknames against the packages nicknamed. -/
namespace PackageSystem

open Packages (State)

section returns

variable {α β : Type} {s s' : System} {a : α}

theorem checkLock_returns {e : SystemError} {p : ℕ} {body : System → Result α}
    (h : checkLock e p s body = .returns a s') :
    ∃ answers, body (s.withAnswers answers) = .returns a s' := by
  unfold checkLock cePackageError at h
  split at h
  · split at h
    · exact ⟨_, h⟩
    · cases h
  · exact ⟨s.core.answers, h⟩

theorem siCoerceToPackage_returns {d : Designator} {body : ℕ → Result α}
    (h : siCoerceToPackage d s body = .returns a s') :
    ∃ p, findPackage d s = some p ∧ body p = .returns a s' := by
  unfold siCoerceToPackage at h
  cases hd : findPackage d s with
  | none =>
    rw [hd] at h
    cases h
  | some p =>
    rw [hd] at h
    exact ⟨p, rfl, h⟩

theorem bind_returns {r : Result α} {f : α → System → Result β} {b : β}
    (h : r.bind f = .returns b s') : ∃ a s₁, r = .returns a s₁ ∧ f a s₁ = .returns b s' := by
  cases r with
  | returns a s₁ => exact ⟨a, s₁, rfl, h⟩
  | fails e s₁ => cases h
  | hangs s₁ => cases h

theorem ofCore_returns {r : Packages.Result} (h : ofCore s r = .returns () s') :
    ∃ c, r = .done c ∧ s' = { s with core := c } := by
  cases r with
  | done c =>
    cases h
    exact ⟨c, rfl, rfl⟩
  | failed e c => cases h

end returns

section views

variable (s : System) (p q : ℕ)

def System.uses : List ℕ := (s.core.packages p).uses

def System.usedby : List ℕ := (s.core.packages p).usedby

def System.localNicknames : List (String × ℕ) := (s.names p).localNicknames

def System.nicknamedby : List ℕ := (s.names p).nicknamedby

def System.Deleted : Prop := (s.core.packages p).name = none

def System.Nicknames : Prop := ∃ cell ∈ s.localNicknames p, cell.2 = q

end views

/-- The two directions of all references agree, and no reference leads from or to a deleted
package. -/
structure Linked (s : System) : Prop where
  used : ∀ p q, q ∈ s.uses p ↔ p ∈ s.usedby q
  nicknamed : ∀ p q, p ∈ s.nicknamedby q ↔ s.Nicknames p q
  apart : ∀ p, s.Deleted p → s.uses p = [] ∧ s.usedby p = [] ∧ s.localNicknames p = [] ∧
    s.nicknamedby p = []
  unmade : ∀ p, s.nextPackage ≤ p → s.Deleted p

variable {s s' : System} {p q x : ℕ}

theorem Linked.same (h : Linked s) (huses : ∀ q, s'.uses q = s.uses q)
    (husedby : ∀ q, s'.usedby q = s.usedby q)
    (hlocal : ∀ q, s'.localNicknames q = s.localNicknames q)
    (hnick : ∀ q, s'.nicknamedby q = s.nicknamedby q) (hdel : ∀ q, s'.Deleted q → s.Deleted q)
    (hunmade : ∀ q, s'.nextPackage ≤ q → s'.Deleted q) : Linked s' where
  used p q := by rw [huses, husedby, h.used]
  nicknamed p q := by rw [hnick, System.Nicknames, hlocal, h.nicknamed, System.Nicknames]
  apart p hp := by
    rw [huses, husedby, hlocal, hnick]
    exact h.apart p (hdel p hp)
  unmade := hunmade

section uses

theorem Linked.core (h : Linked s) {c : State} (hnames : SameNames s.core c)
    (hused : ∀ p q, q ∈ (c.packages p).uses ↔ p ∈ (c.packages q).usedby)
    (hapart : ∀ p, s.Deleted p → (c.packages p).uses = [] ∧ (c.packages p).usedby = []) :
    Linked { s with core := c } where
  used := hused
  nicknamed := h.nicknamed
  apart p hp := by
    have hdel : s.Deleted p := (hnames p).symm.trans hp
    exact ⟨(hapart p hdel).1, (hapart p hdel).2, (h.apart p hdel).2.2⟩
  unmade p hp := (hnames p).trans (h.unmade p hp)

theorem Linked.add_use (h : Linked s) {c : State} (hnames : SameNames s.core c)
    (huses : ∀ q, (c.packages q).uses = if q = p then x :: s.uses p else s.uses q)
    (husedby : ∀ q, (c.packages q).usedby = if q = x then p :: s.usedby x else s.usedby q)
    (hp : ¬ s.Deleted p) (hx : ¬ s.Deleted x) : Linked { s with core := c } := by
  apply h.core hnames
  · intro q u
    have hold := h.used q u
    rw [huses, husedby]
    by_cases hq : q = p <;> by_cases hu : u = x <;> simp_all
  · intro q hq
    have hqp : q ≠ p := fun heq => hp (heq ▸ hq)
    have hqx : q ≠ x := fun heq => hx (heq ▸ hq)
    rw [huses, husedby, if_neg hqp, if_neg hqx]
    exact ⟨(h.apart q hq).1, (h.apart q hq).2.1⟩

theorem Linked.drop_use (h : Linked s) {c : State} (hnames : SameNames s.core c)
    (huses : ∀ q, (c.packages q).uses =
      if q = p then (s.uses p).filter (· ≠ x) else s.uses q)
    (husedby : ∀ q, (c.packages q).usedby =
      if q = x then (s.usedby x).filter (· ≠ p) else s.usedby q) :
    Linked { s with core := c } := by
  apply h.core hnames
  · intro q u
    have hold := h.used q u
    rw [huses, husedby]
    by_cases hq : q = p <;> by_cases hu : u = x <;> simp_all
  · intro q hq
    obtain ⟨hnone, hnone', -⟩ := h.apart q hq
    rw [huses, husedby]
    constructor
    · split
      · next heq => rw [← heq, hnone, List.filter_nil]
      · exact hnone
    · split
      · next heq => rw [← heq, hnone', List.filter_nil]
      · exact hnone'

theorem usePackage_done {c c' : State} (h : Packages.usePackage x p c = .done c') :
    c'.packages = c.packages ∨
    (∀ q, (c'.packages q).uses =
      if q = p then x :: (c.packages p).uses else (c.packages q).uses) ∧
    ∀ q, (c'.packages q).usedby =
      if q = x then p :: (c.packages x).usedby else (c.packages q).usedby := by
  unfold Packages.usePackage at h
  split at h
  · cases h
  · split at h
    · cases h
      exact Or.inl rfl
    · split at h
      · cases h
        exact Or.inl rfl
      · split at h
        · cases h
        · obtain ⟨c₁, hc, hbody⟩ := Packages.checkLock_done h
          split at hbody
          · cases hbody
          · cases hbody
            rw [← hc]
            exact Or.inr ⟨c₁.relink_uses p x _ _, c₁.relink_usedby p x _ _⟩

theorem eclUsePackage_linked (h : Linked s) {d d' : Designator}
    (hd : ∀ q, findPackage d s = some q → ¬ s.Deleted q)
    (hd' : ∀ q, findPackage d' s = some q → ¬ s.Deleted q)
    (hdone : eclUsePackage d d' s = .returns () s') : Linked s' := by
  obtain ⟨x, hx, hrest⟩ := siCoerceToPackage_returns hdone
  obtain ⟨p, hp, hrest⟩ := siCoerceToPackage_returns hrest
  obtain ⟨c, hcore, rfl⟩ := ofCore_returns hrest
  have hnames : SameNames s.core c := by
    have hall := usePackage_names x p s.core
    rwa [hcore] at hall
  rcases usePackage_done hcore with hsame | ⟨huses, husedby⟩
  · apply h.core hnames
    · intro q u
      rw [hsame]
      exact h.used q u
    · intro q hq
      rw [hsame]
      exact ⟨(h.apart q hq).1, (h.apart q hq).2.1⟩
  · exact h.add_use hnames huses husedby (hd' p hp) (hd x hx)

theorem unusePackage_linked (h : Linked s) {c : State}
    (hdone : Packages.unusePackage x p s.core = .done c) : Linked { s with core := c } := by
  have hnames : SameNames s.core c := by
    have hall := unusePackage_names x p s.core
    rwa [hdone] at hall
  have hlists := Packages.unusePackage_done hdone
  exact h.drop_use hnames (fun q => (hlists q).1) fun q => (hlists q).2

theorem eclUnusePackage_linked (h : Linked s) {d d' : Designator}
    (hdone : eclUnusePackage d d' s = .returns () s') : Linked s' := by
  obtain ⟨x, hx, hrest⟩ := siCoerceToPackage_returns hdone
  obtain ⟨p, hp, hrest⟩ := siCoerceToPackage_returns hrest
  obtain ⟨c, hcore, rfl⟩ := ofCore_returns hrest
  exact unusePackage_linked h hcore

end uses

section nicknames

def addCell (cell : String × ℕ) (target : ℕ) (s : System) : System :=
  (s.modifyNames target fun n => { n with localNicknames := cell :: n.localNicknames }).modifyNames
    cell.2 fun n => { n with nicknamedby := target :: n.nicknamedby }

theorem modifyNames_names (p : ℕ) (f : Names → Names) (q : ℕ) :
    (s.modifyNames p f).names q = if q = p then f (s.names p) else s.names q :=
  Function.update_apply _ _ _ _

theorem addCell_localNicknames (cell : String × ℕ) (target : ℕ) (q : ℕ) :
    (addCell cell target s).localNicknames q =
      if q = target then cell :: s.localNicknames target else s.localNicknames q := by
  simp only [System.localNicknames, addCell, modifyNames_names]
  by_cases hc : q = cell.2 <;> by_cases ht : q = target <;> simp_all

theorem addCell_nicknamedby (cell : String × ℕ) (target : ℕ) (q : ℕ) :
    (addCell cell target s).nicknamedby q =
      if q = cell.2 then target :: s.nicknamedby cell.2 else s.nicknamedby q := by
  simp only [System.nicknamedby, addCell, modifyNames_names]
  by_cases hc : q = cell.2 <;> by_cases ht : cell.2 = target <;> by_cases hq : q = target <;>
    simp_all

theorem deleteCell_localNicknames (cell : String × ℕ) (target : ℕ) (q : ℕ) :
    (deleteCell cell target s).localNicknames q =
      if q = target then (s.localNicknames target).erase cell else s.localNicknames q := by
  simp only [System.localNicknames, deleteCell, modifyNames_names]
  by_cases hc : q = cell.2 <;> by_cases ht : q = target <;> simp_all

theorem deleteCell_nicknamedby (cell : String × ℕ) (target : ℕ) (q : ℕ) :
    (deleteCell cell target s).nicknamedby q =
      if q = cell.2 then (s.nicknamedby cell.2).filter (· ≠ target) else s.nicknamedby q := by
  simp only [System.nicknamedby, deleteCell, modifyNames_names]
  by_cases hc : q = cell.2 <;> by_cases ht : cell.2 = target <;> by_cases hq : q = target <;>
    simp_all

theorem Linked.addCell (h : Linked s) {cell : String × ℕ} {target : ℕ}
    (htarget : ¬ s.Deleted target) (hactual : ¬ s.Deleted cell.2) : Linked (addCell cell target s) where
  used := h.used
  nicknamed p q := by
    have hold := h.nicknamed p q
    simp only [System.Nicknames, addCell_localNicknames, addCell_nicknamedby] at hold ⊢
    by_cases hp : p = target <;> by_cases hq : q = cell.2 <;> simp_all [eq_comm]
  apart p hp := by
    have hpt : p ≠ target := fun heq => htarget (heq ▸ hp)
    have hpc : p ≠ cell.2 := fun heq => hactual (heq ▸ hp)
    rw [addCell_localNicknames, addCell_nicknamedby, if_neg hpt, if_neg hpc]
    exact h.apart p hp
  unmade := h.unmade

def Backed (s : System) : Prop := ∀ p q, p ∈ s.nicknamedby q → s.Nicknames p q

theorem Backed.deleteCell (h : Backed s) (cell : String × ℕ) (target : ℕ) :
    Backed (deleteCell cell target s) := by
  intro p q hp
  rw [deleteCell_nicknamedby] at hp
  have hold : p ∈ s.nicknamedby q ∧ (q = cell.2 → p ≠ target) := by
    split at hp
    · next hq =>
      obtain ⟨hmem, hne⟩ := List.mem_filter.mp hp
      exact ⟨hq ▸ hmem, fun _ => by simpa using hne⟩
    · next hq => exact ⟨hp, fun heq => absurd heq hq⟩
  obtain ⟨c, hc, hcq⟩ := h p q hold.1
  refine ⟨c, ?_, hcq⟩
  rw [deleteCell_localNicknames]
  split
  · next heq =>
    subst p
    have hne : c ≠ cell := fun hcc => hold.2 (hcq ▸ hcc ▸ rfl) rfl
    exact (List.mem_erase_of_ne hne).mpr hc
  · exact hc

theorem deleteCell_forward {cell : String × ℕ} {target : ℕ} (hp : p ≠ target)
    (h : ∀ c ∈ s.localNicknames p, p ∈ s.nicknamedby c.2) :
    ∀ c ∈ (deleteCell cell target s).localNicknames p,
      p ∈ (deleteCell cell target s).nicknamedby c.2 := by
  intro c hc
  rw [deleteCell_localNicknames, if_neg hp] at hc
  rw [deleteCell_nicknamedby]
  split
  · next heq => exact List.mem_filter.mpr ⟨heq ▸ h c hc, by simpa using hp⟩
  · exact h c hc

theorem nicknamed_of (hback : Backed s)
    (hfor : ∀ p, ∀ c ∈ s.localNicknames p, p ∈ s.nicknamedby c.2) (p q : ℕ) :
    p ∈ s.nicknamedby q ↔ s.Nicknames p q := by
  constructor
  · exact hback p q
  · rintro ⟨c, hc, rfl⟩
    exact hfor p c hc

theorem Linked.forward (h : Linked s) (p : ℕ) : ∀ c ∈ s.localNicknames p, p ∈ s.nicknamedby c.2 :=
  fun c hc => (h.nicknamed p c.2).mpr ⟨c, hc, rfl⟩

theorem Linked.backed (h : Linked s) : Backed s := fun p q => (h.nicknamed p q).mp

structure Fewer (s s' : System) : Prop where
  core : s'.core.packages = s.core.packages
  next : s'.nextPackage = s.nextPackage
  registered : s'.registered = s.registered
  locals : ∀ q, s'.localNicknames q ⊆ s.localNicknames q
  nicknamedby : ∀ q, s'.nicknamedby q ⊆ s.nicknamedby q

theorem Fewer.refl (s : System) : Fewer s s :=
  ⟨rfl, rfl, rfl, fun _ => List.Subset.refl _, fun _ => List.Subset.refl _⟩

theorem Fewer.trans {s'' : System} (h : Fewer s s') (h' : Fewer s' s'') : Fewer s s'' where
  core := h'.core.trans h.core
  next := h'.next.trans h.next
  registered := h'.registered.trans h.registered
  locals q := List.Subset.trans (h'.locals q) (h.locals q)
  nicknamedby q := List.Subset.trans (h'.nicknamedby q) (h.nicknamedby q)

theorem fewer_withAnswers (s : System) (a : List Bool) : Fewer s (s.withAnswers a) :=
  ⟨rfl, rfl, rfl, fun _ => List.Subset.refl _, fun _ => List.Subset.refl _⟩

theorem fewer_deleteCell (cell : String × ℕ) (target : ℕ) (s : System) :
    Fewer s (deleteCell cell target s) := by
  refine ⟨rfl, rfl, rfl, fun q => ?_, fun q => ?_⟩
  · rw [deleteCell_localNicknames]
    split
    · next heq => exact heq ▸ List.erase_subset
    · exact List.Subset.refl _
  · rw [deleteCell_nicknamedby]
    split
    · next heq => exact heq ▸ List.filter_subset_self _
    · exact List.Subset.refl _

theorem Linked.fewer (h : Linked s) (hf : Fewer s s') (hback : Backed s')
    (hfor : ∀ p, ∀ c ∈ s'.localNicknames p, p ∈ s'.nicknamedby c.2) : Linked s' where
  used p q := by
    rw [System.uses, System.usedby, hf.core]
    exact h.used p q
  nicknamed := nicknamed_of hback hfor
  apart p hp := by
    have hdel : s.Deleted p := by
      rwa [System.Deleted, hf.core] at hp
    obtain ⟨huses, husedby, hlocal, hnick⟩ := h.apart p hdel
    rw [System.uses, System.usedby, hf.core]
    exact ⟨huses, husedby, List.subset_nil.mp (hlocal ▸ hf.locals p),
      List.subset_nil.mp (hnick ▸ hf.nicknamedby p)⟩
  unmade p hp := by
    rw [System.Deleted, hf.core]
    exact h.unmade p (hf.next ▸ hp)

theorem removeNickname_returns {nickname : String} {target : ℕ} {b : Bool}
    (h : removeNickname nickname target s = .returns b s') : ∃ a,
    ((s.localNicknames target).find? (fun cell => cell.1 = nickname) = none ∧
      s' = s.withAnswers a) ∨
    ∃ cell, (s.localNicknames target).find? (fun cell => cell.1 = nickname) = some cell ∧
      s' = deleteCell cell target (s.withAnswers a) := by
  obtain ⟨a, hbody⟩ := checkLock_returns h
  refine ⟨a, ?_⟩
  split at hbody
  · next hnone =>
    cases hbody
    exact Or.inl ⟨hnone, rfl⟩
  · next cell hcell =>
    cases hbody
    exact Or.inr ⟨cell, hcell, rfl⟩

theorem Linked.withAnswers (h : Linked s) (a : List Bool) : Linked (s.withAnswers a) :=
  ⟨h.used, h.nicknamed, h.apart, h.unmade⟩

def SoleNickname (nickname : String) (target : ℕ) (s : System) : Prop :=
  ∀ cell, (s.localNicknames target).find? (fun cell => cell.1 = nickname) = some cell →
    ∀ c ∈ (s.localNicknames target).erase cell, c.2 ≠ cell.2

theorem siRemovePackageLocalNickname_linked (h : Linked s) {nickname : String} {d : Designator}
    (hsole : ∀ q, findPackage d s = some q → SoleNickname nickname q s) {b : Bool}
    (hdone : siRemovePackageLocalNickname nickname d s = .returns b s') : Linked s' := by
  obtain ⟨target, htarget, hrest⟩ := siCoerceToPackage_returns hdone
  obtain ⟨a, ⟨-, rfl⟩ | ⟨cell, hcell, rfl⟩⟩ := removeNickname_returns hrest
  · exact h.withAnswers a
  · have ha := h.withAnswers a
    apply ha.fewer (fewer_deleteCell cell target _) (ha.backed.deleteCell cell target)
    intro p
    by_cases hp : p = target
    · subst p
      intro c hc
      rw [deleteCell_localNicknames, if_pos rfl] at hc
      have hne : c.2 ≠ cell.2 := hsole target htarget cell hcell c hc
      rw [deleteCell_nicknamedby, if_neg hne]
      exact ha.forward target c (List.mem_of_mem_erase hc)
    · exact deleteCell_forward hp (ha.forward p)

theorem siAddPackageLocalNickname_linked (h : Linked s) {nickname : String}
    {actual target : Designator} (hactual : ∀ q, findPackage actual s = some q → ¬ s.Deleted q)
    (htarget : ∀ q, findPackage target s = some q → ¬ s.Deleted q) {y : ℕ}
    (hdone : siAddPackageLocalNickname nickname actual target s = .returns y s') : Linked s' := by
  obtain ⟨x, hx, hrest⟩ := siCoerceToPackage_returns hdone
  obtain ⟨p, hp, hrest⟩ := siCoerceToPackage_returns hrest
  obtain ⟨a, hbody⟩ := checkLock_returns hrest
  have ha := h.withAnswers a
  split at hbody
  · split at hbody
    · cases hbody
    · cases hbody
      exact ha
  · cases hbody
    have hcell : ¬ (s.withAnswers a).Deleted ((nickname, x) : String × ℕ).2 := hactual x hx
    exact ha.addCell (htarget _ hp) hcell

end nicknames

section make

theorem linkUses_linked (hx : ¬ s.Deleted x) (uses : List ℕ) : ∀ s', Linked s' →
    (∀ y, s'.Deleted y → s.Deleted y) → (∀ y ∈ uses, ¬ s.Deleted y) →
    Linked (linkUses x uses s') ∧ ∀ y, (linkUses x uses s').Deleted y → s.Deleted y := by
  induction uses with
  | nil => exact fun s' h hdel _ => ⟨h, hdel⟩
  | cons y ys ih =>
    intro s' h hdel hmade
    have hnames : SameNames s'.core
        (s'.core.relink x y (y :: s'.uses x) (x :: s'.usedby y)) := relink_name x y _ _
    apply ih
    · apply h.add_use hnames
      · exact s'.core.relink_uses x y _ _
      · exact s'.core.relink_usedby x y _ _
      · exact fun hd => hx (hdel x hd)
      · exact fun hd => hmade y List.mem_cons_self (hdel y hd)
    · intro q hq
      exact hdel q ((hnames q).symm.trans hq)
    · exact fun q hq => hmade q (List.mem_cons_of_mem y hq)

theorem linkLocalNicknames_linked (hx : ¬ s.Deleted x) (locals : List (String × ℕ)) : ∀ s',
    Linked s' → (∀ y, s'.Deleted y → s.Deleted y) → (∀ cell ∈ locals, ¬ s.Deleted cell.2) →
    Linked (linkLocalNicknames x locals s') := by
  induction locals with
  | nil => exact fun s' h _ _ => h
  | cons cell cells ih =>
    intro s' h hdel hmade
    have hcell : ¬ s'.Deleted cell.2 := fun hd => hmade cell List.mem_cons_self (hdel _ hd)
    apply ih (PackageSystem.addCell cell x s')
    · exact h.addCell (fun hd => hx (hdel x hd)) hcell
    · exact hdel
    · exact fun c hc => hmade c (List.mem_cons_of_mem cell hc)

theorem addNicknames_linked (nicknames : List String) : ∀ s, Linked s →
    Linked (addNicknames x nicknames s).2 := by
  induction nicknames with
  | nil => exact fun s h => h
  | cons nick rest ih =>
    intro s h
    unfold addNicknames
    split
    · exact h
    · apply ih
      apply h.same
      · exact fun q => rfl
      · exact fun q => rfl
      · intro q
        simp only [System.localNicknames, modifyNames_names]
        split <;> simp_all
      · intro q
        simp only [System.nicknamedby, modifyNames_names]
        split <;> simp_all
      · exact fun q hq => hq
      · exact h.unmade

theorem allocPackage_linked (h : Linked s) (name : String) : Linked (allocPackage name s) := by
  obtain ⟨huses, husedby, hlocal, hnick⟩ := h.apart s.nextPackage (h.unmade _ (Nat.le_refl _))
  have hpack : ∀ q, (allocPackage name s).core.packages q =
      if q = s.nextPackage then Packages.allocPackage name else s.core.packages q :=
    fun q => Function.update_apply _ _ _ _
  have hnames : ∀ q, (allocPackage name s).names q =
      if q = s.nextPackage then noNames else s.names q := fun q => Function.update_apply _ _ _ _
  apply h.same
  · intro q
    rw [System.uses, hpack]
    split
    · next hq => exact hq ▸ huses.symm
    · rfl
  · intro q
    rw [System.usedby, hpack]
    split
    · next hq => exact hq ▸ husedby.symm
    · rfl
  · intro q
    rw [System.localNicknames, hnames]
    split
    · next hq => exact hq ▸ hlocal.symm
    · rfl
  · intro q
    rw [System.nicknamedby, hnames]
    split
    · next hq => exact hq ▸ hnick.symm
    · rfl
  · intro q hq
    rw [System.Deleted, hpack] at hq
    split at hq
    · cases hq
    · exact hq
  · intro q hq
    have hlt : s.nextPackage < q := hq
    rw [System.Deleted, hpack, if_neg (Nat.ne_of_gt hlt)]
    exact h.unmade q (Nat.le_of_lt hlt)

theorem processPackageList_mem {ds : List Designator} : ∀ {ps : List ℕ},
    processPackageList s ds = .ok ps → ∀ p ∈ ps, ∃ d ∈ ds, findPackage d s = some p := by
  induction ds with
  | nil =>
    intro ps h p hp
    cases h
    cases hp
  | cons d ds ih =>
    intro ps h p hp
    unfold processPackageList at h
    split at h
    · cases h
    · next q hq =>
      cases hrest : processPackageList s ds with
      | error e =>
        rw [hrest] at h
        cases h
      | ok rest =>
        rw [hrest] at h
        cases h
        rcases List.mem_cons.mp hp with rfl | hp
        · exact ⟨d, List.mem_cons_self, hq⟩
        · obtain ⟨d', hd', hfound⟩ := ih hrest p hp
          exact ⟨d', List.mem_cons_of_mem d hd', hfound⟩

theorem processLocalNicknames_mem {ds : List (String × Designator)} :
    ∀ {cells : List (String × ℕ)}, processLocalNicknames s ds = .ok cells →
      ∀ cell ∈ cells, ∃ d ∈ ds, findPackage d.2 s = some cell.2 := by
  induction ds with
  | nil =>
    intro cells h cell hcell
    cases h
    cases hcell
  | cons d ds ih =>
    intro cells h cell hcell
    unfold processLocalNicknames at h
    split at h
    · cases h
    · next q hq =>
      cases hrest : processLocalNicknames s ds with
      | error e =>
        rw [hrest] at h
        cases h
      | ok rest =>
        rw [hrest] at h
        cases h
        rcases List.mem_cons.mp hcell with rfl | hcell
        · exact ⟨d, List.mem_cons_self, hq⟩
        · obtain ⟨d', hd', hfound⟩ := ih hrest cell hcell
          exact ⟨d', List.mem_cons_of_mem d hd', hfound⟩

theorem returnExisting_linked (h : Linked s) {other y : ℕ} {name : String}
    (hdone : returnExisting other name s = .returns y s') : Linked s' := by
  unfold returnExisting cePackageError at hdone
  split at hdone
  · cases hdone
    exact h.withAnswers _
  · cases hdone

theorem fillPackage_linked (h : Linked s) (hx : ¬ s.Deleted x) {nicknames : List String}
    {uses : List ℕ} {locals : List (String × ℕ)} (huses : ∀ y ∈ uses, ¬ s.Deleted y)
    (hlocals : ∀ cell ∈ locals, ¬ s.Deleted cell.2) {y : ℕ}
    (hdone : fillPackage x nicknames uses locals s = .returns y s') : Linked s' := by
  have hadded := addNicknames_linked (x := x) nicknames s h
  have hsame : ∀ q, (addNicknames x nicknames s).2.Deleted q → s.Deleted q := by
    intro q hq
    rwa [System.Deleted, (addNicknames_core x nicknames s).1] at hq
  unfold fillPackage at hdone
  split at hdone
  · next s₁ hadd =>
    rw [hadd] at hadded
    exact returnExisting_linked hadded hdone
  · next s₁ hadd =>
    rw [hadd] at hadded hsame
    cases hdone
    obtain ⟨hlinked, hdel⟩ := linkUses_linked hx uses s₁ hadded hsame huses
    have hfilled := linkLocalNicknames_linked hx locals _ hlinked hdel hlocals
    exact ⟨hfilled.used, hfilled.nicknamed, hfilled.apart, hfilled.unmade⟩

structure RequestsLive (name : String) (nicknames : List String) (useList : List Designator)
    (locals : List (String × Designator)) (s : System) : Prop where
  uses : ∀ d ∈ useList, ∀ q, findPackage d s = some q → ¬ s.Deleted q
  locals : ∀ d ∈ locals, ∀ q, findPackage d.2 s = some q → ¬ s.Deleted q
  announced : ∀ pair, findPendingPackage name nicknames s = some pair → ¬ s.Deleted pair.2

theorem eclMakePackage_linked (h : Linked s) {name : String} {nicknames : List String}
    {useList : List Designator} {locals : List (String × Designator)}
    (hlive : RequestsLive name nicknames useList locals s) {y : ℕ}
    (hdone : eclMakePackage name nicknames useList locals s = .returns y s') : Linked s' := by
  unfold eclMakePackage at hdone
  split at hdone
  · cases hdone
  · next uses huses =>
    have husesLive : ∀ q ∈ uses, ¬ s.Deleted q := by
      intro q hq
      obtain ⟨d, hd, hfound⟩ := processPackageList_mem huses q hq
      exact hlive.uses d hd q hfound
    split at hdone
    · cases hdone
    · next cells hcells =>
      have hcellsLive : ∀ cell ∈ cells, ¬ s.Deleted cell.2 := by
        intro cell hcell
        obtain ⟨d, hd, hfound⟩ := processLocalNicknames_mem hcells cell hcell
        exact hlive.locals d hd cell.2 hfound
      split at hdone
      · exact returnExisting_linked h hdone
      · next x s₁ hobtain =>
        unfold obtainPackage at hobtain
        split at hobtain
        · next pair hpending =>
          cases hobtain
          have hs₁ : Linked { s with pending := s.pending.erase pair } :=
            ⟨h.used, h.nicknamed, h.apart, h.unmade⟩
          exact fillPackage_linked hs₁ (hlive.announced pair hpending) husesLive hcellsLive hdone
        · split at hobtain
          · cases hobtain
          · cases hobtain
            have hstill : ∀ q, ¬ s.Deleted q → ¬ (allocPackage name s).Deleted q := by
              intro q hq hdel
              by_cases hqn : q = s.nextPackage
              · exact hq (hqn ▸ h.unmade _ (Nat.le_refl _))
              · have hsame : (allocPackage name s).core.packages q = s.core.packages q :=
                  Function.update_of_ne hqn _ _
                rw [System.Deleted, hsame] at hdel
                exact hq hdel
            have hnew : ¬ (allocPackage name s).Deleted s.nextPackage := by
              have hself : (allocPackage name s).core.packages s.nextPackage =
                  Packages.allocPackage name := Function.update_self _ _ _
              rw [System.Deleted, hself]
              exact Option.some_ne_none name
            exact fillPackage_linked (allocPackage_linked h name) hnew
              (fun q hq => hstill q (husesLive q hq))
              (fun cell hcell => hstill cell.2 (hcellsLive cell hcell)) hdone

end make

end PackageSystem
