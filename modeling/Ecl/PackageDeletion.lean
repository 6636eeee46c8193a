import Ecl.PackageLinks

/-! Deletion of a package takes its references apart one by one, and runs of all operations
keep the references matched. -/
namespace PackageSystem

open Packages (State)

variable {s s' : System} {p q : ℕ}

section unuse

theorem unuseUses_linked (p n : ℕ) : ∀ s : System, Linked s → ∀ c : State,
    Packages.unuseUses p n s.core = .done c → Linked { s with core := c } := by
  induction n with
  | zero =>
    intro s h c hdone
    cases hdone
    exact h
  | succ n ih =>
    intro s h c hdone
    unfold Packages.unuseUses at hdone
    split at hdone
    · cases hdone
      exact h
    · split at hdone
      · next c₁ hone => exact ih _ (unusePackage_linked h hone) c hdone
      · next hfail => exact absurd hdone (hfail c)

theorem unuseUsedby_linked (p n : ℕ) : ∀ s : System, Linked s → ∀ c : State,
    Packages.unuseUsedby p n s.core = .done c → Linked { s with core := c } := by
  induction n with
  | zero =>
    intro s h c hdone
    cases hdone
    exact h
  | succ n ih =>
    intro s h c hdone
    unfold Packages.unuseUsedby at hdone
    split at hdone
    · cases hdone
      exact h
    · split at hdone
      · next c₁ hone => exact ih _ (unusePackage_linked h hone) c hdone
      · next hfail => exact absurd hdone (hfail c)

end unuse

section own

theorem removeOwn_returns (p n : ℕ) : ∀ s s', removeOwn p n s = .returns () s' →
    (s.localNicknames p).length ≤ n → Backed s →
    (∀ q, q ≠ p → ∀ c ∈ s.localNicknames q, q ∈ s.nicknamedby c.2) →
    Fewer s s' ∧ Backed s' ∧ s'.localNicknames p = [] ∧
      ∀ q, q ≠ p → s'.localNicknames q = s.localNicknames q ∧
        ∀ c ∈ s'.localNicknames q, q ∈ s'.nicknamedby c.2 := by
  induction n with
  | zero =>
    intro s s' h hlen hback hfor
    cases h
    exact ⟨Fewer.refl s, hback, List.length_eq_zero_iff.mp (Nat.le_zero.mp hlen),
      fun q hq => ⟨rfl, hfor q hq⟩⟩
  | succ n ih =>
    intro s s' h hlen hback hfor
    unfold removeOwn at h
    split at h
    · next hnil =>
      cases h
      exact ⟨Fewer.refl s, hback, hnil, fun q hq => ⟨rfl, hfor q hq⟩⟩
    · next cell rest hcells =>
      have hcells : s.localNicknames p = cell :: rest := hcells
      obtain ⟨b, s₁, hone, hrest⟩ := bind_returns h
      have hfirst : (s.localNicknames p).find? (fun c => c.1 = cell.1) = some cell := by
        rw [hcells, List.find?_cons_of_pos (by simp)]
      obtain ⟨a, ⟨hnone, -⟩ | ⟨cell', hcell', rfl⟩⟩ := removeNickname_returns hone
      · exact absurd (hnone.symm.trans hfirst) (by simp)
      · obtain rfl := Option.some.inj (hcell'.symm.trans hfirst)
        have hlocals : (deleteCell cell' p (s.withAnswers a)).localNicknames p = rest := by
          have hsame : (s.withAnswers a).localNicknames p = cell' :: rest := hcells
          rw [deleteCell_localNicknames, if_pos rfl, hsame, List.erase_cons_head]
        have hback₁ := Backed.deleteCell (s := s.withAnswers a) hback cell' p
        obtain ⟨hfewer, hbacked, hempty, hothers⟩ := ih _ s' hrest
          (by rw [hlocals]; rw [hcells, List.length_cons] at hlen; omega) hback₁
          fun q hq => deleteCell_forward (s := s.withAnswers a) hq (hfor q hq)
        refine ⟨((fewer_withAnswers s a).trans (fewer_deleteCell cell' p _)).trans hfewer, hbacked,
          hempty, fun q hq => ⟨(hothers q hq).1.trans ?_, (hothers q hq).2⟩⟩
        rw [deleteCell_localNicknames, if_neg hq]
        rfl

end own

section others

variable {l : List (String × ℕ)} {nick : String}

def gone (p : ℕ) (nick : String) (l : List (String × ℕ)) : List (String × ℕ) :=
  (l.takeWhile fun c => c.2 ≠ p).filter (fun c => c.1 = nick) ++
    ((l.dropWhile fun c => c.2 ≠ p).take 1)

def kept (p : ℕ) (nick : String) (l : List (String × ℕ)) : List (String × ℕ) :=
  (l.takeWhile fun c => c.2 ≠ p).filter (fun c => c.1 ≠ nick) ++
    ((l.dropWhile fun c => c.2 ≠ p).drop 1)

def Parts (p : ℕ) (l : List (String × ℕ)) : Prop :=
  ∀ cell, l.find? (fun c => c.2 = p) = some cell →
    ∀ c ∈ gone p cell.1 l, ∀ c' ∈ kept p cell.1 l, c'.2 ≠ c.2

variable {l₁ l₂ : List (String × ℕ)} {cell : String × ℕ}

theorem takeWhile_first (h : ∀ d ∈ l₁, d.2 ≠ p) (hcell : cell.2 = p) :
    (l₁ ++ cell :: l₂).takeWhile (fun c => c.2 ≠ p) = l₁ ∧
      (l₁ ++ cell :: l₂).dropWhile (fun c => c.2 ≠ p) = cell :: l₂ := by
  have hall : ∀ d ∈ l₁, decide (d.2 ≠ p) = true := fun d hd => decide_eq_true (h d hd)
  constructor
  · rw [List.takeWhile_append_of_pos hall, List.takeWhile_cons_of_neg (by simp [hcell]),
      List.append_nil]
  · rw [List.dropWhile_append_of_pos hall, List.dropWhile_cons_of_neg (by simp [hcell])]

theorem gone_append (h : ∀ d ∈ l₁, d.2 ≠ p) (hcell : cell.2 = p) :
    gone p nick (l₁ ++ cell :: l₂) = l₁.filter (fun c => c.1 = nick) ++ [cell] := by
  rw [gone, (takeWhile_first h hcell).1, (takeWhile_first h hcell).2]
  rfl

theorem kept_append (h : ∀ d ∈ l₁, d.2 ≠ p) (hcell : cell.2 = p) :
    kept p nick (l₁ ++ cell :: l₂) = l₁.filter (fun c => c.1 ≠ nick) ++ l₂ := by
  rw [kept, (takeWhile_first h hcell).1, (takeWhile_first h hcell).2]
  rfl

theorem find_append (h : ∀ d ∈ l₁, d.2 ≠ p) (hcell : cell.2 = p) :
    (l₁ ++ cell :: l₂).find? (fun c => c.2 = p) = some cell := by
  apply List.find?_eq_some_iff_append.mpr
  exact ⟨by simpa using hcell, l₁, l₂, rfl, fun d hd => by simpa using h d hd⟩

structure Peeling (p : ℕ) (s : System) : Prop where
  backed : Backed s
  free : ∀ q, q ∉ s.nicknamedby p → ∀ c ∈ s.localNicknames q, q ∈ s.nicknamedby c.2
  parts : ∀ q ∈ s.nicknamedby p, Parts p (s.localNicknames q)
  kept : ∀ q ∈ s.nicknamedby p, ∀ cell,
    (s.localNicknames q).find? (fun c => c.2 = p) = some cell →
      ∀ c ∈ kept p cell.1 (s.localNicknames q), q ∈ s.nicknamedby c.2

theorem Linked.peeling (h : Linked s) (hparts : ∀ q ∈ s.nicknamedby p, Parts p (s.localNicknames q)) :
    Peeling p s where
  backed := h.backed
  free q _ := h.forward q
  parts := hparts
  kept q _ cell hcell c hc := by
    obtain ⟨hp, l₁, l₂, hl, hbefore⟩ := List.find?_eq_some_iff_append.mp hcell
    have hne : ∀ d ∈ l₁, d.2 ≠ p := fun d hd => by simpa using hbefore d hd
    rw [hl, kept_append hne (by simpa using hp)] at hc
    apply h.forward q
    rw [hl]
    rcases List.mem_append.mp hc with hc | hc
    · exact List.mem_append_left _ (List.mem_of_mem_filter hc)
    · exact List.mem_append_right _ (List.mem_cons_of_mem _ hc)

theorem erase_before {m₁ m₂ : List (String × ℕ)} {d : String × ℕ} (hd : d.1 = nick)
    (hm : ∀ c ∈ m₁, c.1 ≠ nick) (r : List (String × ℕ)) :
    ((m₁ ++ d :: m₂) ++ r).erase d = (m₁ ++ m₂) ++ r := by
  have hnot : d ∉ m₁ := fun hmem => hm d hmem hd
  rw [List.append_assoc, List.erase_append_right _ hnot, List.cons_append, List.erase_cons_head,
    List.append_assoc]

theorem mem_deleteCell {d : String × ℕ} {r x : ℕ} (hr : r ≠ q) :
    r ∈ (deleteCell d q s).nicknamedby x ↔ r ∈ s.nicknamedby x := by
  rw [deleteCell_nicknamedby]
  split
  · next hx =>
    subst x
    simp [List.mem_filter, hr]
  · rfl

theorem mem_deleteCell_other {d : String × ℕ} {x : ℕ} (hx : x ≠ d.2) :
    q ∈ (deleteCell d q s).nicknamedby x ↔ q ∈ s.nicknamedby x := by
  rw [deleteCell_nicknamedby, if_neg hx]

theorem Peeling.step (h : Peeling p s) {d : String × ℕ}
    (hfree : q ∉ (deleteCell d q s).nicknamedby p →
      ∀ c ∈ (deleteCell d q s).localNicknames q, q ∈ (deleteCell d q s).nicknamedby c.2)
    (hparts : q ∈ (deleteCell d q s).nicknamedby p → Parts p ((deleteCell d q s).localNicknames q))
    (hkept : q ∈ (deleteCell d q s).nicknamedby p → ∀ cell,
      ((deleteCell d q s).localNicknames q).find? (fun c => c.2 = p) = some cell →
        ∀ c ∈ PackageSystem.kept p cell.1 ((deleteCell d q s).localNicknames q),
          q ∈ (deleteCell d q s).nicknamedby c.2) : Peeling p (deleteCell d q s) := by
  constructor
  case backed => exact h.backed.deleteCell d q
  case free =>
    intro r hr
    by_cases hrq : r = q
    · exact hrq ▸ hfree (hrq ▸ hr)
    · exact deleteCell_forward hrq (h.free r fun hmem => hr ((mem_deleteCell hrq).mpr hmem))
  case parts =>
    intro r hr
    by_cases hrq : r = q
    · exact hrq ▸ hparts (hrq ▸ hr)
    · rw [deleteCell_localNicknames, if_neg hrq]
      exact h.parts r ((mem_deleteCell hrq).mp hr)
  case kept =>
    intro r hr
    by_cases hrq : r = q
    · exact hrq ▸ hkept (hrq ▸ hr)
    · rw [deleteCell_localNicknames, if_neg hrq]
      intro cell hcell c hc
      exact (mem_deleteCell hrq).mpr (h.kept r ((mem_deleteCell hrq).mp hr) cell hcell c hc)

theorem Peeling.round (h : Peeling p s) (hq : q ∈ s.nicknamedby p)
    (hcell : (s.localNicknames q).find? (fun c => c.2 = p) = some cell) {d : String × ℕ}
    (hd : (s.localNicknames q).find? (fun c => c.1 = cell.1) = some d) :
    Peeling p (deleteCell d q s) := by
  have hparts := h.parts q hq cell hcell
  have hkept := h.kept q hq cell hcell
  obtain ⟨hp, l₁, l₂, hl, hbefore⟩ := List.find?_eq_some_iff_append.mp hcell
  have hp : cell.2 = p := by simpa using hp
  have hne : ∀ d ∈ l₁, d.2 ≠ p := fun d hd => by simpa using hbefore d hd
  rw [hl, gone_append hne hp, kept_append hne hp] at hparts
  rw [hl, kept_append hne hp] at hkept
  rw [hl, List.find?_append] at hd
  cases hfirst : l₁.find? (fun c => c.1 = cell.1) with
  | none =>
    -- the nickname for p itself: q has none left for p
    rw [hfirst, Option.none_or, List.find?_cons_of_pos (by simp)] at hd
    obtain rfl := Option.some.inj hd
    have hnick : ∀ c ∈ l₁, c.1 ≠ cell.1 := fun c hc => by
      simpa using List.find?_eq_none.mp hfirst c hc
    have hall : l₁.filter (fun c => c.1 ≠ cell.1) = l₁ :=
      List.filter_eq_self.mpr fun c hc => by simpa using hnick c hc
    have hlocal : (deleteCell cell q s).localNicknames q = l₁ ++ l₂ := by
      have hnot : cell ∉ l₁ := fun hmem => hnick cell hmem rfl
      rw [deleteCell_localNicknames, if_pos rfl, hl, List.erase_append_right _ hnot,
        List.erase_cons_head]
    have hgone : q ∉ (deleteCell cell q s).nicknamedby p := by
      rw [deleteCell_nicknamedby, if_pos hp.symm]
      simp
    rw [hall] at hparts hkept
    refine h.step (fun _ => ?_) (fun hmem => absurd hmem hgone) fun hmem => absurd hmem hgone
    intro c hc
    rw [hlocal] at hc
    have hcp : c.2 ≠ cell.2 := hparts cell (by simp) c hc
    exact (mem_deleteCell_other hcp).mpr (hkept c hc)
  | some d' =>
    -- an earlier nickname of that name
    rw [hfirst, Option.some_or] at hd
    obtain rfl := Option.some.inj hd
    obtain ⟨hname, m₁, m₂, hm, hearlier⟩ := List.find?_eq_some_iff_append.mp hfirst
    have hname : d'.1 = cell.1 := by simpa using hname
    have hm₁ : ∀ c ∈ m₁, c.1 ≠ cell.1 := fun c hc => by simpa using hearlier c hc
    have hdp : p ≠ d'.2 := by
      have hmem : d' ∈ l₁ := hm ▸ List.mem_append_right _ List.mem_cons_self
      exact (hne d' hmem).symm
    have hlocal : (deleteCell d' q s).localNicknames q = (m₁ ++ m₂) ++ cell :: l₂ := by
      rw [deleteCell_localNicknames, if_pos rfl, hl, hm, erase_before hname hm₁]
    have hne' : ∀ c ∈ m₁ ++ m₂, c.2 ≠ p := by
      intro c hc
      apply hne c
      rw [hm]
      rcases List.mem_append.mp hc with hc | hc
      · exact List.mem_append_left _ hc
      · exact List.mem_append_right _ (List.mem_cons_of_mem _ hc)
    have hsame : l₁.filter (fun c => c.1 ≠ cell.1) = (m₁ ++ m₂).filter (fun c => c.1 ≠ cell.1) := by
      rw [hm, List.filter_append, List.filter_append, List.filter_cons_of_neg (by simpa using hname)]
    have hgone : ∀ c ∈ (m₁ ++ m₂).filter (fun c => c.1 = cell.1) ++ [cell],
        c ∈ l₁.filter (fun c => c.1 = cell.1) ++ [cell] := by
      intro c hc
      rw [hm]
      simp only [List.filter_append, List.mem_append, List.mem_filter, List.mem_cons] at hc ⊢
      tauto
    have hd'gone : d' ∈ l₁.filter (fun c => c.1 = cell.1) ++ [cell] := by
      rw [hm]
      simp [hname]
    rw [hsame] at hparts hkept
    refine h.step (fun hmem => absurd ((mem_deleteCell_other hdp).mpr hq) hmem)
      (fun _ => ?_) fun _ => ?_
    · rw [hlocal]
      intro cell' hcell'
      obtain rfl := Option.some.inj (hcell'.symm.trans (find_append hne' hp))
      rw [gone_append hne' hp, kept_append hne' hp]
      exact fun c hc => hparts c (hgone c hc)
    · rw [hlocal]
      intro cell' hcell'
      obtain rfl := Option.some.inj (hcell'.symm.trans (find_append hne' hp))
      rw [kept_append hne' hp]
      intro c hc
      have hcd : c.2 ≠ d'.2 := hparts d' hd'gone c hc
      exact (mem_deleteCell_other hcd).mpr (hkept c hc)

theorem removeOthers_returns (p n : ℕ) : ∀ s s', removeOthers p n s = .returns () s' →
    Peeling p s → Fewer s s' ∧ Peeling p s' ∧ s'.nicknamedby p = [] := by
  induction n with
  | zero =>
    intro s s' h _
    cases h
  | succ n ih =>
    intro s s' h hpeel
    unfold removeOthers at h
    split at h
    · next hnil =>
      cases h
      exact ⟨Fewer.refl s, hpeel, hnil⟩
    · next q rest hcons =>
      have hq : q ∈ s.nicknamedby p := by
        rw [System.nicknamedby, hcons]
        exact List.mem_cons_self
      split at h
      · cases h
      · next cell hcell =>
        obtain ⟨b, s₁, hone, hrest⟩ := bind_returns h
        obtain ⟨a, ⟨hnone, -⟩ | ⟨d, hd, rfl⟩⟩ := removeNickname_returns hone
        · have hmem : cell ∈ s.localNicknames q := List.mem_of_find?_eq_some hcell
          exact absurd (List.find?_eq_none.mp hnone cell hmem) (by simp)
        · have hpeel₀ : Peeling p (s.withAnswers a) :=
            ⟨hpeel.backed, hpeel.free, hpeel.parts, hpeel.kept⟩
          obtain ⟨hfewer, hdone⟩ := ih _ s' hrest (hpeel₀.round hq hcell hd)
          exact ⟨((fewer_withAnswers s a).trans (fewer_deleteCell d q _)).trans hfewer, hdone⟩

end others

section delete

theorem clearPackage_packages (p : ℕ) (c : State) (q : ℕ) :
    ((Packages.clearPackage p c).packages q).uses = (c.packages q).uses ∧
    ((Packages.clearPackage p c).packages q).usedby = (c.packages q).usedby ∧
    (q ≠ p → ((Packages.clearPackage p c).packages q).name = (c.packages q).name) ∧
    ((c.packages q).name = none → ((Packages.clearPackage p c).packages q).name = none) := by
  simp only [Packages.clearPackage, State.modify, Packages.removeHomes_packages]
  by_cases hq : q = p
  · subst q
    simp
  · simp [hq]

theorem Linked.clear (h : Linked s) (huses : s.uses p = []) (husedby : s.usedby p = [])
    (hlocal : s.localNicknames p = []) (hnick : s.nicknamedby p = []) (registered : List ℕ) :
    Linked { s with core := Packages.clearPackage p s.core, registered := registered } where
  used q u := by
    simp only [System.uses, System.usedby, clearPackage_packages]
    exact h.used q u
  nicknamed := h.nicknamed
  apart q hq := by
    simp only [System.uses, System.usedby, clearPackage_packages]
    by_cases hqp : q = p
    · subst q
      exact ⟨huses, husedby, hlocal, hnick⟩
    · exact h.apart q (((clearPackage_packages p s.core q).2.2.1 hqp).symm.trans hq)
  unmade q hq := (clearPackage_packages p s.core q).2.2.2 (h.unmade q hq)

def OthersPart (p : ℕ) (s : System) : Prop :=
  ∀ q ∈ s.nicknamedby p, q ≠ p → Parts p (s.localNicknames q)

theorem clDeletePackage_linked (h : Linked s) {d : Designator}
    (hparts : ∀ p, findPackage d s = some p → OthersPart p s) {b : Bool}
    (hdone : clDeletePackage d s = .returns b s') : Linked s' := by
  unfold clDeletePackage at hdone
  cases hd : findPackage d s with
  | none =>
    rw [hd] at hdone
    simp only [Option.elim_none, cePackageError] at hdone
    split at hdone
    · cases hdone
      exact h.withAnswers _
    · cases hdone
  | some p =>
    rw [hd] at hdone
    obtain ⟨a, hbody⟩ := checkLock_returns hdone
    split at hbody
    · cases hbody
    · split at hbody
      · cases hbody
        exact h.withAnswers a
      · obtain ⟨_, s₁, hunuse, hbody⟩ := bind_returns hbody
        obtain ⟨c₁, hc₁, rfl⟩ := ofCore_returns hunuse
        have h₁ := unuseUses_linked p _ _ (h.withAnswers a) c₁ hc₁
        have huses := Packages.unuseUses_empties p _ _ c₁ hc₁ (Nat.le_refl _)
        obtain ⟨_, s₂, hunused, hbody⟩ := bind_returns hbody
        obtain ⟨c₂, hc₂, rfl⟩ := ofCore_returns hunused
        have h₂ := unuseUsedby_linked p _ _ h₁ c₂ hc₂
        have hnone := Packages.unuseUsedby_empties p _ c₁ c₂ hc₂ (Nat.le_refl _) huses
        obtain ⟨_, s₃, hown, hbody⟩ := bind_returns hbody
        obtain ⟨hfewer, hbacked, hempty, hothers⟩ :=
          removeOwn_returns p _ _ s₃ hown (Nat.le_refl _) h₂.backed fun q _ => h₂.forward q
        have h₃ : Linked s₃ := by
          apply h₂.fewer hfewer hbacked
          intro q
          by_cases hq : q = p
          · rw [hq, hempty]
            exact fun c hc => absurd hc List.not_mem_nil
          · exact (hothers q hq).2
        obtain ⟨_, s₄, hlast, hbody⟩ := bind_returns hbody
        have hpeel : Peeling p s₃ := by
          apply h₃.peeling
          intro q hq
          have hqp : q ≠ p := by
            rintro rfl
            obtain ⟨c, hc, -⟩ := hbacked q q hq
            exact absurd (hempty ▸ hc) List.not_mem_nil
          rw [(hothers q hqp).1]
          exact hparts p hd q (hfewer.nicknamedby p hq) hqp
        obtain ⟨hfewer', hpeel', hnick⟩ := removeOthers_returns p _ s₃ s₄ hlast hpeel
        have h₄ : Linked s₄ := by
          apply h₃.fewer hfewer' hpeel'.backed
          exact fun q => hpeel'.free q (hnick ▸ List.not_mem_nil)
        have hcore := hfewer'.core.trans hfewer.core
        cases hbody
        apply h₄.clear
        · rw [System.uses, hcore]
          exact hnone.2
        · rw [System.usedby, hcore]
          exact hnone.1
        · exact List.subset_nil.mp (hempty ▸ hfewer'.locals p)
        · exact hnick

end delete

section runs

def KeepsLinks (s : System) : Op → Prop
  | .makePackage name nicknames useList locals => RequestsLive name nicknames useList locals s
  | .renamePackage d _ _ => ∀ q, findPackage d s = some q → ¬ s.Deleted q
  | .deletePackage d => ∀ p, findPackage d s = some p → OthersPart p s
  | .addLocalNickname _ actual target =>
    (∀ q, findPackage actual s = some q → ¬ s.Deleted q) ∧
      ∀ q, findPackage target s = some q → ¬ s.Deleted q
  | .removeLocalNickname nickname d => ∀ q, findPackage d s = some q → SoleNickname nickname q s
  | .usePackage d d' =>
    (∀ q, findPackage d s = some q → ¬ s.Deleted q) ∧
      ∀ q, findPackage d' s = some q → ¬ s.Deleted q
  | _ => True

theorem forget_returns {α : Type} {r : Result α} (h : r.forget = .returns () s') :
    ∃ a, r = .returns a s' := by
  cases r with
  | returns a s₁ =>
    cases h
    exact ⟨a, rfl⟩
  | fails e s₁ => cases h
  | hangs s₁ => cases h

theorem modify_packages (c : State) (p : ℕ) (f : Packages.Package → Packages.Package) (q : ℕ) :
    (c.modify p f).packages q = if q = p then f (c.packages p) else c.packages q :=
  Function.update_apply _ _ _ _

theorem eclRenamePackage_linked (h : Linked s) {d : Designator} {name : String}
    {nicknames : List String} (hlive : ∀ q, findPackage d s = some q → ¬ s.Deleted q) {y : ℕ}
    (hdone : eclRenamePackage d name nicknames s = .returns y s') : Linked s' := by
  obtain ⟨x, hx, hrest⟩ := siCoerceToPackage_returns hdone
  obtain ⟨a, hbody⟩ := checkLock_returns hrest
  have hlt : x < s.nextPackage := by
    by_contra hge
    exact hlive x hx (h.unmade x (Nat.le_of_not_lt hge))
  split at hbody
  · cases hbody
  · cases hbody
    apply h.same
    · intro q
      simp only [System.uses, modify_packages]
      split <;> simp_all [System.withAnswers]
    · intro q
      simp only [System.usedby, modify_packages]
      split <;> simp_all [System.withAnswers]
    · intro q
      simp only [System.localNicknames, modifyNames_names]
      split <;> simp_all [System.withAnswers]
    · intro q
      simp only [System.nicknamedby, modifyNames_names]
      split <;> simp_all [System.withAnswers]
    · intro q hq
      simp only [System.Deleted, modify_packages] at hq
      split at hq
      · cases hq
      · exact hq
    · intro q hq
      have hle : s.nextPackage ≤ q := hq
      simp only [System.Deleted, modify_packages]
      rw [if_neg (by omega)]
      exact h.unmade q hle

theorem packageToBeCreated_linked (h : Linked s) {name : String}
    (hdone : packageToBeCreated name s = .returns () s') : Linked s' := by
  unfold packageToBeCreated at hdone
  split at hdone
  · cases hdone
    exact h
  · cases hdone
    have hnew := allocPackage_linked h name
    exact ⟨hnew.used, hnew.nicknamed, hnew.apart, hnew.unmade⟩

theorem step_linked (h : Linked s) (op : Op) (hop : KeepsLinks s op)
    (hdone : step s op = .returns () s') : Linked s' := by
  cases op with
  | makePackage name nicknames useList locals =>
    obtain ⟨x, hx⟩ := forget_returns hdone
    exact eclMakePackage_linked h hop hx
  | renamePackage d name nicknames =>
    obtain ⟨x, hx⟩ := forget_returns hdone
    exact eclRenamePackage_linked h hop hx
  | deletePackage d =>
    obtain ⟨b, hb⟩ := forget_returns hdone
    exact clDeletePackage_linked h hop hb
  | addLocalNickname nickname actual target =>
    obtain ⟨x, hx⟩ := forget_returns hdone
    exact siAddPackageLocalNickname_linked h hop.1 hop.2 hx
  | removeLocalNickname nickname d =>
    obtain ⟨b, hb⟩ := forget_returns hdone
    exact siRemovePackageLocalNickname_linked h hop hb
  | usePackage d d' => exact eclUsePackage_linked h hop.1 hop.2 hdone
  | unusePackage d d' => exact eclUnusePackage_linked h hdone
  | selectPackage d =>
    obtain ⟨p, -, hp⟩ := siCoerceToPackage_returns hdone
    cases hp
    exact ⟨h.used, h.nicknamed, h.apart, h.unmade⟩
  | packageToBeCreated name => exact packageToBeCreated_linked h hdone

/-- The operation signals no error. -/
def Succeeds (s : System) (op : Op) : Prop := ∃ s', step s op = .returns () s'

theorem run_linked (h : Linked s) (hrun : Run (fun s op => Succeeds s op ∧ KeepsLinks s op) s s') :
    Linked s' := by
  induction hrun with
  | start => exact h
  | step _ hop hstep ih =>
    obtain ⟨⟨s₂, hdone⟩, hkeeps⟩ := hop
    rw [hdone] at hstep
    cases hstep
    exact step_linked ih _ hkeeps hdone

/-- After operations without error the two directions of all references agree, and no package
uses, is used by or nicknames a deleted one. -/
theorem references_stay_consistent (h : Linked s)
    (hrun : Run (fun s op => Succeeds s op ∧ KeepsLinks s op) s s') :
    (∀ p q, q ∈ s'.uses p ↔ p ∈ s'.usedby q) ∧
    (∀ p q, p ∈ s'.nicknamedby q ↔ s'.Nicknames p q) ∧
    ∀ p q, s'.Deleted q → q ∉ s'.uses p ∧ q ∉ s'.usedby p ∧ ¬ s'.Nicknames p q := by
  have hlinked := run_linked h hrun
  refine ⟨hlinked.used, hlinked.nicknamed, fun p q hq => ?_⟩
  obtain ⟨huses, husedby, -, hnick⟩ := hlinked.apart q hq
  rw [hlinked.used, ← hlinked.used q p, ← hlinked.nicknamed, huses, husedby, hnick]
  exact ⟨List.not_mem_nil, List.not_mem_nil, List.not_mem_nil⟩

theorem booted_lists (p : ℕ) : booted.uses p = [] ∧ booted.usedby p = [] := by
  unfold System.uses System.usedby booted
  dsimp only
  split <;> exact ⟨rfl, rfl⟩

theorem booted_linked : Linked booted where
  used p q := by rw [(booted_lists p).1, (booted_lists q).2]; simp
  nicknamed p q := by simp [System.nicknamedby, System.Nicknames, System.localNicknames, booted, noNames]
  apart p _ := ⟨(booted_lists p).1, (booted_lists p).2, rfl, rfl⟩
  unmade p hp := by
    have hlt : ¬ p ≤ 2 := Nat.not_le.mpr hp
    simp [System.Deleted, booted, hlt]

def usedAndNicknamed : List Op :=
  [.makePackage "A" [] [] [], .makePackage "B" [] [.name "A"] [("X", .name "A")],
    .deletePackage (.name "A")]

theorem references_stay_consistent_usedAndNicknamed :
    ∃ s', runOps booted usedAndNicknamed = some s' ∧
    (∀ p q, q ∈ s'.uses p ↔ p ∈ s'.usedby q) ∧
    (∀ p q, p ∈ s'.nicknamedby q ↔ s'.Nicknames p q) ∧
    ∀ p q, s'.Deleted q → q ∉ s'.uses p ∧ q ∉ s'.usedby p ∧ ¬ s'.Nicknames p q := by
  refine ⟨_, rfl, references_stay_consistent booted_linked
    (((Run.start.step (?_ : Succeeds _ usedAndNicknamed[0] ∧ KeepsLinks _ usedAndNicknamed[0])
      rfl).step (?_ : Succeeds _ usedAndNicknamed[1] ∧ KeepsLinks _ usedAndNicknamed[1]) rfl).step
      (?_ : Succeeds _ usedAndNicknamed[2] ∧ KeepsLinks _ usedAndNicknamed[2]) rfl)⟩
  · refine ⟨⟨_, rfl⟩, ?_, ?_, ?_⟩
    · exact fun d hd => absurd hd List.not_mem_nil
    · exact fun d hd => absurd hd List.not_mem_nil
    · rintro pair ⟨⟩
  · refine ⟨⟨_, rfl⟩, ?_, ?_, ?_⟩
    · intro d hd q hq
      obtain rfl := List.mem_singleton.mp hd
      cases hq
      exact Option.some_ne_none _
    · intro d hd q hq
      obtain rfl := List.mem_singleton.mp hd
      cases hq
      exact Option.some_ne_none _
    · rintro pair ⟨⟩
  · refine ⟨⟨_, rfl⟩, ?_⟩
    intro p hp q hq hne cell hcell
    cases hp
    obtain rfl := List.mem_singleton.mp hq
    cases hcell
    intro c _ c' hc'
    cases hc'

def lostReference : List Op :=
  [.makePackage "A" [] [] [], .makePackage "B" [] [] [], .addLocalNickname "X" (.name "A") (.name "B"),
    .addLocalNickname "Y" (.name "A") (.name "B"), .removeLocalNickname "X" (.name "B")]

theorem remaining_nickname_is_forgotten : ∃ s', Run Succeeds booted s' ∧
    3 ∈ s'.registered ∧ 4 ∈ s'.registered ∧ s'.Nicknames 4 3 ∧ 4 ∉ s'.nicknamedby 3 := by
  refine ⟨_, ((((Run.start.step (?_ : Succeeds _ lostReference[0]) rfl).step
    (?_ : Succeeds _ lostReference[1]) rfl).step (?_ : Succeeds _ lostReference[2]) rfl).step
    (?_ : Succeeds _ lostReference[3]) rfl).step (?_ : Succeeds _ lostReference[4]) rfl, ?_⟩
  iterate 5 exact ⟨_, rfl⟩
  exact ⟨by decide, by decide, ⟨("Y", 3), by decide, rfl⟩, by decide⟩

end runs

end PackageSystem
