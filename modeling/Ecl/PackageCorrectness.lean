import Ecl.PackageOperations

/-! USE-PACKAGE, UNUSE-PACKAGE, DELETE-PACKAGE and runs of all package operations. -/
namespace Packages

variable {s : State} {p : ℕ}

theorem useConflict_none (h : Consistent s.packages) (hp : p ≠ keywordPackage) {x : ℕ}
    (hnone : useConflict x p s = none) {n : String} {y : Symbol}
    (hy : (s.packages x).external.gethash n = some y) : Accepts s.packages p n y := by
  refine accepts_of_find h hp fun there flag hfind => ?_
  obtain ⟨hmem, rfl⟩ := (Table.gethash_iff _ _ _).mp hy
  have hcheck := List.findSome?_eq_none_iff.mp hnone y hmem
  simp only [hfind, ne_eq, ite_eq_right_iff, reduceCtorEq, imp_false, not_and, not_not] at hcheck
  tauto

structure MayUse (P : ℕ → Package) (p x : ℕ) : Prop where
  ne : p ≠ x
  user : p ≠ keywordPackage
  used : x ≠ keywordPackage
  accepted : ∀ n y, (P x).external.gethash n = some y → Accepts P p n y

theorem consistent_relink {P P' : ℕ → Package} (h : Consistent P) {x : ℕ}
    (hsame : ∀ q, (P' q).external = (P q).external ∧ (P' q).internal = (P q).internal ∧
      (P' q).shadowings = (P q).shadowings)
    (hused : ∀ q u, u ∈ (P' q).uses ↔ q ∈ (P' u).usedby)
    (hnew : ∀ q u, u ∈ (P' q).uses → u ∈ (P q).uses ∨ q = p ∧ u = x ∧ MayUse P p x) :
    Consistent P' := by
  have hpres : ∀ q n, present (P' q) n = present (P q) n := by
    intro q n
    rw [present, present, (hsame q).1, (hsame q).2.1]
  constructor
  case used => exact hused
  case notSelf =>
    intro q hq
    rcases hnew q q hq with hold | ⟨rfl, he, hmay⟩
    · exact h.notSelf q hold
    · exact hmay.ne he
  case keywordUses =>
    refine List.eq_nil_iff_forall_not_mem.mpr fun u hu => ?_
    rcases hnew _ u hu with hold | ⟨he, _, hmay⟩
    · exact absurd (h.keywordUses ▸ hold) List.not_mem_nil
    · exact hmay.user he.symm
  case keywordUsedby =>
    refine List.eq_nil_iff_forall_not_mem.mpr fun q hq => ?_
    rcases hnew q _ ((hused q _).mpr hq) with hold | ⟨_, he, hmay⟩
    · exact not_used_keyword h q hold
    · exact hmay.used he.symm
  case shadowing =>
    intro q hq
    rw [(hsame q).2.2]
    intro y hy
    rw [hpres, h.shadowing q hq y hy]
  case disjoint =>
    intro q hq n
    rw [(hsame q).1, (hsame q).2.1]
    exact h.disjoint q hq n
  case noConflict =>
    intro q n
    have hin : ∀ y, Inherits P' q n y →
        Inherits P q n y ∨ (P x).external.gethash n = some y ∧ Accepts P q n y := by
      rintro y ⟨u, hu, hy⟩
      rw [(hsame u).1] at hy
      rcases hnew q u hu with hold | ⟨rfl, rfl, hmay⟩
      · exact Or.inl ⟨u, hold, hy⟩
      · exact Or.inr ⟨hy, hmay.accepted n y hy⟩
    have hsettled : Settled P' q (P q) n := by
      refine settled_of_accepted (h.noConflict q n)
        (fun y hy => (hin y hy).imp id And.right) fun y z hy hz hny hnz => ?_
      have hy' := ((hin y hy).resolve_left hny).1
      have hz' := ((hin z hz).resolve_left hnz).1
      exact Option.some.inj (hy'.symm.trans hz')
    rcases hsettled with ⟨y, hy, hsh⟩ | ⟨hnone, hall⟩
    · exact Or.inl ⟨y, (hpres q n).trans hy, (hsame q).2.2 ▸ hsh⟩
    · exact Or.inr ⟨(hpres q n).trans hnone, hall⟩

theorem usePackage_keeps (h : Consistent s.packages) (x p : ℕ) :
    Consistent (usePackage x p s).state.packages := by
  unfold usePackage
  split
  case isTrue => exact h
  case isFalse hx =>
    split
    case isTrue => exact h
    case isFalse hne =>
      split
      case isTrue => exact h
      case isFalse =>
        split
        case isTrue => exact h
        case isFalse hp =>
          apply checkLock_keeps h
          intro s' hs'
          rw [← hs'] at h
          split
          case h_1 => exact h
          case h_2 hnone =>
            have hmay : MayUse s'.packages p x :=
              ⟨hne, hp, hx, fun n y hy => useConflict_none h hp hnone hy⟩
            rw [Result.state_done]
            refine consistent_relink h (p := p) (x := x) (s'.relink_tables _ _ _ _)
              (fun q u => ?_) fun q u hu => ?_
            · rw [State.relink_uses, State.relink_usedby]
              have hold := h.used q u
              split <;> split <;> simp_all
            · rw [State.relink_uses] at hu
              split at hu
              case isTrue hq =>
                rcases List.mem_cons.mp hu with rfl | hu
                · exact Or.inr ⟨hq, rfl, hmay⟩
                · exact Or.inl (hq ▸ hu)
              case isFalse => exact Or.inl hu

theorem unusePackage_keeps (h : Consistent s.packages) (x p : ℕ) :
    Consistent (unusePackage x p s).state.packages := by
  unfold unusePackage
  apply checkLock_keeps h
  intro s' hs'
  rw [← hs'] at h
  rw [Result.state_done]
  refine consistent_relink h (p := p) (x := x) (s'.relink_tables _ _ _ _) (fun q u => ?_)
    fun q u hu => ?_
  · rw [State.relink_uses, State.relink_usedby]
    have hold := h.used q u
    split <;> split <;> simp_all
  · rw [State.relink_uses] at hu
    split at hu
    case isTrue hq => exact Or.inl (hq ▸ List.mem_of_mem_filter hu)
    case isFalse => exact Or.inl hu

theorem checkLock_done {e : PackageError} {body : State → Result} {s' : State}
    (h : checkLock e p s body = .done s') :
    ∃ s₁, s₁.packages = s.packages ∧ body s₁ = .done s' := by
  unfold checkLock cePackageError at h
  split at h
  case isTrue =>
    split at h
    case h_1 rest _ => exact ⟨{ s with answers := rest }, rfl, h⟩
    case h_2 => exact absurd h (by simp)
  case isFalse => exact ⟨s, rfl, h⟩

theorem unusePackage_done {x : ℕ} {s' : State} (h : unusePackage x p s = .done s') (q : ℕ) :
    (s'.packages q).uses =
      (if q = p then (s.packages p).uses.filter (· ≠ x) else (s.packages q).uses) ∧
    (s'.packages q).usedby =
      (if q = x then (s.packages x).usedby.filter (· ≠ p) else (s.packages q).usedby) := by
  obtain ⟨s₁, hs₁, hbody⟩ := checkLock_done h
  obtain rfl := Result.done.inj hbody
  rw [State.relink_uses, State.relink_usedby, hs₁]
  exact ⟨rfl, rfl⟩

theorem filter_tail_length (x : ℕ) (l : List ℕ) : ((x :: l).filter (· ≠ x)).length ≤ l.length := by
  simpa using List.length_filter_le (· ≠ x) l

theorem unuseUses_keeps (p n : ℕ) : ∀ s : State, Consistent s.packages →
    Consistent (unuseUses p n s).state.packages := by
  induction n with
  | zero => exact fun s h => h
  | succ n ih =>
    intro s h
    unfold unuseUses
    split
    case h_1 => exact h
    case h_2 x rest _ =>
      have hunuse := unusePackage_keeps h x p
      split
      case h_1 hdone => exact ih _ (by rwa [hdone] at hunuse)
      case h_2 => exact hunuse

theorem unuseUsedby_keeps (p n : ℕ) : ∀ s : State, Consistent s.packages →
    Consistent (unuseUsedby p n s).state.packages := by
  induction n with
  | zero => exact fun s h => h
  | succ n ih =>
    intro s h
    unfold unuseUsedby
    split
    case h_1 => exact h
    case h_2 q rest _ =>
      have hunuse := unusePackage_keeps h p q
      split
      case h_1 hdone => exact ih _ (by rwa [hdone] at hunuse)
      case h_2 => exact hunuse

theorem unuseUses_empties (p n : ℕ) : ∀ s s' : State, unuseUses p n s = .done s' →
    (s.packages p).uses.length ≤ n → (s'.packages p).uses = [] := by
  induction n with
  | zero =>
    intro s s' h hlen
    obtain rfl := Result.done.inj h
    exact List.length_eq_zero_iff.mp (Nat.le_zero.mp hlen)
  | succ n ih =>
    intro s s' h hlen
    unfold unuseUses at h
    split at h
    case h_1 hnil =>
      obtain rfl := Result.done.inj h
      exact hnil
    case h_2 x rest hcons =>
      split at h
      case h_1 s₁ hdone =>
        refine ih s₁ s' h ?_
        rw [(unusePackage_done hdone p).1, if_pos rfl, hcons]
        have htail := filter_tail_length x rest
        rw [hcons, List.length_cons] at hlen
        omega
      case h_2 hfail => exact absurd h (hfail s')

theorem unuseUsedby_empties (p n : ℕ) : ∀ s s' : State, unuseUsedby p n s = .done s' →
    (s.packages p).usedby.length ≤ n → (s.packages p).uses = [] →
    (s'.packages p).usedby = [] ∧ (s'.packages p).uses = [] := by
  induction n with
  | zero =>
    intro s s' h hlen huses
    obtain rfl := Result.done.inj h
    exact ⟨List.length_eq_zero_iff.mp (Nat.le_zero.mp hlen), huses⟩
  | succ n ih =>
    intro s s' h hlen huses
    unfold unuseUsedby at h
    split at h
    case h_1 hnil =>
      obtain rfl := Result.done.inj h
      exact ⟨hnil, huses⟩
    case h_2 q rest hcons =>
      split at h
      case h_1 s₁ hdone =>
        obtain ⟨huses₁, husedby₁⟩ := unusePackage_done hdone p
        refine ih s₁ s' h ?_ ?_
        · rw [husedby₁, if_pos rfl, hcons]
          have htail := filter_tail_length q rest
          rw [hcons, List.length_cons] at hlen
          omega
        · rw [huses₁]
          split
          case isTrue hq => simp [← hq, huses]
          case isFalse => exact huses
      case h_2 hfail => exact absurd h (hfail s')

theorem removeHomes_packages (p : ℕ) (gone : List Symbol) : ∀ s : State,
    (gone.foldl (fun s sym => s.removeHome sym p) s).packages = s.packages := by
  induction gone with
  | nil => exact fun s => rfl
  | cons sym gone ih => exact fun s => ih (s.removeHome sym p)

theorem clearPackage_keeps (h : Consistent s.packages) (huses : (s.packages p).uses = []) :
    Consistent (clearPackage p s).packages := by
  unfold clearPackage State.modify
  dsimp only
  rw [removeHomes_packages]
  refine consistent_update h rfl rfl fun _ => ?_
  constructor
  case shadowing => exact fun x hx => absurd hx List.not_mem_nil
  case disjoint => exact fun n => Or.inl rfl
  case settled =>
    refine fun n => Or.inr ⟨rfl, ?_⟩
    rintro y z ⟨u, hu, _⟩
    exact absurd (huses ▸ hu) List.not_mem_nil
  case exported => exact fun n y hy => absurd hy (by simp)

theorem clDeletePackage_keeps (h : Consistent s.packages) (p : ℕ) :
    Consistent (clDeletePackage p s).state.packages := by
  unfold clDeletePackage
  apply checkLock_keeps h
  intro s' hs'
  rw [← hs'] at h
  split
  case isTrue => exact h
  case isFalse =>
    split
    case isTrue => exact h
    case isFalse =>
      have huses := unuseUses_keeps p (s'.packages p).uses.length s' h
      split
      case h_1 e s₁ hfail => rwa [hfail] at huses
      case h_2 s₁ hdone =>
        rw [hdone] at huses
        have hnone := unuseUses_empties p _ s' s₁ hdone (Nat.le_refl _)
        have husedby := unuseUsedby_keeps p (s₁.packages p).usedby.length s₁ huses
        split
        case h_1 e s₂ hfail => rwa [hfail] at husedby
        case h_2 s₂ hdone' =>
          rw [hdone'] at husedby
          exact clearPackage_keeps husedby
            (unuseUsedby_empties p _ s₁ s₂ hdone' (Nat.le_refl _) hnone).2

theorem step_keeps (h : Consistent s.packages) (op : Op) :
    Consistent (step s op).state.packages := by
  cases op with
  | intern name p => exact intern_keeps h name p
  | unintern sym p => exact unintern_keeps h sym p
  | clExport sym p =>
    apply checkLock_keeps h
    intro s' hs'
    exact exportAgain_keeps sym p _ s' (hs' ▸ h)
  | unexport sym p => exact clUnexport2_keeps h sym p
  | clImport sym p => exact clImport2_keeps h sym p
  | shadowingImport sym p => exact shadowingImport_keeps h sym p
  | shadow name p => exact shadow_keeps h name p
  | usePackage x p => exact usePackage_keeps h x p
  | unusePackage x p => exact unusePackage_keeps h x p
  | deletePackage p => exact clDeletePackage_keeps h p

def run (s : State) (ops : List Op) : State := ops.foldl (fun s op => (step s op).state) s

theorem run_keeps (ops : List Op) : ∀ s : State, Consistent s.packages →
    Consistent (run s ops).packages := by
  induction ops with
  | nil => exact fun s h => h
  | cons op ops ih => exact fun s h => ih _ (step_keeps h op)

/-- Use lists with the same members, and externals that agree in every package. -/
theorem inherited_congr {P P' : ℕ → Package} {l l' : List ℕ} {n : String}
    (hext : ∀ u, (P' u).external = (P u).external) (hmem : ∀ u, u ∈ l' ↔ u ∈ l)
    (hsame : ∀ u ∈ l, ∀ v ∈ l, ∀ y z, (P u).external.gethash n = some y →
      (P v).external.gethash n = some z → y = z) : inherited P' l' n = inherited P l n := by
  cases hl : inherited P l n with
  | none =>
    refine List.findSome?_eq_none_iff.mpr fun u hu => ?_
    rw [hext]
    exact List.findSome?_eq_none_iff.mp hl u ((hmem u).mp hu)
  | some x =>
    obtain ⟨u, hu, hx⟩ := List.exists_of_findSome?_eq_some hl
    cases hl' : inherited P' l' n with
    | none =>
      have hnone := List.findSome?_eq_none_iff.mp hl' u ((hmem u).mpr hu)
      rw [hext, hx] at hnone
      exact absurd hnone (Option.some_ne_none x)
    | some y =>
      obtain ⟨v, hv, hy⟩ := List.exists_of_findSome?_eq_some hl'
      rw [hext] at hy
      rw [hsame v ((hmem v).mp hv) u hu y x hy hx]

/-- In consistent packages the order of the use list does not matter. -/
theorem find_perm (h : Consistent s.packages) (name : String) (p : ℕ) {uses : List ℕ}
    (hperm : uses.Perm (s.packages p).uses) :
    findSymbolInner name p (s.modify p fun pack => { pack with uses := uses }) =
      findSymbolInner name p s := by
  have hself : (s.modify p fun pack => { pack with uses := uses }).packages p =
      { s.packages p with uses := uses } := Function.update_self _ _ _
  have hext : ∀ u, ((s.modify p fun pack => { pack with uses := uses }).packages u).external =
      (s.packages u).external := by
    intro u
    by_cases hu : u = p
    · rw [hu, hself]
    · exact congrArg Package.external (Function.update_of_ne hu _ _)
  unfold findSymbolInner
  rw [hself]
  dsimp only
  cases hnone : (s.packages p).external.gethash name with
  | some x => rfl
  | none => cases hnone' : (s.packages p).internal.gethash name with
    | some x => rfl
    | none =>
      rw [inherited_congr hext (fun u => hperm.mem_iff) fun u hu v hv y z hy hz => ?_]
      exact inherits_unique h (present_none.mpr ⟨hnone, hnone'⟩) ⟨u, hu, hy⟩ ⟨v, hv, hz⟩

/-- After any operations on consistent packages no name is in conflict in any package, and
find_symbol gives one answer for every order of the use list. -/
theorem packages_never_conflict (s : State) (h : Consistent s.packages) (ops : List Op) :
    Consistent (run s ops).packages ∧ (∀ q n, NoConflict (run s ops).packages q n) ∧
    ∀ q n (uses : List ℕ), uses.Perm ((run s ops).packages q).uses →
      findSymbolInner n q ((run s ops).modify q fun pack => { pack with uses := uses }) =
        findSymbolInner n q (run s ops) := by
  have hrun := run_keeps ops s h
  exact ⟨hrun, hrun.noConflict, fun q n uses => find_perm hrun n q⟩

/-- Packages as alloc_package makes them. -/
def allocPackage (name : String) : Package where
  name := some name
  internal := .empty
  external := .empty
  shadowings := []
  uses := []
  usedby := []
  locked := false

def fresh : State where
  packages p := allocPackage (toString p)
  home _ := none
  nextSymbol := 0
  ignoreLocks := false
  answers := []

theorem fresh_consistent : Consistent fresh.packages where
  used _ _ := by simp [fresh, allocPackage]
  notSelf _ := by simp [fresh, allocPackage]
  keywordUses := rfl
  keywordUsedby := rfl
  shadowing _ _ x hx := absurd hx List.not_mem_nil
  disjoint _ _ _ := Or.inl rfl
  noConflict q n := by
    refine Or.inr ⟨rfl, ?_⟩
    rintro y z ⟨u, hu, _⟩
    exact absurd hu List.not_mem_nil

def sharedName : List Op :=
  [.intern "X" 2, .clExport ⟨0, "X"⟩ 2, .intern "X" 3, .clExport ⟨1, "X"⟩ 3,
    .usePackage 2 4, .usePackage 3 4, .shadow "X" 4, .usePackage 3 4]

theorem packages_never_conflict_sharedName :
    ((run fresh (sharedName.take 6)).packages 4).uses = [2] ∧
    ((run fresh sharedName).packages 4).uses = [3, 2] ∧
    NoConflict (run fresh sharedName).packages 4 "X" :=
  ⟨by decide, by decide, (packages_never_conflict fresh fresh_consistent sharedName).2.1 4 "X"⟩

end Packages
