import Ecl.PackageConflicts

/-! The operations on the symbols of one package keep packages consistent, whether they return
or signal an error. -/
namespace Packages

variable {s : State} {p : ℕ}

@[simp] theorem Result.state_done (s : State) : (Result.done s).state = s := rfl

@[simp] theorem Result.state_failed (e : PackageError) (s : State) :
    (Result.failed e s).state = s := rfl

theorem present_none {pack : Package} {n : String} :
    present pack n = none ↔ pack.external.gethash n = none ∧ pack.internal.gethash n = none :=
  Option.or_eq_none_iff

theorem find_packages {s' : State} (h : s'.packages = s.packages) (name : String) (p : ℕ) :
    findSymbolInner name p s' = findSymbolInner name p s := by
  rw [findSymbolInner, findSymbolInner, h]

/-- What find_symbol_inner says of x by the flag it returns. -/
def Found (s : State) (p : ℕ) (name : String) (x : Symbol) : InternFlag → Prop
  | .external => (s.packages p).external.gethash name = some x
  | .internal => (s.packages p).external.gethash name = none ∧
      (s.packages p).internal.gethash name = some x
  | .inherited => present (s.packages p) name = none ∧ Inherits s.packages p name x

theorem find_some {name : String} {x : Symbol} {flag : InternFlag}
    (h : findSymbolInner name p s = some (x, flag)) : Found s p name x flag := by
  unfold findSymbolInner at h
  split at h
  case h_1 y hext =>
    obtain ⟨rfl, rfl⟩ := Prod.mk.inj (Option.some.inj h)
    exact hext
  case h_2 hext =>
    split at h
    case isTrue => exact absurd h (Option.some_ne_none _).symm
    case isFalse =>
      split at h
      case h_1 y hint =>
        obtain ⟨rfl, rfl⟩ := Prod.mk.inj (Option.some.inj h)
        exact ⟨hext, hint⟩
      case h_2 hint =>
        obtain ⟨y, hy, he⟩ := Option.map_eq_some_iff.mp h
        obtain ⟨rfl, rfl⟩ := Prod.mk.inj he
        exact ⟨present_none.mpr ⟨hext, hint⟩, List.exists_of_findSome?_eq_some hy⟩

theorem find_none (hp : p ≠ keywordPackage) {name : String}
    (h : findSymbolInner name p s = none) :
    present (s.packages p) name = none ∧ ∀ y, ¬ Inherits s.packages p name y := by
  unfold findSymbolInner at h
  split at h
  case h_1 => exact absurd h (Option.some_ne_none _)
  case h_2 hext =>
    rw [if_neg hp] at h
    split at h
    case h_1 => exact absurd h (Option.some_ne_none _)
    case h_2 hint =>
      refine ⟨present_none.mpr ⟨hext, hint⟩, ?_⟩
      rintro y ⟨u, hu, hy⟩
      have hu' := List.findSome?_eq_none_iff.mp (Option.map_eq_none_iff.mp h) u hu
      rw [hu'] at hy
      exact absurd hy (Option.some_ne_none y).symm

theorem find_present {name : String} {x : Symbol} {flag : InternFlag}
    (h : findSymbolInner name p s = some (x, flag)) (hflag : flag ≠ .inherited) :
    present (s.packages p) name = some x := by
  have hfound := find_some h
  cases flag with
  | external => exact Option.or_eq_some_iff.mpr (Or.inl hfound)
  | internal => exact Option.or_eq_some_iff.mpr (Or.inr hfound)
  | inherited => exact absurd rfl hflag

theorem present_none_of_find (hp : p ≠ keywordPackage) {name : String}
    (hint : ∀ x, findSymbolInner name p s ≠ some (x, .internal))
    (hext : ∀ x, findSymbolInner name p s ≠ some (x, .external)) :
    present (s.packages p) name = none := by
  cases hfind : findSymbolInner name p s with
  | none => exact (find_none hp hfind).1
  | some r =>
    obtain ⟨x, flag⟩ := r
    cases flag with
    | internal => exact absurd hfind (hint x)
    | external => exact absurd hfind (hext x)
    | inherited => exact (find_some hfind).1

theorem accepts_of_find (h : Consistent s.packages) (hp : p ≠ keywordPackage) {n : String}
    {y : Symbol}
    (hfind : ∀ x flag, findSymbolInner n p s = some (x, flag) →
      y = x ∨ x ∈ (s.packages p).shadowings) : Accepts s.packages p n y := by
  cases hf : findSymbolInner n p s with
  | none =>
    obtain ⟨hnone, hno⟩ := find_none hp hf
    constructor
    · intro x hx
      rw [hnone] at hx
      exact absurd hx (Option.some_ne_none x).symm
    · exact fun _ x hx => absurd hx (hno x)
  | some r =>
    obtain ⟨x, flag⟩ := r
    by_cases hflag : flag = .inherited
    · subst hflag
      obtain ⟨hnone, hin⟩ := find_some hf
      constructor
      · intro z hz
        rw [hnone] at hz
        exact absurd hz (Option.some_ne_none z).symm
      · intro _ z hz
        have hxz : x = z := by
          rcases h.noConflict p n with ⟨w, hw, _⟩ | ⟨_, hsame⟩
          · rw [hnone] at hw
            exact absurd hw (Option.some_ne_none w).symm
          · exact hsame x z hin hz
        rcases hfind x _ hf with hy | hsh
        · exact hy.trans hxz
        · have hpres := h.shadowing p hp x hsh
          obtain ⟨u, _, hu⟩ := hin
          rw [Table.gethash_name hu, hnone] at hpres
          exact absurd hpres (Option.some_ne_none x).symm
    · have hpres := find_present hf hflag
      constructor
      · intro z hz
        obtain rfl : x = z := Option.some.inj (hpres.symm.trans hz)
        exact hfind x flag hf
      · intro hnone
        rw [hnone] at hpres
        exact absurd hpres (Option.some_ne_none x).symm

theorem cePackageError_keeps {e : PackageError} {body : State → Result}
    (h : Consistent s.packages)
    (hbody : ∀ s', s'.packages = s.packages → Consistent (body s').state.packages) :
    Consistent (cePackageError e s body).state.packages := by
  unfold cePackageError
  split
  · exact hbody _ rfl
  · exact h

theorem checkLock_keeps {e : PackageError} {body : State → Result}
    (h : Consistent s.packages)
    (hbody : ∀ s', s'.packages = s.packages → Consistent (body s').state.packages) :
    Consistent (checkLock e p s body).state.packages := by
  unfold checkLock
  split
  · exact cePackageError_keeps h hbody
  · exact hbody s rfl

theorem addInternal_atName {P : ℕ → Package} (sym : Symbol) (h : Consistent P)
    (hp : p ≠ keywordPackage) (hnone : present (P p) sym.name = none)
    (hin : ∀ y, Inherits P p sym.name y → y = sym) :
    AtName P p sym.name { P p with internal := (P p).internal.sethash sym } := by
  obtain ⟨hext, hint⟩ := present_none.mp hnone
  constructor
  case external => exact fun n _ => rfl
  case internal =>
    intro n hn
    simp [Ne.symm hn]
  case shadowings => exact fun x _ => Iff.rfl
  case shadowing =>
    intro x hx hname
    have hpres := h.shadowing p hp x hx
    rw [hname, hnone] at hpres
    exact absurd hpres (Option.some_ne_none x).symm
  case disjoint => exact Or.inl hext
  case settled => exact Or.inl ⟨sym, by simp [present, hext], Or.inl hin⟩
  case exported =>
    intro y hy
    exact Or.inl hy

theorem intern_keeps (h : Consistent s.packages) (name : String) (p : ℕ) :
    Consistent (intern name p s).state.packages := by
  unfold intern
  split
  · exact h
  case _ hfind =>
    apply checkLock_keeps h
    intro s' hs'
    simp only [makeSymbol]
    split
    · exact consistent_atName name (hs' ▸ h) rfl rfl fun hp => absurd ‹_› hp
    case isFalse hp =>
      rw [← hs'] at h
      obtain ⟨hnone, hno⟩ := find_none hp ((find_packages hs' name p).trans hfind)
      refine consistent_atName name h rfl rfl fun _ => ?_
      exact addInternal_atName ⟨s'.nextSymbol, name⟩ h hp hnone
        fun y hy => absurd hy (hno y)

theorem potentialUninternConflict_none {name : String} {P : ℕ → Package}
    (h : potentialUninternConflict name (P p).uses P = none) {y z : Symbol}
    (hy : Inherits P p name y) (hz : Inherits P p name z) : y = z := by
  have hmem : ∀ w, Inherits P p name w →
      w ∈ (P p).uses.filterMap (fun u => (P u).external.gethash name) :=
    fun w hw => List.mem_filterMap.mpr hw
  have hy' := hmem y hy
  have hz' := hmem z hz
  unfold potentialUninternConflict at h
  split at h
  case h_1 hnil =>
    rw [hnil] at hy'
    exact absurd hy' List.not_mem_nil
  case h_2 x ys hcons =>
    rw [hcons] at hy' hz'
    have hall := List.find?_eq_none.mp (Option.map_eq_none_iff.mp h)
    have hx : ∀ w ∈ x :: ys, w = x := by
      intro w hw
      rcases List.mem_cons.mp hw with hw | hw
      · exact hw
      · exact (by simpa using hall w hw : x = w).symm
    rw [hx y hy', hx z hz']

theorem remove_atName {P : ℕ → Package} (h : Consistent P) (hp : p ≠ keywordPackage)
    {sym : Symbol} {pack : Package} (hpres : present (P p) sym.name = some sym)
    (hext : ∀ n, pack.external.gethash n =
      if sym.name = n then none else (P p).external.gethash n)
    (hint : ∀ n, pack.internal.gethash n =
      if sym.name = n then none else (P p).internal.gethash n)
    (hsh : ∀ x, x ∈ pack.shadowings ↔ x ∈ (P p).shadowings ∧ x ≠ sym)
    (hsame : ∀ y z, Inherits P p sym.name y → Inherits P p sym.name z → y = z) :
    AtName P p sym.name pack := by
  have hnone : present pack sym.name = none := by simp [present_none, hext, hint]
  constructor
  case external => exact fun n hn => (hext n).trans (if_neg (Ne.symm hn))
  case internal => exact fun n hn => (hint n).trans (if_neg (Ne.symm hn))
  case shadowings =>
    intro x hx
    rw [hsh]
    exact and_iff_left fun (he : x = sym) => hx (congrArg Symbol.name he)
  case shadowing =>
    intro x hx hname
    obtain ⟨hold, hne⟩ := (hsh x).mp hx
    have hxp := h.shadowing p hp x hold
    rw [hname, hpres] at hxp
    exact absurd (Option.some.inj hxp).symm hne
  case disjoint => exact Or.inl ((hext sym.name).trans (if_pos rfl))
  case settled => exact Or.inr ⟨hnone, hsame⟩
  case exported =>
    intro y hy
    rw [hext, if_pos rfl] at hy
    exact absurd hy (Option.some_ne_none y).symm

theorem shadow_atName {P : ℕ → Package} (sym : Symbol) (h : Consistent P)
    (hp : p ≠ keywordPackage) {pack : Package}
    (hext : ∀ n, n ≠ sym.name → pack.external.gethash n = (P p).external.gethash n)
    (hint : ∀ n, n ≠ sym.name → pack.internal.gethash n = (P p).internal.gethash n)
    (hpres : present pack sym.name = some sym)
    (hdisj : pack.external.gethash sym.name = none ∨ pack.internal.gethash sym.name = none)
    (hold : ∀ y, pack.external.gethash sym.name = some y →
      (P p).external.gethash sym.name = some y)
    (hsh : ∀ x, x ∈ pack.shadowings ↔
      x = sym ∨ x ∈ (P p).shadowings ∧ present (P p) sym.name ≠ some x) :
    AtName P p sym.name pack := by
  constructor
  case external => exact hext
  case internal => exact hint
  case shadowings =>
    intro x hx
    rw [hsh]
    constructor
    · rintro (rfl | ⟨hmem, _⟩)
      · exact absurd rfl hx
      · exact hmem
    · exact fun hmem => Or.inr ⟨hmem, fun hpx => hx (present_name hpx)⟩
  case shadowing =>
    intro x hx hname
    rcases (hsh x).mp hx with rfl | ⟨hmem, hne⟩
    · exact hpres
    · exact absurd (hname ▸ h.shadowing p hp x hmem) hne
  case disjoint => exact hdisj
  case settled => exact Or.inl ⟨sym, hpres, Or.inr ((hsh sym).mpr (Or.inl rfl))⟩
  case exported => exact fun y hy => Or.inl (hold y hy)

theorem present_of_stored {P : ℕ → Package} (h : Consistent P) (hp : p ≠ keywordPackage)
    {n : String} {x : Symbol}
    (hin : (P p).internal.gethash n = some x ∨ (P p).external.gethash n = some x) :
    present (P p) n = some x := by
  rcases hin with hint | hext
  · have hext := (h.disjoint p hp n).resolve_right (by simp [hint])
    simp [present, hext, hint]
  · simp [present, hext]

theorem unintern_atName {P : ℕ → Package} (h : Consistent P) (hp : p ≠ keywordPackage)
    {sym : Symbol} {shadowings : List Symbol}
    (hin : (P p).internal.gethash sym.name = some sym ∨
      (P p).external.gethash sym.name = some sym)
    (hsh : ∀ x, x ∈ shadowings ↔ x ∈ (P p).shadowings ∧ x ≠ sym)
    (hsame : ∀ y z, Inherits P p sym.name y → Inherits P p sym.name z → y = z) :
    AtName P p sym.name
      (if (P p).internal.gethash sym.name = some sym then
        { P p with shadowings := shadowings, internal := (P p).internal.remhash sym.name }
      else
        { P p with shadowings := shadowings, external := (P p).external.remhash sym.name }) := by
  have hpres := present_of_stored h hp hin
  split
  case isTrue hint =>
    have hext := (h.disjoint p hp sym.name).resolve_right (by simp [hint])
    refine remove_atName h hp hpres (fun n => ?_) (fun n => Table.gethash_remhash _ _ _) hsh hsame
    split
    case isTrue hn => rwa [← hn]
    case isFalse => rfl
  case isFalse hint =>
    have hext := hin.resolve_left hint
    have hnone := (h.disjoint p hp sym.name).resolve_left (by simp [hext])
    refine remove_atName h hp hpres (fun n => Table.gethash_remhash _ _ _) (fun n => ?_) hsh hsame
    split
    case isTrue hn => rwa [← hn]
    case isFalse => rfl

theorem unintern_keeps (h : Consistent s.packages) (sym : Symbol) (p : ℕ) :
    Consistent (unintern sym p s).state.packages := by
  unfold unintern
  apply checkLock_keeps h
  intro s' hs'
  rw [← hs'] at h
  dsimp only
  split
  case isTrue => exact h
  case isFalse hin =>
    have hin : (s'.packages p).internal.gethash sym.name = some sym ∨
        (s'.packages p).external.gethash sym.name = some sym := by tauto
    split
    case isTrue hmem =>
      split
      case h_1 => exact h
      case h_2 hnone =>
        refine consistent_atName sym.name h ?_ ?_ fun hp => ?_
        · split <;> rfl
        · split <;> rfl
        · exact unintern_atName h hp hin (by simp)
            fun _ _ => potentialUninternConflict_none hnone
    case isFalse hmem =>
      refine consistent_atName sym.name h ?_ ?_ fun hp => ?_
      · split <;> rfl
      · split <;> rfl
      · refine unintern_atName h hp hin (fun x => ?_) fun y z hy hz => ?_
        · exact (and_iff_left_of_imp fun hx (he : x = sym) => hmem (he ▸ hx)).symm
        · rcases h.noConflict p sym.name with ⟨x, hx, hsh⟩ | ⟨hnone, _⟩
          · obtain rfl : sym = x := Option.some.inj ((present_of_stored h hp hin).symm.trans hx)
            have hall := hsh.resolve_right hmem
            rw [hall y hy, hall z hz]
          · exact absurd ((present_of_stored h hp hin).symm.trans hnone) (Option.some_ne_none sym)

theorem inherits_unique {P : ℕ → Package} (h : Consistent P) {n : String}
    (hnone : present (P p) n = none) {y z : Symbol} (hy : Inherits P p n y)
    (hz : Inherits P p n z) : y = z := by
  rcases h.noConflict p n with ⟨x, hx, _⟩ | ⟨_, hsame⟩
  · exact absurd (hx.symm.trans hnone) (Option.some_ne_none x)
  · exact hsame y z hy hz

theorem clImport2_keeps (h : Consistent s.packages) (sym : Symbol) (p : ℕ) :
    Consistent (clImport2 sym p s).state.packages := by
  unfold clImport2
  apply checkLock_keeps h
  intro s' hs'
  rw [← hs'] at h
  dsimp only
  split
  case h_1 hfind =>
    refine consistent_atName sym.name h rfl rfl fun hp => ?_
    obtain ⟨hnone, hno⟩ := find_none hp hfind
    exact addInternal_atName _ h hp hnone fun y hy => absurd hy (hno y)
  case h_2 x flag hfind =>
    split
    case isTrue =>
      apply cePackageError_keeps h
      intro s'' hs''
      exact hs'' ▸ h
    case isFalse hx =>
      obtain rfl : x = sym := not_not.mp hx
      split
      case isTrue hflag =>
        subst hflag
        obtain ⟨hnone, hin⟩ := find_some hfind
        refine consistent_atName x.name h rfl rfl fun hp => ?_
        exact addInternal_atName _ h hp hnone fun y hy => inherits_unique h hnone hy hin
      case isFalse => exact h

theorem potentialExportConflict_none (h : Consistent s.packages) {name : String} {sym : Symbol}
    (hnone : potentialExportConflict name sym p s = none) (q : ℕ) (hq : p ∈ (s.packages q).uses) :
    Accepts s.packages q name sym := by
  have hk : q ≠ keywordPackage := by
    rintro rfl
    simp [h.keywordUses] at hq
  refine accepts_of_find h hk fun x flag hfind => ?_
  have hcheck := List.find?_eq_none.mp hnone q ((h.used q p).mp hq)
  simp only [hfind, Bool.and_eq_true, decide_eq_true_eq, not_and, not_not] at hcheck
  tauto

theorem clExport_atName {P : ℕ → Package} (h : Consistent P) (hp : p ≠ keywordPackage)
    {sym : Symbol} {internal : Table}
    (hint : ∀ n, n ≠ sym.name → internal.gethash n = (P p).internal.gethash n)
    (hgone : internal.gethash sym.name = none)
    (haccess : present (P p) sym.name = some sym ∨
      present (P p) sym.name = none ∧ Inherits P p sym.name sym)
    (husers : ∀ q, p ∈ (P q).uses → Accepts P q sym.name sym) :
    AtName P p sym.name
      { P p with internal := internal, external := (P p).external.sethash sym } := by
  have hpres : ∀ pack : Package, pack.external = (P p).external.sethash sym →
      present pack sym.name = some sym := by
    intro pack hpack
    simp [present, hpack]
  constructor
  case external =>
    intro n hn
    simp [Ne.symm hn]
  case internal => exact hint
  case shadowings => exact fun x _ => Iff.rfl
  case shadowing =>
    intro x hx hname
    have hxp := h.shadowing p hp x hx
    rw [hname] at hxp
    rcases haccess with hold | ⟨hnone, _⟩
    · exact (hpres _ rfl).trans (hold.symm.trans hxp)
    · exact absurd (hxp.symm.trans hnone) (Option.some_ne_none x)
  case disjoint => exact Or.inr hgone
  case settled =>
    refine Or.inl ⟨sym, hpres _ rfl, ?_⟩
    rcases haccess with hold | ⟨hnone, hin⟩
    · rcases h.noConflict p sym.name with ⟨x, hx, hsh⟩ | ⟨hnone, _⟩
      · obtain rfl : sym = x := Option.some.inj (hold.symm.trans hx)
        exact hsh
      · exact absurd (hold.symm.trans hnone) (Option.some_ne_none sym)
    · exact Or.inl fun y hy => inherits_unique h hnone hy hin
  case exported =>
    intro y hy
    rw [Table.gethash_sethash, if_pos rfl] at hy
    obtain rfl : sym = y := Option.some.inj hy
    exact Or.inr husers

theorem exportAgain_keeps (sym : Symbol) (p n : ℕ) :
    ∀ s : State, Consistent s.packages → Consistent (exportAgain sym p n s).state.packages := by
  induction n with
  | zero => exact fun s h => h
  | succ n ih =>
    intro s h
    unfold exportAgain
    split
    case h_1 =>
      apply cePackageError_keeps h
      intro s' hs'
      have himport := clImport2_keeps (hs' ▸ h) sym p
      split
      case h_1 hdone => exact ih _ (by rwa [hdone] at himport)
      case h_2 => exact himport
    case h_2 x flag hfind =>
      split
      case isTrue => exact h
      case isFalse hx =>
        obtain rfl : x = sym := not_not.mp hx
        split
        case isTrue => exact h
        case isFalse hflag =>
          split
          case h_1 => exact h
          case h_2 hnone =>
            refine consistent_atName x.name h rfl rfl fun hp => ?_
            have husers := potentialExportConflict_none h hnone
            have hfound := find_some hfind
            cases flag with
            | external => exact absurd rfl hflag
            | internal =>
              refine clExport_atName h hp (fun n hn => ?_) ?_
                (Or.inl (find_present hfind (by decide))) husers
              · simp [Ne.symm hn]
              · simp
            | inherited =>
              exact clExport_atName h hp (fun n _ => rfl) (present_none.mp hfound.1).2
                (Or.inr hfound) husers

theorem settled_of_present {P : ℕ → Package} (h : Consistent P) {n : String} {pack : Package}
    (hpres : present pack n = present (P p) n) (hsh : pack.shadowings = (P p).shadowings) :
    Settled P p pack n := by
  rcases h.noConflict p n with ⟨x, hx, hold⟩ | ⟨hnone, hsame⟩
  · exact Or.inl ⟨x, hpres.trans hx, hsh ▸ hold⟩
  · exact Or.inr ⟨hpres.trans hnone, hsame⟩

theorem clUnexport2_keeps (h : Consistent s.packages) (sym : Symbol) (p : ℕ) :
    Consistent (clUnexport2 sym p s).state.packages := by
  unfold clUnexport2
  split
  case isTrue => exact h
  case isFalse hp =>
    apply checkLock_keeps h
    intro s' hs'
    rw [← hs'] at h
    split
    case h_1 => exact h
    case h_2 x flag hfind =>
      split
      case isTrue => exact h
      case isFalse hx =>
        obtain rfl : x = sym := not_not.mp hx
        split
        case isTrue => exact h
        case isFalse hflag =>
          obtain rfl : flag = .external := not_not.mp hflag
          have hold := find_present hfind (by decide)
          refine consistent_atName x.name h rfl rfl fun _ => ?_
          constructor
          case external =>
            intro n hn
            simp [Ne.symm hn]
          case internal =>
            intro n hn
            simp [Ne.symm hn]
          case shadowings => exact fun y _ => Iff.rfl
          case shadowing =>
            intro y hy hname
            have hyp := h.shadowing p hp y hy
            rw [hname, hold] at hyp
            simp [present, Option.some.inj hyp]
          case disjoint => simp
          case settled =>
            refine settled_of_present h ?_ rfl
            rw [hold]
            simp [present]
          case exported => simp

theorem mem_push {x y : Symbol} {l : List Symbol} :
    y ∈ (if x ∈ l then l else x :: l) ↔ y = x ∨ y ∈ l := by
  split
  case isTrue hx => exact ⟨Or.inr, fun h => h.elim (fun he => he ▸ hx) id⟩
  case isFalse => exact List.mem_cons

theorem push_atName {P : ℕ → Package} (h : Consistent P) (hp : p ≠ keywordPackage) {x : Symbol}
    (hpres : present (P p) x.name = some x) :
    AtName P p x.name { P p with
      shadowings := if x ∈ (P p).shadowings then (P p).shadowings
        else x :: (P p).shadowings } := by
  refine shadow_atName _ h hp (fun _ _ => rfl) (fun _ _ => rfl) hpres (h.disjoint p hp x.name)
    (fun _ hy => hy) fun y => ?_
  rw [mem_push, hpres]
  by_cases hy : y = x
  · simp [hy]
  · simp [hy, Ne.symm hy]

theorem shadow_keeps (h : Consistent s.packages) (name : String) (p : ℕ) :
    Consistent (shadow name p s).state.packages := by
  unfold shadow
  apply checkLock_keeps h
  intro s' hs'
  rw [← hs'] at h
  have hpush : ∀ x flag, findSymbolInner name p s' = some (x, flag) → flag ≠ .inherited →
      p ≠ keywordPackage → present (s'.packages p) x.name = some x := by
    intro x flag hfind hflag _
    have hpres := find_present hfind hflag
    rwa [present_name hpres]
  dsimp only
  split
  case h_1 x hfind =>
    exact consistent_atName x.name h rfl rfl fun hp =>
      push_atName h hp (hpush x _ hfind (by decide) hp)
  case h_2 x hfind =>
    exact consistent_atName x.name h rfl rfl fun hp =>
      push_atName h hp (hpush x _ hfind (by decide) hp)
  case h_3 hno hno' =>
    refine consistent_atName name h rfl rfl fun hp => ?_
    have hnone := present_none_of_find hp hno hno'
    obtain ⟨hext, hint⟩ := present_none.mp hnone
    refine shadow_atName ⟨s'.nextSymbol, name⟩ h hp (fun _ _ => rfl) (fun n hn => ?_) ?_
      (Or.inl hext) (fun _ hy => hy) fun y => ?_
    · simp [makeSymbol, Ne.symm hn]
    · simp [present, makeSymbol, hext]
    · refine mem_push.trans ?_
      simp [makeSymbol, hnone]

theorem shadowingImport_keeps (h : Consistent s.packages) (sym : Symbol) (p : ℕ) :
    Consistent (shadowingImport sym p s).state.packages := by
  unfold shadowingImport
  apply checkLock_keeps h
  intro s' hs'
  rw [← hs'] at h
  -- the symbol of the name, when there is another one, leaves first
  have hreplace : ∀ x flag, findSymbolInner sym.name p s' = some (x, flag) →
      flag ≠ .inherited → ∀ y, y ∈ sym :: (s'.packages p).shadowings.filter (· ≠ x) ↔
        y = sym ∨ y ∈ (s'.packages p).shadowings ∧
          present (s'.packages p) sym.name ≠ some y := by
    intro x flag hfind hflag y
    rw [find_present hfind hflag, List.mem_cons, List.mem_filter]
    simp [Ne, eq_comm (a := x)]
  dsimp only
  split
  case h_1 x hfind =>
    have hpres := find_present hfind (by decide)
    split
    case isTrue hx =>
      subst hx
      exact consistent_atName x.name h rfl rfl fun hp => push_atName h hp hpres
    case isFalse hx =>
      have hext := (find_some hfind).1
      refine consistent_atName sym.name h rfl rfl fun hp => ?_
      refine shadow_atName _ h hp (fun _ _ => rfl) (fun n hn => ?_) ?_ (Or.inl hext)
        (fun _ hy => hy) (hreplace x _ hfind (by decide))
      · simp [State.removeHome, Ne.symm hn]
      · simp [present, State.removeHome, hext]
  case h_2 x hfind =>
    have hpres := find_present hfind (by decide)
    split
    case isTrue hx =>
      subst hx
      exact consistent_atName x.name h rfl rfl fun hp => push_atName h hp hpres
    case isFalse hx =>
      refine consistent_atName sym.name h rfl rfl fun hp => ?_
      refine shadow_atName _ h hp (fun n hn => ?_) (fun n hn => ?_) ?_ (Or.inl ?_) (fun y hy => ?_)
        (hreplace x _ hfind (by decide))
      · simp [State.removeHome, Ne.symm hn]
      · simp [State.removeHome, Ne.symm hn]
      · simp [present, State.removeHome]
      · simp
      · simp at hy
  case h_3 hno hno' =>
    refine consistent_atName sym.name h rfl rfl fun hp => ?_
    have hnone := present_none_of_find hp hno hno'
    obtain ⟨hext, hint⟩ := present_none.mp hnone
    refine shadow_atName _ h hp (fun _ _ => rfl) (fun n hn => ?_) ?_ (Or.inl hext)
      (fun _ hy => hy) fun y => ?_
    · simp [Ne.symm hn]
    · simp [present, hext]
    · simp [hnone]

end Packages
