import Ecl.Packages

/-! What a package system without name conflicts is, and how a change of one package at one
name keeps it. -/
namespace Packages

theorem Table.gethash_iff (t : Table) (n : String) (x : Symbol) :
    t.gethash n = some x ↔ x ∈ t.entries ∧ x.name = n := by
  constructor
  · intro h
    exact ⟨List.mem_of_find?_eq_some h, by simpa using List.find?_some h⟩
  · rintro ⟨hx, rfl⟩
    cases hg : t.gethash x.name with
    | none =>
      have hne := List.find?_eq_none.mp hg x hx
      simp at hne
    | some y =>
      have hname : y.name = x.name := by simpa using List.find?_some hg
      have hy : y ∈ t.entries := List.mem_of_find?_eq_some hg
      rw [List.inj_on_of_nodup_map t.distinct hy hx hname]

theorem Table.gethash_name {t : Table} {n : String} {x : Symbol} (h : t.gethash n = some x) :
    x.name = n := ((t.gethash_iff n x).mp h).2

@[simp] theorem Table.gethash_empty (n : String) : Table.empty.gethash n = none := rfl

@[simp] theorem Table.gethash_remhash (t : Table) (m n : String) :
    (t.remhash m).gethash n = if m = n then none else t.gethash n := by
  apply Option.ext
  intro x
  rw [Table.gethash_iff]
  by_cases hm : m = n
  · simp only [Table.remhash, List.mem_filter, hm, if_pos]
    simp
  · rw [if_neg hm, Table.gethash_iff]
    simp only [Table.remhash, List.mem_filter, decide_not, Bool.not_eq_true']
    constructor
    · exact fun h => ⟨h.1.1, h.2⟩
    · rintro ⟨hx, rfl⟩
      exact ⟨⟨hx, by simpa using fun h => hm h.symm⟩, rfl⟩

@[simp] theorem Table.gethash_sethash (t : Table) (s : Symbol) (n : String) :
    (t.sethash s).gethash n = if s.name = n then some s else t.gethash n := by
  by_cases hn : s.name = n
  · rw [if_pos hn, Table.gethash_iff]
    exact ⟨List.mem_cons_self, hn⟩
  · have hrem := Table.gethash_remhash t s.name n
    rw [if_neg hn] at hrem ⊢
    rw [← hrem]
    simp [Table.gethash, Table.sethash, hn]

theorem State.relink_packages (s : State) (p x : ℕ) (uses usedby : List ℕ) (q : ℕ) :
    (s.relink p x uses usedby).packages q =
      { s.packages q with
        uses := if q = p then uses else (s.packages q).uses
        usedby := if q = x then usedby else (s.packages q).usedby } := by
  by_cases hx : q = x <;> by_cases hp : q = p <;> by_cases hxp : x = p <;>
    simp_all [State.relink, State.modify]

theorem State.relink_uses (s : State) (p x : ℕ) (uses usedby : List ℕ) (q : ℕ) :
    ((s.relink p x uses usedby).packages q).uses = if q = p then uses else (s.packages q).uses := by
  rw [State.relink_packages]

theorem State.relink_usedby (s : State) (p x : ℕ) (uses usedby : List ℕ) (q : ℕ) :
    ((s.relink p x uses usedby).packages q).usedby =
      if q = x then usedby else (s.packages q).usedby := by
  rw [State.relink_packages]

theorem State.relink_tables (s : State) (p x : ℕ) (uses usedby : List ℕ) (q : ℕ) :
    ((s.relink p x uses usedby).packages q).external = (s.packages q).external ∧
      ((s.relink p x uses usedby).packages q).internal = (s.packages q).internal ∧
      ((s.relink p x uses usedby).packages q).shadowings = (s.packages q).shadowings := by
  rw [State.relink_packages]
  exact ⟨rfl, rfl, rfl⟩

def present (pack : Package) (name : String) : Option Symbol :=
  (pack.external.gethash name).or (pack.internal.gethash name)

theorem present_name {pack : Package} {n : String} {x : Symbol} (h : present pack n = some x) :
    x.name = n := by
  rcases Option.or_eq_some_iff.mp h with h | ⟨_, h⟩
  · exact Table.gethash_name h
  · exact Table.gethash_name h

def Inherits (P : ℕ → Package) (p : ℕ) (name : String) (y : Symbol) : Prop :=
  ∃ u ∈ (P p).uses, (P u).external.gethash name = some y

def Settled (P : ℕ → Package) (p : ℕ) (pack : Package) (name : String) : Prop :=
  (∃ x, present pack name = some x ∧
    ((∀ y, Inherits P p name y → y = x) ∨ x ∈ pack.shadowings)) ∨
  (present pack name = none ∧ ∀ y z, Inherits P p name y → Inherits P p name z → y = z)

def NoConflict (P : ℕ → Package) (q : ℕ) (name : String) : Prop := Settled P q (P q) name

/-- The absence of conflicts with what it rests on. The keyword package is neither used nor
using, so nothing is asked of its tables. -/
structure Consistent (P : ℕ → Package) : Prop where
  used : ∀ p x, x ∈ (P p).uses ↔ p ∈ (P x).usedby
  notSelf : ∀ p, p ∉ (P p).uses
  keywordUses : (P keywordPackage).uses = []
  keywordUsedby : (P keywordPackage).usedby = []
  shadowing : ∀ p, p ≠ keywordPackage → ∀ x ∈ (P p).shadowings, present (P p) x.name = some x
  disjoint : ∀ p, p ≠ keywordPackage → ∀ n,
    (P p).external.gethash n = none ∨ (P p).internal.gethash n = none
  noConflict : ∀ q n, NoConflict P q n

def Accepts (P : ℕ → Package) (q : ℕ) (n : String) (y : Symbol) : Prop :=
  (∀ x, present (P q) n = some x → y = x ∨ x ∈ (P q).shadowings) ∧
  (present (P q) n = none → ∀ x, Inherits P q n x → y = x)

structure Fits (P : ℕ → Package) (p : ℕ) (pack : Package) : Prop where
  shadowing : ∀ x ∈ pack.shadowings, present pack x.name = some x
  disjoint : ∀ n, pack.external.gethash n = none ∨ pack.internal.gethash n = none
  settled : ∀ n, Settled P p pack n
  exported : ∀ n y, pack.external.gethash n = some y →
    (P p).external.gethash n = some y ∨ ∀ q, p ∈ (P q).uses → Accepts P q n y

variable {P : ℕ → Package} {p : ℕ} {pack : Package}

theorem not_used_keyword (h : Consistent P) (q : ℕ) : keywordPackage ∉ (P q).uses := by
  rw [h.used, h.keywordUsedby]
  exact List.not_mem_nil

theorem inherits_keyword (h : Consistent P) (n : String) (y : Symbol) :
    ¬ Inherits P keywordPackage n y := by
  rintro ⟨u, hu, _⟩
  simp [h.keywordUses] at hu

theorem inherits_update_self (h : Consistent P) (huses : pack.uses = (P p).uses) (n : String)
    (y : Symbol) : Inherits (Function.update P p pack) p n y ↔ Inherits P p n y := by
  have hfar : ∀ u ∈ (P p).uses, Function.update P p pack u = P u := by
    intro u hu
    refine Function.update_of_ne (fun he => ?_) _ _
    rw [he] at hu
    exact h.notSelf p hu
  constructor
  · rintro ⟨u, hu, hy⟩
    rw [Function.update_self, huses] at hu
    exact ⟨u, hu, by rwa [hfar u hu] at hy⟩
  · rintro ⟨u, hu, hy⟩
    refine ⟨u, ?_, by rwa [hfar u hu]⟩
    rwa [Function.update_self, huses]

theorem inherits_update_of_ne (hfit : Fits P p pack) {q : ℕ} (hq : q ≠ p) {n : String}
    {y : Symbol} (hy : Inherits (Function.update P p pack) q n y) :
    Inherits P q n y ∨ Accepts P q n y := by
  obtain ⟨u, hu, hy⟩ := hy
  rw [Function.update_of_ne hq] at hu
  by_cases hup : u = p
  · subst hup
    rw [Function.update_self] at hy
    rcases hfit.exported n y hy with hold | hnew
    · exact Or.inl ⟨u, hu, hold⟩
    · exact Or.inr (hnew q hu)
  · rw [Function.update_of_ne hup] at hy
    exact Or.inl ⟨u, hu, hy⟩

theorem settled_of_accepted {P' : ℕ → Package} {q : ℕ} {n : String}
    (h : NoConflict P q n)
    (hin : ∀ y, Inherits P' q n y → Inherits P q n y ∨ Accepts P q n y)
    (hone : ∀ y z, Inherits P' q n y → Inherits P' q n z → ¬ Inherits P q n y →
      ¬ Inherits P q n z → y = z) : Settled P' q (P q) n := by
  rcases h with ⟨x, hx, hsh⟩ | ⟨hnone, hsame⟩
  · refine Or.inl ⟨x, hx, ?_⟩
    by_cases hmem : x ∈ (P q).shadowings
    · exact Or.inr hmem
    · refine Or.inl fun y hy => ?_
      rcases hin y hy with hold | hacc
      · exact (hsh.resolve_right hmem) y hold
      · exact (hacc.1 x hx).resolve_right hmem
  · refine Or.inr ⟨hnone, fun y z hy hz => ?_⟩
    by_cases hyo : Inherits P q n y
    · rcases hin z hz with hzo | hacc
      · exact hsame y z hyo hzo
      · exact (hacc.2 hnone y hyo).symm
    · by_cases hzo : Inherits P q n z
      · exact ((hin y hy).resolve_left hyo).2 hnone z hzo
      · exact hone y z hy hz hyo hzo

theorem consistent_update (h : Consistent P) (huses : pack.uses = (P p).uses)
    (husedby : pack.usedby = (P p).usedby) (hfit : p ≠ keywordPackage → Fits P p pack) :
    Consistent (Function.update P p pack) := by
  have hus : ∀ q, (Function.update P p pack q).uses = (P q).uses := by
    intro q
    by_cases hq : q = p
    · rw [hq, Function.update_self, huses]
    · rw [Function.update_of_ne hq]
  have hby : ∀ q, (Function.update P p pack q).usedby = (P q).usedby := by
    intro q
    by_cases hq : q = p
    · rw [hq, Function.update_self, husedby]
    · rw [Function.update_of_ne hq]
  constructor
  case used =>
    intro q x
    rw [hus, hby, h.used]
  case notSelf =>
    intro q
    rw [hus]
    exact h.notSelf q
  case keywordUses => rw [hus, h.keywordUses]
  case keywordUsedby => rw [hby, h.keywordUsedby]
  case shadowing =>
    intro q hq
    by_cases hqp : q = p
    · subst hqp
      rw [Function.update_self]
      exact (hfit hq).shadowing
    · rw [Function.update_of_ne hqp]
      exact h.shadowing q hq
  case disjoint =>
    intro q hq
    by_cases hqp : q = p
    · subst hqp
      rw [Function.update_self]
      exact (hfit hq).disjoint
    · rw [Function.update_of_ne hqp]
      exact h.disjoint q hq
  case noConflict =>
    intro q n
    by_cases hqp : q = p
    · subst hqp
      unfold NoConflict Settled
      rw [Function.update_self]
      simp only [inherits_update_self h huses]
      by_cases hk : q = keywordPackage
      · subst hk
        cases hx : present pack n with
        | none => exact Or.inr ⟨rfl, fun y _ hy => absurd hy (inherits_keyword h n y)⟩
        | some x => exact Or.inl ⟨x, rfl, Or.inl fun y hy => absurd hy (inherits_keyword h n y)⟩
      · exact (hfit hk).settled n
    · unfold NoConflict
      rw [Function.update_of_ne hqp]
      by_cases hk : p = keywordPackage
      · -- nobody uses the keyword package
        have hsame : ∀ y, Inherits (Function.update P p pack) q n y → Inherits P q n y := by
          rintro y ⟨u, hu, hy⟩
          rw [Function.update_of_ne hqp] at hu
          have hup : u ≠ p := fun he => not_used_keyword h q (hk ▸ he ▸ hu)
          exact ⟨u, hu, by rwa [Function.update_of_ne hup] at hy⟩
        refine settled_of_accepted (h.noConflict q n) (fun y hy => Or.inl (hsame y hy)) ?_
        exact fun y z hy _ hny _ => absurd (hsame y hy) hny
      · refine settled_of_accepted (h.noConflict q n)
          (fun y hy => inherits_update_of_ne (hfit hk) hqp hy) ?_
        -- a symbol newly inherited comes from p, which has one external symbol of the name
        have hnew : ∀ y, Inherits (Function.update P p pack) q n y → ¬ Inherits P q n y →
            pack.external.gethash n = some y := by
          rintro y ⟨u, hu, hy⟩ hold
          rw [Function.update_of_ne hqp] at hu
          by_cases hup : u = p
          · rwa [hup, Function.update_self] at hy
          · rw [Function.update_of_ne hup] at hy
            exact absurd ⟨u, hu, hy⟩ hold
        intro y z hy hz hny hnz
        exact Option.some.inj ((hnew y hy hny).symm.trans (hnew z hz hnz))

structure AtName (P : ℕ → Package) (p : ℕ) (name : String) (pack : Package) : Prop where
  external : ∀ n, n ≠ name → pack.external.gethash n = (P p).external.gethash n
  internal : ∀ n, n ≠ name → pack.internal.gethash n = (P p).internal.gethash n
  shadowings : ∀ x, x.name ≠ name → (x ∈ pack.shadowings ↔ x ∈ (P p).shadowings)
  shadowing : ∀ x ∈ pack.shadowings, x.name = name → present pack name = some x
  disjoint : pack.external.gethash name = none ∨ pack.internal.gethash name = none
  settled : Settled P p pack name
  exported : ∀ y, pack.external.gethash name = some y →
    (P p).external.gethash name = some y ∨ ∀ q, p ∈ (P q).uses → Accepts P q name y

theorem AtName.present_eq {name : String} (hat : AtName P p name pack) {n : String}
    (hn : n ≠ name) : present pack n = present (P p) n := by
  rw [present, present, hat.external n hn, hat.internal n hn]

theorem AtName.fits {name : String} (hat : AtName P p name pack) (h : Consistent P)
    (hp : p ≠ keywordPackage) : Fits P p pack := by
  constructor
  case shadowing =>
    intro x hx
    by_cases hn : x.name = name
    · rw [hn]
      exact hat.shadowing x hx hn
    · rw [hat.present_eq hn]
      exact h.shadowing p hp x ((hat.shadowings x hn).mp hx)
  case disjoint =>
    intro n
    by_cases hn : n = name
    · rw [hn]
      exact hat.disjoint
    · rw [hat.external n hn, hat.internal n hn]
      exact h.disjoint p hp n
  case settled =>
    intro n
    by_cases hn : n = name
    · rw [hn]
      exact hat.settled
    · rcases h.noConflict p n with ⟨x, hx, hsh⟩ | hnone
      · refine Or.inl ⟨x, (hat.present_eq hn).trans hx, hsh.imp id fun hmem => ?_⟩
        exact (hat.shadowings x (by rwa [present_name hx])).mpr hmem
      · exact Or.inr (by rwa [hat.present_eq hn])
  case exported =>
    intro n y hy
    by_cases hn : n = name
    · subst hn
      exact hat.exported y hy
    · exact Or.inl (by rwa [hat.external n hn] at hy)

theorem consistent_atName (name : String) (h : Consistent P) (huses : pack.uses = (P p).uses)
    (husedby : pack.usedby = (P p).usedby) (hat : p ≠ keywordPackage → AtName P p name pack) :
    Consistent (Function.update P p pack) :=
  consistent_update h huses husedby fun hp => (hat hp).fits h hp

end Packages
