import Ecl.ObjectEquality
import Ecl.SerializerCursor

/-! The keys of the hash table of the writer are compared by EQL, which finds the same parts in
the same numbers. -/
namespace Serializer

open BreadthFirst

/-- The cases of ecl_eql for two objects of one type. -/
def eqlNumbers {R : Type} (eql : R → R → Bool) : Obj R → Obj R → Bool
  | .bignum z, .bignum z' => z = z'
  | .ratio den num, .ratio den' num' => eql num num' && eql den den'
  | .singlefloat bits, .singlefloat bits' => Objects.floatEql .single bits bits'
  | .longfloat low high, .longfloat low' high' =>
    Objects.floatEql .long (low + 2 ^ 64 * (high % 2 ^ 16)) (low' + 2 ^ 64 * (high' % 2 ^ 16))
  | .doublefloat bits, .doublefloat bits' => Objects.floatEql .double bits bits'
  | .complex real imag, .complex real' imag' => eql real real' && eql imag imag'
  | _, _ => false

section
variable {A : Type} [DecidableEq A]

/-- ecl_eql, for numbers whose parts nest at most depth deep. -/
def eclEql (heap : A → Obj (Ref A)) : ℕ → Ref A → Ref A → Bool
  | 0, x, y => x = y
  | depth + 1, x, y =>
    if x = y then true
    else
      match x, y with
      | .object a, .object b => eqlNumbers (eclEql heap depth) (heap a) (heap b)
      | _, _ => false

end

section numbers
variable {R : Type} {eql eql' : R → R → Bool} {o o' o'' : Obj R}

/-- The pairs of objects for which eqlNumbers gives true. -/
inductive EqlNumbers (eql : R → R → Bool) : Obj R → Obj R → Prop where
  | bignum (z : ℤ) : EqlNumbers eql (.bignum z) (.bignum z)
  | ratio {den num den' num' : R} (hnum : eql num num') (hden : eql den den') :
      EqlNumbers eql (.ratio den num) (.ratio den' num')
  | singlefloat {bits bits' : ℕ} (h : Objects.floatEql .single bits bits') :
      EqlNumbers eql (.singlefloat bits) (.singlefloat bits')
  | longfloat {low high low' high' : ℕ}
      (h : Objects.floatEql .long (low + 2 ^ 64 * (high % 2 ^ 16)) (low' + 2 ^ 64 * (high' % 2 ^ 16))) :
      EqlNumbers eql (.longfloat low high) (.longfloat low' high')
  | doublefloat {bits bits' : ℕ} (h : Objects.floatEql .double bits bits') :
      EqlNumbers eql (.doublefloat bits) (.doublefloat bits')
  | complex {real imag real' imag' : R} (hreal : eql real real') (himag : eql imag imag') :
      EqlNumbers eql (.complex real imag) (.complex real' imag')

theorem eqlNumbers_iff : eqlNumbers eql o o' ↔ EqlNumbers eql o o' := by
  constructor
  · fun_cases eqlNumbers eql o o' with
    | case1 z z' =>
      intro h
      obtain rfl := of_decide_eq_true h
      exact .bignum z
    | case2 den num den' num' =>
      intro h
      rw [Bool.and_eq_true] at h
      exact .ratio h.1 h.2
    | case3 bits bits' => exact .singlefloat
    | case4 low high low' high' => exact .longfloat
    | case5 bits bits' => exact .doublefloat
    | case6 real imag real' imag' =>
      intro h
      rw [Bool.and_eq_true] at h
      exact .complex h.1 h.2
    | case7 => exact fun h => by cases h
  · intro h
    cases h with
    | bignum z => exact decide_eq_true rfl
    | ratio hnum hden => exact Bool.and_eq_true_iff.mpr ⟨hnum, hden⟩
    | singlefloat h => exact h
    | longfloat h => exact h
    | doublefloat h => exact h
    | complex hreal himag => exact Bool.and_eq_true_iff.mpr ⟨hreal, himag⟩

theorem eqlNumbers_symm (heql : ∀ x y, eql x y → eql y x) (h : eqlNumbers eql o o') :
    eqlNumbers eql o' o := by
  rw [eqlNumbers_iff] at h ⊢
  cases h with
  | bignum z => exact .bignum z
  | ratio hnum hden => exact .ratio (heql _ _ hnum) (heql _ _ hden)
  | singlefloat h => exact .singlefloat (Objects.floatEql_symm h)
  | longfloat h => exact .longfloat (Objects.floatEql_symm h)
  | doublefloat h => exact .doublefloat (Objects.floatEql_symm h)
  | complex hreal himag => exact .complex (heql _ _ hreal) (heql _ _ himag)

theorem eqlNumbers_mono (heql : ∀ x y, eql x y → eql' x y) (h : eqlNumbers eql o o') :
    eqlNumbers eql' o o' := by
  rw [eqlNumbers_iff] at h ⊢
  cases h with
  | bignum z => exact .bignum z
  | ratio hnum hden => exact .ratio (heql _ _ hnum) (heql _ _ hden)
  | singlefloat h => exact .singlefloat h
  | longfloat h => exact .longfloat h
  | doublefloat h => exact .doublefloat h
  | complex hreal himag => exact .complex (heql _ _ hreal) (heql _ _ himag)

theorem eqlNumbers_trans (heql : ∀ x y z, eql x y → eql y z → eql x z)
    (h : eqlNumbers eql o o') (h' : eqlNumbers eql o' o'') : eqlNumbers eql o o'' := by
  rw [eqlNumbers_iff] at h h' ⊢
  cases h with
  | bignum z => exact h'
  | ratio hnum hden =>
    cases h' with
    | ratio hnum' hden' => exact .ratio (heql _ _ _ hnum hnum') (heql _ _ _ hden hden')
  | singlefloat h =>
    cases h' with
    | singlefloat h' => exact .singlefloat (Objects.floatEql_trans h h')
  | longfloat h =>
    cases h' with
    | longfloat h' => exact .longfloat (Objects.floatEql_trans h h')
  | doublefloat h =>
    cases h' with
    | doublefloat h' => exact .doublefloat (Objects.floatEql_trans h h')
  | complex hreal himag =>
    cases h' with
    | complex hreal' himag' => exact .complex (heql _ _ _ hreal hreal') (heql _ _ _ himag himag')

theorem eqlNumbers_fields {A : Type} {eql : Ref A → Ref A → Bool} {o o' : Obj (Ref A)}
    (h : eqlNumbers eql o o') : ∀ r ∈ o.plain.fields, ∃ r' ∈ o'.plain.fields, eql r r' := by
  rw [eqlNumbers_iff] at h
  intro r hr
  cases h with
  | ratio hnum hden =>
    rcases List.mem_pair.mp hr with rfl | rfl
    · exact ⟨_, List.mem_cons_self, hden⟩
    · exact ⟨_, List.mem_cons_of_mem _ List.mem_cons_self, hnum⟩
  | complex hreal himag =>
    rcases List.mem_pair.mp hr with rfl | rfl
    · exact ⟨_, List.mem_cons_self, hreal⟩
    · exact ⟨_, List.mem_cons_of_mem _ List.mem_cons_self, himag⟩
  | _ => exact nomatch hr

/-- Objects of the other types are EQL only if they are identical. -/
def Obj.isNumber : Obj R → Bool
  | .bignum _ | .ratio _ _ | .singlefloat _ | .doublefloat _ | .longfloat _ _ | .complex _ _ => true
  | _ => false

theorem eqlNumbers_isNumber (h : eqlNumbers eql o o') : o.isNumber ∧ o'.isNumber := by
  rw [eqlNumbers_iff] at h
  cases h <;> exact ⟨rfl, rfl⟩

end numbers

section objects
variable {A : Type} [DecidableEq A] {heap : A → Obj (Ref A)} {depth : ℕ} {x y z : Ref A}

theorem eclEql_refl (heap : A → Obj (Ref A)) (depth : ℕ) (x : Ref A) : eclEql heap depth x x := by
  cases depth <;> simp [eclEql]

theorem eclEql_cases (h : eclEql heap (depth + 1) x y) :
    x = y ∨ ∃ a b, x = .object a ∧ y = .object b ∧
      eqlNumbers (eclEql heap depth) (heap a) (heap b) := by
  by_cases heq : x = y
  · exact Or.inl heq
  · cases x with
    | object a =>
      cases y with
      | object b => exact Or.inr ⟨a, b, rfl, rfl, by simpa [eclEql, heq] using h⟩
      | _ => simp [eclEql] at h
    | _ => simp [eclEql, heq] at h

theorem eclEql_objects {a b : A} (h : eqlNumbers (eclEql heap depth) (heap a) (heap b)) :
    eclEql heap (depth + 1) (.object a) (.object b) := by
  rw [eclEql]
  split
  · rfl
  · exact h

theorem eclEql_symm (h : eclEql heap depth x y) : eclEql heap depth y x := by
  induction depth generalizing x y with
  | zero => simpa [eclEql, eq_comm] using h
  | succ depth ih =>
    obtain rfl | ⟨a, b, rfl, rfl, hnum⟩ := eclEql_cases h
    · exact h
    · exact eclEql_objects (eqlNumbers_symm (fun _ _ => ih) hnum)

theorem eclEql_trans (h : eclEql heap depth x y) (h' : eclEql heap depth y z) :
    eclEql heap depth x z := by
  induction depth generalizing x y z with
  | zero =>
    simp only [eclEql, decide_eq_true_eq] at h h' ⊢
    exact h.trans h'
  | succ depth ih =>
    obtain rfl | ⟨a, b, rfl, rfl, hnum⟩ := eclEql_cases h
    · exact h'
    · obtain rfl | ⟨b, c, hb, rfl, hnum'⟩ := eclEql_cases h'
      · exact h
      · cases hb
        exact eclEql_objects (eqlNumbers_trans (fun _ _ _ => ih) hnum hnum')

theorem eclEql_succ (h : eclEql heap depth x y) : eclEql heap (depth + 1) x y := by
  induction depth generalizing x y with
  | zero =>
    rw [eclEql, decide_eq_true_eq] at h
    rw [h]
    exact eclEql_refl heap 1 y
  | succ depth ih =>
    obtain rfl | ⟨a, b, rfl, rfl, hnum⟩ := eclEql_cases h
    · exact eclEql_refl heap _ x
    · exact eclEql_objects (eqlNumbers_mono (fun _ _ => ih) hnum)

/-- The test of the hash table. The parts of a complex number can be ratios, whose parts can be
bignums. -/
def eql (heap : A → Obj (Ref A)) : Sameness A where
  same a b := eclEql heap 3 (.object a) (.object b)
  refl a := eclEql_refl heap 3 (.object a)
  symm _ _ := eclEql_symm
  trans _ _ _ := eclEql_trans

theorem eq_of_eql {a b : A} (h : (eql heap).same a b) (hnumber : (heap b).isNumber = false) :
    a = b := by
  obtain heq | ⟨a, b, ha, hb, hnum⟩ := eclEql_cases h
  · exact Ref.object.inj heq
  · cases ha
    cases hb
    exact absurd (eqlNumbers_isNumber hnum).2 (by simp [hnumber])

theorem eql_targets {a b : A} (h : (eql heap).same a b) :
    ∀ c ∈ (heap a).targets, ∃ d ∈ (heap b).targets, (eql heap).same c d := by
  intro c hc
  obtain heq | ⟨a, b, ha, hb, hnum⟩ := eclEql_cases h
  · cases heq
    exact ⟨c, hc, (eql heap).refl c⟩
  · cases ha
    cases hb
    obtain ⟨r, hr, hcr⟩ := List.mem_flatMap.mp hc
    cases r with
    | object r =>
      obtain rfl := List.mem_singleton.mp hcr
      obtain ⟨r', hr', heql⟩ := eqlNumbers_fields hnum _ hr
      obtain rfl | ⟨e, d, he, rfl, -⟩ := eclEql_cases heql
      · exact ⟨c, List.mem_flatMap.mpr ⟨_, hr', hcr⟩, (eql heap).refl c⟩
      · exact ⟨d, List.mem_flatMap.mpr ⟨_, hr', List.mem_singleton.mpr rfl⟩, eclEql_succ heql⟩
    | _ => cases hcr

end objects

end Serializer
