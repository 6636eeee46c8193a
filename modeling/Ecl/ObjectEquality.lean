import Ecl.Objects

/-! EQ, EQL and EQUAL are equivalences, and EQUAL returns on every object without cycles. -/
namespace Objects

theorem bits_eq_of_zero {t : FloatType} {a b : ℕ} (ha : t.isZero a) (hb : t.isZero b)
    (h : t.signbit a = t.signbit b) : a = b := by
  have ha' : t.magnitude a = 0 := of_decide_eq_true ha
  have hb' : t.magnitude b = 0 := of_decide_eq_true hb
  calc a = 2 ^ (t.expShift + t.expBits) * t.signbit a + t.magnitude a :=
        (Nat.div_add_mod _ _).symm
    _ = 2 ^ (t.expShift + t.expBits) * t.signbit b + t.magnitude b := by rw [h, ha', hb']
    _ = b := Nat.div_add_mod _ _

theorem floatEql_iff {t : FloatType} {a b : ℕ} :
    floatEql t a b = true ↔ a = b ∨ t.isnan a = true ∧ t.isnan b = true := by
  constructor
  · intro h
    unfold floatEql at h
    split at h
    · rename_i heq
      simp only [FloatType.eq, Bool.and_eq_true, Bool.or_eq_true, decide_eq_true_eq] at heq h
      obtain ⟨_, rfl | ⟨ha, hb⟩⟩ := heq
      · exact Or.inl rfl
      · exact Or.inl (bits_eq_of_zero ha hb h)
    · split at h
      · exact Or.inr (by simpa using h)
      · cases h
  · rintro (rfl | ⟨ha, hb⟩)
    · cases hn : t.isnan a <;> simp [floatEql, FloatType.eq, hn]
    · simp [floatEql, FloatType.eq, ha, hb]

theorem floatEql_refl (t : FloatType) (a : ℕ) : floatEql t a a = true :=
  floatEql_iff.mpr (Or.inl rfl)

theorem floatEql_symm {t : FloatType} {a b : ℕ} (h : floatEql t a b = true) :
    floatEql t b a = true := by
  rw [floatEql_iff] at h ⊢
  rcases h with rfl | ⟨ha, hb⟩
  · exact Or.inl rfl
  · exact Or.inr ⟨hb, ha⟩

theorem floatEql_trans {t : FloatType} {a b c : ℕ} (h : floatEql t a b = true)
    (h' : floatEql t b c = true) : floatEql t a c = true := by
  rw [floatEql_iff] at h h' ⊢
  rcases h with rfl | ⟨ha, hb⟩
  · exact h'
  · rcases h' with rfl | ⟨_, hc⟩
    · exact Or.inr ⟨ha, hb⟩
    · exact Or.inr ⟨ha, hc⟩

theorem Integer.eql_equivalence : Equivalence (fun n m : Integer => n.eql m = true) where
  refl n := by cases n <;> simp [Integer.eql]
  symm {n m} h := by cases n <;> cases m <;> simp_all [Integer.eql]
  trans {n m k} h h' := by cases n <;> cases m <;> cases k <;> simp_all [Integer.eql]

theorem Rational.eql_equivalence : Equivalence (fun a b : Rational => a.eql b = true) where
  refl a := by
    cases a with
    | integer n => exact Integer.eql_equivalence.refl n
    | ratio n d =>
      simp [Rational.eql, Integer.eql_equivalence.refl n, Integer.eql_equivalence.refl d]
  symm {a b} h := by
    cases a <;> cases b <;> simp only [Rational.eql, Bool.and_eq_true, Bool.false_eq_true] at h ⊢
    · exact Integer.eql_equivalence.symm h
    · exact ⟨Integer.eql_equivalence.symm h.1, Integer.eql_equivalence.symm h.2⟩
  trans {a b c} h h' := by
    cases a <;> cases b <;> cases c <;>
      simp only [Rational.eql, Bool.and_eq_true, Bool.false_eq_true] at h h' ⊢
    · exact Integer.eql_equivalence.trans h h'
    · exact ⟨Integer.eql_equivalence.trans h.1 h'.1, Integer.eql_equivalence.trans h.2 h'.2⟩

theorem Number.eql_equivalence : Equivalence (fun a b : Number => a.eql b = true) where
  refl a := by
    cases a with
    | rational r => exact Rational.eql_equivalence.refl r
    | float t b => simp [Number.eql, floatEql_refl]
    | complex r i =>
      simp [Number.eql, Rational.eql_equivalence.refl r, Rational.eql_equivalence.refl i]
    | cfloat t r i => simp [Number.eql, floatEql_refl]
  symm {a b} h := by
    cases a <;> cases b <;> simp only [Number.eql, Bool.and_eq_true, decide_eq_true_eq,
      Bool.false_eq_true] at h ⊢
    · exact Rational.eql_equivalence.symm h
    · obtain ⟨rfl, h⟩ := h
      exact ⟨rfl, floatEql_symm h⟩
    · exact ⟨Rational.eql_equivalence.symm h.1, Rational.eql_equivalence.symm h.2⟩
    · obtain ⟨⟨rfl, h⟩, h'⟩ := h
      exact ⟨⟨rfl, floatEql_symm h⟩, floatEql_symm h'⟩
  trans {a b c} h h' := by
    cases a <;> cases b <;> cases c <;> simp only [Number.eql, Bool.and_eq_true,
      decide_eq_true_eq, Bool.false_eq_true] at h h' ⊢
    · exact Rational.eql_equivalence.trans h h'
    · obtain ⟨rfl, h⟩ := h
      obtain ⟨rfl, h'⟩ := h'
      exact ⟨rfl, floatEql_trans h h'⟩
    · exact ⟨Rational.eql_equivalence.trans h.1 h'.1, Rational.eql_equivalence.trans h.2 h'.2⟩
    · obtain ⟨⟨rfl, hr⟩, hi⟩ := h
      obtain ⟨⟨rfl, hr'⟩, hi'⟩ := h'
      exact ⟨⟨rfl, floatEql_trans hr hr'⟩, floatEql_trans hi hi'⟩

theorem eclEq_equivalence : Equivalence (fun x y => eclEq x y = true) where
  refl x := by simp [eclEq]
  symm {x y} h := by simp_all [eclEq]
  trans {x y z} h h' := by simp_all [eclEq]

theorem eclEql_cases {heap : Heap} {x y : Obj} : eclEql heap x y = true ↔ x = y ∨
    (∃ a b, heap.deref x = some (.number a) ∧ heap.deref y = some (.number b) ∧ a.eql b = true) ∨
    ∃ a, heap.deref x = some (.ssePack a) ∧ heap.deref y = some (.ssePack a) := by
  rw [eclEql, Bool.or_eq_true, decide_eq_true_iff]
  refine or_congr_right ?_
  constructor
  · intro h
    split at h
    · next a b hx hy => exact Or.inl ⟨a, b, hx, hy, h⟩
    · next a b hx hy =>
      cases of_decide_eq_true h
      exact Or.inr ⟨a, hx, hy⟩
    · cases h
  · rintro (⟨a, b, hx, hy, hab⟩ | ⟨a, hx, hy⟩)
    · rw [hx, hy]
      exact hab
    · rw [hx, hy]
      exact decide_eq_true rfl

theorem eclEql_equivalence (heap : Heap) : Equivalence (fun x y => eclEql heap x y = true) where
  refl x := eclEql_cases.mpr (Or.inl rfl)
  symm {x y} h := by
    rw [eclEql_cases] at h ⊢
    rcases h with rfl | ⟨a, b, hx, hy, hab⟩ | ⟨a, hx, hy⟩
    · exact Or.inl rfl
    · exact Or.inr (Or.inl ⟨b, a, hy, hx, Number.eql_equivalence.symm hab⟩)
    · exact Or.inr (Or.inr ⟨a, hy, hx⟩)
  trans {x y z} h h' := by
    rw [eclEql_cases] at h h' ⊢
    rcases h with rfl | ⟨a, b, hx, hy, hab⟩ | ⟨a, hx, hy⟩
    · exact h'
    · rcases h' with rfl | ⟨b', c, hy', hz, hbc⟩ | ⟨b', hy', _⟩
      · exact Or.inr (Or.inl ⟨a, b, hx, hy, hab⟩)
      · rw [hy] at hy'
        cases hy'
        exact Or.inr (Or.inl ⟨a, c, hx, hz, Number.eql_equivalence.trans hab hbc⟩)
      · rw [hy] at hy'
        cases hy'
    · rcases h' with rfl | ⟨b', c, hy', _⟩ | ⟨b', hy', hz⟩
      · exact Or.inr (Or.inr ⟨a, hx, hy⟩)
      · rw [hy] at hy'
        cases hy'
      · rw [hy] at hy'
        cases hy'
        exact Or.inr (Or.inr ⟨a, hx, hz⟩)

theorem allEqual_iff {α : Type} {equal : α → α → Option Bool} {ps : List (α × α)} :
    allEqual equal ps = some true ↔ ∀ p ∈ ps, equal p.1 p.2 = some true := by
  induction ps with
  | nil => simp [allEqual]
  | cons p ps ih =>
    obtain ⟨x, y⟩ := p
    simp only [allEqual, Option.bind_eq_bind, List.forall_mem_cons, ← ih]
    cases h : equal x y with
    | none => simp
    | some b => cases b <;> simp

/-- What ecl_equal found when it said yes; at least one reason per type. -/
inductive EqualStep (heap : Heap) (fuel : ℕ) : Obj → Obj → Prop where
  | same (x) : EqualStep heap fuel x x
  | list {x y a d a' d'} (hx : heap.deref x = some (.list a d))
      (hy : heap.deref y = some (.list a' d')) (hcar : eclEqual heap fuel a a' = some true)
      (hcdr : eclEqual heap fuel d d' = some true) : EqualStep heap fuel x y
  | number {x y a b} (hx : heap.deref x = some (.number a))
      (hy : heap.deref y = some (.number b)) (h : a.eql b = true) : EqualStep heap fuel x y
  | string {x y s s'} (hx : heap.deref x = some (.string s))
      (hy : heap.deref y = some (.string s')) (h : s.codes = s'.codes) : EqualStep heap fuel x y
  | bitvector {x y v w} (hx : heap.deref x = some (.bitvector v))
      (hy : heap.deref y = some (.bitvector w)) (h : bitvectorEqual v w = true) :
      EqualStep heap fuel x y
  | pathname {x y p q} (hx : heap.deref x = some (.pathname p))
      (hy : heap.deref y = some (.pathname q))
      (h : ∀ c ∈ p.pairs q, eclEqual heap fuel c.1 c.2 = some true) : EqualStep heap fuel x y
  | foreign {x y a} (hx : heap.deref x = some (.foreign a))
      (hy : heap.deref y = some (.foreign a)) : EqualStep heap fuel x y

theorem eclEqual_step {heap : Heap} {fuel : ℕ} {x y : Obj} :
    eclEqual heap (fuel + 1) x y = some true ↔ EqualStep heap fuel x y := by
  constructor
  · intro h
    by_cases hxy : x = y
    · subst y
      exact .same x
    rw [eclEqual, if_neg hxy] at h
    split at h
    · rename_i hx hy
      rw [allEqual_iff] at h
      simp only [List.forall_mem_cons] at h
      exact .list hx hy h.1 h.2.1
    · rename_i hx hy
      exact .number hx hy (by simpa using h)
    · rename_i hx hy
      exact .string hx hy (by simpa using h)
    · rename_i hx hy
      exact .bitvector hx hy (by simpa using h)
    · rename_i hx hy
      exact .pathname hx hy (allEqual_iff.mp h)
    · rename_i hx hy
      simp only [Option.some.injEq, decide_eq_true_eq] at h
      exact .foreign hx (h ▸ hy)
    · simp at h
  · intro h
    by_cases hxy : x = y
    · rw [eclEqual, if_pos hxy]
    rw [eclEqual, if_neg hxy]
    cases h with
    | same => exact absurd rfl hxy
    | list hx hy hcar hcdr => simp only [hx, hy, allEqual_iff]; simp [hcar, hcdr]
    | number hx hy h | string hx hy h | bitvector hx hy h => simp [hx, hy, h]
    | pathname hx hy h => simp only [hx, hy, allEqual_iff]; exact h
    | foreign hx hy => simp [hx, hy]

theorem bitvectorEqual_iff {v w : BitVector} :
    bitvectorEqual v w = true ↔ v.fillp = w.fillp ∧ ∀ i < v.fillp, v.bit i = w.bit i := by
  simp [bitvectorEqual]

theorem bitvectorEqual_equivalence :
    Equivalence (fun v w => bitvectorEqual v w = true) where
  refl v := by simp [bitvectorEqual]
  symm {v w} h := by
    rw [bitvectorEqual_iff] at h ⊢
    exact ⟨h.1.symm, fun i hi => (h.2 i (by omega)).symm⟩
  trans {u v w} h h' := by
    rw [bitvectorEqual_iff] at h h' ⊢
    exact ⟨h.1.trans h'.1, fun i hi => (h.2 i hi).trans (h'.2 i (by omega))⟩

theorem eclEqual_symm {heap : Heap} : ∀ {fuel x y}, eclEqual heap fuel x y = some true →
    eclEqual heap fuel y x = some true := by
  intro fuel
  induction fuel with
  | zero => intro x y h; simp [eclEqual] at h
  | succ fuel ih =>
    intro x y h
    rw [eclEqual_step] at h ⊢
    cases h with
    | same => exact .same x
    | list hx hy hcar hcdr => exact .list hy hx (ih hcar) (ih hcdr)
    | number hx hy h => exact .number hy hx (Number.eql_equivalence.symm h)
    | string hx hy h => exact .string hy hx h.symm
    | bitvector hx hy h => exact .bitvector hy hx (bitvectorEqual_equivalence.symm h)
    | pathname hx hy h =>
      refine .pathname hy hx ?_
      simp only [Pathname.pairs, List.forall_mem_cons] at h ⊢
      obtain ⟨h1, h2, h3, h4, h5, h6, _⟩ := h
      exact ⟨ih h1, ih h2, ih h3, ih h4, ih h5, ih h6, by simp⟩
    | foreign hx hy => exact .foreign hy hx

theorem eclEqual_trans {heap : Heap} : ∀ {fuel x y z}, eclEqual heap fuel x y = some true →
    eclEqual heap fuel y z = some true → eclEqual heap fuel x z = some true := by
  intro fuel
  induction fuel with
  | zero => intro x y z h; simp [eclEqual] at h
  | succ fuel ih =>
    intro x y z h h'
    rw [eclEqual_step] at h h' ⊢
    cases h with
    | same => exact h'
    | list hx hy hcar hcdr =>
      cases h' with
      | same => exact .list hx hy hcar hcdr
      | list hy' hz hcar' hcdr' =>
        rw [hy] at hy'
        cases hy'
        exact .list hx hz (ih hcar hcar') (ih hcdr hcdr')
      | number hy' | string hy' | bitvector hy' | pathname hy' | foreign hy' =>
        rw [hy] at hy'; cases hy'
    | number hx hy h =>
      cases h' with
      | same => exact .number hx hy h
      | number hy' hz h' =>
        rw [hy] at hy'
        cases hy'
        exact .number hx hz (Number.eql_equivalence.trans h h')
      | list hy' | string hy' | bitvector hy' | pathname hy' | foreign hy' =>
        rw [hy] at hy'; cases hy'
    | string hx hy h =>
      cases h' with
      | same => exact .string hx hy h
      | string hy' hz h' =>
        rw [hy] at hy'
        cases hy'
        exact .string hx hz (h.trans h')
      | list hy' | number hy' | bitvector hy' | pathname hy' | foreign hy' =>
        rw [hy] at hy'; cases hy'
    | bitvector hx hy h =>
      cases h' with
      | same => exact .bitvector hx hy h
      | bitvector hy' hz h' =>
        rw [hy] at hy'
        cases hy'
        exact .bitvector hx hz (bitvectorEqual_equivalence.trans h h')
      | list hy' | number hy' | string hy' | pathname hy' | foreign hy' =>
        rw [hy] at hy'; cases hy'
    | pathname hx hy h =>
      cases h' with
      | same => exact .pathname hx hy h
      | pathname hy' hz h' =>
        rw [hy] at hy'
        cases hy'
        refine .pathname hx hz ?_
        simp only [Pathname.pairs, List.forall_mem_cons] at h h' ⊢
        obtain ⟨h1, h2, h3, h4, h5, h6, _⟩ := h
        obtain ⟨k1, k2, k3, k4, k5, k6, _⟩ := h'
        exact ⟨ih h1 k1, ih h2 k2, ih h3 k3, ih h4 k4, ih h5 k5, ih h6 k6, by simp⟩
      | list hy' | number hy' | string hy' | bitvector hy' | foreign hy' =>
        rw [hy] at hy'; cases hy'
    | foreign hx hy =>
      cases h' with
      | same => exact .foreign hx hy
      | foreign hy' hz =>
        rw [hy] at hy'
        cases hy'
        exact .foreign hx hz
      | list hy' | number hy' | string hy' | bitvector hy' | pathname hy' =>
        rw [hy] at hy'; cases hy'

theorem eclEqual_equivalence (heap : Heap) (fuel : ℕ) :
    Equivalence (fun x y => eclEqual heap (fuel + 1) x y = some true) where
  refl x := eclEqual_step.mpr (.same x)
  symm := eclEqual_symm
  trans := eclEqual_trans

def Pathname.components (p : Pathname) : List Obj :=
  [p.host, p.device, p.directory, p.name, p.type, p.version]

/-- The traversal of x by ecl_equal ends within the budget; false of cyclic objects. -/
def ends (heap : Heap) : ℕ → Obj → Bool
  | 0, _ => false
  | fuel + 1, x => match heap.deref x with
    | some (.list a d) => ends heap fuel a && ends heap fuel d
    | some (.pathname p) => p.components.all (ends heap fuel)
    | _ => true

theorem allEqual_returns {equal : Obj → Obj → Option Bool} {ps : List (Obj × Obj)}
    (h : ∀ p ∈ ps, ∃ b, equal p.1 p.2 = some b) : ∃ b, allEqual equal ps = some b := by
  induction ps with
  | nil => exact ⟨true, rfl⟩
  | cons p ps ih =>
    obtain ⟨b, hb⟩ := h p (by simp)
    simp only [allEqual, Option.bind_eq_bind, hb, Option.bind_some]
    cases b with
    | false => exact ⟨false, rfl⟩
    | true => exact ih (fun q hq => h q (by simp [hq]))

theorem eclEqual_returns {heap : Heap} : ∀ {fuel x} y, ends heap fuel x = true →
    ∃ b, eclEqual heap fuel x y = some b := by
  intro fuel
  induction fuel with
  | zero => intro x y h; simp [ends] at h
  | succ fuel ih =>
    intro x y h
    by_cases hxy : x = y
    · exact ⟨true, by rw [eclEqual, if_pos hxy]⟩
    rw [eclEqual, if_neg hxy]
    split
    · rename_i hx _
      simp only [ends, hx, Bool.and_eq_true] at h
      apply allEqual_returns
      simp only [List.forall_mem_cons]
      exact ⟨ih _ h.1, ih _ h.2, by simp⟩
    · exact ⟨_, rfl⟩
    · exact ⟨_, rfl⟩
    · exact ⟨_, rfl⟩
    · rename_i hx _
      simp only [ends, hx, Pathname.components, List.all_cons, List.all_nil, Bool.and_eq_true] at h
      apply allEqual_returns
      simp only [Pathname.pairs, List.forall_mem_cons]
      obtain ⟨h1, h2, h3, h4, h5, h6, _⟩ := h
      exact ⟨ih _ h1, ih _ h2, ih _ h3, ih _ h4, ih _ h5, ih _ h6, by simp⟩
    · exact ⟨_, rfl⟩
    · exact ⟨_, rfl⟩

end Objects
