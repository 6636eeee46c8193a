import Ecl.CanonicalTypes

/-! # The same query after two histories

One computation starts from a cache with a history, the other from a cache that holds
nothing but answers of the same query. As long as the first takes no answer of an earlier
query from its cache, the two go the same way. -/
namespace TypeTags

def Hit.Own (h : Hit) : Prop :=
  h.found.serial = h.wanted.serial ∨
    h.found.nested = false ∧ h.wanted.nested = false ∧
      h.found.environment = h.wanted.environment

def current (serial : ℕ) : Option Entry → Option (Spec × Spec × Bool × Bool)
  | none => none
  | some e =>
    if e.origin.serial = serial then some (e.t1, e.t2, e.test, e.confident) else none

/-- Two states with the same database whose caches differ in entries of other queries
than `k`, of which the second has none. -/
structure Related (k k₀ : ℕ) (s s₀ : State) : Prop where
  database : s₀.database = s.database
  current : ∀ i, current k (s.cache i) = current k₀ (s₀.cache i)
  clean : ∀ i e, s₀.cache i = some e → e.origin.serial = k₀

/-- `y` does what `x` does wherever `x` returns and takes its own answers only. -/
structure Follows (k k₀ : ℕ) {α : Type} (x y : TypeM α) : Prop where
  hits : ∀ s h, h ∈ s.hits → h ∈ (x s).2.hits
  stores : ∀ s i e, (x s).2.cache i = some e →
    s.cache i = some e ∨ e.origin.serial = k ∧ e.origin.nested = true
  same : ∀ s s₀, Related k k₀ s s₀ → (∀ h ∈ (x s).2.hits, h.Own) →
    (x s).1 ≠ .error .exhausted → (y s₀).1 = (x s).1 ∧ Related k k₀ (x s).2 (y s₀).2

theorem Spec.eq_of_eql {s s' : Spec} (h : s.eql s' = true) : s = s' := by
  unfold Spec.eql at h
  split at h
  · exact congrArg Spec.symbol (eq_of_beq h)
  · exact congrArg Spec.number (eq_of_beq h)
  · exact congrArg Spec.thing (eq_of_beq h)
  · exact congrArg Spec.cell (eq_of_beq h)
  · cases h

namespace Follows

variable {k k₀ : ℕ} {α β : Type}

theorem pure (a : α) : Follows k k₀ (Pure.pure a : TypeM α) (Pure.pure a) where
  hits _ _ hh := hh
  stores _ _ _ he := .inl he
  same _ _ hr _ _ := ⟨rfl, hr⟩

theorem stop (e : Stop) : Follows k k₀ (TypeM.stop e : TypeM α) (TypeM.stop e) where
  hits _ _ hh := hh
  stores _ _ _ he := .inl he
  same _ _ hr _ _ := ⟨rfl, hr⟩

theorem exhausted (y : TypeM α) : Follows k k₀ (TypeM.stop .exhausted : TypeM α) y where
  hits _ _ hh := hh
  stores _ _ _ he := .inl he
  same _ _ _ _ hx := absurd rfl hx

theorem onDatabase (f : Database → α × Database) :
    Follows k k₀ (TypeM.onDatabase f) (TypeM.onDatabase f) where
  hits _ _ hh := hh
  stores _ _ _ he := .inl he
  same s s₀ hr _ _ := by
    constructor
    · simp [TypeM.onDatabase, hr.database]
    · exact ⟨by simp [TypeM.onDatabase, hr.database], hr.current, hr.clean⟩

theorem bind {x y : TypeM α} {f g : α → TypeM β} (hx : Follows k k₀ x y)
    (hf : ∀ a, Follows k k₀ (f a) (g a)) : Follows k k₀ (x >>= f) (y >>= g) where
  hits s h hh := by
    have h1 := hx.hits s h hh
    change h ∈ (TypeM.bind x f s).2.hits
    unfold TypeM.bind
    rcases hs : x s with ⟨_ | a, s₁⟩ <;> rw [hs] at h1
    · exact h1
    · exact (hf a).hits s₁ h h1
  stores s i e he := by
    have h1 := hx.stores s i e
    change (TypeM.bind x f s).2.cache i = some e at he
    unfold TypeM.bind at he
    rcases hs : x s with ⟨_ | a, s₁⟩ <;> rw [hs] at h1 he
    · exact h1 he
    · rcases (hf a).stores s₁ i e he with h | h
      · exact h1 h
      · exact .inr h
  same s s₀ hr hown hne := by
    have h1 := hx.same s s₀ hr
    change (TypeM.bind y g s₀).1 = (TypeM.bind x f s).1 ∧
      Related k k₀ (TypeM.bind x f s).2 (TypeM.bind y g s₀).2
    change ∀ h ∈ (TypeM.bind x f s).2.hits, h.Own at hown
    change (TypeM.bind x f s).1 ≠ _ at hne
    unfold TypeM.bind at hown hne ⊢
    rcases hs : x s with ⟨e | a, s₁⟩ <;> rw [hs] at h1 hown hne
    · obtain ⟨hv, hr₁⟩ := h1 hown (by simpa using hne)
      rcases hs₀ : y s₀ with ⟨v, s₀₁⟩
      rw [hs₀] at hv hr₁
      subst hv
      exact ⟨rfl, hr₁⟩
    · obtain ⟨hv, hr₁⟩ := h1 (fun h hh => hown h ((hf a).hits s₁ h hh)) (by simp)
      rcases hs₀ : y s₀ with ⟨v, s₀₁⟩
      rw [hs₀] at hv hr₁
      subst hv
      exact (hf a).same s₁ s₀₁ hr₁ hown hne

theorem catching {x y : TypeM α} (hx : Follows k k₀ x y) :
    Follows k k₀ (TypeM.catching x) (TypeM.catching y) where
  hits s h hh := by
    have h1 := hx.hits s h hh
    unfold TypeM.catching
    split <;> simp_all
  stores s i e he := by
    have h1 := hx.stores s i e
    unfold TypeM.catching at he
    split at he <;> simp_all
  same s s₀ hr hown hne := by
    have h1 := hx.same s s₀ hr
    unfold TypeM.catching at hown hne ⊢
    rcases hs : x s with ⟨e | a, s₁⟩ <;> rw [hs] at h1 hown hne
    · have hown' : ∀ h ∈ s₁.hits, h.Own := by cases e <;> exact hown
      have hne' : e ≠ .exhausted := by rintro rfl; exact hne rfl
      obtain ⟨hv, hr₁⟩ := h1 hown' (by simpa using hne')
      rcases hs₀ : y s₀ with ⟨v, s₀₁⟩
      rw [hs₀] at hv hr₁
      subst hv
      cases e <;> exact ⟨rfl, hr₁⟩
    · obtain ⟨hv, hr₁⟩ := h1 hown (by simp)
      rcases hs₀ : y s₀ with ⟨v, s₀₁⟩
      rw [hs₀] at hv hr₁
      subst hv
      exact ⟨rfl, hr₁⟩

theorem withTypeDatabase {x y : TypeM α} (hx : Follows k k₀ x y) :
    Follows k k₀ (TypeM.withTypeDatabase x) (TypeM.withTypeDatabase y) where
  hits s h hh := hx.hits _ h hh
  stores s i e he := hx.stores { s with database := s.database.enter } i e he
  same s s₀ hr hown hne := by
    have hr' : Related k k₀ { s with database := s.database.enter }
        { s₀ with database := s₀.database.enter } :=
      ⟨by rw [hr.database], hr.current, hr.clean⟩
    obtain ⟨hv, hr₁⟩ := hx.same _ _ hr' hown hne
    refine ⟨hv, ⟨?_, hr₁.current, hr₁.clean⟩⟩
    simp only [TypeM.withTypeDatabase]
    rw [hr₁.database, hr.database]

/-- A nested query finds the same answer in both caches, or none in either. -/
theorem lookUp (i : Fin 256) (t1 t2 : Spec) (env : Env) :
    Follows k k₀ (TypeM.lookUp i t1 t2 ⟨k, env, true⟩)
      (TypeM.lookUp i t1 t2 ⟨k₀, env, true⟩) where
  hits s h hh := by
    unfold TypeM.lookUp
    split
    · exact hh
    · split
      · exact List.mem_cons_of_mem _ hh
      · exact hh
  stores s j e he := by
    left
    unfold TypeM.lookUp at he
    split at he
    · exact he
    · split at he <;> exact he
  same s s₀ hr hown _ := by
    have hc := hr.current i
    have hclean := hr.clean i
    unfold TypeM.lookUp at hown ⊢
    cases hs₀ : s₀.cache i with
    | none =>
      cases hs : s.cache i with
      | none => exact ⟨rfl, hr⟩
      | some e =>
        have hserial : e.origin.serial ≠ k := by
          intro hk
          simp [hs, hs₀, TypeTags.current, hk] at hc
        by_cases hkey : (e.t1.eql t1 && e.t2.eql t2) = true
        · simp only [hs, if_pos hkey] at hown
          rcases hown _ (List.mem_cons_self ..) with h | ⟨_, h, _⟩
          · exact absurd h hserial
          · cases h
        · simp only [if_neg hkey]
          exact ⟨trivial, hr⟩
    | some e₀ =>
      have hk₀ := hclean e₀ hs₀
      cases hs : s.cache i with
      | none => simp [hs, hs₀, TypeTags.current, hk₀] at hc
      | some e =>
        have hk : e.origin.serial = k := by
          by_contra hk
          simp [hs, hs₀, TypeTags.current, hk₀, hk] at hc
        simp only [hs, hs₀, TypeTags.current, hk, hk₀, if_pos, Option.some.injEq,
          Prod.mk.injEq] at hc
        obtain ⟨h1, h2, h3, h4⟩ := hc
        simp only [h1, h2, h3, h4]
        split
        · exact ⟨rfl, ⟨hr.database, hr.current, hr.clean⟩⟩
        · exact ⟨rfl, hr⟩

theorem store (i : Fin 256) (t1 t2 : Spec) (answer : Bool × Bool) (env : Env) :
    Follows k k₀ (TypeM.store i ⟨t1, t2, answer.1, answer.2, ⟨k, env, true⟩⟩)
      (TypeM.store i ⟨t1, t2, answer.1, answer.2, ⟨k₀, env, true⟩⟩) where
  hits _ _ hh := hh
  stores s j e he := by
    by_cases hj : j = i
    · subst hj
      simp only [TypeM.store, Function.update_self, Option.some.injEq] at he
      subst he
      exact .inr ⟨rfl, rfl⟩
    · simp only [TypeM.store, Function.update_of_ne hj] at he
      exact .inl he
  same s s₀ hr _ _ := by
    refine ⟨rfl, ⟨hr.database, ?_, ?_⟩⟩
    · intro j
      by_cases hj : j = i
      · subst hj
        simp [TypeM.store, TypeTags.current]
      · simpa only [TypeM.store, Function.update_of_ne hj] using hr.current j
    · intro j e he
      by_cases hj : j = i
      · subst hj
        simp only [TypeM.store, Function.update_self, Option.some.injEq] at he
        subst he
        rfl
      · simp only [TypeM.store, Function.update_of_ne hj] at he
        exact hr.clean j e he

theorem expanded (r : Except Unit Spec) :
    Follows k k₀ (TypeTags.expanded r) (TypeTags.expanded r) := by
  cases r with
  | ok s => exact pure s
  | error e => exact stop .error

theorem orError (r : Option α) : Follows k k₀ (TypeTags.orError r) (TypeTags.orError r) := by
  cases r with
  | some a => exact pure a
  | none => exact stop .error

end Follows

section Calls

variable {w : World} {k k₀ : ℕ} {env : Env} {call call₀ : Goal → TypeM ℤ}
variable (hcall : ∀ g, Follows k k₀ (call g) (call₀ g))

include hcall

theorem safeCanonicalType_follows (t : Spec) :
    Follows k k₀ (safeCanonicalType call t) (safeCanonicalType call₀ t) :=
  (hcall _).catching

theorem fastSubtypep_follows (t1 t2 : Spec) :
    Follows k k₀ (fastSubtypep call t1 t2) (fastSubtypep call₀ t1 t2) := by
  unfold fastSubtypep
  split
  · exact .pure _
  · apply (safeCanonicalType_follows hcall t1).bind
    intro tag1
    apply (safeCanonicalType_follows hcall t2).bind
    intro tag2
    split
    · apply (safeCanonicalType_follows hcall t1).bind
      intro tag1
      apply (safeCanonicalType_follows hcall t2).bind
      intro tag2
      cases tag1 <;> cases tag2 <;> exact .pure _
    · exact .pure _

theorem fastTypeEqual_follows (t1 t2 : Spec) :
    Follows k k₀ (fastTypeEqual call t1 t2) (fastTypeEqual call₀ t1 t2) := by
  unfold fastTypeEqual
  split
  · exact .pure _
  · apply (safeCanonicalType_follows hcall t1).bind
    intro tag1
    apply (safeCanonicalType_follows hcall t2).bind
    intro tag2
    apply (safeCanonicalType_follows hcall _).bind
    intro tag3
    cases tag1 <;> cases tag2 <;> try exact .pure _
    apply (Follows.orError tag3).bind
    intro tag3
    split
    · exact .pure _
    · apply (safeCanonicalType_follows hcall t1).bind
      intro tag1
      apply (safeCanonicalType_follows hcall t2).bind
      intro tag2
      cases tag1 <;> cases tag2 <;> try exact .pure _
      dsimp only
      split <;> exact .pure _

theorem subtypep_follows (t1 t2 : Spec) :
    Follows k k₀ (subtypep w k env call true t1 t2) (subtypep w k₀ env call₀ true t1 t2) := by
  unfold subtypep
  split
  · exact .pure _
  · cases bothClasses w t1 t2 with
    | some c => exact .pure _
    | none =>
      apply (Follows.lookUp _ t1 t2 env).bind
      intro elt
      cases elt with
      | some answer => exact .pure _
      | none =>
        apply Follows.withTypeDatabase
        apply (fastSubtypep_follows hcall t1 t2).bind
        intro answer
        exact (Follows.store _ t1 t2 answer env).bind fun _ => .pure _

theorem firstSupertype_follows (realType : Spec) (types : List (Sym × Sym)) :
    Follows k k₀ (firstSupertype w k env call realType types)
      (firstSupertype w k₀ env call₀ realType types) := by
  induction types with
  | nil => exact .stop .error
  | cons x types ih =>
    apply (subtypep_follows hcall realType _).bind
    intro answers
    split
    · exact .pure _
    · exact ih

theorem tagUnion_follows (goals : List Goal) :
    Follows k k₀ (tagUnion call goals) (tagUnion call₀ goals) := by
  induction goals with
  | nil => exact .pure _
  | cons g goals ih => exact (hcall g).bind fun _ => ih.bind fun _ => .pure _

theorem tagIntersection_follows (goals : List Goal) :
    Follows k k₀ (tagIntersection call goals) (tagIntersection call₀ goals) := by
  induction goals with
  | nil => exact .pure _
  | cons g goals ih => exact (hcall g).bind fun _ => ih.bind fun _ => .pure _

theorem canonicalComplexType_follows (arguments : List Spec) :
    Follows k k₀ (canonicalComplexType w k env call arguments)
      (canonicalComplexType w k₀ env call₀ arguments) := by
  apply (Follows.orError _).bind
  intro realType
  apply (firstSupertype_follows hcall realType _).bind
  intro upgraded
  apply (Follows.onDatabase _).bind
  intro registered
  cases registered with
  | some tag => exact .pure tag
  | none =>
    dsimp only
    split
    · exact tagUnion_follows hcall _
    · split
      · exact tagUnion_follows hcall _
      · exact .onDatabase _

theorem findBuiltInTag_follows (name : Sym) :
    Follows k k₀ (findBuiltInTag w call name) (findBuiltInTag w call₀ name) := by
  unfold findBuiltInTag
  split
  · exact .pure _
  · split
    · exact .pure _
    · cases builtInAlias name with
      | some synonym => exact (hcall _).bind fun _ => .pure _
      | none =>
        cases builtInSupertype name with
        | some supertype =>
          apply (hcall _).bind
          intro supertypeTag
          exact (Follows.onDatabase _).bind fun _ => .pure _
        | none => exact .pure _

theorem tagOfName_follows (c : ℕ) :
    Follows k k₀ (tagOfName w call c) (tagOfName w call₀ c) := by
  unfold tagOfName
  cases w.className c with
  | none => exact .pure _
  | some name =>
    dsimp only
    split
    · apply (Follows.onDatabase _).bind
      intro registered
      cases registered with
      | some tag => exact .pure _
      | none => exact findBuiltInTag_follows hcall name
    · exact .pure _

theorem registerClass_follows (c : ℕ) :
    Follows k k₀ (registerClass w call c) (registerClass w call₀ c) := by
  apply (Follows.onDatabase _).bind
  intro registered
  cases registered with
  | some tag => exact .pure _
  | none =>
    apply (tagOfName_follows hcall c).bind
    intro named
    cases named with
    | some tag => exact .pure _
    | none =>
      dsimp only
      split
      · exact .onDatabase _
      · exact .stop .failure

theorem firstElementType_follows (type : Spec) (types : List Sym) :
    Follows k k₀ (firstElementType call type types) (firstElementType call₀ type types) := by
  induction types with
  | nil => exact .pure _
  | cons other types ih =>
    apply (fastSubtypep_follows hcall type _).bind
    intro answers
    split
    · exact .pure _
    · exact ih

theorem fastUpgradedArrayElementType_follows (type : Spec) :
    Follows k k₀ (fastUpgradedArrayElementType call type)
      (fastUpgradedArrayElementType call₀ type) := by
  have hfirst := fun type => (firstElementType_follows hcall type
    upgradedArrayElementTypes).bind fun elt => (Follows.pure (some elt) : Follows k k₀ _ _)
  unfold fastUpgradedArrayElementType
  split
  · exact .pure _
  · split
    · split
      · exact .pure _
      · exact hfirst _
    · exact hfirst _

theorem registerArrayType_follows (a : ArrayClass) (arguments : List Spec) :
    Follows k k₀ (registerArrayType w call a arguments)
      (registerArrayType w call₀ a arguments) := by
  have hparse : Follows k k₀ (parseArrayType w call arguments)
      (parseArrayType w call₀ arguments) := by
    apply (fastUpgradedArrayElementType_follows hcall _).bind
    intro elt
    exact (Follows.orError _).bind fun _ => .pure _
  apply hparse.bind
  rintro ⟨elt, dims⟩
  cases elt with
  | none => exact hcall _
  | some elt => exact .onDatabase _

theorem registerConsType_follows (arguments : List Spec) :
    Follows k k₀ (registerConsType call arguments) (registerConsType call₀ arguments) := by
  have hpart : ∀ part, Follows k k₀ (consPartTag call part) (consPartTag call₀ part) := by
    intro part
    unfold consPartTag
    split
    · exact .pure _
    · exact .pure _
    · exact hcall _
  unfold registerConsType
  split
  · exact .stop .error
  · apply (hpart _).bind
    intro carTag
    apply (hpart _).bind
    intro cdrTag
    split
    · exact .pure _
    · split
      · exact hcall _
      · exact .stop .failure

omit hcall in
theorem registerMemberTypes_follows (objects : List Spec) :
    Follows k k₀ (registerMemberTypes w objects) (registerMemberTypes w objects) := by
  induction objects with
  | nil => exact .pure _
  | cons object objects ih =>
    exact (Follows.onDatabase _).bind fun _ => ih.bind fun _ => .pure _

omit hcall in
theorem canonicalIntervalType_follows (kind : IntervalKind) (arguments : List Spec) :
    Follows k k₀ (canonicalIntervalType w kind arguments)
      (canonicalIntervalType w kind arguments) :=
  (Follows.orError _).bind fun _ => (Follows.orError _).bind fun _ => .onDatabase _

omit hcall in
theorem registeredHead_follows (head : Spec) :
    Follows k k₀ (canonicalCompound.registeredHead head)
      (canonicalCompound.registeredHead head) := by
  apply (Follows.onDatabase _).bind
  intro registered
  cases registered with
  | some tag => exact .pure _
  | none => exact .stop .failure

theorem canonicalCompound_follows (head : Spec) (arguments : List Spec) :
    Follows k k₀ (canonicalCompound w env call head arguments)
      (canonicalCompound w env call₀ head arguments) := by
  unfold canonicalCompound
  dsimp only
  split
  · exact tagIntersection_follows hcall _
  · exact tagUnion_follows hcall _
  · exact (hcall _).bind fun _ => .pure _
  · exact registerMemberTypes_follows _
  · exact registerMemberTypes_follows _
  · exact .stop .failure
  iterate 5 exact canonicalIntervalType_follows _ _
  iterate 4 exact hcall _
  · exact registerConsType_follows hcall _
  · apply (registerArrayType_follows hcall _ _).bind
    intro complexTag
    exact (registerArrayType_follows hcall _ _).bind fun _ => .pure _
  · exact registerArrayType_follows hcall _ _
  · exact registerArrayType_follows hcall _ _
  · exact hcall _
  · split
    · split
      · exact (Follows.expanded _).bind fun _ => hcall _
      · exact registeredHead_follows _
    · exact registeredHead_follows _

theorem canonicalSymbol_follows (s : Sym) :
    Follows k k₀ (canonicalSymbol w env call s) (canonicalSymbol w env call₀ s) := by
  unfold canonicalSymbol
  cases w.deftype s with
  | some expander => exact (Follows.expanded _).bind fun _ => hcall _
  | none =>
    apply (findBuiltInTag_follows hcall s).bind
    intro tag
    cases tag with
    | some tag => exact .pure _
    | none =>
      cases w.findClass s with
      | some c => exact registerClass_follows hcall c
      | none => exact .stop .failure

theorem canonicalType_follows (type : Spec) :
    Follows k k₀ (canonicalType w env call type) (canonicalType w env call₀ type) := by
  have hsearch : Follows k k₀ (typeInForce w env type) (typeInForce w env type) := by
    unfold typeInForce
    split
    · exact .pure _
    · exact .expanded _
  apply hsearch.bind
  intro type
  apply (Follows.onDatabase _).bind
  intro registered
  cases registered with
  | some tag => exact .pure _
  | none =>
    dsimp only
    split
    · exact .pure _
    · exact .pure _
    · exact canonicalSymbol_follows hcall _
    · split
      · exact registerClass_follows hcall _
      · exact .stop .error
    · exact canonicalCompound_follows hcall _ _
    · exact .stop .error

end Calls

theorem canonical_follows (w : World) {k k₀ : ℕ} (env : Env) {n m : ℕ} (hnm : n ≤ m)
    (g : Goal) : Follows k k₀ (canonical w k env n g) (canonical w k₀ env m g) := by
  induction n generalizing m g with
  | zero => exact .exhausted _
  | succ n ih =>
    obtain ⟨m, rfl⟩ : ∃ l, m = l + 1 := ⟨m - 1, by omega⟩
    have hcall := fun g => ih (m := m) (by omega) g
    cases g with
    | type s => exact canonicalType_follows hcall s
    | complexType arguments => exact canonicalComplexType_follows hcall arguments

end TypeTags
