import Ecl.SpecializerOrder

/-! The applicable methods of a standard generic function come in the order that CLHS 7.6.6.1.2
prescribes, but for methods on NULL and on (EQL NIL). -/
namespace MethodOrdering

open GenericFunctions SpecializerOrder

variable {O C S M : Type} [DecidableEq S]

section
variable (sys : ClassSystem O C) (gf : GenericFunction O C S M)

def Applicable (m : M) (args : List O) : Prop :=
  ∀ p ∈ gf.required, ∃ spec ∈ gf.at (gf.specializers m) p, ∃ arg ∈ gf.at args p, Fits sys spec arg

def Decided (P : O → Specializer O C → Specializer O C → Prop) (args : List O) (m m' : M) : Prop :=
  ∃ before p after, gf.argumentPrecedenceOrder = before ++ p :: after ∧
    (∀ q ∈ before, gf.at (gf.specializers m) q = gf.at (gf.specializers m') q) ∧
    ∃ spec ∈ gf.at (gf.specializers m) p, ∃ spec' ∈ gf.at (gf.specializers m') p,
      ∃ arg ∈ gf.at args p, P arg spec spec'

/-- The list that is prescribed for the arguments. -/
structure Prescribed (args : List O) (l : List M) : Prop where
  mem : ∀ m, m ∈ l ↔ m ∈ gf.methods ∧ Applicable sys gf m args
  nodup : l.Nodup
  ordered : l.Pairwise (Decided gf (Precedes sys) args)

def store (gf : GenericFunction O C S M) (methods : List M) (h : methods.Perm gf.methods) :
    GenericFunction O C S M :=
  { gf with
    methods := methods
    methods_nodup := h.nodup_iff.mpr gf.methods_nodup
    congruent := fun m hm => gf.congruent m (h.subset hm) }

end

section
variable {α : Type}

theorem filterMap_idxOf {names : List S} {l : List α} (hn : names.Nodup)
    (hl : l.length = names.length) : names.filterMap (fun p => l[names.idxOf p]?) = l := by
  induction names generalizing l with
  | nil => exact (List.eq_nil_of_length_eq_zero hl).symm
  | cons p names ih =>
    cases l with
    | nil => cases hl
    | cons x l =>
      obtain ⟨hp, hn⟩ := List.nodup_cons.mp hn
      have hrest : names.filterMap (fun q => (x :: l)[(p :: names).idxOf q]?) =
          names.filterMap fun q => l[names.idxOf q]? := by
        apply List.filterMap_congr
        intro q hq
        have hne : p ≠ q := fun he => hp (he ▸ hq)
        simp [List.idxOf_cons_ne names hne]
      rw [List.filterMap_cons_some (b := x) (by simp), hrest, ih hn (Nat.succ.inj hl)]

variable (gf : GenericFunction O C S M)

def inOrder (l : List α) : List α := gf.argumentPrecedenceOrder.filterMap (gf.at l)

variable {gf}

theorem at_some {l : List α} (hl : gf.required.length ≤ l.length) {p : S} (hp : p ∈ gf.required) :
    ∃ x, gf.at l p = some x :=
  ⟨_, List.getElem?_eq_getElem (Nat.lt_of_lt_of_le (List.idxOf_lt_length_of_mem hp) hl)⟩

theorem at_take {l : List α} {p : S} (hp : p ∈ gf.required) :
    gf.at (l.take gf.required.length) p = gf.at l p :=
  List.getElem?_take_of_lt (List.idxOf_lt_length_of_mem hp)

theorem at_map {β : Type} (f : α → β) (l : List α) (p : S) :
    gf.at (l.map f) p = (gf.at l p).map f :=
  List.getElem?_map ..

theorem required_filterMap {l : List α} (hl : l.length = gf.required.length) :
    gf.required.filterMap (gf.at l) = l :=
  filterMap_idxOf gf.required_nodup hl

theorem reorder_eq [DecidableEq O] {l : List α} (hl : l.length = gf.required.length) :
    gf.reorder l = .ok (inOrder gf l) := by
  unfold GenericFunction.reorder
  split_ifs with h
  · rw [inOrder, h, required_filterMap hl]
  · exact if_pos hl

theorem inOrder_take (l : List α) : inOrder gf (l.take gf.required.length) = inOrder gf l :=
  List.filterMap_congr fun _ hp => at_take (gf.perm.subset hp)

theorem inOrder_map {β : Type} (f : α → β) (l : List α) :
    inOrder gf (l.map f) = (inOrder gf l).map f := by
  unfold inOrder
  rw [List.map_filterMap]
  exact List.filterMap_congr fun p _ => at_map f l p

theorem filterMap_inj {names : List S} {l l' : List α}
    (hl : ∀ p ∈ names, ∃ x, gf.at l p = some x) (hl' : ∀ p ∈ names, ∃ x, gf.at l' p = some x)
    (h : names.filterMap (gf.at l) = names.filterMap (gf.at l')) :
    ∀ p ∈ names, gf.at l p = gf.at l' p := by
  induction names with
  | nil => exact fun _ hp => absurd hp List.not_mem_nil
  | cons q names ih =>
    obtain ⟨x, hx⟩ := hl q List.mem_cons_self
    obtain ⟨x', hx'⟩ := hl' q List.mem_cons_self
    rw [List.filterMap_cons_some hx, List.filterMap_cons_some hx'] at h
    obtain ⟨hxx, hrest⟩ := List.cons.inj h
    intro p hp
    rcases List.mem_cons.mp hp with rfl | hp
    · rw [hx, hx', hxx]
    · exact ih (fun p hp => hl p (List.mem_cons_of_mem q hp))
        (fun p hp => hl' p (List.mem_cons_of_mem q hp)) hrest p hp

theorem inOrder_inj {l l' : List α} (hl : l.length = gf.required.length)
    (hl' : l'.length = gf.required.length) (h : inOrder gf l = inOrder gf l') : l = l' := by
  have hat := filterMap_inj
    (fun p hp => at_some (Nat.le_of_eq hl.symm) (gf.perm.subset hp))
    (fun p hp => at_some (Nat.le_of_eq hl'.symm) (gf.perm.subset hp)) h
  rw [← required_filterMap hl, ← required_filterMap hl']
  exact List.filterMap_congr fun p hp => hat p (gf.perm.symm.subset hp)

theorem allFit_iff {sys : ClassSystem O C} {names : List S} {specs : List (Specializer O C)}
    {args : List O} (hs : ∀ p ∈ names, ∃ x, gf.at specs p = some x)
    (ha : ∀ p ∈ names, ∃ x, gf.at args p = some x) :
    AllFit sys (names.filterMap (gf.at specs)) (names.filterMap (gf.at args)) ↔
      ∀ p ∈ names, ∃ spec ∈ gf.at specs p, ∃ arg ∈ gf.at args p, Fits sys spec arg := by
  induction names with
  | nil => exact ⟨fun _ _ hp => absurd hp List.not_mem_nil, fun _ => List.Forall₂.nil⟩
  | cons q names ih =>
    obtain ⟨spec, hspec⟩ := hs q List.mem_cons_self
    obtain ⟨arg, harg⟩ := ha q List.mem_cons_self
    have hrest := ih (fun p hp => hs p (List.mem_cons_of_mem q hp))
      fun p hp => ha p (List.mem_cons_of_mem q hp)
    rw [List.filterMap_cons_some hspec, List.filterMap_cons_some harg, AllFit,
      List.forall₂_cons, List.forall_mem_cons, ← hrest]
    simp [hspec, harg, AllFit]

theorem lex_iff {P : O → Specializer O C → Specializer O C → Prop} {names : List S}
    {specs specs' : List (Specializer O C)} {args : List O}
    (hs : ∀ p ∈ names, ∃ x, gf.at specs p = some x)
    (hs' : ∀ p ∈ names, ∃ x, gf.at specs' p = some x)
    (ha : ∀ p ∈ names, ∃ x, gf.at args p = some x) :
    Lexical P (names.filterMap (gf.at specs)) (names.filterMap (gf.at specs'))
        (names.filterMap (gf.at args)) ↔
      ∃ before p after, names = before ++ p :: after ∧
        (∀ q ∈ before, gf.at specs q = gf.at specs' q) ∧
        ∃ spec ∈ gf.at specs p, ∃ spec' ∈ gf.at specs' p, ∃ arg ∈ gf.at args p, P arg spec spec' := by
  induction names with
  | nil =>
    refine ⟨False.elim, ?_⟩
    rintro ⟨before, p, after, h, -⟩
    simp at h
  | cons r names ih =>
    obtain ⟨spec, hspec⟩ := hs r List.mem_cons_self
    obtain ⟨spec', hspec'⟩ := hs' r List.mem_cons_self
    obtain ⟨arg, harg⟩ := ha r List.mem_cons_self
    have hrest := ih (fun p hp => hs p (List.mem_cons_of_mem r hp))
      (fun p hp => hs' p (List.mem_cons_of_mem r hp)) fun p hp => ha p (List.mem_cons_of_mem r hp)
    rw [List.filterMap_cons_some hspec, List.filterMap_cons_some hspec',
      List.filterMap_cons_some harg, Lexical, hrest]
    constructor
    · rintro (hP | ⟨rfl, before, p, after, rfl, hbefore, hp⟩)
      · exact ⟨[], r, names, rfl, fun _ hq => absurd hq List.not_mem_nil, spec, hspec, spec', hspec',
          arg, harg, hP⟩
      · refine ⟨r :: before, p, after, rfl, ?_, hp⟩
        intro q hq
        rcases List.mem_cons.mp hq with rfl | hq
        · exact hspec.trans hspec'.symm
        · exact hbefore q hq
    · rintro ⟨before, p, after, hnames, hbefore, s, hs, s', hs', a, ha, hP⟩
      cases before with
      | nil =>
        obtain ⟨rfl, -⟩ := List.cons.inj hnames
        obtain rfl : spec = s := Option.some.inj (hspec.symm.trans hs)
        obtain rfl : spec' = s' := Option.some.inj (hspec'.symm.trans hs')
        obtain rfl : arg = a := Option.some.inj (harg.symm.trans ha)
        exact Or.inl hP
      | cons q before =>
        obtain ⟨rfl, hrest⟩ := List.cons.inj hnames
        have heq : spec = spec' := Option.some.inj
          (hspec.symm.trans ((hbefore r List.mem_cons_self).trans hspec'))
        exact Or.inr ⟨heq, before, p, after, hrest,
          fun q hq => hbefore q (List.mem_cons_of_mem r hq), s, hs, s', hs', a, ha, hP⟩

section
variable {sys : ClassSystem O C} {gf : GenericFunction O C S M} {args : List O} {m m' m'' : M}

/-- The specializers of the method in argument precedence order. -/
def specsInOrder (gf : GenericFunction O C S M) (m : M) : List (Specializer O C) :=
  inOrder gf (gf.specializers m)

theorem allFit_specsInOrder (hm : m ∈ gf.methods) (hargs : gf.required.length ≤ args.length)
    (h : Applicable sys gf m args) : AllFit sys (specsInOrder gf m) (inOrder gf args) := by
  apply (allFit_iff (fun p hp => at_some (Nat.le_of_eq (gf.congruent m hm).symm)
    (gf.perm.subset hp)) fun p hp => at_some hargs (gf.perm.subset hp)).mpr
  exact fun p hp => h p (gf.perm.subset hp)

theorem decided_iff (P : O → Specializer O C → Specializer O C → Prop) (hm : m ∈ gf.methods)
    (hm' : m' ∈ gf.methods) (hargs : gf.required.length ≤ args.length) :
    Decided gf P args m m' ↔
      Lexical P (specsInOrder gf m) (specsInOrder gf m') (inOrder gf args) :=
  (lex_iff (fun _ hp => at_some (Nat.le_of_eq (gf.congruent m hm).symm) (gf.perm.subset hp))
    (fun _ hp => at_some (Nat.le_of_eq (gf.congruent m' hm').symm) (gf.perm.subset hp))
    fun _ hp => at_some hargs (gf.perm.subset hp)).symm

variable [DecidableEq O] [DecidableEq C]

theorem zip_all_iff {specs : List (Specializer O C)} (h : specs.length ≤ args.length) :
    applicableMethodP sys specs args = true ↔ AllFit sys specs (args.take specs.length) := by
  unfold applicableMethodP
  induction specs generalizing args with
  | nil => exact ⟨fun _ => List.Forall₂.nil, fun _ => rfl⟩
  | cons spec specs ih =>
    cases args with
    | nil => cases h
    | cons arg args =>
      rw [List.zip_cons_cons, List.all_cons, Bool.and_eq_true, accepts_iff,
        ih (Nat.le_of_succ_le_succ h)]
      exact List.forall₂_cons.symm

theorem applicable_iff (hm : m ∈ gf.methods) (hargs : gf.required.length ≤ args.length) :
    applicableMethodP sys (gf.specializers m) args = true ↔ Applicable sys gf m args := by
  have hlen := gf.congruent m hm
  have hfit := @allFit_iff O C S M _ gf sys gf.required (gf.specializers m) args
    (fun _ hp => at_some (Nat.le_of_eq hlen.symm) hp) fun p hp => at_some hargs hp
  have htake : gf.required.filterMap (gf.at args) = args.take gf.required.length := by
    rw [← required_filterMap (List.length_take_of_le hargs)]
    exact List.filterMap_congr fun p hp => (at_take hp).symm
  rw [zip_all_iff (hlen.symm ▸ hargs), hlen]
  rw [required_filterMap hlen, htake] at hfit
  exact hfit

theorem mem_applicableMethods (hargs : gf.required.length ≤ args.length) :
    m ∈ applicableMethods sys gf args ↔ m ∈ gf.methods ∧ Applicable sys gf m args := by
  rw [applicableMethods, List.mem_filter]
  exact and_congr_right fun hm => applicable_iff hm hargs

def beats (sys : ClassSystem O C) (gf : GenericFunction O C S M) (args : List O) (m m' : M) :
    Except (Error O C) Bool := do
  return (← compareMethods sys gf m m' ((inOrder gf args).map sys.classOf)) = .second

theorem compareMethods_eq (hm : m ∈ gf.methods) (hm' : m' ∈ gf.methods) (classes : List C) :
    compareMethods sys gf m m' classes =
      compareSpecializersLists sys (specsInOrder gf m) (specsInOrder gf m') classes := by
  simp only [compareMethods, reorder_eq (gf.congruent m hm), reorder_eq (gf.congruent m' hm'),
    bind, Except.bind, specsInOrder]

theorem beats_of_precedes (hm : m ∈ gf.methods) (hm' : m' ∈ gf.methods)
    (hargs : gf.required.length ≤ args.length) (h : Applicable sys gf m args)
    (h' : Applicable sys gf m' args) (hlex : Decided gf (Precedes sys) args m m') :
    beats sys gf args m m' = .ok false := by
  have hfirst := compareSpecializersLists_first (allFit_specsInOrder hm hargs h)
    (allFit_specsInOrder hm' hargs h') ((decided_iff _ hm hm' hargs).mp hlex)
  simp [beats, compareMethods_eq hm hm', hfirst, bind, Except.bind, pure, Except.pure]

theorem beats_of_follows (hm : m ∈ gf.methods) (hm' : m' ∈ gf.methods)
    (hargs : gf.required.length ≤ args.length) (h : Applicable sys gf m args)
    (h' : Applicable sys gf m' args) (hlex : Decided gf (Precedes sys) args m' m)
    (hnull : ¬Decided gf (NullPair sys) args m' m) : beats sys gf args m m' = .ok true := by
  have hsecond := compareSpecializersLists_second (allFit_specsInOrder hm hargs h)
    (allFit_specsInOrder hm' hargs h') ((decided_iff _ hm' hm hargs).mp hlex)
    (mt (decided_iff _ hm' hm hargs).mpr hnull)
  simp [beats, compareMethods_eq hm hm', hsecond, bind, Except.bind, pure, Except.pure]

theorem beats_of_null (hm : m ∈ gf.methods) (hm' : m' ∈ gf.methods)
    (hargs : gf.required.length ≤ args.length) (hnull : Decided gf (NullPair sys) args m' m) :
    beats sys gf args m m' = .ok false := by
  have hfirst := compareSpecializersLists_null ((decided_iff _ hm' hm hargs).mp hnull)
  simp [beats, compareMethods_eq hm hm', hfirst, bind, Except.bind, pure, Except.pure]

theorem precedes_trans (hargs : gf.required.length ≤ args.length)
    (hm : m ∈ applicableMethods sys gf args) (hm' : m' ∈ applicableMethods sys gf args)
    (hm'' : m'' ∈ applicableMethods sys gf args) (h₁ : Decided gf (Precedes sys) args m m')
    (h₂ : Decided gf (Precedes sys) args m' m'') : Decided gf (Precedes sys) args m m'' := by
  obtain ⟨hm, -⟩ := (mem_applicableMethods hargs).mp hm
  obtain ⟨hm', happ'⟩ := (mem_applicableMethods hargs).mp hm'
  obtain ⟨hm'', happ''⟩ := (mem_applicableMethods hargs).mp hm''
  apply (decided_iff _ hm hm'' hargs).mpr
  exact lex_trans (allFit_specsInOrder hm' hargs happ') (allFit_specsInOrder hm'' hargs happ'')
    ((decided_iff _ hm hm' hargs).mp h₁) ((decided_iff _ hm' hm'' hargs).mp h₂)

omit [DecidableEq O] in
/-- Two neighbours of the prescribed list for which the pair decides, if it does for any two. -/
theorem exists_null_neighbours (hargs : gf.required.length ≤ args.length) {first : M}
    {mid rest : List M} {last : M}
    (h : ∀ m ∈ first :: (mid ++ last :: rest), m ∈ gf.methods ∧ Applicable sys gf m args)
    (hpair : (first :: (mid ++ last :: rest)).Pairwise (Decided gf (Precedes sys) args))
    (hnull : Decided gf (NullPair sys) args first last) :
    ∃ before m m' after, first :: (mid ++ last :: rest) = before ++ m :: m' :: after ∧
      Decided gf (NullPair sys) args m m' := by
  induction mid generalizing first with
  | nil => exact ⟨[], first, last, rest, rfl, hnull⟩
  | cons m mid ih =>
    obtain ⟨hfirst, hrest⟩ := List.pairwise_cons.mp hpair
    have hlast : last ∈ mid ++ last :: rest := List.mem_append_right _ List.mem_cons_self
    obtain ⟨hf, hfa⟩ := h first List.mem_cons_self
    obtain ⟨hm, hma⟩ := h m (List.mem_cons_of_mem _ List.mem_cons_self)
    obtain ⟨hl, hla⟩ := h last (List.mem_cons_of_mem _ (List.mem_cons_of_mem _ hlast))
    have hbetween := null_between (allFit_specsInOrder hf hargs hfa)
      (allFit_specsInOrder hm hargs hma) (allFit_specsInOrder hl hargs hla)
      ((decided_iff _ hf hl hargs).mp hnull)
      ((decided_iff _ hf hm hargs).mp (hfirst m List.mem_cons_self))
      ((decided_iff _ hm hl hargs).mp ((List.pairwise_cons.mp hrest).1 last hlast))
    rcases hbetween with hn | hn
    · exact ⟨[], first, m, mid ++ last :: rest, rfl, (decided_iff _ hf hm hargs).mpr hn⟩
    · obtain ⟨before, a, b, after, he, hab⟩ := ih
        (fun x hx => h x (List.mem_cons_of_mem first hx)) hrest ((decided_iff _ hm hl hargs).mpr hn)
      exact ⟨first :: before, a, b, after, congrArg (first :: ·) he, hab⟩

variable [DecidableEq M]

theorem sort_eq (l : List M) (hargs : gf.required.length ≤ args.length) :
    sortApplicableMethods sys gf l (args.map fun arg => .cls (sys.classOf arg)) =
      SelectionSorting.sort (beats sys gf args) l := by
  have hclasses : ((args.map fun arg => (.cls (sys.classOf arg) : Specializer O C)).take
      gf.argumentPrecedenceOrder.length).map (argClass sys) =
        (args.take gf.required.length).map sys.classOf := by
    rw [gf.perm.length_eq, ← List.map_take, List.map_map]
    rfl
  have hreorder : gf.reorder ((args.take gf.required.length).map sys.classOf) =
      (.ok ((inOrder gf args).map sys.classOf) : Except (Error O C) (List C)) := by
    rw [reorder_eq (by simp [hargs]), inOrder_map, inOrder_take]
  simp only [sortApplicableMethods, hclasses, hreorder, bind, Except.bind]
  rfl

/-- Where the pair of NULL and NIL decides between no two methods, the list is as prescribed. -/
theorem prescribed_of_no_null
    (hdistinct : ∀ m ∈ gf.methods, ∀ m' ∈ gf.methods, gf.specializers m = gf.specializers m' → m = m')
    (hargs : gf.required.length ≤ args.length)
    (hnull : ∀ m ∈ gf.methods, ∀ m' ∈ gf.methods, Applicable sys gf m args →
      Applicable sys gf m' args → ¬Decided gf (NullPair sys) args m m') :
    ∃ l, stdComputeApplicableMethods sys gf args = .ok l ∧ Prescribed sys gf args l := by
  have hdecides : SelectionSorting.Decides (beats sys gf args) (Decided gf (Precedes sys) args)
      (applicableMethods sys gf args) := by
    intro m hm m' hm' hne
    obtain ⟨hm, happ⟩ := (mem_applicableMethods hargs).mp hm
    obtain ⟨hm', happ'⟩ := (mem_applicableMethods hargs).mp hm'
    have hspecs : specsInOrder gf m ≠ specsInOrder gf m' := fun he =>
      hne (hdistinct m hm m' hm' (inOrder_inj (gf.congruent m hm) (gf.congruent m' hm') he))
    rcases lex_total (allFit_specsInOrder hm hargs happ) (allFit_specsInOrder hm' hargs happ')
      hspecs with hl | hl
    · have hd := (decided_iff _ hm hm' hargs).mpr hl
      exact Or.inl ⟨hd, beats_of_precedes hm hm' hargs happ happ' hd⟩
    · have hd := (decided_iff _ hm' hm hargs).mpr hl
      exact Or.inr ⟨hd, beats_of_follows hm hm' hargs happ happ' hd (hnull m' hm' m hm happ' happ)⟩
  have hnodup : (applicableMethods sys gf args).Nodup := gf.methods_nodup.filter _
  obtain ⟨l, hl, hperm, hpair⟩ := SelectionSorting.sort_spec hdecides
    (fun a ha b hb c hc => precedes_trans hargs ha hb hc) hnodup
  refine ⟨l, (sort_eq _ hargs).trans hl, ?_, hperm.nodup_iff.mpr hnodup, hpair⟩
  exact fun m => hperm.mem_iff.trans (mem_applicableMethods hargs)

omit [DecidableEq M] [DecidableEq S] in
theorem applicableUsingClassesP_agrees {specs : List (Specializer O C)} {args : List O}
    {eqlSpecP b : Bool} (h : applicableUsingClassesP sys eqlSpecP specs (args.map sys.classOf) = some b) :
    applicableMethodP sys specs args = b ∧ (eqlSpecP = true → b = false) := by
  induction specs generalizing args eqlSpecP with
  | nil =>
    cases eqlSpecP with
    | true => cases h
    | false => exact ⟨Option.some.inj h, fun he => nomatch he⟩
  | cons spec specs ih =>
    cases args with
    | nil =>
      cases eqlSpecP with
      | true => cases spec <;> cases h
      | false => cases spec <;> exact ⟨Option.some.inj h, fun he => nomatch he⟩
    | cons arg args =>
      cases spec with
      | eql object =>
        rw [List.map_cons, applicableUsingClassesP] at h
        by_cases hc : sys.ofClassP object (sys.classOf arg) = true
        · rw [if_pos hc] at h
          obtain ⟨happ, hb⟩ := ih h
          have hfalse : b = false := hb rfl
          have hcons : applicableMethodP sys (.eql object :: specs) (arg :: args) =
              (accepts sys (.eql object) arg && applicableMethodP sys specs args) :=
            List.all_cons
          refine ⟨?_, fun _ => hfalse⟩
          rw [hcons, happ, hfalse, Bool.and_false]
        · rw [if_neg hc] at h
          obtain rfl : false = b := Option.some.inj h
          have hne : arg ≠ object := by
            rintro rfl
            exact hc (by simp [ClassSystem.ofClassP])
          exact ⟨by simp [applicableMethodP, accepts, hne], fun _ => rfl⟩
      | cls c =>
        rw [List.map_cons, applicableUsingClassesP] at h
        by_cases hc : sys.subclassp (sys.classOf arg) c = true
        · rw [if_pos hc] at h
          obtain ⟨happ, hb⟩ := ih h
          have hacc : accepts sys (.cls c) arg = true := hc
          exact ⟨by simpa [applicableMethodP, hacc] using happ, hb⟩
        · rw [if_neg hc] at h
          obtain rfl : false = b := Option.some.inj h
          have hacc : ¬accepts sys (.cls c) arg = true := hc
          exact ⟨by simp [applicableMethodP, hacc], fun _ => rfl⟩

omit [DecidableEq M] [DecidableEq S] in
theorem collectUsingClasses_agrees {specializers : M → List (Specializer O C)}
    {methods l : List M}
    (h : collectUsingClasses sys specializers (args.map sys.classOf) methods = some l) :
    l = methods.filter fun m => applicableMethodP sys (specializers m) args := by
  induction methods generalizing l with
  | nil => exact (Option.some.inj h).symm
  | cons m methods ih =>
    simp only [collectUsingClasses, Option.bind_eq_bind, Option.bind_eq_some_iff] at h
    obtain ⟨b, hb, rest, hrest, hl⟩ := h
    obtain ⟨happ, -⟩ := applicableUsingClassesP_agrees hb
    rw [List.filter_cons, happ, ← ih hrest]
    exact (Option.some.inj hl).symm

theorem usingClasses_agrees {result : Except (Error O C) (List M)}
    (h : stdComputeApplicableMethodsUsingClasses sys gf (args.map sys.classOf) = some result) :
    stdComputeApplicableMethods sys gf args = result := by
  simp only [stdComputeApplicableMethodsUsingClasses, Option.bind_eq_bind,
    Option.bind_eq_some_iff] at h
  obtain ⟨l, hl, hresult⟩ := h
  have hspecs : (args.map sys.classOf).map (.cls : C → Specializer O C) =
      args.map fun arg => .cls (sys.classOf arg) := List.map_map
  rw [stdComputeApplicableMethods, applicableMethods, ← collectUsingClasses_agrees hl, ← hspecs]
  exact Option.some.inj hresult

omit [DecidableEq S] [DecidableEq O] [DecidableEq C] [DecidableEq M] in
theorem pairwise_swap {R : M → M → Prop} {before after : List M}
    (h : (before ++ m :: m' :: after).Pairwise R) (hswap : R m' m) :
    (before ++ m' :: m :: after).Pairwise R := by
  obtain ⟨hbefore, hafter, hcross⟩ := List.pairwise_append.mp h
  obtain ⟨hm, hafter⟩ := List.pairwise_cons.mp hafter
  obtain ⟨hm', hafter⟩ := List.pairwise_cons.mp hafter
  refine List.pairwise_append.mpr ⟨hbefore, ?_, ?_⟩
  · refine List.pairwise_cons.mpr ⟨List.forall_mem_cons.mpr ⟨hswap, hm'⟩, ?_⟩
    exact List.pairwise_cons.mpr ⟨fun x hx => hm x (List.mem_cons_of_mem m' hx), hafter⟩
  · intro x hx y hy
    exact hcross x hx y ((List.Perm.swap m m' after).subset hy)

/-- A list of exactly the applicable methods, stored before the others, stays as it is if no method
of it is beaten by a later one. -/
theorem stored_first {l : List M} (hargs : gf.required.length ≤ args.length)
    (hmem : ∀ m, m ∈ l ↔ m ∈ gf.methods ∧ Applicable sys gf m args) (hnodup : l.Nodup)
    (hpair : l.Pairwise fun a b => beats sys gf args a b = .ok false) :
    ∃ stored, ∃ h : stored.Perm gf.methods,
      stdComputeApplicableMethods sys (store gf stored h) args = .ok l := by
  let p : M → Bool := fun m => applicableMethodP sys (gf.specializers m) args
  have hl : l.Perm (gf.methods.filter p) :=
    (List.perm_ext_iff_of_nodup hnodup (gf.methods_nodup.filter p)).mpr fun m =>
      (hmem m).trans (mem_applicableMethods hargs).symm
  let others := gf.methods.filter fun m => !p m
  have hstored : (l ++ others).Perm gf.methods :=
    (hl.append_right others).trans (List.filter_append_perm p gf.methods)
  have hfilter : applicableMethods sys (store gf (l ++ others) hstored) args = l := by
    have hin : l.filter p = l := by
      apply List.filter_eq_self.mpr
      intro m hm
      obtain ⟨hmm, happ⟩ := (hmem m).mp hm
      exact (applicable_iff hmm hargs).mpr happ
    have hout : others.filter p = [] := by
      apply List.filter_eq_nil_iff.mpr
      intro m hm
      simpa using (List.mem_filter.mp hm).2
    change (l ++ others).filter p = l
    rw [List.filter_append, hin, hout, List.append_nil]
  refine ⟨l ++ others, hstored, ?_⟩
  rw [stdComputeApplicableMethods, hfilter]
  exact (@sort_eq O C S M _ sys (store gf (l ++ others) hstored) args _ _ _ l hargs).trans
    (SelectionSorting.sort_of_unbeaten hnodup hpair)

omit [DecidableEq O] [DecidableEq M] in
theorem precedes_asymm (hargs : gf.required.length ≤ args.length)
    (hm : m ∈ gf.methods ∧ Applicable sys gf m args)
    (hm' : m' ∈ gf.methods ∧ Applicable sys gf m' args)
    (h : Decided gf (Precedes sys) args m m') : ¬Decided gf (Precedes sys) args m' m := by
  rw [decided_iff _ hm.1 hm'.1 hargs] at h
  rw [decided_iff _ hm'.1 hm.1 hargs]
  exact lex_asymm (allFit_specsInOrder hm.1 hargs hm.2) (allFit_specsInOrder hm'.1 hargs hm'.2) h

omit [DecidableEq O] [DecidableEq C] [DecidableEq M] in
theorem precedes_of_null (hm : m ∈ gf.methods) (hm' : m' ∈ gf.methods)
    (hargs : gf.required.length ≤ args.length) (h : Decided gf (NullPair sys) args m m') :
    Decided gf (Precedes sys) args m m' :=
  (decided_iff _ hm hm' hargs).mpr (lex_of_null ((decided_iff _ hm hm' hargs).mp h))

/-- Where the pair of NULL and NIL decides between two applicable methods, the methods can be stored
such that another list comes out. -/
theorem not_prescribed_of_null (hargs : gf.required.length ≤ args.length)
    (hm : m ∈ gf.methods ∧ Applicable sys gf m args)
    (hm' : m' ∈ gf.methods ∧ Applicable sys gf m' args)
    (hnull : Decided gf (NullPair sys) args m m')
    (hall : ∀ (stored : List M) (h : stored.Perm gf.methods), ∃ l,
      stdComputeApplicableMethods sys (store gf stored h) args = .ok l ∧ Prescribed sys gf args l) :
    False := by
  obtain ⟨l, -, hpres⟩ := hall gf.methods (List.Perm.refl _)
  obtain ⟨xs, tail, rfl⟩ := List.append_of_mem ((hpres.mem m).mpr hm)
  obtain ⟨-, htail, hcross⟩ := List.pairwise_append.mp hpres.ordered
  have hfirst := precedes_of_null hm.1 hm'.1 hargs hnull
  have hlast : m' ∈ tail := by
    rcases List.mem_append.mp ((hpres.mem m').mpr hm') with hx | ht
    · exact absurd (hcross m' hx m List.mem_cons_self) (precedes_asymm hargs hm hm' hfirst)
    · refine (List.mem_cons.mp ht).resolve_left ?_
      rintro rfl
      exact precedes_asymm hargs hm hm hfirst hfirst
  obtain ⟨mid, rest, rfl⟩ := List.append_of_mem hlast
  obtain ⟨before, a, b, after, he, hab⟩ := exists_null_neighbours hargs
    (fun x hx => (hpres.mem x).mp (List.mem_append_right xs hx)) htail hnull
  rw [he, ← List.append_assoc] at hpres
  have ha := (hpres.mem a).mp (List.mem_append_right _ List.mem_cons_self)
  have hb := (hpres.mem b).mp
    (List.mem_append_right _ (List.mem_cons_of_mem a List.mem_cons_self))
  -- the neighbours are stored the other way round, and come out so
  have hswap : (xs ++ before ++ b :: a :: after).Perm (xs ++ before ++ a :: b :: after) :=
    (List.Perm.swap a b after).append_left _
  have hunbeaten : (xs ++ before ++ a :: b :: after).Pairwise
      fun x y => beats sys gf args x y = .ok false := by
    refine hpres.ordered.imp_of_mem fun hx hy hxy => ?_
    obtain ⟨hxm, hxa⟩ := (hpres.mem _).mp hx
    obtain ⟨hym, hya⟩ := (hpres.mem _).mp hy
    exact beats_of_precedes hxm hym hargs hxa hya hxy
  obtain ⟨stored, hstored, hstd⟩ := stored_first hargs (fun x => hswap.mem_iff.trans (hpres.mem x))
    (hswap.nodup_iff.mpr hpres.nodup)
    (pairwise_swap hunbeaten (beats_of_null hb.1 ha.1 hargs hab))
  obtain ⟨l', hl', hpres'⟩ := hall stored hstored
  obtain rfl := Except.ok.inj (hstd.symm.trans hl')
  have hba := (List.pairwise_cons.mp (List.pairwise_append.mp hpres'.ordered).2.1).1 a
    List.mem_cons_self
  exact precedes_asymm hargs hb ha hba (precedes_of_null ha.1 hb.1 hargs hab)

/-- However the methods are stored, the applicable ones come in the prescribed order, and so do
those found from the classes, if and only if the pair of NULL and NIL decides between no two. -/
theorem methods_are_ordered (sys : ClassSystem O C) (gf : GenericFunction O C S M)
    (hdistinct : ∀ m ∈ gf.methods, ∀ m' ∈ gf.methods, gf.specializers m = gf.specializers m' → m = m')
    {args : List O} (hargs : gf.required.length ≤ args.length) :
    ((∀ (stored : List M) (h : stored.Perm gf.methods), ∃ l,
        stdComputeApplicableMethods sys (store gf stored h) args = .ok l ∧
          Prescribed sys gf args l) ∧
      ∀ classes result, stdComputeApplicableMethodsUsingClasses sys gf classes = some result →
        ∀ args, args.map sys.classOf = classes →
          stdComputeApplicableMethods sys gf args = result) ↔
      ∀ m ∈ gf.methods, ∀ m' ∈ gf.methods, Applicable sys gf m args → Applicable sys gf m' args →
        ¬Decided gf (NullPair sys) args m m' := by
  constructor
  · rintro ⟨hall, -⟩ m hm m' hm' happ happ' hnull
    exact not_prescribed_of_null hargs ⟨hm, happ⟩ ⟨hm', happ'⟩ hnull hall
  · intro hnull
    refine ⟨fun stored h => ?_, ?_⟩
    · obtain ⟨l, hl, hpres⟩ := @prescribed_of_no_null O C S M _ sys (store gf stored h) args _ _ _
        (fun m hm m' hm' => hdistinct m (h.subset hm) m' (h.subset hm')) hargs
        fun m hm m' hm' => hnull m (h.subset hm) m' (h.subset hm')
      exact ⟨l, hl, fun m => (hpres.mem m).trans (and_congr_left fun _ => h.mem_iff), hpres.nodup,
        hpres.ordered⟩
    · rintro classes result h args rfl
      exact usingClasses_agrees h

end
end

/-- A method on NULL, true, stored before one on (EQL NIL), false. -/
def onNull : GenericFunction (Fin 4) (Fin 3) Bool Bool :=
  oneArgument true (.cls threeClasses.null) (.eql threeClasses.nil)

theorem null_comes_before_nil :
    onNull.methods.Pairwise (fun m m' => onNull.specializers m ≠ onNull.specializers m') ∧
      stdComputeApplicableMethods threeClasses onNull [0] = .ok [true, false] ∧
      ¬Prescribed threeClasses onNull [0] [true, false] := by
  refine ⟨by decide, rfl, fun h => ?_⟩
  have horder := (List.pairwise_cons.mp h.ordered).1 false List.mem_cons_self
  have hlex := (decided_iff _ (by decide) (by decide) (by decide)).mp horder
  rcases hlex with h | ⟨h, -⟩
  · exact h
  · cases h

/-- Methods on the other class and on (EQL 1). -/
def onInstances : GenericFunction (Fin 4) (Fin 3) Bool Bool :=
  oneArgument true (.cls instanceClass) (.eql anInstance)

theorem methods_on_instances_are_ordered : ∃ l,
    stdComputeApplicableMethods threeClasses onInstances [1] = .ok l ∧
      Prescribed threeClasses onInstances [1] l := by
  refine ((methods_are_ordered threeClasses onInstances (by decide) (by decide)).mpr ?_).1
    onInstances.methods (List.Perm.refl _)
  rintro m - m' - - - ⟨before, p, after, -, -, spec, -, spec', hspec', arg, -, -, rfl⟩
  have hmem : .cls 0 ∈ onInstances.specializers m' := List.mem_of_getElem? hspec'
  cases m' <;> exact absurd hmem (by decide)

end MethodOrdering
