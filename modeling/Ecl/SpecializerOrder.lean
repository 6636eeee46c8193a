import Ecl.GenericFunctions
import Ecl.ListOrders

/-! The order of specializers that CLHS 7.6.6.1.2 prescribes for an argument and for a list of
arguments, and what compare-specializers of src/clos/kernel.lsp makes of it. -/
namespace SpecializerOrder

open GenericFunctions

variable {O C : Type} (sys : ClassSystem O C)

/-- The specializer accepts the argument. -/
def Fits : Specializer O C → O → Prop
  | .eql object, arg => arg = object
  | .cls c, arg => c ∈ sys.precedenceList (sys.classOf arg)

/-- EQL before class, otherwise by the precedence list of the class of the argument. -/
def Precedes (arg : O) : Specializer O C → Specializer O C → Prop
  | .eql _, .cls _ => True
  | .cls c, .cls d => [c, d].Sublist (sys.precedenceList (sys.classOf arg))
  | _, .eql _ => False

/-- The pair that compare-specializers takes for subtypes of each other. -/
def NullPair (_ : O) (spec spec' : Specializer O C) : Prop :=
  spec = .eql sys.nil ∧ spec' = .cls sys.null

def Lexical (P : O → Specializer O C → Specializer O C → Prop) :
    List (Specializer O C) → List (Specializer O C) → List O → Prop
  | spec :: specs, spec' :: specs', arg :: args =>
    P arg spec spec' ∨ spec = spec' ∧ Lexical P specs specs' args
  | _, _, _ => False

section
variable [DecidableEq C]

/-- The place of a specializer in the order for an argument. -/
def rank (arg : O) : Specializer O C → ℕ
  | .eql _ => 0
  | .cls c => (sys.precedenceList (sys.classOf arg)).idxOf c + 1

variable {sys} {arg : O} {spec spec' spec'' : Specializer O C}

theorem rank_inj (h : Fits sys spec arg) (h' : Fits sys spec' arg)
    (he : rank sys arg spec = rank sys arg spec') : spec = spec' := by
  cases spec with
  | eql object =>
    cases spec' with
    | eql object' => exact congrArg Specializer.eql (h.symm.trans h')
    | cls d => cases he
  | cls c =>
    cases spec' with
    | eql object' => cases he
    | cls d => exact congrArg Specializer.cls ((List.idxOf_inj h).mp (Nat.succ.inj he))

theorem precedes_iff (h' : Fits sys spec' arg) :
    Precedes sys arg spec spec' ↔ rank sys arg spec < rank sys arg spec' := by
  cases spec with
  | eql object =>
    cases spec' with
    | eql object' => simp [Precedes, rank]
    | cls d => simp [Precedes, rank]
  | cls c =>
    cases spec' with
    | eql object' => simp [Precedes, rank]
    | cls d =>
      simp only [Precedes, rank, Nat.succ_lt_succ_iff]
      exact ⟨ListOrders.lt_of_pair_sublist (sys.nodup _), ListOrders.pair_sublist_of_lt h'⟩

theorem mem_memberTail {l : List C} {c d : C} (hn : l.Nodup) (hc : c ∈ l) :
    c ∈ l.dropWhile (· ≠ d) ↔ l.idxOf d ≤ l.idxOf c := by
  induction l with
  | nil => cases hc
  | cons x l ih =>
    obtain ⟨hx, hl⟩ := List.nodup_cons.mp hn
    by_cases hxd : x = d
    · simpa [hxd] using List.mem_cons.mp (hxd ▸ hc)
    · rw [List.idxOf_cons_ne l hxd, List.dropWhile_cons_of_pos (by simpa using hxd)]
      rcases List.mem_cons.mp hc with rfl | hc
      · have hno : c ∉ l.dropWhile (· ≠ d) := fun h => hx ((List.dropWhile_sublist _).subset h)
        simpa using hno
      · have hxc : x ≠ c := fun he => hx (he ▸ hc)
        rw [List.idxOf_cons_ne l hxc, Nat.succ_le_succ_iff]
        exact ih hl hc

variable [DecidableEq O]

omit [DecidableEq O] in
theorem ofClassP_iff {object : O} {c : C} :
    sys.ofClassP object c = true ↔ c ∈ sys.precedenceList (sys.classOf object) := by
  have hself : sys.classOf object ∈ sys.precedenceList (sys.classOf object) :=
    List.mem_of_mem_head? (sys.head _)
  simp only [ClassSystem.ofClassP, Bool.or_eq_true, decide_eq_true_eq]
  constructor
  · rintro (rfl | h)
    · exact hself
    · exact h
  · exact Or.inr

theorem accepts_iff : accepts sys spec arg = true ↔ Fits sys spec arg := by
  cases spec with
  | eql object => simp [accepts, Fits]
  | cls c => exact ofClassP_iff

theorem fastSubtypep_cases (h : Fits sys spec arg) (h' : Fits sys spec' arg) (hne : spec ≠ spec')
    (hs : fastSubtypep sys spec spec' = true) :
    rank sys arg spec < rank sys arg spec' ∨ NullPair sys arg spec' spec := by
  cases spec with
  | eql object =>
    cases spec' with
    | eql object' => exact absurd (congrArg Specializer.eql (h.symm.trans h')) hne
    | cls d => exact Or.inl (Nat.succ_pos _)
  | cls c =>
    cases spec' with
    | eql object' =>
      simp only [fastSubtypep, Bool.and_eq_true, decide_eq_true_eq] at hs
      exact Or.inr ⟨congrArg _ hs.1, congrArg _ hs.2⟩
    | cls d =>
      have hcd : d ≠ c := fun he => hne (congrArg Specializer.cls he.symm)
      simp only [fastSubtypep, ClassSystem.subclassp, Bool.or_eq_true, decide_eq_true_eq] at hs
      have hd : d ∈ sys.precedenceList c := hs.resolve_left (Ne.symm hcd)
      exact Or.inl ((precedes_iff h').mp (sys.ordered _ c h d hd hcd))

theorem fastSubtypep_nil_null : fastSubtypep sys (.eql sys.nil) (.cls sys.null) = true := by
  simp [fastSubtypep, ClassSystem.ofClassP, sys.classOf_nil]

theorem fastSubtypep_null_nil : fastSubtypep sys (.cls sys.null) (.eql sys.nil) = true := by
  simp [fastSubtypep]

omit [DecidableEq O] in
theorem listed_memberTail (h : Fits sys spec arg) (h' : Fits sys spec' arg)
    (hf : spec.eqlFlag = false) (hf' : spec'.eqlFlag = false) :
    listed (memberTail (sys.precedenceList (sys.classOf arg)) spec') spec = true ↔
      rank sys arg spec' ≤ rank sys arg spec := by
  cases spec with
  | eql object => cases hf
  | cls c =>
    cases spec' with
    | eql object' => cases hf'
    | cls d =>
      simp only [listed, memberTail, rank, Nat.succ_le_succ_iff]
      exact decide_eq_true_iff.trans (mem_memberTail (sys.nodup _) h)

omit [DecidableEq O] in
theorem rank_of_eqlFlag (hf : spec.eqlFlag = true) : rank sys arg spec = 0 := by
  cases spec with
  | eql object => rfl
  | cls c => cases hf

theorem compareSpecializers_same (c : C) : compareSpecializers sys spec spec c = .same :=
  if_pos rfl

theorem compareSpecializers_first (h : Fits sys spec arg) (h' : Fits sys spec' arg)
    (hr : rank sys arg spec < rank sys arg spec') :
    compareSpecializers sys spec spec' (sys.classOf arg) = .first := by
  have hne : spec ≠ spec' := by
    rintro rfl
    exact Nat.lt_irrefl _ hr
  unfold compareSpecializers
  rw [if_neg hne]
  by_cases hs : fastSubtypep sys spec spec' = true
  · rw [if_pos hs]
  have hs' : ¬fastSubtypep sys spec' spec = true := by
    intro hs'
    rcases fastSubtypep_cases h' h hne.symm hs' with hlt | ⟨rfl, rfl⟩
    · exact Nat.lt_asymm hr hlt
    · exact hs fastSubtypep_nil_null
  rw [if_neg hs, if_neg hs']
  cases hf : spec.eqlFlag with
  | true => rfl
  | false =>
    cases hf' : spec'.eqlFlag with
    | true => exact absurd hr (by simp [rank_of_eqlFlag hf'])
    | false =>
      have hno := mt (listed_memberTail h h' hf hf').mp (Nat.not_le_of_lt hr)
      have hyes := (listed_memberTail h' h hf' hf).mpr (Nat.le_of_lt hr)
      simp [hno, hyes]

theorem compareSpecializers_second (h : Fits sys spec arg) (h' : Fits sys spec' arg)
    (hr : rank sys arg spec' < rank sys arg spec) (hnull : ¬NullPair sys arg spec' spec) :
    compareSpecializers sys spec spec' (sys.classOf arg) = .second := by
  have hne : spec ≠ spec' := by
    rintro rfl
    exact Nat.lt_irrefl _ hr
  have hs : ¬fastSubtypep sys spec spec' = true := by
    intro hs
    rcases fastSubtypep_cases h h' hne hs with hlt | hpair
    · exact Nat.lt_asymm hr hlt
    · exact hnull hpair
  unfold compareSpecializers
  rw [if_neg hne, if_neg hs]
  by_cases hs' : fastSubtypep sys spec' spec = true
  · rw [if_pos hs']
  rw [if_neg hs']
  cases hf : spec.eqlFlag with
  | true => exact absurd hr (by simp [rank_of_eqlFlag hf])
  | false =>
    cases hf' : spec'.eqlFlag with
    | true => rfl
    | false =>
      have hyes := (listed_memberTail h h' hf hf').mpr (Nat.le_of_lt hr)
      simp [hyes]

theorem compareSpecializers_null (hnull : NullPair sys arg spec' spec) :
    compareSpecializers sys spec spec' (sys.classOf arg) = .first := by
  obtain ⟨rfl, rfl⟩ := hnull
  simp [compareSpecializers, fastSubtypep_null_nil]

/-- Each specializer of the list accepts its argument. -/
def AllFit (sys : ClassSystem O C) : List (Specializer O C) → List O → Prop :=
  List.Forall₂ (Fits sys)

variable {specs specs' specs'' : List (Specializer O C)} {args : List O}

theorem compareSpecializersLists_first (h : AllFit sys specs args) (h' : AllFit sys specs' args)
    (hlex : Lexical (Precedes sys) specs specs' args) :
    compareSpecializersLists sys specs specs' (args.map sys.classOf) = .ok .first := by
  induction h generalizing specs' with
  | nil => cases h' with | nil => exact hlex.elim
  | cons hfit _ ih =>
    cases h' with
    | cons hfit' hrest' =>
      simp only [List.map_cons, compareSpecializersLists]
      rcases hlex with hp | ⟨rfl, hlex⟩
      · rw [compareSpecializers_first hfit hfit' ((precedes_iff hfit').mp hp)]
      · simp only [compareSpecializers_same]
        exact ih hrest' hlex

theorem compareSpecializersLists_second (h : AllFit sys specs args) (h' : AllFit sys specs' args)
    (hlex : Lexical (Precedes sys) specs' specs args) (hnull : ¬Lexical (NullPair sys) specs' specs args) :
    compareSpecializersLists sys specs specs' (args.map sys.classOf) = .ok .second := by
  induction h generalizing specs' with
  | nil => cases h' with | nil => exact hlex.elim
  | cons hfit _ ih =>
    cases h' with
    | cons hfit' hrest' =>
      obtain ⟨hpair, hrest⟩ := not_or.mp hnull
      simp only [List.map_cons, compareSpecializersLists]
      rcases hlex with hp | ⟨rfl, hlex⟩
      · rw [compareSpecializers_second hfit hfit' ((precedes_iff hfit).mp hp) hpair]
      · simp only [compareSpecializers_same]
        exact ih hrest' hlex fun hn => hrest ⟨rfl, hn⟩

theorem compareSpecializersLists_null (hnull : Lexical (NullPair sys) specs' specs args) :
    compareSpecializersLists sys specs specs' (args.map sys.classOf) = .ok .first := by
  induction args generalizing specs specs' with
  | nil => cases specs <;> cases specs' <;> exact hnull.elim
  | cons arg args ih =>
    cases specs with
    | nil => cases specs' <;> exact hnull.elim
    | cons spec specs =>
      cases specs' with
      | nil => exact hnull.elim
      | cons spec' specs' =>
        simp only [List.map_cons, compareSpecializersLists]
        rcases hnull with hpair | ⟨rfl, hnull⟩
        · rw [compareSpecializers_null hpair]
        · simp only [compareSpecializers_same]
          exact ih hnull

omit [DecidableEq O] in
theorem lex_trans (h' : AllFit sys specs' args) (h'' : AllFit sys specs'' args)
    (h₁ : Lexical (Precedes sys) specs specs' args) (h₂ : Lexical (Precedes sys) specs' specs'' args) :
    Lexical (Precedes sys) specs specs'' args := by
  induction h' generalizing specs specs'' with
  | nil => cases specs <;> exact h₁.elim
  | cons hfit' _ ih =>
    cases specs with
    | nil => exact h₁.elim
    | cons spec specs =>
      cases h'' with
      | cons hfit'' hrest'' =>
        rcases h₁ with hp₁ | ⟨rfl, h₁⟩
        · rcases h₂ with hp₂ | ⟨rfl, -⟩
          · apply Or.inl
            apply (precedes_iff hfit'').mpr
            exact Nat.lt_trans ((precedes_iff hfit').mp hp₁) ((precedes_iff hfit'').mp hp₂)
          · exact Or.inl hp₁
        · rcases h₂ with hp₂ | ⟨rfl, h₂⟩
          · exact Or.inl hp₂
          · exact Or.inr ⟨rfl, ih hrest'' h₁ h₂⟩

omit [DecidableEq O] in
theorem lex_total (h : AllFit sys specs args) (h' : AllFit sys specs' args) (hne : specs ≠ specs') :
    Lexical (Precedes sys) specs specs' args ∨ Lexical (Precedes sys) specs' specs args := by
  induction h generalizing specs' with
  | nil => cases h' with | nil => exact absurd rfl hne
  | @cons spec arg specs _ hfit _ ih =>
    cases h' with
    | @cons spec' _ specs' _ hfit' hrest' =>
      rcases Nat.lt_trichotomy (rank sys arg spec) (rank sys arg spec') with hlt | heq | hgt
      · exact Or.inl (Or.inl ((precedes_iff hfit').mpr hlt))
      · have hspec : spec = spec' := rank_inj hfit hfit' heq
        have hspecs : specs ≠ specs' := fun he => hne (by rw [hspec, he])
        rcases ih hrest' hspecs with hl | hl
        · exact Or.inl (Or.inr ⟨hspec, hl⟩)
        · exact Or.inr (Or.inr ⟨hspec.symm, hl⟩)
      · exact Or.inr (Or.inl ((precedes_iff hfit).mpr hgt))

omit [DecidableEq O] in
theorem rank_le (hfit' : Fits sys spec' arg)
    (h : Lexical (Precedes sys) (spec :: specs) (spec' :: specs') (arg :: args)) :
    rank sys arg spec ≤ rank sys arg spec' := by
  rcases h with hp | ⟨rfl, -⟩
  · exact Nat.le_of_lt ((precedes_iff hfit').mp hp)
  · exact Nat.le_refl _

omit [DecidableEq O] in
theorem lex_tail (hfit : Fits sys spec arg)
    (h : Lexical (Precedes sys) (spec :: specs) (spec :: specs') (arg :: args)) :
    Lexical (Precedes sys) specs specs' args := by
  rcases h with hp | ⟨-, h⟩
  · exact absurd ((precedes_iff hfit).mp hp) (Nat.lt_irrefl _)
  · exact h

omit [DecidableEq O] in
theorem lex_asymm (h : AllFit sys specs args) (h' : AllFit sys specs' args)
    (h₁ : Lexical (Precedes sys) specs specs' args) : ¬Lexical (Precedes sys) specs' specs args := by
  intro h₂
  induction h generalizing specs' with
  | nil => cases h' with | nil => exact h₁
  | cons hfit _ ih =>
    cases h' with
    | cons hfit' hrest' =>
      have he := rank_inj hfit hfit' (Nat.le_antisymm (rank_le hfit' h₁) (rank_le hfit h₂))
      subst he
      exact ih hrest' (lex_tail hfit h₁) (lex_tail hfit h₂)

omit [DecidableEq C] [DecidableEq O] in
theorem lex_of_null (h : Lexical (NullPair sys) specs specs' args) :
    Lexical (Precedes sys) specs specs' args := by
  induction args generalizing specs specs' with
  | nil => cases specs <;> cases specs' <;> exact h.elim
  | cons arg args ih =>
    cases specs with
    | nil => cases specs' <;> exact h.elim
    | cons spec specs =>
      cases specs' with
      | nil => exact h.elim
      | cons spec' specs' =>
        rcases h with ⟨rfl, rfl⟩ | ⟨rfl, h⟩
        · exact Or.inl trivial
        · exact Or.inr ⟨rfl, ih h⟩

omit [DecidableEq O] in
theorem rank_null : rank sys sys.nil (.cls sys.null) = 1 := by
  obtain ⟨rest, hrest⟩ := List.head?_eq_some_iff.mp (sys.head sys.null)
  simp [rank, sys.classOf_nil, hrest]

omit [DecidableEq O] in
/-- Nothing is between NIL and NULL. -/
theorem null_between (h : AllFit sys specs args) (h' : AllFit sys specs' args)
    (h'' : AllFit sys specs'' args) (hnull : Lexical (NullPair sys) specs specs'' args)
    (h₁ : Lexical (Precedes sys) specs specs' args) (h₂ : Lexical (Precedes sys) specs' specs'' args) :
    Lexical (NullPair sys) specs specs' args ∨ Lexical (NullPair sys) specs' specs'' args := by
  induction h generalizing specs' specs'' with
  | nil => cases h' with | nil => exact h₁.elim
  | @cons spec arg specs _ hfit _ ih =>
    cases h' with
    | @cons spec' _ specs' _ hfit' hrest' =>
      cases h'' with
      | cons hfit'' hrest'' =>
        have hle₁ := rank_le hfit' h₁
        have hle₂ := rank_le hfit'' h₂
        rcases hnull with ⟨rfl, rfl⟩ | ⟨rfl, hnull⟩
        · have harg : arg = sys.nil := hfit
          have hone : rank sys arg (.cls sys.null) = 1 := harg ▸ rank_null
          rcases Nat.lt_or_ge 0 (rank sys arg spec') with hpos | hzero
          · have he : spec' = .cls sys.null := rank_inj hfit' hfit'' (by omega)
            exact Or.inl (Or.inl ⟨rfl, he⟩)
          · have he : spec' = .eql sys.nil := rank_inj hfit' hfit (Nat.le_zero.mp hzero)
            exact Or.inr (Or.inl ⟨he, rfl⟩)
        · have he : spec = spec' := rank_inj hfit hfit' (Nat.le_antisymm hle₁ hle₂)
          subst he
          rcases ih hrest' hrest'' hnull (lex_tail hfit h₁) (lex_tail hfit h₂) with hl | hl
          · exact Or.inl (Or.inr ⟨rfl, hl⟩)
          · exact Or.inr (Or.inr ⟨rfl, hl⟩)

end
end SpecializerOrder
