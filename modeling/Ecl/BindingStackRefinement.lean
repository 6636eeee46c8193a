import Ecl.BindingStack
import Ecl.ShallowBinding

/-! Each function of the binding stack against the bindings it makes, removes or assigns. -/
namespace BindingStack

open ShallowBinding

variable {S V : Type} [DecidableEq S]

structure Dynamic (S V : Type) where
  bindings : Bindings S V
  global : S → V
  constant : S → Bool

namespace Dynamic

def read (d : Dynamic S V) (s : S) : V := (d.bindings.current s).getD (d.global s)

def bind (d : Dynamic S V) (s : S) (v : V) : Dynamic S V :=
  { d with bindings := d.bindings.bind s v }

def set (d : Dynamic S V) (s : S) (v : V) : Dynamic S V :=
  match d.bindings.current s with
  | some _ => { d with bindings := d.bindings.assign s v }
  | none => { d with global := Function.update d.global s v }

def unwind (d : Dynamic S V) (n : ℕ) : Dynamic S V := { d with bindings := d.bindings.unwind n }

/-- The bindings PROGV makes before it is done or finds an error. -/
def progvPairs (constant : S → Bool) (objnull : V) (valuesProper : Bool) :
    List (Option S) → List V → List (S × V)
  | [], _ => []
  | var :: vars, values =>
    if values = [] ∧ ¬ valuesProper then []
    else match var with
      | none => []
      | some s =>
        if constant s then []
        else (s, values.head?.getD objnull) ::
          progvPairs constant objnull valuesProper vars values.tail

def bindAll (d : Dynamic S V) (pairs : List (S × V)) : Dynamic S V :=
  pairs.foldl (fun d p => d.bind p.1 p.2) d

def apply (objnull : V) (d : Dynamic S V) : Op S V → Dynamic S V
  | .bind s v => d.bind s v
  | .push s => d.bind s (d.read s)
  | .set s v => d.set s v
  | .unwind1 => d.unwind (d.bindings.depth - 1)
  | .unwind ndx => d.unwind (ndx + 1).toNat
  | .progv vars values =>
    d.bindAll (progvPairs d.constant objnull values.proper vars.items values.items)

def run (objnull : V) (d : Dynamic S V) (ops : List (Op S V)) : Dynamic S V :=
  ops.foldl (apply objnull) d

end Dynamic

def tableValue (env : Env S V) (s : S) : Option V :=
  (inTable env s).bind (env.blocks env.tlBindings)

structure Sound (env : Env S V) : Prop where
  injective : ∀ s t i, env.binding s = some i → env.binding t = some i → s = t
  bounded : ∀ s i, env.binding s = some i → i ≤ env.lastVarIndex
  pooled : ∀ i ∈ env.reusedIndices, i ≤ env.lastVarIndex ∧ ∀ s, env.binding s ≠ some i
  poolNodup : env.reusedIndices.Nodup
  clean : ∀ i < env.tlBindingsSize, (∀ s, env.binding s ≠ some i) →
    env.blocks env.tlBindings i = none
  minimum : 4 ≤ env.tlBindingsSize

def Stacked (slots : ℤ → Slot S V) : ℤ → List (S × Option V) → Prop
  | top, [] => top = -1
  | top, (s, v) :: rest => slots top = ⟨some s, v⟩ ∧ Stacked slots (top - 1) rest

structure Represents (env : Env S V) (d : Dynamic S V) : Prop where
  current : ∀ s, tableValue env s = d.bindings.current s
  global : env.value = d.global
  constant : env.constant = d.constant
  stacked : Stacked env.slots env.top d.bindings.saved
  sound : Sound env

omit [DecidableEq S] in
theorem Stacked.length {slots : ℤ → Slot S V} {l : List (S × Option V)} :
    ∀ {top : ℤ}, Stacked slots top l → top + 1 = l.length := by
  induction l with
  | nil =>
    intro top h
    rw [show top = -1 from h]
    rfl
  | cons x l ih =>
    intro top h
    have hrest := ih h.2
    rw [List.length_cons]
    omega

omit [DecidableEq S] in
theorem Stacked.update {slots : ℤ → Slot S V} {l : List (S × Option V)} {i : ℤ}
    (x : Slot S V) : ∀ {top : ℤ}, Stacked slots top l → top < i →
    Stacked (Function.update slots i x) top l := by
  induction l with
  | nil => exact fun h _ => h
  | cons r l ih =>
    intro top h hi
    refine ⟨?_, ih h.2 (by omega)⟩
    rw [Function.update_of_ne (by omega)]
    exact h.1

structure SameStack (env env' : Env S V) : Prop where
  slots : env'.slots = env.slots
  top : env'.top = env.top
  limit : env'.limit = env.limit
  value : env'.value = env.value
  constant : env'.constant = env.constant
  current : ∀ t, tableValue env' t = tableValue env t

omit [DecidableEq S] in
theorem SameStack.trans {a b c : Env S V} (h : SameStack a b) (k : SameStack b c) :
    SameStack a c where
  slots := k.slots.trans h.slots
  top := k.top.trans h.top
  limit := k.limit.trans h.limit
  value := k.value.trans h.value
  constant := k.constant.trans h.constant
  current t := (k.current t).trans (h.current t)

omit [DecidableEq S] in
theorem inTable_eq_some {env : Env S V} {s : S} {i : ℕ} :
    inTable env s = some i ↔ env.binding s = some i ∧ i < env.tlBindingsSize := by
  simp [inTable, Option.filter_eq_some_iff]

omit [DecidableEq S] in
theorem tableValue_of_binding (env : Env S V) {s : S} {i : ℕ} (h : env.binding s = some i) :
    tableValue env s = if i < env.tlBindingsSize then env.blocks env.tlBindings i else none := by
  unfold tableValue inTable
  rw [h, Option.filter_some]
  by_cases hi : i < env.tlBindingsSize <;> simp [hi]

omit [DecidableEq S] in
theorem tableValue_of_missing {env : Env S V} {s : S} (h : env.binding s = none) :
    tableValue env s = none := by simp [tableValue, inTable, h]

theorem giveIndex_spec {env : Env S V} (h : Sound env) {s : S} (hs : env.binding s = none)
    {i last : ℕ} {reused : List ℕ} (hfresh : ∀ t, env.binding t ≠ some i) (hi : i ≤ last)
    (hlast : env.lastVarIndex ≤ last) (hreused : reused.Sublist env.reusedIndices)
    (hnot : i ∉ reused) {env' : Env S V}
    (henv : env' = { env with
      lastVarIndex := last, reusedIndices := reused
      binding := Function.update env.binding s (some i) }) :
    Sound env' ∧ SameStack env env' := by
  have hbinding : ∀ t j, env'.binding t = some j ↔
      t = s ∧ j = i ∨ t ≠ s ∧ env.binding t = some j := by
    intro t j
    rw [henv]
    by_cases ht : t = s
    · simp [ht, eq_comm]
    · simp [ht]
  subst henv
  refine ⟨⟨?_, ?_, ?_, ?_, ?_, h.minimum⟩, ⟨rfl, rfl, rfl, rfl, rfl, ?_⟩⟩
  · intro t u j ht hu
    rcases (hbinding t j).mp ht with ⟨rfl, rfl⟩ | ⟨_, ht'⟩
    · rcases (hbinding u j).mp hu with ⟨rfl, _⟩ | ⟨_, hu'⟩
      · rfl
      · exact absurd hu' (hfresh u)
    · rcases (hbinding u j).mp hu with ⟨_, rfl⟩ | ⟨_, hu'⟩
      · exact absurd ht' (hfresh t)
      · exact h.injective t u j ht' hu'
  · intro t j ht
    rcases (hbinding t j).mp ht with ⟨_, rfl⟩ | ⟨_, ht⟩
    · exact hi
    · exact (h.bounded t j ht).trans hlast
  · intro j hj
    obtain ⟨hle, hunused⟩ := h.pooled j (hreused.subset hj)
    refine ⟨hle.trans hlast, fun t ht => ?_⟩
    rcases (hbinding t j).mp ht with ⟨_, rfl⟩ | ⟨_, ht⟩
    · exact hnot hj
    · exact hunused t ht
  · exact h.poolNodup.sublist hreused
  · intro j hj hunused
    refine h.clean j hj fun t ht => ?_
    by_cases hts : t = s
    · rw [hts, hs] at ht
      exact absurd ht (Option.some_ne_none j).symm
    · exact hunused t ((hbinding t j).mpr (Or.inr ⟨hts, ht⟩))
  · intro t
    by_cases hts : t = s
    · subst hts
      rw [tableValue_of_missing hs,
        tableValue_of_binding _ ((hbinding t i).mpr (Or.inl ⟨rfl, rfl⟩))]
      split
      case isTrue hlt => exact h.clean i hlt hfresh
      case isFalse => rfl
    · simp [tableValue, inTable, Function.update_of_ne hts]

theorem newBindingIndex_spec {env : Env S V} (h : Sound env) (s : S) :
    Sound (newBindingIndex env s).1 ∧ SameStack env (newBindingIndex env s).1 ∧
      (newBindingIndex env s).1.binding s = some (newBindingIndex env s).2 := by
  unfold newBindingIndex
  split
  case h_1 i hs => exact ⟨h, ⟨rfl, rfl, rfl, rfl, rfl, fun _ => rfl⟩, hs⟩
  case h_2 hs =>
    split
    case h_1 i rest hpool =>
      have hmem : i ∈ env.reusedIndices := hpool ▸ List.mem_cons_self
      have hnodup := hpool ▸ h.poolNodup
      obtain ⟨hle, hunused⟩ := h.pooled i hmem
      obtain ⟨hsound, hsame⟩ := giveIndex_spec h hs hunused hle (Nat.le_refl _)
        (hpool ▸ List.sublist_cons_self i rest) (List.nodup_cons.mp hnodup).1 rfl
      exact ⟨hsound, hsame, Function.update_self _ _ _⟩
    case h_2 hpool =>
      have hfresh : ∀ t, env.binding t ≠ some (env.lastVarIndex + 1) := by
        intro t ht
        have hle := h.bounded t _ ht
        omega
      obtain ⟨hsound, hsame⟩ := giveIndex_spec h hs hfresh (Nat.le_refl _) (Nat.le_succ _)
        (List.Sublist.refl _) (hpool ▸ List.not_mem_nil) rfl
      exact ⟨hsound, hsame, Function.update_self _ _ _⟩

theorem invalidOrTooLargeBindingIndex_spec {env : Env S V} (h : Sound env) (s : S) :
    Sound (invalidOrTooLargeBindingIndex env s).1 ∧
      SameStack env (invalidOrTooLargeBindingIndex env s).1 ∧
      inTable (invalidOrTooLargeBindingIndex env s).1 s =
        some (invalidOrTooLargeBindingIndex env s).2 := by
  obtain ⟨hsound, hsame, hindex⟩ := newBindingIndex_spec h s
  unfold invalidOrTooLargeBindingIndex
  generalize newBindingIndex env s = r at *
  obtain ⟨env₁, index⟩ := r
  dsimp only at *
  split
  case isTrue hlt => exact ⟨hsound, hsame, inTable_eq_some.mpr ⟨hindex, hlt⟩⟩
  case isFalse hge =>
    have hbound := hsound.bounded s index hindex
    have hmin := hsound.minimum
    have hsize : ∀ i, i ≤ env₁.lastVarIndex → i < env₁.lastVarIndex * 5 / 4 := by
      intro i hi
      omega
    have hgrow : env₁.tlBindingsSize ≤ env₁.lastVarIndex * 5 / 4 := by omega
    refine ⟨⟨hsound.injective, hsound.bounded, hsound.pooled, hsound.poolNodup, ?_, ?_⟩,
      hsame.trans ⟨rfl, rfl, rfl, rfl, rfl, ?_⟩, ?_⟩
    · intro i _ hunused
      dsimp only
      rw [Function.update_self]
      split
      case isTrue hi => exact hsound.clean i hi hunused
      case isFalse => rfl
    · exact hmin.trans hgrow
    · intro t
      cases ht : env₁.binding t with
      | none =>
        refine Eq.trans (tableValue_of_missing ?_) (tableValue_of_missing ht).symm
        exact ht
      | some j =>
        refine Eq.trans (tableValue_of_binding _ ht) (Eq.trans ?_ (tableValue_of_binding _ ht).symm)
        dsimp only
        rw [Function.update_self, if_pos (hsize j (hsound.bounded t j ht))]
    · exact inTable_eq_some.mpr ⟨hindex, hsize index hbound⟩

theorem bdsIndex_spec {env : Env S V} (h : Sound env) (s : S) :
    Sound (bdsIndex env s).1 ∧ SameStack env (bdsIndex env s).1 ∧
      inTable (bdsIndex env s).1 s = some (bdsIndex env s).2 := by
  unfold bdsIndex
  split
  case h_1 index hin => exact ⟨h, ⟨rfl, rfl, rfl, rfl, rfl, fun _ => rfl⟩, hin⟩
  case h_2 => exact invalidOrTooLargeBindingIndex_spec h s

theorem store_spec {env : Env S V} (h : Sound env) {s : S} {index : ℕ}
    (hin : inTable env s = some index) (o : Option V) :
    Sound (env.store env.tlBindings index o) ∧
      tableValue (env.store env.tlBindings index o) =
        Function.update (tableValue env) s o := by
  obtain ⟨hs, hlt⟩ := inTable_eq_some.mp hin
  have hcell : (env.store env.tlBindings index o).blocks env.tlBindings =
      Function.update (env.blocks env.tlBindings) index o := Function.update_self _ _ _
  constructor
  · refine ⟨h.injective, h.bounded, h.pooled, h.poolNodup, fun i hi hunused => ?_, h.minimum⟩
    have hne : i ≠ index := fun he => hunused s (he ▸ hs)
    refine (congrFun hcell i).trans ?_
    rw [Function.update_of_ne hne]
    exact h.clean i hi hunused
  · funext t
    by_cases hts : t = s
    · subst hts
      rw [Function.update_self]
      refine (tableValue_of_binding (env.store env.tlBindings index o) hs).trans ?_
      exact (if_pos hlt).trans ((congrFun hcell index).trans (Function.update_self _ _ _))
    · rw [Function.update_of_ne hts]
      cases ht : env.binding t with
      | none =>
        refine Eq.trans (tableValue_of_missing ?_) (tableValue_of_missing ht).symm
        exact ht
      | some j =>
        have hne : j ≠ index := fun he => hts (h.injective t s j ht (he ▸ hs))
        rw [tableValue_of_binding _ ht]
        refine (tableValue_of_binding (env.store env.tlBindings index o) ht).trans ?_
        rw [← Function.update_of_ne hne o (env.blocks env.tlBindings), ← hcell]
        rfl

omit [DecidableEq S] in
theorem bdsSave_eq (handlers : Env S V → Except Fault (Env S V)) {env : Env S V} {s : S}
    {index : ℕ} (new : Env S V → Option V → V) (hroom : env.top + 1 < env.limit) :
    bdsSave handlers env s index new =
      .ok ({ env.store env.tlBindings index
          (some (new env (env.blocks env.tlBindings index))) with
        top := env.top + 1
        slots := Function.update env.slots (env.top + 1)
          ⟨some s, env.blocks env.tlBindings index⟩ }) := by
  unfold bdsSave
  rw [if_neg (by omega)]
  rfl

theorem bdsSave_spec (handlers : Env S V → Except Fault (Env S V)) {env : Env S V}
    {d : Dynamic S V} (h : Represents env d) {s : S} {index : ℕ}
    (hin : inTable env s = some index) (new : Env S V → Option V → V)
    (hroom : env.top + 1 < env.limit) :
    ∃ env', bdsSave handlers env s index new = .ok env' ∧
      Represents env' (d.bind s (new env (d.bindings.current s))) ∧
      env'.top = env.top + 1 ∧ env'.limit = env.limit := by
  have hold : env.blocks env.tlBindings index = d.bindings.current s := by
    rw [← h.current s, tableValue, hin, Option.bind_some]
  refine ⟨_, bdsSave_eq handlers new hroom, ?_, rfl, rfl⟩
  rw [← hold]
  obtain ⟨hsound, htable⟩ := store_spec h.sound hin
    (some (new env (env.blocks env.tlBindings index)))
  refine ⟨fun t => ?_, h.global, h.constant, ⟨?_, ?_⟩, ?_⟩
  · refine (congrFun htable t).trans ?_
    rw [funext h.current]
    rfl
  · dsimp only
    rw [Function.update_self, hold]
    rfl
  · dsimp only
    rw [add_sub_cancel_right]
    exact h.stacked.update _ (by omega)
  · exact ⟨hsound.injective, hsound.bounded, hsound.pooled, hsound.poolNodup, hsound.clean,
      hsound.minimum⟩

theorem bdsIndex_represents {env : Env S V} {d : Dynamic S V} (h : Represents env d) (s : S) :
    Represents (bdsIndex env s).1 d ∧ inTable (bdsIndex env s).1 s = some (bdsIndex env s).2 ∧
      (bdsIndex env s).1.top = env.top ∧ (bdsIndex env s).1.limit = env.limit ∧
      (bdsIndex env s).1.value = env.value := by
  obtain ⟨hsound, hsame, hin⟩ := bdsIndex_spec h.sound s
  refine ⟨⟨fun t => (hsame.current t).trans (h.current t), hsame.value.trans h.global,
    hsame.constant.trans h.constant, ?_, hsound⟩, hin, hsame.top, hsame.limit, hsame.value⟩
  rw [hsame.slots, hsame.top]
  exact h.stacked

theorem bdsBind_spec (handlers : Env S V → Except Fault (Env S V)) {env : Env S V}
    {d : Dynamic S V} (h : Represents env d) (s : S) (v : V) (hroom : env.top + 1 < env.limit) :
    ∃ env', bdsBind handlers env s v = .ok env' ∧ Represents env' (d.bind s v) ∧
      env'.top = env.top + 1 ∧ env'.limit = env.limit := by
  obtain ⟨hrep, hin, htop, hlimit, _⟩ := bdsIndex_represents h s
  obtain ⟨env', hok, hrep', htop', hlimit'⟩ :=
    bdsSave_spec handlers hrep hin (bindValue v) (by rwa [htop, hlimit])
  exact ⟨env', hok, hrep', by rw [htop', htop], by rw [hlimit', hlimit]⟩

theorem bdsPush_spec (handlers : Env S V → Except Fault (Env S V)) {env : Env S V}
    {d : Dynamic S V} (h : Represents env d) (s : S) (hroom : env.top + 1 < env.limit) :
    ∃ env', bdsPush handlers env s = .ok env' ∧ Represents env' (d.bind s (d.read s)) := by
  obtain ⟨hrep, hin, htop, hlimit, hvalue⟩ := bdsIndex_represents h s
  obtain ⟨env', hok, hrep', _⟩ :=
    bdsSave_spec handlers hrep hin (pushValue s) (by rwa [htop, hlimit])
  refine ⟨env', hok, ?_⟩
  rwa [pushValue, hvalue, h.global] at hrep'

theorem bdsRead_eq {env : Env S V} {d : Dynamic S V} (h : Represents env d) (s : S) :
    bdsRead env s = d.read s := by
  unfold Dynamic.read
  rw [← h.current s, ← h.global, tableValue, bdsRead]
  cases inTable env s with
  | none => rfl
  | some index => cases hcell : env.blocks env.tlBindings index <;> simp [hcell]

theorem bdsSet_spec {env : Env S V} {d : Dynamic S V} (h : Represents env d) (s : S) (v : V) :
    Represents (bdsSet env s v) (d.set s v) := by
  have hcur := h.current s
  unfold Dynamic.set bdsSet
  rw [← hcur, tableValue]
  have hglobal : tableValue env s = none → Represents
      { env with value := Function.update env.value s v }
      { d with global := Function.update d.global s v } := by
    intro _
    refine ⟨h.current, ?_, h.constant, h.stacked, ?_⟩
    · dsimp only
      rw [h.global]
    · exact ⟨h.sound.injective, h.sound.bounded, h.sound.pooled, h.sound.poolNodup,
        h.sound.clean, h.sound.minimum⟩
  cases hin : inTable env s with
  | none => exact hglobal (by simp [tableValue, hin])
  | some index =>
    cases hcell : env.blocks env.tlBindings index with
    | none => simpa [hcell] using hglobal (by simp [tableValue, hin, hcell])
    | some old =>
      simp only [Option.bind_some, hcell]
      obtain ⟨hsound, htable⟩ := store_spec h.sound hin (some v)
      refine ⟨?_, h.global, h.constant, ?_, hsound⟩
      · rw [htable, funext h.current, Bindings.current_assign]
        exact fun t => rfl
      · rw [Bindings.saved_assign]
        exact h.stacked

theorem inTable_of_current {env : Env S V} {d : Dynamic S V} (h : Represents env d) {s : S}
    (hs : d.bindings.current s ≠ none) : ∃ index, inTable env s = some index := by
  rw [← h.current s, tableValue] at hs
  cases hin : inTable env s with
  | none => exact absurd (by rw [hin, Option.bind_none]) hs
  | some index => exact ⟨index, rfl⟩

theorem bdsUnwind1_spec {env : Env S V} {d : Dynamic S V} (h : Represents env d)
    (hdepth : d.bindings.depth ≠ 0) :
    Represents (bdsUnwind1 env) (d.unwind (d.bindings.depth - 1)) ∧
      (bdsUnwind1 env).top = env.top - 1 := by
  have hone : d.bindings.depth - (d.bindings.depth - 1) = 1 := by omega
  have hcurrent := Bindings.current_unwind d.bindings (d.bindings.depth - 1)
  have hsaved := Bindings.saved_unwind d.bindings (d.bindings.depth - 1)
  have hstacked := h.stacked
  rw [hone] at hcurrent hsaved
  obtain ⟨r, rest, hcons⟩ := List.exists_cons_of_length_pos
    (show 0 < d.bindings.saved.length by
      rw [Bindings.saved_length]
      omega)
  obtain ⟨s, old⟩ := r
  rw [hcons] at hcurrent hsaved hstacked
  obtain ⟨hslot, hrest⟩ := hstacked
  have hbound : d.bindings.current s ≠ none := by
    refine lookup_ne_none ?_
    have hnames : d.bindings.saved.map Prod.fst = d.bindings.frames.map Prod.fst := saves_names _
    rw [← hnames, hcons]
    exact List.mem_cons_self
  obtain ⟨index, hin⟩ := inTable_of_current h hbound
  obtain ⟨hsound, htable⟩ := store_spec h.sound hin old
  have heq : bdsUnwind1 env = { env.store env.tlBindings index old with top := env.top - 1 } := by
    unfold bdsUnwind1
    rw [hslot]
    dsimp only
    rw [Option.bind_some, (inTable_eq_some.mp hin).1]
    rfl
  rw [heq]
  refine ⟨⟨fun t => ?_, h.global, h.constant, ?_, ?_⟩, rfl⟩
  · refine (congrFun htable t).trans ?_
    rw [funext h.current]
    exact (congrFun hcurrent t).symm
  · exact hsaved ▸ hrest
  · exact ⟨hsound.injective, hsound.bounded, hsound.pooled, hsound.poolNodup, hsound.clean,
      hsound.minimum⟩

theorem bdsUnwindN_spec (k : ℕ) : ∀ {env : Env S V} {d : Dynamic S V}, Represents env d →
    k ≤ d.bindings.depth → Represents (bdsUnwindN k env) (d.unwind (d.bindings.depth - k)) ∧
      (bdsUnwindN k env).top = env.top - k := by
  induction k with
  | zero =>
    intro env d h _
    have hid : d.unwind (d.bindings.depth - 0) = d := by
      simp [Dynamic.unwind, Bindings.unwind]
    rw [hid]
    exact ⟨h, by simp [bdsUnwindN]⟩
  | succ k ih =>
    intro env d h hk
    obtain ⟨hone, htop⟩ := bdsUnwind1_spec h (by omega)
    have hdepth : (d.unwind (d.bindings.depth - 1)).bindings.depth = d.bindings.depth - 1 :=
      Bindings.depth_unwind _ (Nat.sub_le _ _)
    obtain ⟨hrest, htop'⟩ := ih hone (by omega)
    refine ⟨?_, ?_⟩
    · rw [hdepth] at hrest
      have hjoin : (d.unwind (d.bindings.depth - 1)).unwind (d.bindings.depth - 1 - k) =
          d.unwind (d.bindings.depth - (k + 1)) := by
        unfold Dynamic.unwind
        dsimp only
        rw [Bindings.unwind_unwind (Nat.sub_le _ _) (Nat.sub_le _ _)]
        congr 2
        omega
      rwa [hjoin] at hrest
    · rw [bdsUnwindN, htop', htop]
      push_cast
      omega

theorem top_eq_depth {env : Env S V} {d : Dynamic S V} (h : Represents env d) :
    env.top + 1 = d.bindings.depth := by
  rw [h.stacked.length, Bindings.saved_length]

theorem bdsUnwind_spec {env : Env S V} {d : Dynamic S V} (h : Represents env d) {ndx : ℤ}
    (hlow : -1 ≤ ndx) (hhigh : ndx ≤ env.top) :
    Represents (bdsUnwind env ndx) (d.unwind (ndx + 1).toNat) := by
  have hdepth := top_eq_depth h
  obtain ⟨hrep, htop⟩ := bdsUnwindN_spec (env.top - ndx).toNat h (by omega)
  have hn : d.bindings.depth - (env.top - ndx).toNat = (ndx + 1).toNat := by omega
  have heq : bdsUnwind env ndx = bdsUnwindN (env.top - ndx).toNat env := by
    have hsame : (bdsUnwindN (env.top - ndx).toNat env).top = ndx := by
      rw [htop]
      omega
    unfold bdsUnwind
    generalize bdsUnwindN (env.top - ndx).toNat env = e at hsame
    rw [← hsame]
  rw [heq, ← hn]
  exact hrep

theorem progvLoop_spec (handlers : Env S V → Except Fault (Env S V)) (objnull : V)
    (proper valuesProper : Bool) (vars : List (Option S)) :
    ∀ (values : List V) {env : Env S V} {d : Dynamic S V}, Represents env d →
    (0 < (Dynamic.progvPairs d.constant objnull valuesProper vars values).length →
      env.top + (Dynamic.progvPairs d.constant objnull valuesProper vars values).length <
        env.limit) →
    ∃ env' error,
      progvLoop handlers objnull proper valuesProper vars values env = .ok (env', error) ∧
      Represents env'
        (d.bindAll (Dynamic.progvPairs d.constant objnull valuesProper vars values)) := by
  induction vars with
  | nil =>
    intro values env d h _
    unfold progvLoop
    split
    · exact ⟨env, none, rfl, h⟩
    · exact ⟨env, _, rfl, h⟩
  | cons var vars ih =>
    intro values env d h hroom
    simp only [Dynamic.progvPairs] at hroom ⊢
    simp only [progvLoop]
    by_cases hv : values = [] ∧ ¬ valuesProper
    · rw [if_pos hv, if_pos hv]
      exact ⟨env, _, rfl, h⟩
    · rw [if_neg hv] at hroom ⊢
      rw [if_neg hv]
      cases var with
      | none => exact ⟨env, _, rfl, h⟩
      | some s =>
        dsimp only at hroom ⊢
        by_cases hc : d.constant s
        · rw [if_pos hc, if_pos (by rwa [h.constant])]
          exact ⟨env, _, rfl, h⟩
        · rw [if_neg hc] at hroom ⊢
          rw [if_neg (by rwa [h.constant])]
          rw [List.length_cons] at hroom
          have hroom' := hroom (Nat.succ_pos _)
          push_cast at hroom'
          obtain ⟨env₁, hok, hrep, htop, hlimit⟩ :=
            bdsBind_spec handlers h s (values.head?.getD objnull) (by omega)
          obtain ⟨env', error, hloop, hrep'⟩ := ih values.tail hrep (by
            intro _
            change env₁.top + ((Dynamic.progvPairs d.constant objnull valuesProper vars
              values.tail).length : ℤ) < env₁.limit
            omega)
          refine ⟨env', error, ?_, hrep'⟩
          rw [hok]
          exact hloop

end BindingStack
