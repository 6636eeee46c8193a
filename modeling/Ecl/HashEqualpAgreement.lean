import Ecl.HashEqualp
import Ecl.HashEqualAgreement

/-! When EQUALP objects hash alike. Arrays, lists, characters and structures do; numbers of
different representations do when both are hashed by the index they are cast to. -/
namespace HashEqualp

open NewHash Objects Equalp HashEqual Traversals

variable {P : Platform} {L : CLibrary} {heap : Heap}

def EqualpItems (P : Platform) (heap : Heap) (a b : Item) : Prop :=
  ∃ n, eclEqualp P heap n a b = some true

/-- A float element of an array that is EQ to itself need not be EQUALP to itself. -/
def Related (P : Platform) (heap : Heap) : Place → Item → Item → Prop
  | .equalp _, a, b => a = b ∨ EqualpItems P heap a b
  | .equal _, a, b => ∃ x y, a = .obj x ∧ b = .obj y ∧ Equal heap x y

/-- The cases of ecl_equalp. -/
inductive EqualpStep (P : Platform) (heap : Heap) : Item → Item → Prop where
  | same (x : Obj) : EqualpStep P heap (.obj x) (.obj x)
  | number {a b m n} (ha : view heap a = .number m) (hb : view heap b = .number n)
      (h : numberEqualp P m n = true) : EqualpStep P heap a b
  | vector {a b x e y e'} (ha : view heap a = .vector x e) (hb : view heap b = .vector y e')
      (h : List.Forall₂ (EqualpItems P heap) (elementItems P x e) (elementItems P y e')) :
      EqualpStep P heap a b
  | array {a b x ds e y ds' e'} (ha : view heap a = .array x ds e)
      (hb : view heap b = .array y ds' e')
      (h : List.Forall₂ (EqualpItems P heap) (elementItems P x e) (elementItems P y e')) :
      EqualpStep P heap a b
  | character {a b c c'} (ha : view heap a = .character c) (hb : view heap b = .character c')
      (h : P.charUpcase c = P.charUpcase c') : EqualpStep P heap a b
  | list {a b x d x' d'} (ha : view heap a = .list x d) (hb : view heap b = .list x' d')
      (hcar : EqualpItems P heap (.obj x) (.obj x'))
      (hcdr : EqualpItems P heap (.obj d) (.obj d')) : EqualpStep P heap a b
  | eclInstance {a b c s xs c' s' ys} (ha : view heap a = .eclInstance c s xs)
      (hb : view heap b = .eclInstance c' s' ys) : EqualpStep P heap a b
  | pathname {a b x y} (ha : view heap a = .pathname x) (hb : view heap b = .pathname y)
      (h : Equal heap x y) : EqualpStep P heap a b
  | hashtable {a b x t es y t' es'} (ha : view heap a = .hashtable x t es)
      (hb : view heap b = .hashtable y t' es') : EqualpStep P heap a b
  | random {a b s} (ha : view heap a = .random s) (hb : view heap b = .random s) :
      EqualpStep P heap a b
  | ssePack {a b s} (ha : view heap a = .ssePack s) (hb : view heap b = .ssePack s) :
      EqualpStep P heap a b

theorem item_eq {a b : Item} (h : a.eq b = true) : ∃ x, a = .obj x ∧ b = .obj x := by
  cases a <;> cases b <;> simp_all [Item.eq]

theorem elementItems_length (x : Obj) (e : Elements) :
    (elementItems P x e).length = elementCount e := by
  cases e <;> simp [elementItems, elementCount]

theorem equalp_of_number {a b : Number} (h : numberEqualp P a b = true) :
    EqualpItems P heap (.number a) (.number b) :=
  ⟨1, by simp [eclEqualp, Item.eq, view, h]⟩

theorem integerItem_equalp (n : ℤ) (after after' : List ℕ) :
    EqualpItems P heap (integerItem n after) (integerItem n after') := by
  unfold integerItem mkInteger
  by_cases h : -2 ^ 61 ≤ n ∧ n < 2 ^ 61
  · simp only [if_pos h]
    exact ⟨1, by simp [eclEqualp, Item.eq]⟩
  · simp only [if_neg h]
    exact equalp_of_number (by simp [numberEqualp, Rational.eql, Integer.eql])

theorem forall₂_of_all {α β : Type} {p : α × β → Bool} {xs : List α} {ys : List β}
    {f : α → Item} {g : β → Item} (hlen : xs.length = ys.length)
    (hall : (xs.zip ys).all p = true)
    (hp : ∀ x y, p (x, y) = true → EqualpItems P heap (f x) (g y)) :
    List.Forall₂ (EqualpItems P heap) (xs.map f) (ys.map g) := by
  rw [List.forall₂_map_left_iff, List.forall₂_map_right_iff, List.forall₂_iff_zip]
  refine ⟨hlen, fun {x y} hmem => hp x y ?_⟩
  exact List.all_eq_true.mp hall (x, y) hmem

theorem objects_equalp {n : ℕ} {x y : Obj} {e e' : Elements}
    (hcount : elementCount e = elementCount e')
    (h : allEqual (eclEqualp P heap n) ((elementItems P x e).zip (elementItems P y e')) =
      some true) :
    List.Forall₂ (EqualpItems P heap) (elementItems P x e) (elementItems P y e') := by
  rw [List.forall₂_iff_zip]
  refine ⟨by rw [elementItems_length, elementItems_length, hcount], fun {a b} hmem => ?_⟩
  exact ⟨n, allEqual_iff.mp h (a, b) hmem⟩

theorem cCompare_comm (t : FloatType) (a : ℕ) (t' : FloatType) (b : ℕ) :
    cCompare t a t' b = cCompare t' b t a := by
  unfold cCompare
  by_cases ht : t = t'
  · subst t'
    simp only [if_true, FloatType.eq]
    cases t.isnan a <;> cases t.isnan b <;> cases t.isZero a <;> cases t.isZero b <;>
      simp [eq_comm]
  · simp only [if_neg ht, if_neg (Ne.symm ht)]
    cases floatValue t a <;> cases floatValue t' b <;> simp [FloatValue.eq, eq_comm]

/-- Arrays told equal have EQUALP elements, also where the elements were not compared as
objects. -/
theorem arrayEqualp_items {n : ℕ} {x y : Obj} {e e' : Elements}
    (hcount : elementCount e = elementCount e')
    (h : arrayEqualp P (eclEqualp P heap n) x e y e' = some true) :
    List.Forall₂ (EqualpItems P heap) (elementItems P x e) (elementItems P y e') := by
  unfold arrayEqualp at h
  simp only at h
  split at h
  · rename_i t xs t' ys
    split at h
    · simp only [Option.some.injEq, decide_eq_true_eq] at h
      subst ys
      simp only [elementItems]
      rw [List.forall₂_map_left_iff, List.forall₂_map_right_iff]
      exact List.forall₂_same.mpr fun p _ => integerItem_equalp _ _ _
    · exact objects_equalp hcount h
  · refine forall₂_of_all hcount (Option.some.inj h) fun a b hab => ?_
    exact equalp_of_number hab
  · refine forall₂_of_all hcount (Option.some.inj h) fun a b hab => ?_
    simp only [Bool.and_eq_true] at hab
    exact equalp_of_number (by simp [numberEqualp, hab.2, cCompare_comm _ b.1, hab.1])
  · refine forall₂_of_all hcount (Option.some.inj h) fun a b hab => ?_
    simp only [Bool.and_eq_true] at hab
    exact equalp_of_number (by simp [numberEqualp, hab.1, hab.2])
  · refine forall₂_of_all hcount (Option.some.inj h) fun a b hab => ?_
    exact equalp_of_number hab
  · exact objects_equalp hcount h

theorem equalp_cases {a b : Item} (h : EqualpItems P heap a b) : EqualpStep P heap a b := by
  obtain ⟨n, h⟩ := h
  cases n with
  | zero => simp [eclEqualp] at h
  | succ n =>
    by_cases hab : a.eq b = true
    · obtain ⟨x, rfl, rfl⟩ := item_eq hab
      exact .same x
    rw [eclEqualp, if_neg hab] at h
    split at h
    · rename_i ha hb
      exact .number ha hb (Option.some.inj h)
    · rename_i ha hb
      split at h
      · simp at h
      · rename_i hcount
        exact .vector ha hb (arrayEqualp_items (not_not.mp hcount) h)
    · rename_i ha hb
      split at h
      · simp at h
      split at h
      · simp at h
      split at h
      · simp at h
      · rename_i hcount
        exact .array ha hb (arrayEqualp_items (not_not.mp hcount) h)
    · rename_i ha hb
      exact .character ha hb (by simpa using h)
    · rename_i ha hb
      rw [allEqual_iff] at h
      simp only [List.forall_mem_cons] at h
      exact .list ha hb ⟨n, h.1⟩ ⟨n, h.2.1⟩
    · rename_i ha hb
      exact .eclInstance ha hb
    · rename_i ha hb
      exact .pathname ha hb ⟨n, h⟩
    · rename_i ha hb
      exact .hashtable ha hb
    · rename_i ha hb
      simp only [Option.some.injEq, decide_eq_true_eq] at h
      exact .random ha (h ▸ hb)
    · rename_i ha hb
      simp only [Option.some.injEq, decide_eq_true_eq] at h
      exact .ssePack ha (h ▸ hb)
    · simp at h

theorem throughEqual_shape {depth : ℤ} {x y : Obj} (h : Equal heap x y) :
    (throughEqual heap depth x = none → throughEqual heap depth y = none) ∧
    ∀ place cs, throughEqual heap depth x = some (place, cs) →
      ∃ cs', throughEqual heap depth y = some (place, cs') ∧
        List.Forall₂ (Related P heap place) cs cs' := by
  have hshape := equal_sameShape heap
  unfold throughEqual
  constructor
  · intro hx
    rw [Option.map_eq_none_iff] at hx ⊢
    exact hshape.leaf_shape depth x y h hx
  · intro place cs hx
    obtain ⟨⟨d', xs⟩, hnode, heq⟩ := Option.map_eq_some_iff.mp hx
    cases heq
    obtain ⟨ys, hy, hall⟩ := hshape.node_shape depth x y d' xs h hnode
    refine ⟨objectItems ys, by rw [hy]; rfl, ?_⟩
    unfold objectItems
    rw [List.forall₂_map_left_iff, List.forall₂_map_right_iff]
    exact hall.imp fun a b hab => ⟨a, b, rfl, rfl, hab⟩

theorem belowDepth_shape {depth : ℤ} {xs ys : List Item} {place : Place} {cs : List Item}
    (h : List.Forall₂ (EqualpItems P heap) xs ys) (hx : belowDepth depth xs = some (place, cs)) :
    ∃ cs', belowDepth depth ys = some (place, cs') ∧
      List.Forall₂ (Related P heap place) cs cs' := by
  simp only [belowDepth, Option.some.injEq, Prod.mk.injEq] at hx
  obtain ⟨rfl, rfl⟩ := hx
  refine ⟨_, rfl, ?_⟩
  split
  · exact .nil
  · exact h.imp fun a b hab => Or.inr hab

theorem children_refl {place place' : Place} {a : Item} {cs : List Item}
    (ha : equalpChildren P heap place a = some (place', cs)) :
    List.Forall₂ (Related P heap place') cs cs := by
  cases place' with
  | equalp depth => exact List.forall₂_same.mpr fun c _ => Or.inl rfl
  | equal depth =>
    have hobj : ∀ c ∈ cs, ∃ x, c = .obj x := by
      intro c hc
      have hthrough : ∃ depth' x, throughEqual heap depth' x = some (.equal depth, cs) := by
        cases place with
        | equal depth' =>
          cases a with
          | obj x => exact ⟨depth', x, ha⟩
          | number n => simp [equalpChildren] at ha
        | equalp depth' =>
          simp only [equalpChildren, belowDepth] at ha
          split at ha
          · cases ha
          · cases ha
          · cases ha
          · cases ha
          · exact ⟨depth', _, ha⟩
          · cases ha
      obtain ⟨depth', x, hx⟩ := hthrough
      obtain ⟨node, _, heq⟩ := Option.map_eq_some_iff.mp hx
      cases heq
      simp only [objectItems, List.mem_map] at hc
      obtain ⟨y, _, rfl⟩ := hc
      exact ⟨y, rfl⟩
    refine List.forall₂_same.mpr fun c hc => ?_
    obtain ⟨x, rfl⟩ := hobj c hc
    exact ⟨x, x, rfl, rfl, equal_refl x⟩

/-- The hash traverses EQUALP objects in step. -/
theorem equalp_sameShape (P : Platform) (heap : Heap) :
    SameShape (equalpChildren P heap) (Related P heap) where
  leaf_shape := by
    intro place a b h ha
    cases place with
    | equal depth =>
      obtain ⟨x, y, rfl, rfl, hxy⟩ := h
      exact (throughEqual_shape (P := P) hxy).1 ha
    | equalp depth =>
      rcases h with rfl | h
      · exact ha
      cases equalp_cases h with
      | same => exact ha
      | list hva | vector hva | array hva => simp [equalpChildren, belowDepth, hva] at ha
      | pathname hva hvb hxy =>
        simp only [equalpChildren, hva] at ha
        simp only [equalpChildren, hvb]
        exact (throughEqual_shape (P := P) hxy).1 ha
      | number _ hvb | character _ hvb | eclInstance _ hvb | hashtable _ hvb | random _ hvb
      | ssePack _ hvb => simp [equalpChildren, hvb]
  node_shape := by
    intro place a b place' cs h ha
    cases place with
    | equal depth =>
      obtain ⟨x, y, rfl, rfl, hxy⟩ := h
      exact (throughEqual_shape (P := P) hxy).2 place' cs ha
    | equalp depth =>
      rcases h with rfl | h
      · exact ⟨cs, ha, children_refl ha⟩
      cases equalp_cases h with
      | same => exact ⟨cs, ha, children_refl ha⟩
      | list hva hvb hcar hcdr =>
        simp only [equalpChildren, hva] at ha
        simp only [equalpChildren, hvb]
        exact belowDepth_shape (.cons hcar (.cons hcdr .nil)) ha
      | vector hva hvb helements | array hva hvb helements =>
        simp only [equalpChildren, hva] at ha
        simp only [equalpChildren, hvb]
        exact belowDepth_shape helements ha
      | pathname hva hvb hxy =>
        simp only [equalpChildren, hva] at ha
        simp only [equalpChildren, hvb]
        exact (throughEqual_shape (P := P) hxy).2 place' cs ha
      | number hva | character hva | eclInstance hva | hashtable hva | random hva
      | ssePack hva => simp [equalpChildren, hva] at ha

def integerAgreesp : Integer → Integer → Prop
  | .fixnum _, .fixnum _ => True
  | .bignum n after, .bignum m after' => bignumMemory n after = bignumMemory m after'
  | _, _ => False

def rationalAgreesp : Rational → Rational → Prop
  | .integer n, .integer m => integerAgreesp n m
  | .ratio n d, .ratio n' d' => integerAgreesp n n' ∧ integerAgreesp d d'
  | _, _ => False

/-- The index of the numbers hashed by one: fixnums, the floats but the long ones, complex
floats by their real part. -/
def wordSource : Number → Option (ℤ ⊕ FloatValue)
  | .rational (.integer (.fixnum n)) => some (.inl n)
  | .float .single bits => some (indexSource (floatValue .single bits))
  | .float .double bits => some (indexSource (floatValue .double bits))
  | .cfloat t re _ => some (indexSource (floatValue t re))
  | _ => none

/-- The numbers that _hash_equalp does not tell apart where EQUALP does not: both hashed by
one index, or of one representation and, for bignums, with the same memory behind. -/
def numberAgreesp (a b : Number) : Prop :=
  match wordSource a, wordSource b with
  | some s, some s' => s = s'
  | some _, none => False
  | none, some _ => False
  | none, none => match a, b with
    | .rational r, .rational r' => rationalAgreesp r r'
    | .float _ _, .float _ _ => True
    | .complex re im, .complex re' im' => rationalAgreesp re re' ∧ rationalAgreesp im im'
    | _, _ => False

def LeafAgreesp (L : CLibrary) (heap : Heap) : Place → Item → Item → Prop
  | .equal _, .obj x, .obj y => LeafAgrees L heap x y
  | .equal _, _, _ => True
  | .equalp _, a, b => match view heap a, view heap b with
    | .number m, .number n => numberAgreesp m n
    | _, _ => True

theorem bignumMemory_length (n : ℤ) (after : List ℕ) :
    (bignumMemory n after).length = 64 * bignumSize n.natAbs := by
  simp [bignumMemory]

theorem integerCallsp_length (n : Integer) : (integerCallsp n).length = 1 := by
  cases n <;> rfl

theorem integerCallsp_iff {n m : Integer} (h : n.eql m = true) :
    integerCallsp n = integerCallsp m ↔ integerAgreesp n m := by
  cases n <;> cases m <;> simp only [Integer.eql, decide_eq_true_eq, Bool.false_eq_true] at h
  · simp [integerCallsp, integerAgreesp, h]
  · simp [integerCallsp, integerAgreesp]

theorem rationalCallsp_length {a b : Rational} (h : a.eql b = true) :
    (rationalCallsp a).length = (rationalCallsp b).length := by
  cases a <;> cases b <;> simp only [Rational.eql, Bool.false_eq_true] at h
  · simp only [rationalCallsp, integerCallsp_length]
  · simp only [rationalCallsp, List.length_append, integerCallsp_length]

theorem rationalCallsp_iff {a b : Rational} (h : a.eql b = true) :
    rationalCallsp a = rationalCallsp b ↔ rationalAgreesp a b := by
  cases a <;> cases b <;> simp only [Rational.eql, Bool.and_eq_true, Bool.false_eq_true] at h
  · exact integerCallsp_iff h
  · simp only [rationalCallsp, rationalAgreesp, ← integerCallsp_iff h.1, ← integerCallsp_iff h.2]
    constructor
    · intro happ
      exact List.append_inj happ (by simp only [integerCallsp_length])
    · intro hparts
      rw [hparts.1, hparts.2]

theorem numberCallsp_of_source {machine : FloatValue → ℕ} {a : Number} {s : ℤ ⊕ FloatValue}
    (h : wordSource a = some s) :
    numberCallsp machine L a = [.hashWord (sourceWord machine s)] := by
  unfold wordSource at h
  split at h
  · cases h; rfl
  · cases h; rfl
  · cases h; rfl
  · cases h; rfl
  · cases h

theorem integerCallsp_ne_nil (n : Integer) : integerCallsp n ≠ [] := by
  cases n <;> simp [integerCallsp]

theorem rationalCallsp_ne_nil (r : Rational) : rationalCallsp r ≠ [] := by
  cases r <;> simp [rationalCallsp, integerCallsp_ne_nil]

theorem two_calls {cs ds : List Call} (hc : cs ≠ []) (hd : ds ≠ []) (c : Call) :
    cs ++ ds ≠ [c] := by
  intro h
  have hlen := congrArg List.length h
  have h1 := List.length_pos_iff.mpr hc
  have h2 := List.length_pos_iff.mpr hd
  simp only [List.length_append, List.length_cons, List.length_nil] at hlen
  omega

theorem numberCallsp_no_word {machine : FloatValue → ℕ} {a : Number} (h : wordSource a = none)
    (w : ℕ) : numberCallsp machine L a ≠ [.hashWord w] := by
  cases a with
  | rational r =>
    cases r with
    | integer n =>
      cases n with
      | fixnum n => simp [wordSource] at h
      | bignum n after => simp [numberCallsp, rationalCallsp, integerCallsp]
    | ratio n d => exact two_calls (integerCallsp_ne_nil n) (integerCallsp_ne_nil d) _
  | float t bits =>
    cases t with
    | single | double => simp [wordSource] at h
    | long => simp [numberCallsp, numberCalls]
  | complex re im => exact two_calls (rationalCallsp_ne_nil re) (rationalCallsp_ne_nil im) _
  | cfloat t re im => simp [wordSource] at h

theorem floatValue_zero {t : FloatType} {bits : ℕ} (h : t.isZero bits = true) :
    floatValue t bits = .finite 0 := by
  have hmag : bits % 2 ^ (t.expShift + t.expBits) = 0 := of_decide_eq_true h
  have hexp : t.expField bits = 0 := by
    unfold FloatType.expField
    cases t <;> simp only [FloatType.expShift, FloatType.expBits] at hmag ⊢ <;> omega
  have hsig : significand t bits = 0 := by
    unfold significand FloatType.fraction
    rw [hexp]
    cases t <;>
      simp only [FloatType.expShift, FloatType.expBits, FloatType.fracBits, if_true] at hmag ⊢ <;>
      omega
  have hnotmax : ¬ 0 = 2 ^ t.expBits - 1 := by cases t <;> decide
  simp [floatValue, hexp, hsig, hnotmax]

theorem cCompare_value {t t' : FloatType} {a b : ℕ} (h : cCompare t a t' b = true) :
    floatValue t a = floatValue t' b := by
  unfold cCompare at h
  split at h
  · rename_i ht
    subst t'
    simp only [FloatType.eq, Bool.and_eq_true, Bool.or_eq_true, decide_eq_true_eq] at h
    rcases h.2 with rfl | ⟨ha, hb⟩
    · rfl
    · rw [floatValue_zero ha, floatValue_zero hb]
  · cases ha : floatValue t a <;> cases hb : floatValue t' b <;>
      simp_all [FloatValue.eq]

/-- The float by which a number with a float for its real part is hashed. -/
def realFloat : Number → Option (FloatType × ℕ)
  | .float t bits => some (t, bits)
  | .cfloat t re _ => some (t, re)
  | _ => none

theorem wordSource_cases {a : Number} {s : ℤ ⊕ FloatValue} (h : wordSource a = some s) :
    (∃ n, a = .rational (.integer (.fixnum n)) ∧ s = .inl n) ∨
      ∃ t bits, realFloat a = some (t, bits) ∧ s = indexSource (floatValue t bits) := by
  unfold wordSource at h
  split at h
  · cases h
    exact Or.inl ⟨_, rfl, rfl⟩
  · cases h
    exact Or.inr ⟨_, _, rfl, rfl⟩
  · cases h
    exact Or.inr ⟨_, _, rfl, rfl⟩
  · cases h
    exact Or.inr ⟨_, _, rfl, rfl⟩
  · cases h

theorem equalp_fixnum_float {n : ℤ} {b : Number} {t : FloatType} {bits : ℕ}
    (hb : realFloat b = some (t, bits)) :
    (numberEqualp P (.rational (.integer (.fixnum n))) b = true →
      rationalFloatEqualp P (.integer (.fixnum n)) t bits = true) ∧
    (numberEqualp P b (.rational (.integer (.fixnum n))) = true →
      rationalFloatEqualp P (.integer (.fixnum n)) t bits = true) := by
  cases b <;> simp only [realFloat, Option.some.injEq, Prod.mk.injEq, reduceCtorEq] at hb <;>
    obtain ⟨rfl, rfl⟩ := hb <;> simp [numberEqualp]

theorem equalp_floats {a b : Number} {t t' : FloatType} {x y : ℕ}
    (ha : realFloat a = some (t, x)) (hb : realFloat b = some (t', y))
    (h : numberEqualp P a b = true) : cCompare t x t' y = true := by
  cases a <;> simp only [realFloat, Option.some.injEq, Prod.mk.injEq, reduceCtorEq] at ha <;>
    obtain ⟨rfl, rfl⟩ := ha <;>
    cases b <;> simp only [realFloat, Option.some.injEq, Prod.mk.injEq, reduceCtorEq] at hb <;>
    obtain ⟨rfl, rfl⟩ := hb <;> simp only [numberEqualp, Bool.and_eq_true] at h
  · exact h
  · rw [cCompare_comm]; exact h.2
  · exact h.2
  · exact h.1

theorem fixnum_index {n m : ℤ} {t : FloatType} {bits : ℕ}
    (h : rationalFloatEqualp P (.integer (.fixnum n)) t bits = true)
    (hs : indexSource (floatValue t bits) = .inl m) : n = m := by
  simp only [rationalFloatEqualp] at h
  cases hv : floatValue t bits with
  | nan | infinity s => rw [hv] at hs; simp [indexSource] at hs
  | finite q =>
    rw [hv] at h hs
    simp only [decide_eq_true_eq] at h
    subst q
    simp only [indexSource] at hs
    split at hs
    · rename_i hq
      have hn : -1 < n := by exact_mod_cast hq.1
      simp only [Sum.inl.injEq, Int.floor_intCast] at hs
      omega
    · cases hs

/-- Two indices hashed are one when EQUALP numbers have them and no machine tells them
apart. -/
theorem sources_eq {a b : Number} {s s' : ℤ ⊕ FloatValue} (h : numberEqualp P a b = true)
    (ha : wordSource a = some s) (hb : wordSource b = some s') :
    (∀ machine, sourceWord machine s = sourceWord machine s') ↔ s = s' := by
  refine ⟨fun hall => ?_, fun heq machine => by rw [heq]⟩
  have hmixed : ∀ (n : ℤ) v, ¬ ∀ machine, sourceWord machine (.inl n) = sourceWord machine (.inr v) := by
    intro n v hall
    have h1 := hall (fun _ => (n % 2 ^ 64).toNat + 1)
    simp only [sourceWord] at h1
    omega
  rcases wordSource_cases ha with ⟨n, rfl, rfl⟩ | ⟨t, x, hx, rfl⟩
  · rcases wordSource_cases hb with ⟨m, rfl, rfl⟩ | ⟨t', y, hy, rfl⟩
    · simp only [numberEqualp, Rational.eql, Integer.eql, decide_eq_true_eq] at h
      rw [h]
    · cases hs : indexSource (floatValue t' y) with
      | inl m => rw [fixnum_index ((equalp_fixnum_float hy).1 h) hs]
      | inr v => exact absurd (hs ▸ hall) (hmixed n v)
  · rcases wordSource_cases hb with ⟨m, rfl, rfl⟩ | ⟨t', y, hy, rfl⟩
    · cases hs : indexSource (floatValue t x) with
      | inl n => rw [fixnum_index ((equalp_fixnum_float hx).2 h) hs]
      | inr v => exact absurd (fun machine => (hs ▸ hall machine).symm) (hmixed m v)
    · rw [cCompare_value (equalp_floats hx hy h)]

theorem longBytes_length (bits : ℕ) : (floatBytes L .long bits).length = 16 := by
  simp [floatBytes, leBytes, intBytes]

theorem longBytes_eq {a b : ℕ} (h : cCompare .long a .long b = true) :
    floatBytes L .long a = floatBytes L .long b := by
  simp only [cCompare, if_true, FloatType.eq, Bool.and_eq_true, Bool.or_eq_true,
    decide_eq_true_eq] at h
  rcases h.2 with rfl | ⟨ha, hb⟩
  · rfl
  · obtain ⟨hma, hea⟩ := L.frexpl_zero a ha
    obtain ⟨hmb, heb⟩ := L.frexpl_zero b hb
    simp [floatBytes, normalizeZero, longSign, ha, hb, hma, hea, hmb, heb]

theorem complex_rational_calls {re im r : Rational} (h : re.eql r = true) :
    rationalCallsp re ++ rationalCallsp im ≠ rationalCallsp r := by
  intro heq
  have hlen := congrArg List.length heq
  have him := List.length_pos_iff.mpr (rationalCallsp_ne_nil im)
  rw [List.length_append, rationalCallsp_length h] at hlen
  omega

theorem rational_long_calls {r : Rational} {bits : ℕ} (h : wordSource (.rational r) = none) :
    rationalCallsp r ≠ [.hashString (floatBytes L .long bits)] := by
  cases r with
  | integer n =>
    cases n with
    | fixnum n => simp [wordSource] at h
    | bignum n after =>
      intro heq
      simp only [rationalCallsp, integerCallsp, List.cons.injEq, Call.hashString.injEq,
        and_true] at heq
      have hlen := congrArg List.length heq
      rw [bignumMemory_length, longBytes_length] at hlen
      omega
  | ratio n d => exact two_calls (integerCallsp_ne_nil n) (integerCallsp_ne_nil d) _

/-- Numbers with no index that are EQUALP. -/
theorem numberCallsp_iff_of_none {a b : Number} (h : numberEqualp P a b = true)
    (ha : wordSource a = none) (hb : wordSource b = none) :
    (∀ machine, numberCallsp machine L a = numberCallsp machine L b) ↔ numberAgreesp a b := by
  simp only [numberAgreesp, ha, hb]
  cases a with
  | cfloat => simp [wordSource] at ha
  | rational r =>
    cases b with
    | cfloat => simp [wordSource] at hb
    | rational r' => simpa [numberCallsp] using rationalCallsp_iff h
    | float t bits =>
      cases t with
      | single | double => simp [wordSource] at hb
      | long => simpa [numberCallsp, numberCalls] using rational_long_calls ha
    | complex re im =>
      simp only [numberEqualp, Bool.and_eq_true] at h
      simpa [numberCallsp] using (complex_rational_calls h.2).symm
  | float t bits =>
    cases t with
    | single | double => simp [wordSource] at ha
    | long =>
      cases b with
      | cfloat => simp [wordSource] at hb
      | rational r => simpa [numberCallsp, numberCalls] using (rational_long_calls hb).symm
      | float t' bits' =>
        cases t' with
        | single | double => simp [wordSource] at hb
        | long => simpa [numberCallsp, numberCalls] using longBytes_eq h
      | complex re im =>
        simpa [numberCallsp, numberCalls] using
          (two_calls (rationalCallsp_ne_nil re) (rationalCallsp_ne_nil im) _).symm
  | complex re im =>
    cases b with
    | cfloat => simp [wordSource] at hb
    | rational r =>
      simp only [numberEqualp, Bool.and_eq_true] at h
      simpa [numberCallsp] using complex_rational_calls h.2
    | float t bits =>
      cases t with
      | single | double => simp [wordSource] at hb
      | long =>
        simpa [numberCallsp, numberCalls] using
          two_calls (rationalCallsp_ne_nil re) (rationalCallsp_ne_nil im) _
    | complex re' im' =>
      simp only [numberEqualp, Bool.and_eq_true] at h
      simp only [numberCallsp, forall_const, ← rationalCallsp_iff h.1, ← rationalCallsp_iff h.2]
      constructor
      · intro happ
        exact List.append_inj happ (rationalCallsp_length h.1)
      · intro hparts
        rw [hparts.1, hparts.2]

theorem numberCallsp_iff {a b : Number} (h : numberEqualp P a b = true) :
    (∀ machine, numberCallsp machine L a = numberCallsp machine L b) ↔ numberAgreesp a b := by
  cases ha : wordSource a with
  | none =>
    cases hb : wordSource b with
    | none => exact numberCallsp_iff_of_none h ha hb
    | some s =>
      simp only [numberAgreesp, ha, hb, iff_false, not_forall]
      refine ⟨fun _ => 0, ?_⟩
      rw [numberCallsp_of_source hb]
      exact numberCallsp_no_word ha _
  | some s =>
    cases hb : wordSource b with
    | none =>
      simp only [numberAgreesp, ha, hb, iff_false, not_forall]
      refine ⟨fun _ => 0, ?_⟩
      rw [numberCallsp_of_source ha]
      exact (numberCallsp_no_word hb _).symm
    | some s' =>
      simp only [numberAgreesp, ha, hb, numberCallsp_of_source ha, numberCallsp_of_source hb,
        List.cons.injEq, Call.hashWord.injEq, and_true]
      exact sources_eq h ha hb

theorem integerAgreesp_refl (n : Integer) : integerAgreesp n n := by
  cases n <;> simp [integerAgreesp]

theorem rationalAgreesp_refl (r : Rational) : rationalAgreesp r r := by
  cases r <;> simp [rationalAgreesp, integerAgreesp_refl]

theorem numberAgreesp_refl (a : Number) : numberAgreesp a a := by
  unfold numberAgreesp
  cases ha : wordSource a with
  | some s => rfl
  | none =>
    cases a with
    | rational r => exact rationalAgreesp_refl r
    | float => trivial
    | complex re im => exact ⟨rationalAgreesp_refl re, rationalAgreesp_refl im⟩
    | cfloat => simp [wordSource] at ha

theorem leafAgreesp_refl (place : Place) (a : Item) : LeafAgreesp L heap place a a := by
  cases place with
  | equal depth =>
    cases a with
    | obj x => exact leafAgrees_refl x
    | number n => trivial
  | equalp depth =>
    cases hv : view heap a with
    | number n =>
      simp only [LeafAgreesp, hv]
      exact numberAgreesp_refl n
    | _ => simp only [LeafAgreesp, hv]

/-- On the leaves the calls agree exactly as LeafAgreesp says. -/
theorem equalpCalls_iff {place : Place} {a b : Item} (h : Related P heap place a b) :
    (equalpChildren P heap place a = none →
      ∀ machine, equalpCalls machine P L heap place a = equalpCalls machine P L heap place b) ↔
      LeafAgreesp L heap place a b := by
  cases place with
  | equal depth =>
    obtain ⟨x, y, rfl, rfl, hxy⟩ := h
    simp only [equalpChildren, throughEqual, Option.map_eq_none_iff, equalpCalls, LeafAgreesp,
      forall_const]
    exact leafCalls_iff hxy
  | equalp depth =>
    rcases h with rfl | h
    · exact iff_of_true (fun _ _ => rfl) (leafAgreesp_refl _ _)
    cases equalp_cases h with
    | same => exact iff_of_true (fun _ _ => rfl) (leafAgreesp_refl _ _)
    | number ha hb hnum =>
      simp only [equalpChildren, equalpCalls, LeafAgreesp, ha, hb, forall_const]
      exact numberCallsp_iff hnum
    | character ha hb hup =>
      simp [equalpChildren, equalpCalls, LeafAgreesp, ha, hb, hup]
    | list ha hb | vector ha hb | array ha hb | eclInstance ha hb | hashtable ha hb
    | random ha hb | ssePack ha hb =>
      simp [equalpChildren, belowDepth, equalpCalls, LeafAgreesp, ha, hb]
    | pathname ha hb =>
      simp only [LeafAgreesp, equalpCalls, ha, hb, implies_true]

/-- EQUALP objects and all their components hash alike, for every mixing function and every
machine, exactly when the numbers visited by both traversals agree, and the leaves within
pathnames do. -/
theorem hash_equalp_iff_agrees (P : Platform) (L : CLibrary) (heap : Heap) (x y : Obj)
    (hequalp : ∃ n, eclEqualp P heap n (.obj x) (.obj y) = some true) :
    (∀ place u v, Visits (equalpChildren P heap) (.equalp 3) (.obj x) (.obj y) place u v →
      ∀ (machine : FloatValue → ℕ) (H : Type) (mix : H → Call → H) (n : ℕ) (h : H),
        hashEqualp mix machine P L heap n place h u =
          hashEqualp mix machine P L heap n place h v) ↔
    ∀ place u v, Visits (equalpChildren P heap) (.equalp 3) (.obj x) (.obj y) place u v →
      LeafAgreesp L heap place u v := by
  have hshape := equalp_sameShape P heap
  have hroot : Related P heap (.equalp 3) (.obj x) (.obj y) := Or.inr hequalp
  have hmachine := fun machine =>
    visited_hash_eq_iff (equalpCalls machine P L heap) hshape hroot
  constructor
  · intro hall place u v hv
    refine (equalpCalls_iff (visits_related hshape hv hroot)).mp fun hu machine => ?_
    exact (hmachine machine).mp (fun e s t hst => hall e s t hst machine) place u v hv hu
  · intro hagree place u v hv machine
    refine (hmachine machine).mpr (fun e s t hst hs => ?_) place u v hv
    exact (equalpCalls_iff (visits_related hshape hst hroot)).mpr (hagree e s t hst) hs machine

/-- The fixnum 1 is an immediate; 1.0 and 0.5 are single floats, 1/2 is a ratio. -/
def numberHeap : Heap
  | 8 => .number (.float .single 0x3F800000)
  | 16 => .number (.float .single 0x3F000000)
  | 24 => .number (.rational (.ratio (.fixnum 1) (.fixnum 2)))
  | _ => .other

/-- No NaN, complex float, letter, hash table or bignum is compared below. -/
def plainPlatform : Platform where
  nanFixnum := -2 ^ 63
  toFloat := fun _ => 0
  charUpcase := id
  gethash := fun _ _ => none
  freshMemory := fun _ _ => []

theorem hash_equalp_iff_agrees_one :
    hashEqualp newhash (fun _ => 0) plainPlatform noFloats numberHeap 1 (.equalp 3) 0
        (.obj (.fixnum 1)) =
      hashEqualp newhash (fun _ => 0) plainPlatform noFloats numberHeap 1 (.equalp 3) 0
        (.obj (.pointer 8)) := by
  refine (hash_equalp_iff_agrees plainPlatform noFloats numberHeap (.fixnum 1) (.pointer 8)
    ⟨1, by decide⟩).mpr ?_ (.equalp 3) _ _ (.here _ _ _) (fun _ => 0) Word newhash 1 0
  intro place u v hv
  cases hv with
  | here =>
    have hindex : (Sum.inl 1 : ℤ ⊕ FloatValue) = indexSource (floatValue .single 0x3F800000) := by
      decide
    exact hindex
  | child hx => simp [equalpChildren, view] at hx

theorem ratio_and_float_hash_apart :
    ¬ ∀ (machine : FloatValue → ℕ) (P : Platform) (L : CLibrary) (heap : Heap) (x y : Obj),
      (∃ n, eclEqualp P heap n (.obj x) (.obj y) = some true) →
      ∀ n, hashEqualp newhash machine P L heap n (.equalp 3) 0 (.obj x) =
        hashEqualp newhash machine P L heap n (.equalp 3) 0 (.obj y) := by
  intro h
  have hsame := h (fun _ => 0) plainPlatform noFloats numberHeap (.pointer 24) (.pointer 16)
    ⟨1, by decide⟩ 1
  revert hsame
  decide

end HashEqualp
