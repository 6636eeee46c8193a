import Ecl.SerializerRoundTrip

/-! The last loop of ecl_deserialize, for the arrays: fixup_vector with ecl_displace of
src/c/array.d, and the pointers to the elements. -/
namespace Serializer

open BreadthFirst Integers

/-- The pointer self: elements that have been read for the object i, or a word of the image. -/
inductive Pointer where
  | block (i index : ℕ)
  | raw (address : ℕ)
  deriving DecidableEq

def Pointer.addressInc (inc : ℕ) (elttype : ElementType) : Pointer → Pointer
  | .block i index => .block i (index + inc)
  | .raw address => .raw (address + inc * aetSize elttype)

/-- The field displaced: own stands for NIL and for lists with NIL as their car. The arrays in the
cdr are not kept. -/
inductive Link where
  | own
  | word (w : ℕ)
  | list (car : ℕ)
  deriving DecidableEq

def Link.isWord : Link → Bool
  | .word _ => true
  | _ => false

structure Head where
  elttype : ElementType
  flags : ℕ
  dim : ℕ
  displaced : Link
  self : Pointer
  deriving DecidableEq

/-- ECL_FLAG_ADJUSTABLE is 2. -/
def Head.adjustable (h : Head) : Bool := h.flags.testBit 1

abbrev Heads := ℕ → Option Head

/-- The last two end in a fault: a pointer that is null, or no pointer at all. -/
inductive DisplaceError where
  | notArray
  | elementTypes
  | totalSize
  | offset
  | nullPointer
  | wildPointer
  deriving DecidableEq

/-- An array after the first loop. -/
def initialHead (i : ℕ) (a : ArrayData ℕ) : Head :=
  match a.displaced with
  | none => ⟨a.elttype, a.flags, a.dim, .own, .block i 0⟩
  | some w => ⟨a.elttype, a.flags, a.dim, .word w, .raw a.index⟩

def arrayAt (objs : List (Obj ℕ)) (i : ℕ) : Option (ArrayData ℕ) := objs[i]?.bind arrayData

def initialHeads (objs : List (Obj ℕ)) : Heads := fun i => (arrayAt objs i).map (initialHead i)

/-- ecl_displace from the object i to the object j. An adjustable array is to keep track of the
arrays that are displaced to it, in the cdr of its field displaced. -/
def eclDisplace (i j offset : ℕ) (heads : Heads) : Except DisplaceError Heads :=
  match heads i, heads j with
  | some v, some to_ =>
    if to_.elttype ≠ v.elttype then .error .elementTypes
    else if to_.dim < v.dim then .error .totalSize
    else if to_.dim - v.dim < offset then .error .offset
    else if i ≠ j ∧ to_.adjustable ∧ to_.displaced.isWord then .error .wildPointer
    else .ok (Function.update heads i (some { v with
      displaced := .list j
      self := to_.self.addressInc offset v.elttype }))
  | _, _ => .error .notArray

section
variable {A : Type}

/-- fixup_vector, but for the elements. -/
def fixupHead (output : List (Ref (Loc A))) (i : ℕ) (heads : Heads) :
    Except DisplaceError Heads :=
  match heads i with
  | some ⟨elttype, _, dim, .word w, .raw offset⟩ =>
    match getObject output w with
    | .object (.new j) => eclDisplace i j offset heads
    | .null => .error .nullPointer
    | .nil => if elttype = .object ∧ 0 < dim then .error .wildPointer else .ok heads
    | _ => .error .notArray
  | _ => .ok heads

/-- The last loop; it does nothing to arrays for the other objects. -/
def fixupHeads (output : List (Ref (Loc A))) : ℕ → Heads → Except DisplaceError Heads
  | 0, heads => .ok heads
  | n + 1, heads => do
    let heads ← fixupHeads output n heads
    fixupHead output n heads

/-- An element: a cl_object or the bytes of a number. -/
inductive Value (R : Type) where
  | object (r : R)
  | bytes (l : List ℕ)
  deriving DecidableEq

def Value.map {R T : Type} (g : R → T) : Value R → Value T
  | .object r => .object (g r)
  | .bytes l => .bytes l

def wordBytes (w : ℕ) : List ℕ := (List.range 8).map fun k => w / 256 ^ k % 256

/-- The element with the given index. -/
def Contents.value {R : Type} (elttype : ElementType) (k : ℕ) : Contents R → Option (Value R)
  | .objects l => l[k]?.map .object
  | .words l =>
    let size := aetSize elttype
    if (k + 1) * size ≤ 8 * l.length then
      some (.bytes (((l.flatMap wordBytes).drop (k * size)).take size))
    else none

/-- The arrays that the reader makes, and the elements that it has allocated. -/
structure Copy (A : Type) where
  heads : Heads
  memory : ℕ → ℕ → Option (Value (Ref (Loc A)))

def memoryOf (objs : List (Obj ℕ)) (output : List (Ref (Loc A))) :
    ℕ → ℕ → Option (Value (Ref (Loc A))) := fun i k =>
  (arrayAt objs i).bind fun a => (fixupContents output a.self).value a.elttype k

/-- ecl_deserialize as far as arrays are concerned. -/
def deserializeArrays (pk : Packages A) (raw : List Cell) :
    Option (Except DisplaceError (Copy A)) := do
  let (objs, output) ← reconstruct pk raw
  return do
    let heads ← fixupHeads output objs.length (initialHeads objs)
    return ⟨heads, memoryOf objs output⟩

theorem deserializeArrays_eq {pk : Packages A} {raw : List Cell} {objs : List (Obj ℕ)}
    {output : List (Ref (Loc A))} (h : reconstruct pk raw = some (objs, output)) :
    deserializeArrays pk raw =
      some ((fixupHeads output objs.length (initialHeads objs)).map fun heads =>
        ⟨heads, memoryOf objs output⟩) := by
  rw [deserializeArrays, h]
  rfl

def Copy.place (c : Copy A) (i k : ℕ) : Option (ℕ × ℕ) :=
  match c.heads i with
  | some ⟨_, _, dim, _, .block b n⟩ => if k < dim then some (b, n + k) else none
  | _ => none

def Copy.aref (c : Copy A) (i k : ℕ) : Option (Value (Ref (Loc A))) :=
  (c.place i k).bind fun p => c.memory p.1 p.2

def Copy.aset (c : Copy A) (i k : ℕ) (x : Value (Ref (Loc A))) : Option (Copy A) :=
  (c.place i k).map fun p => { c with
    memory := fun b n => if b = p.1 ∧ n = p.2 then some x else c.memory b n }

end

section order
variable {A : Type} {objs : List (Obj ℕ)} {output : List (Ref (Loc A))} {heads heads' : Heads}
  {i j n : ℕ} {a y : ArrayData ℕ}

structure DisplacedTo (objs : List (Obj ℕ)) (i j : ℕ) (a y : ArrayData ℕ) : Prop where
  array : arrayAt objs i = some a
  link : a.displaced = some (fixToPtr j)
  owner : arrayAt objs j = some y

structure Owned (objs : List (Obj ℕ)) (output : List (Ref (Loc A))) : Prop where
  owner : ∀ i a w, arrayAt objs i = some a → a.displaced = some w →
    ∃ j y, w = fixToPtr j ∧ arrayAt objs j = some y ∧ y.elttype = a.elttype ∧
      a.index + a.dim ≤ y.dim
  place : ∀ j y, arrayAt objs j = some y → output[j]? = some (.object (.new j))

def InOrder (objs : List (Obj ℕ)) (i j : ℕ) : Prop :=
  ∀ y, arrayAt objs j = some y → y.displaced = none ∨ j < i

/-- What the first n rounds of the loop leave. -/
structure FixedUp (objs : List (Obj ℕ)) (n : ℕ) (heads : Heads) : Prop where
  other : ∀ i, arrayAt objs i = none → heads i = none
  own : ∀ i a, arrayAt objs i = some a → a.displaced = none → heads i = some (initialHead i a)
  later : ∀ i a, arrayAt objs i = some a → n ≤ i → heads i = some (initialHead i a)
  ordered : ∀ i j a y, DisplacedTo objs i j a y → i < n → InOrder objs i j → ∃ to_,
    heads j = some to_ ∧
      heads i = some ⟨a.elttype, a.flags, a.dim, .list j, to_.self.addressInc a.index a.elttype⟩
  astray : ∀ i j a y, DisplacedTo objs i j a y → i < n → ¬ InOrder objs i j → ∃ address,
    heads i = some ⟨a.elttype, a.flags, a.dim, .list j, .raw address⟩
  first : ∀ i j a y, DisplacedTo objs i j a y → i < n → j ≠ 0

theorem FixedUp.start (objs : List (Obj ℕ)) : FixedUp objs 0 (initialHeads objs) where
  other i hi := by rw [initialHeads, hi, Option.map_none]
  own i a ha _ := by rw [initialHeads, ha, Option.map_some]
  later i a ha _ := by rw [initialHeads, ha, Option.map_some]
  ordered _ _ _ _ _ hi := absurd hi (Nat.not_lt_zero _)
  astray _ _ _ _ _ hi := absurd hi (Nat.not_lt_zero _)
  first _ _ _ _ _ hi := absurd hi (Nat.not_lt_zero _)

theorem initialHead_own (h : a.displaced = none) (i : ℕ) :
    initialHead i a = ⟨a.elttype, a.flags, a.dim, .own, .block i 0⟩ := by rw [initialHead, h]

theorem initialHead_displaced {w : ℕ} (h : a.displaced = some w) (i : ℕ) :
    initialHead i a = ⟨a.elttype, a.flags, a.dim, .word w, .raw a.index⟩ := by rw [initialHead, h]

theorem eclDisplace_ok {v : Head} (hv : heads i = some v) {offset : ℕ}
    (h : eclDisplace i j offset heads = .ok heads') : ∃ to_, heads j = some to_ ∧
      heads' = Function.update heads i (some ⟨v.elttype, v.flags, v.dim, .list j,
        to_.self.addressInc offset v.elttype⟩) := by
  unfold eclDisplace at h
  rw [hv] at h
  cases hto : heads j with
  | none =>
    rw [hto] at h
    cases h
  | some to_ =>
    rw [hto] at h
    dsimp only at h
    split_ifs at h
    exact ⟨to_, rfl, (Except.ok.inj h).symm⟩

theorem eclDisplace_succeeds {v to_ : Head} (hv : heads i = some v) (hto : heads j = some to_)
    {offset : ℕ} (htype : to_.elttype = v.elttype) (hroom : offset + v.dim ≤ to_.dim)
    (hlink : to_.displaced.isWord = false) : ∃ heads', eclDisplace i j offset heads = .ok heads' := by
  refine ⟨Function.update heads i (some { v with
    displaced := .list j
    self := to_.self.addressInc offset v.elttype }), ?_⟩
  unfold eclDisplace
  rw [hv, hto]
  dsimp only
  rw [if_neg (not_not.mpr htype), if_neg (by omega), if_neg (by omega), if_neg (by simp [hlink])]

theorem getObject_owner (ho : Owned objs output) (hy : arrayAt objs j = some y) :
    getObject output (fixToPtr j) = if j = 0 then .null else .object (.new j) := by
  by_cases hj : j = 0
  · rw [if_pos hj, hj]
    rfl
  · have hindex : isIndex (fixToPtr j) = true := by simp [fixToPtr, isIndex, hj]
    have hdiv : fixToPtr j / 4 = j := Nat.mul_div_cancel_left _ (by decide)
    rw [if_neg hj, getObject, if_pos hindex, hdiv, List.getD_eq_getElem?_getD, ho.place j y hy]
    rfl

theorem fixupHead_displaced (ho : Owned objs output) (hd : DisplacedTo objs i j a y)
    (hi : heads i = some (initialHead i a)) : fixupHead output i heads =
      if j = 0 then .error .nullPointer else eclDisplace i j a.index heads := by
  rw [initialHead_displaced hd.link] at hi
  simp only [fixupHead, hi, getObject_owner ho hd.owner]
  split_ifs <;> rfl

theorem DisplacedTo.unique {j' : ℕ} {a' y' : ArrayData ℕ} (h : DisplacedTo objs i j a y)
    (h' : DisplacedTo objs i j' a' y') : j' = j ∧ a' = a ∧ y' = y := by
  obtain rfl := Option.some.inj (h.array.symm.trans h'.array)
  have hlink := Option.some.inj (h.link.symm.trans h'.link)
  have hj : j' = j := Nat.eq_of_mul_eq_mul_left (by decide) hlink.symm
  subst hj
  exact ⟨rfl, rfl, Option.some.inj (h'.owner.symm.trans h.owner)⟩

theorem FixedUp.displace (hf : FixedUp objs n heads) (ho : Owned objs output)
    (hd : DisplacedTo objs n j a y) (h : fixupHead output n heads = .ok heads') :
    FixedUp objs (n + 1) heads' := by
  have hn := hf.later n a hd.array le_rfl
  rw [fixupHead_displaced ho hd hn] at h
  split_ifs at h with hj
  obtain ⟨to_, hto, rfl⟩ := eclDisplace_ok hn h
  have hsame : ∀ i, i ≠ n → Function.update heads n (some ⟨(initialHead n a).elttype,
      (initialHead n a).flags, (initialHead n a).dim, .list j,
      to_.self.addressInc a.index (initialHead n a).elttype⟩) i = heads i :=
    fun i hi => Function.update_of_ne hi _ _
  have hhead : (initialHead n a).elttype = a.elttype ∧ (initialHead n a).flags = a.flags ∧
      (initialHead n a).dim = a.dim := by
    rw [initialHead_displaced hd.link]
    exact ⟨rfl, rfl, rfl⟩
  rw [hhead.1, hhead.2.1, hhead.2.2] at hsame ⊢
  have hdisplaced : ∀ b, arrayAt objs n = some b → b.displaced ≠ none := by
    intro b hb hnone
    obtain rfl := Option.some.inj (hd.array.symm.trans hb)
    rw [hd.link] at hnone
    cases hnone
  constructor
  case other =>
    intro i hi
    rw [hsame i (by rintro rfl; rw [hd.array] at hi; cases hi)]
    exact hf.other i hi
  case own =>
    intro i b hb hnone
    rw [hsame i (by rintro rfl; exact hdisplaced b hb hnone)]
    exact hf.own i b hb hnone
  case later =>
    intro i b hb hi
    rw [hsame i (by omega)]
    exact hf.later i b hb (by omega)
  case ordered =>
    intro i l b z hd' hi horder
    -- the owner is not the array of this round
    have hl : l ≠ n := by
      rintro rfl
      rcases horder z hd'.owner with hz | hz
      · exact hdisplaced z hd'.owner hz
      · omega
    by_cases hin : i = n
    · subst hin
      obtain ⟨rfl, rfl, rfl⟩ := hd.unique hd'
      refine ⟨to_, by rw [hsame l hl, hto], Function.update_self _ _ _⟩
    · obtain ⟨to', hto', hhead'⟩ := hf.ordered i l b z hd' (by omega) horder
      exact ⟨to', by rw [hsame l hl, hto'], by rw [hsame i hin, hhead']⟩
  case astray =>
    intro i l b z hd' hi horder
    by_cases hin : i = n
    · subst hin
      obtain ⟨rfl, rfl, rfl⟩ := hd.unique hd'
      -- the owner still has the word of the image for its pointer
      obtain ⟨hz, hle⟩ : z.displaced ≠ none ∧ i ≤ l := by
        unfold InOrder at horder
        push Not at horder
        obtain ⟨z', hz', hlink, hle⟩ := horder
        obtain rfl := Option.some.inj (hd'.owner.symm.trans hz')
        exact ⟨hlink, hle⟩
      obtain ⟨w, hw⟩ := Option.ne_none_iff_exists'.mp hz
      have hraw := hf.later l z hd'.owner hle
      rw [hto, initialHead_displaced hw] at hraw
      obtain rfl := Option.some.inj hraw
      exact ⟨_, Function.update_self _ _ _⟩
    · obtain ⟨address, hhead'⟩ := hf.astray i l b z hd' (by omega) horder
      exact ⟨address, by rw [hsame i hin, hhead']⟩
  case first =>
    intro i l b z hd' hi
    by_cases hin : i = n
    · subst hin
      obtain ⟨rfl, -, -⟩ := hd.unique hd'
      exact hj
    · exact hf.first i l b z hd' (by omega)

theorem FixedUp.skip (hf : FixedUp objs n heads)
    (hn : ∀ b, arrayAt objs n = some b → b.displaced = none) : FixedUp objs (n + 1) heads := by
  have hlt : ∀ i j a y, DisplacedTo objs i j a y → i < n + 1 → i < n := by
    intro i j a y hd hi
    have hne : i ≠ n := by
      rintro rfl
      have hnone := hn a hd.array
      rw [hd.link] at hnone
      cases hnone
    omega
  constructor
  case other => exact hf.other
  case own => exact hf.own
  case later => exact fun i b hb hi => hf.later i b hb (by omega)
  case ordered => exact fun i j a y hd hi => hf.ordered i j a y hd (hlt i j a y hd hi)
  case astray => exact fun i j a y hd hi => hf.astray i j a y hd (hlt i j a y hd hi)
  case first => exact fun i j a y hd hi => hf.first i j a y hd (hlt i j a y hd hi)

theorem fixupHead_own (hf : FixedUp objs n heads)
    (hn : ∀ b, arrayAt objs n = some b → b.displaced = none) :
    fixupHead output n heads = .ok heads := by
  cases hb : arrayAt objs n with
  | none => simp only [fixupHead, hf.other n hb]
  | some b =>
    have hhead := hf.own n b hb (hn b hb)
    rw [initialHead_own (hn b hb)] at hhead
    simp only [fixupHead, hhead]

theorem Owned.cases (ho : Owned objs output) (n : ℕ) :
    (∀ b, arrayAt objs n = some b → b.displaced = none) ∨ ∃ j a y, DisplacedTo objs n j a y := by
  by_cases h : ∃ b w, arrayAt objs n = some b ∧ b.displaced = some w
  · obtain ⟨b, w, hb, hw⟩ := h
    obtain ⟨j, y, rfl, hy, -⟩ := ho.owner n b w hb hw
    exact .inr ⟨j, b, y, hb, hw, hy⟩
  · refine .inl fun b hb => ?_
    by_contra hne
    obtain ⟨w, hw⟩ := Option.ne_none_iff_exists'.mp hne
    exact h ⟨b, w, hb, hw⟩

theorem fixupHeads_fixed (ho : Owned objs output) (n : ℕ) {heads : Heads}
    (h : fixupHeads output n (initialHeads objs) = .ok heads) : FixedUp objs n heads := by
  induction n generalizing heads with
  | zero =>
    obtain rfl := Except.ok.inj h
    exact .start objs
  | succ n ih =>
    rw [fixupHeads] at h
    cases hprev : fixupHeads output n (initialHeads objs) with
    | error e =>
      rw [hprev] at h
      cases h
    | ok prev =>
      rw [hprev] at h
      change fixupHead output n prev = .ok heads at h
      have hf := ih hprev
      rcases ho.cases n with hn | ⟨j, a, y, hd⟩
      · rw [fixupHead_own hf hn] at h
        obtain rfl := Except.ok.inj h
        exact hf.skip hn
      · exact hf.displace ho hd h

theorem fixupHeads_succeeds (ho : Owned objs output)
    (horder : ∀ i j a y, DisplacedTo objs i j a y → j ≠ 0 ∧ InOrder objs i j) (n : ℕ) :
    ∃ heads, fixupHeads output n (initialHeads objs) = .ok heads := by
  induction n with
  | zero => exact ⟨_, rfl⟩
  | succ n ih =>
    obtain ⟨heads, hheads⟩ := ih
    have hf := fixupHeads_fixed ho n hheads
    rw [fixupHeads, hheads]
    change ∃ heads', fixupHead output n heads = .ok heads'
    rcases ho.cases n with hn | ⟨j, a, y, hd⟩
    · exact ⟨heads, fixupHead_own hf hn⟩
    · obtain ⟨hj, hin⟩ := horder n j a y hd
      have hhead := hf.later n a hd.array le_rfl
      obtain ⟨j', y', hw, hy', htype, hroom⟩ := ho.owner n a _ hd.array hd.link
      obtain rfl : j' = j := Nat.eq_of_mul_eq_mul_left (by decide) hw.symm
      obtain rfl := Option.some.inj (hd.owner.symm.trans hy')
      rw [fixupHead_displaced ho hd hhead, if_neg hj]
      have hown : ∃ link self, heads j' = some ⟨y.elttype, y.flags, y.dim, link, self⟩ ∧
          link.isWord = false := by
        rcases hin y hd.owner with hnone | hlt
        · have hy := hf.own j' y hd.owner hnone
          rw [initialHead_own hnone] at hy
          exact ⟨_, _, hy, rfl⟩
        · rcases ho.cases j' with hnone | ⟨l, b, z, hd'⟩
          · have hy := hf.own j' y hd.owner (hnone y hd.owner)
            rw [initialHead_own (hnone y hd.owner)] at hy
            exact ⟨_, _, hy, rfl⟩
          · obtain rfl := Option.some.inj (hd.owner.symm.trans hd'.array)
            obtain ⟨to_, -, hy⟩ := hf.ordered j' l y z hd' hlt (horder j' l y z hd').2
            exact ⟨_, _, hy, rfl⟩
      obtain ⟨link, self, hto, hlink⟩ := hown
      rw [initialHead_displaced hd.link] at hhead
      exact eclDisplace_succeeds hhead hto htype hroom hlink

/-- The copy of a displaced array points into the elements of its owner's copy. -/
def Displaces (heads : Heads) (i j : ℕ) (a y : ArrayData ℕ) : Prop :=
  ∃ link b m, heads j = some ⟨y.elttype, y.flags, y.dim, link, .block b m⟩ ∧
    heads i = some ⟨a.elttype, a.flags, a.dim, .list j, .block b (m + a.index)⟩

theorem FixedUp.displaces (hf : FixedUp objs n heads)
    (horder : ∀ i j a y, DisplacedTo objs i j a y → InOrder objs i j) (ho : Owned objs output)
    (hd : DisplacedTo objs i j a y) (hi : i < n) : Displaces heads i j a y := by
  induction i using Nat.strong_induction_on generalizing j a y with
  | _ i ih =>
    have hin := horder i j a y hd
    obtain ⟨to_, hto, hhead⟩ := hf.ordered i j a y hd hi hin
    have howner : ∃ link b m, heads j = some ⟨y.elttype, y.flags, y.dim, link, .block b m⟩ := by
      by_cases hnone : y.displaced = none
      · have hy := hf.own j y hd.owner hnone
        rw [initialHead_own hnone] at hy
        exact ⟨_, j, 0, hy⟩
      · obtain ⟨w, hw⟩ := Option.ne_none_iff_exists'.mp hnone
        obtain ⟨l, z, rfl, hz, -⟩ := ho.owner j y w hd.owner hw
        have hlt : j < i := (hin y hd.owner).resolve_left hnone
        obtain ⟨-, b, m, -, hy⟩ := ih j hlt ⟨hd.owner, hw, hz⟩ (by omega)
        exact ⟨_, b, _, hy⟩
    obtain ⟨link, b, m, hy⟩ := howner
    rw [hto] at hy
    obtain rfl := Option.some.inj hy
    exact ⟨link, b, m, hto, hhead⟩

theorem FixedUp.order (hf : FixedUp objs n heads) (hn : ∀ i a, arrayAt objs i = some a → i < n)
    (hd : DisplacedTo objs i j a y) {b m : ℕ} (hself : (heads i).map Head.self = some (.block b m)) :
    j ≠ 0 ∧ InOrder objs i j := by
  have hi := hn i a hd.array
  refine ⟨hf.first i j a y hd hi, ?_⟩
  by_contra hin
  obtain ⟨address, hraw⟩ := hf.astray i j a y hd hi hin
  rw [hraw] at hself
  cases hself

end order

end Serializer
