import Ecl.SerializerVectors
import Mathlib.Data.Fintype.Prod

/-! Vectors that are displaced to others, after si_serialize and si_deserialize. -/
namespace Serializer

open BreadthFirst Integers

variable {A : Type}

/-- As Portable, but an array may lie in any other of its type. Displaced bit vectors are not
written. -/
def ArrayData.Sound (heap : A → Obj (Ref A)) (a : ArrayData (Ref A)) : Prop :=
  match a.plain.displaced with
  | none => a.plain.Fits
  | some owner => a.elttype ≠ .bit ∧ ∃ b y, owner = .object b ∧ (heap b).HasArray y ∧
      y.elttype = a.elttype ∧ a.index + a.dim ≤ y.dim

def SoundType (pk : Packages A) (heap : A → Obj (Ref A)) (a : A) : Obj (Ref A) → Prop
  | .array _ x => x.Sound heap
  | .vector kind _ x => x.Sound heap ∧ kind.keptOffset x.offset = x.offset
  | o => PortableType pk heap a o

def Sound (pk : Packages A) (heap : A → Obj (Ref A)) (a : A) : Prop :=
  .null ∉ (heap a).plain.fields ∧ SoundType pk heap a (heap a)

def LiesIn (heap : A → Obj (Ref A)) (v b : A) (a : ArrayData (Ref A)) : Prop :=
  (heap v).HasArray a ∧ a.plain.displaced = some (.object b)

/-- Objects that can be copied; only arrays that are displaced to the root refer to it. -/
structure VectorGraph [DecidableEq A] (pk : Packages A) (heap : A → Obj (Ref A)) (root : A) :
    Prop where
  sound : ∀ a, Held heap (.object root) a → Sound pk heap a
  root : ∀ a, Held heap (.object root) a → ∀ r ∈ (heap a).targets,
    eclEql heap 3 (.object r) (.object root) → ∃ y, LiesIn heap a r y

inductive Lies (heap : A → Obj (Ref A)) : A → A → ℕ → Prop where
  | own {a : A} {y : ArrayData (Ref A)} (h : (heap a).HasArray y) (hnone : y.plain.displaced = none) :
      Lies heap a a 0
  | displaced {a b base : A} {y : ArrayData (Ref A)} {n : ℕ} (h : LiesIn heap a b y)
      (hb : Lies heap b base n) : Lies heap a base (n + y.index)

def ElementAt (heap : A → Obj (Ref A)) (v : A) (k : ℕ) (e : Value (Ref A)) : Prop :=
  ∃ base n y, Lies heap v base n ∧ (heap base).HasArray y ∧ y.self.value y.elttype (n + k) = some e

section
variable [DecidableEq A]

def writtenOrder (heap : A → Obj (Ref A)) (fuel : ℕ) (root : A) : List A :=
  search (eql heap) (fun a => (heap a).targets) fuel ⟨[root], [root]⟩

structure DisplacedCopy (heap : A → Obj (Ref A)) (keys : List A) (c : Copy A) (v : A)
    (a : ArrayData (Ref A)) (i j : ℕ) : Prop where
  target : (c.heads i).map Head.displaced = some (.list j)
  offset : ∃ b m, (c.heads j).map Head.self = some (.block b m) ∧
    (c.heads i).map Head.self = some (.block b (m + a.index))
  elements : ∀ k < a.dim, ∀ e, ElementAt heap v k e →
    c.aref i k = some (e.map (Ref.through (imageOf heap keys)))
  stores : ∀ k < a.dim, ∀ x,
    (∃ c', c.aset i k x = some c' ∧ c'.aref j (a.index + k) = some x) ∧
      ∃ c', c.aset j (a.index + k) x = some c' ∧ c'.aref i k = some x

def CopiesVectors (heap : A → Obj (Ref A)) (root : A) (keys : List A) (c : Copy A) : Prop :=
  ∀ v b a, Held heap (.object root) v → LiesIn heap v b a →
    DisplacedCopy heap keys c v a (keys.idxOf v) (keys.idxOf b)

/-- None is displaced to the root, and what one is displaced to has its elements or is met
before. -/
def InWrittenOrder (heap : A → Obj (Ref A)) (root : A) (keys : List A) : Prop :=
  ∀ v b a, Held heap (.object root) v → LiesIn heap v b a →
    b ≠ root ∧ ∀ y, (heap b).HasArray y → y.plain.displaced = none ∨ keys.idxOf b < keys.idxOf v

end

section written
variable {pk : Packages A} {heap : A → Obj (Ref A)} {root : A} {keys : List A}

theorem Obj.HasArray.unique {o : Obj (Ref A)} {a y : ArrayData (Ref A)} (ha : o.HasArray a)
    (hy : o.HasArray y) : a = y := by
  obtain ⟨dims, rfl⟩ | ⟨kind, fillp, rfl⟩ := ha
  · obtain ⟨dims', h⟩ | ⟨kind, fillp, h⟩ := hy <;> cases h
    rfl
  · obtain ⟨dims', h⟩ | ⟨kind, fillp, h⟩ := hy <;> cases h
    rfl

theorem Obj.HasArray.fields {o : Obj (Ref A)} {a : ArrayData (Ref A)} (h : o.HasArray a) :
    o.plain.fields = a.plain.fields := by
  obtain ⟨dims, rfl⟩ | ⟨kind, fillp, rfl⟩ := h <;> rfl

theorem LiesIn.target {v b : A} {a : ArrayData (Ref A)} (h : LiesIn heap v b a) :
    b ∈ (heap v).targets := by
  have hplain := ArrayData.plain_of_displaced h.2
  rw [Obj.targets, h.1.fields, hplain]
  exact List.mem_singleton.mpr rfl

theorem arrayData_some {o : Obj (Ref A)} {word : Ref A → ℕ} {a : ArrayData ℕ}
    (h : arrayData (o.plain.map word) = some a) : ∃ y, o.HasArray y ∧ a = y.plain.map word := by
  cases o with
  | array dims y => exact ⟨y, .inl ⟨dims, rfl⟩, (Option.some.inj h).symm⟩
  | vector kind fillp y => exact ⟨y, .inr ⟨kind, fillp, rfl⟩, (Option.some.inj h).symm⟩
  | _ => cases h

theorem Sound.array {v : A} {a : ArrayData (Ref A)} (h : Sound pk heap v)
    (ha : (heap v).HasArray a) : a.Sound heap := by
  obtain ⟨-, htype⟩ := h
  obtain ⟨dims, ho⟩ | ⟨kind, fillp, ho⟩ := ha <;> rw [ho] at htype
  · exact htype
  · exact htype.1

theorem Sound.owner {v : A} {a : ArrayData (Ref A)} (h : Sound pk heap v) (ha : (heap v).HasArray a)
    {owner : Ref A} (howner : a.plain.displaced = some owner) : a.elttype ≠ .bit ∧
      ∃ b y, owner = .object b ∧ (heap b).HasArray y ∧ y.elttype = a.elttype ∧
        a.index + a.dim ≤ y.dim := by
  have hsound := h.array ha
  unfold ArrayData.Sound at hsound
  rw [howner] at hsound
  exact hsound

theorem Sound.fits {v : A} {a : ArrayData (Ref A)} (h : Sound pk heap v) (ha : (heap v).HasArray a)
    (hnone : a.plain.displaced = none) : a.plain.Fits := by
  have hsound := h.array ha
  unfold ArrayData.Sound at hsound
  rw [hnone] at hsound
  exact hsound

theorem Sound.portable {v : A} (h : Sound pk heap v) (hnot : ∀ a, ¬ (heap v).HasArray a) :
    Portable pk heap v := by
  refine ⟨h.1, ?_⟩
  have htype := h.2
  cases ho : heap v with
  | array dims a => exact absurd (.inl ⟨dims, ho⟩) (hnot a)
  | vector kind fillp a => exact absurd (.inr ⟨kind, fillp, ho⟩) (hnot a)
  | _ =>
    rw [ho] at htype
    exact htype

theorem Sound.plain {v : A} (h : Sound pk heap v) : (heap v).Plain := by
  have harray : ∀ a, (heap v).HasArray a → a.Supported := by
    intro a ha hsome
    obtain ⟨owner, howner⟩ := Option.isSome_iff_exists.mp hsome
    exact (h.owner ha howner).1
  cases ho : heap v with
  | array dims a => exact harray a (.inl ⟨dims, ho⟩)
  | vector kind fillp a => exact harray a (.inr ⟨kind, fillp, ho⟩)
  | _ =>
    have hportable := h.portable (by simp [Obj.HasArray, ho])
    have htype := hportable.2
    rw [ho] at htype
    exact PortableType.plain htype

theorem LiesIn.link {v b : A} {a : ArrayData (Ref A)} (h : LiesIn heap v b a) (num : A → ℕ) :
    a.plain.map (wordOf num) =
      ⟨a.elttype, a.flags, a.dim, some (fixToPtr (num b)), .words [], a.index, a.offset⟩ := by
  rw [ArrayData.plain_of_displaced h.2]
  rfl

theorem ArrayData.plain_self {a : ArrayData (Ref A)} (h : a.plain.displaced = none) :
    a.plain.self = a.self := by
  obtain ⟨elttype, flags, dim, displaced, self, index, offset⟩ := a
  cases displaced with
  | none => rfl
  | some r =>
    cases r with
    | nil => rfl
    | _ => cases h

theorem Lies.base {v base : A} {n : ℕ} (h : Lies heap v base n) :
    ∃ y, (heap base).HasArray y ∧ y.plain.displaced = none := by
  induction h with
  | own hy hnone => exact ⟨_, hy, hnone⟩
  | displaced _ _ ih => exact ih

theorem Contents.value_map {R T : Type} (g : R → T) (elttype : ElementType) (k : ℕ)
    (c : Contents R) : (c.map g).value elttype k = (c.value elttype k).map (Value.map g) := by
  cases c with
  | objects l =>
    simp only [Contents.map, Contents.value, List.getElem?_map, Option.map_map]
    rfl
  | words l =>
    simp only [Contents.map, Contents.value]
    split <;> rfl

theorem Copy.place_eq {c : Copy A} {i k b n dim flags : ℕ} {elttype : ElementType} {link : Link}
    (h : c.heads i = some ⟨elttype, flags, dim, link, .block b n⟩) (hk : k < dim) :
    c.place i k = some (b, n + k) := by
  rw [Copy.place, h]
  exact if_pos hk

theorem Copy.aset_aref {c : Copy A} {i j k l : ℕ} {p : ℕ × ℕ} (hi : c.place i k = some p)
    (hj : c.place j l = some p) (x : Value (Ref (Loc A))) :
    ∃ c', c.aset i k x = some c' ∧ c'.aref j l = some x := by
  refine ⟨_, by rw [Copy.aset, hi]; rfl, ?_⟩
  have hplace : Copy.place (A := A) ⟨c.heads, fun b n => if b = p.1 ∧ n = p.2 then some x
      else c.memory b n⟩ j l = some p := hj
  rw [Copy.aref, hplace]
  exact if_pos ⟨rfl, rfl⟩

variable [DecidableEq A]

structure Written (pk : Packages A) (heap : A → Obj (Ref A)) (root : A) (keys : List A) :
    Prop where
  distinct : Distinct (eql heap) keys
  first : keys[0]? = some root
  sound : ∀ k ∈ keys, Sound pk heap k
  number : ∀ k ∈ keys, ∀ r ∈ (heap k).targets, ∃ i, number? (eql heap) keys r = some i
  root : ∀ k ∈ keys, ∀ r ∈ (heap k).targets, number? (eql heap) keys r = some 0 →
    ∃ y, LiesIn heap k r y

theorem Searched.written (hgraph : VectorGraph pk heap root) {out : List (Obj ℕ)}
    (h : Searched (eql heap) heap root keys ⟨keys, []⟩ out) : Written pk heap root keys where
  distinct := h.distinct
  first := List.head?_eq_getElem?.symm.trans h.first
  sound k hk := hgraph.sound k ⟨root, rfl, h.reached k hk⟩
  number k hk r hr := Option.isSome_iff_exists.mp (h.closed k hk r hr)
  root k hk r hr hzero := by
    obtain ⟨l, hl, hsame⟩ := number_spec hzero
    rw [← List.head?_eq_getElem?, h.first] at hl
    cases hl
    exact hgraph.root k ⟨root, rfl, h.reached k hk⟩ r hr hsame

theorem Written.targets (h : Written pk heap root keys) {k : A} (hk : k ∈ keys)
    (hnot : ∀ r y, ¬ LiesIn heap k r y) : NumberedTargets heap keys k := by
  intro r hr
  obtain ⟨i, hi⟩ := h.number k hk r hr
  refine ⟨i, ?_, hi⟩
  rintro rfl
  obtain ⟨y, hy⟩ := h.root k hk r hr hi
  exact hnot r y hy

theorem Written.kept (h : Written pk heap root keys) {k : A} (hk : k ∈ keys) :
    (numberedObj heap k (numOf heap keys)).Kept := by
  have hsound := h.sound k hk
  have hread := fun a (ha : (heap k).HasArray a) =>
    ArrayData.plain_readable (hsound.fits ha) (numOf heap keys)
  by_cases hnot : ∀ a, ¬ (heap k).HasArray a
  · exact (h.targets hk fun r y hy => hnot y hy.1).kept (hsound.portable hnot)
  · push Not at hnot
    obtain ⟨a, ha⟩ := hnot
    have htype := hsound.2
    unfold numberedObj
    have ha' := ha
    obtain ⟨dims, ho⟩ | ⟨kind, fillp, ho⟩ := ha' <;> rw [ho] at htype ⊢
    · exact hread a ha
    · refine ⟨hread a ha, ?_⟩
      change kind.keptOffset a.plain.offset = a.plain.offset
      rw [a.plain_offset]
      exact htype.2

theorem Written.reconstruct (h : Written pk heap root keys) {raw : List Cell}
    (hlength : field raw 1 = keys.length)
    (hread : raw.drop 2 = (readObjs heap keys).flatMap Obj.cells) :
    Serializer.reconstruct pk raw = some (readObjs heap keys, places heap keys) := by
  refine reconstruct_eq hlength hread (fun k hk => h.kept hk) ?_ ?_
  · intro k hk i
    by_cases hnot : ∀ a, ¬ (heap k).HasArray a
    · exact (h.targets hk fun r y hy => hnot y hy.1).resolvePackage ((h.sound k hk).portable hnot) i
    · push Not at hnot
      obtain ⟨a, ⟨dims, ho⟩ | ⟨kind, fillp, ho⟩⟩ := hnot
      · simp only [numberedObj, firstPlace, ho]
        rfl
      · simp only [numberedObj, firstPlace, ho]
        rfl
  · intro k hk i
    by_cases hnot : ∀ a, ¬ (heap k).HasArray a
    · exact (h.targets hk fun r y hy => hnot y hy.1).resolveSymbol ((h.sound k hk).portable hnot) i
    · push Not at hnot
      obtain ⟨a, ⟨dims, ho⟩ | ⟨kind, fillp, ho⟩⟩ := hnot
      · simp only [numberedObj, firstPlace, place, ho]
        rfl
      · simp only [numberedObj, firstPlace, place, ho]
        rfl

theorem arrayAt_key {i : ℕ} {k : A} {y : ArrayData (Ref A)} (hk : keys[i]? = some k)
    (hy : (heap k).HasArray y) :
    arrayAt (readObjs heap keys) i = some (y.plain.map (wordOf (numOf heap keys))) := by
  rw [arrayAt, readObjs_getElem hk, Option.bind_some, numberedObj, arrayData_map hy]

theorem key_of_arrayAt {i : ℕ} {a : ArrayData ℕ} (h : arrayAt (readObjs heap keys) i = some a) :
    ∃ k y, keys[i]? = some k ∧ (heap k).HasArray y ∧
      a = y.plain.map (wordOf (numOf heap keys)) := by
  rw [arrayAt, readObjs, List.getElem?_map] at h
  cases hk : keys[i]? with
  | none =>
    rw [hk] at h
    cases h
  | some k =>
    rw [hk] at h
    obtain ⟨y, hy, ha⟩ := arrayData_some h
    exact ⟨k, y, rfl, hy, ha⟩

theorem key_idxOf {k : A} (hk : k ∈ keys) : keys[keys.idxOf k]? = some k := by
  have hlt := List.idxOf_lt_length_of_mem hk
  rw [List.getElem?_eq_getElem hlt, List.getElem_idxOf]

theorem Written.idxOf_eq (h : Written pk heap root keys) {k : A} {i : ℕ} (hk : keys[i]? = some k) :
    keys.idxOf k = i := by
  obtain ⟨hi, rfl⟩ := List.getElem?_eq_some_iff.mp hk
  exact (distinct_nodup h.distinct).idxOf_getElem i hi

theorem Written.owner_key (h : Written pk heap root keys) {v b : A} {a y : ArrayData (Ref A)}
    (hv : v ∈ keys) (ha : LiesIn heap v b a) (hy : (heap b).HasArray y) :
    b ∈ keys ∧ numOf heap keys b = keys.idxOf b := by
  obtain ⟨i, hi⟩ := h.number v hv b ha.target
  have hkey := keys_number hi hy.isNumber
  exact ⟨List.mem_of_getElem? hkey, by rw [numOf_eq hi, h.idxOf_eq hkey]⟩

theorem Written.displacedTo (h : Written pk heap root keys) {v b : A} {a : ArrayData (Ref A)}
    {i : ℕ} (hv : keys[i]? = some v) (ha : LiesIn heap v b a) : ∃ y, (heap b).HasArray y ∧
      keys[keys.idxOf b]? = some b ∧ y.elttype = a.elttype ∧ a.index + a.dim ≤ y.dim ∧
      DisplacedTo (readObjs heap keys) i (keys.idxOf b)
        (a.plain.map (wordOf (numOf heap keys))) (y.plain.map (wordOf (numOf heap keys))) := by
  have hmem := List.mem_of_getElem? hv
  obtain ⟨-, b', y, hb, hy, htype, hroom⟩ := (h.sound v hmem).owner ha.1 ha.2
  obtain rfl := Ref.object.inj hb
  obtain ⟨hkey, hnum⟩ := h.owner_key hmem ha hy
  refine ⟨y, hy, key_idxOf hkey, htype, hroom, arrayAt_key hv ha.1, ?_,
    arrayAt_key (key_idxOf hkey) hy⟩
  rw [ha.link, hnum]

theorem Written.liesIn (h : Written pk heap root keys) {i j : ℕ} {a' y' : ArrayData ℕ}
    (hd : DisplacedTo (readObjs heap keys) i j a' y') : ∃ v b a y, keys[i]? = some v ∧
      LiesIn heap v b a ∧ keys[j]? = some b ∧ (heap b).HasArray y ∧
      a' = a.plain.map (wordOf (numOf heap keys)) ∧ y' = y.plain.map (wordOf (numOf heap keys)) := by
  obtain ⟨v, a, hv, ha, rfl⟩ := key_of_arrayAt hd.array
  obtain ⟨owner, howner, -⟩ := Option.map_eq_some_iff.mp hd.link
  obtain ⟨-, b, -, rfl, -⟩ := (h.sound v (List.mem_of_getElem? hv)).owner ha howner
  obtain ⟨y, hy, hb, -, -, hd'⟩ := h.displacedTo hv ⟨ha, howner⟩
  obtain ⟨hj, -, rfl⟩ := hd'.unique hd
  rw [← hj] at hb
  exact ⟨v, b, a, y, hv, ⟨ha, howner⟩, hb, hy, rfl, rfl⟩

theorem Written.owned (h : Written pk heap root keys) :
    Owned (readObjs heap keys) (places heap keys) where
  owner i a' w ha' hw := by
    obtain ⟨v, a, hv, ha, rfl⟩ := key_of_arrayAt ha'
    obtain ⟨owner, howner, -⟩ := Option.map_eq_some_iff.mp hw
    obtain ⟨-, b, -, rfl, -⟩ := (h.sound v (List.mem_of_getElem? hv)).owner ha howner
    obtain ⟨y, hy, -, htype, hroom, hd⟩ := h.displacedTo hv ⟨ha, howner⟩
    have hlink := Option.some.inj (hw.symm.trans hd.link)
    refine ⟨_, _, hlink, hd.owner, ?_, ?_⟩
    · change y.plain.elttype = a.plain.elttype
      rw [y.plain_elttype, a.plain_elttype, htype]
    · change a.plain.index + a.plain.dim ≤ y.plain.dim
      rw [ArrayData.plain_of_displaced howner, y.plain_dim]
      exact hroom
  place j y' hy' := by
    obtain ⟨b, y, hb, hy, -⟩ := key_of_arrayAt hy'
    rw [places_getElem hb, place, if_neg hy.not_interned]

theorem Written.memory (h : Written pk heap root keys) {i k : ℕ} {v : A} {y : ArrayData (Ref A)}
    (hv : keys[i]? = some v) (hy : (heap v).HasArray y) (hnone : y.plain.displaced = none) :
    memoryOf (readObjs heap keys) (places heap keys) i k =
      (y.self.value y.elttype k).map (Value.map (Ref.through (imageOf heap keys))) := by
  have hmem := List.mem_of_getElem? hv
  have hnot : ∀ r z, ¬ LiesIn heap v r z := by
    rintro r z ⟨hz, hsome⟩
    rw [hy.unique hz, hsome] at hnone
    cases hnone
  have hget : ∀ r ∈ y.plain.self.fields, Serializer.getObject (places heap keys)
      (wordOf (numOf heap keys) r) = r.through (imageOf heap keys) := by
    intro r hr
    refine (h.targets hmem hnot).getObject ?_
    rw [hy.fields, ArrayData.fields, hnone]
    exact hr
  have hcontents := fixupContents_map hget
  rw [y.plain_self hnone] at hcontents
  rw [memoryOf, arrayAt_key hv hy, Option.bind_some]
  simp only [ArrayData.map, y.plain_self hnone, hcontents, Contents.value_map, y.plain_elttype]

variable {heads : Heads}

theorem Written.lies_self (h : Written pk heap root keys)
    (hf : FixedUp (readObjs heap keys) keys.length heads)
    (hdisplaces : ∀ i j a y, DisplacedTo (readObjs heap keys) i j a y → Displaces heads i j a y)
    {v base : A} {n : ℕ} (hlies : Lies heap v base n) {i : ℕ} (hv : keys[i]? = some v) :
    ∃ b, keys[b]? = some base ∧ (heads i).map Head.self = some (.block b n) := by
  induction hlies generalizing i with
  | own hy hnone =>
    refine ⟨i, hv, ?_⟩
    have hown := hf.own i _ (arrayAt_key hv hy) (Option.map_eq_none_iff.mpr hnone)
    rw [initialHead_own (Option.map_eq_none_iff.mpr hnone)] at hown
    rw [hown]
    rfl
  | displaced hlies _ ih =>
    obtain ⟨y, -, hb, -, -, hd⟩ := h.displacedTo hv hlies
    obtain ⟨b, hbase, hself⟩ := ih hb
    obtain ⟨link, b', m, hto, hhead⟩ := hdisplaces _ _ _ _ hd
    rw [hto] at hself
    obtain ⟨rfl, rfl⟩ := Pointer.block.inj (Option.some.inj hself)
    refine ⟨_, hbase, ?_⟩
    rw [hhead, hlies.link]
    rfl

theorem Written.displacedCopy (h : Written pk heap root keys)
    (hf : FixedUp (readObjs heap keys) keys.length heads)
    (hdisplaces : ∀ i j a y, DisplacedTo (readObjs heap keys) i j a y → Displaces heads i j a y)
    {v b : A} {a : ArrayData (Ref A)} {i : ℕ} (hv : keys[i]? = some v) (ha : LiesIn heap v b a) :
    DisplacedCopy heap keys ⟨heads, memoryOf (readObjs heap keys) (places heap keys)⟩ v a i
      (keys.idxOf b) := by
  obtain ⟨y, hy, -, -, hroom, hd⟩ := h.displacedTo hv ha
  obtain ⟨link, block, m, hto, hhead⟩ := hdisplaces _ _ _ _ hd
  rw [ha.link] at hhead
  have hplace : ∀ k < a.dim, Copy.place (A := A)
      ⟨heads, memoryOf (readObjs heap keys) (places heap keys)⟩ i k =
        some (block, m + a.index + k) := fun k hk => Copy.place_eq hhead hk
  have howner : ∀ k < a.dim, Copy.place (A := A)
      ⟨heads, memoryOf (readObjs heap keys) (places heap keys)⟩ (keys.idxOf b) (a.index + k) =
        some (block, m + a.index + k) := by
    intro k hk
    have hlt : a.index + k < y.plain.dim := by
      rw [y.plain_dim]
      omega
    rw [Copy.place_eq hto hlt, Nat.add_assoc]
  constructor
  case target =>
    change (heads i).map Head.displaced = _
    rw [hhead]
    rfl
  case offset =>
    refine ⟨block, m, ?_, ?_⟩
    · change (heads (keys.idxOf b)).map Head.self = _
      rw [hto]
      rfl
    · change (heads i).map Head.self = _
      rw [hhead]
      rfl
  case elements =>
    rintro k hk e ⟨base, n, z, hlies, hz, he⟩
    obtain ⟨l, hl, hself⟩ := h.lies_self hf hdisplaces hlies hv
    rw [hhead] at hself
    obtain ⟨rfl, rfl⟩ := Pointer.block.inj (Option.some.inj hself)
    obtain ⟨z', hz', hnone⟩ := hlies.base
    rw [← hz.unique hz'] at hnone
    rw [Copy.aref, hplace k hk]
    change memoryOf _ _ block (m + a.index + k) = _
    rw [h.memory hl hz hnone, he]
    rfl
  case stores =>
    intro k hk x
    exact ⟨Copy.aset_aref (hplace k hk) (howner k hk) x,
      Copy.aset_aref (howner k hk) (hplace k hk) x⟩

theorem Written.idxOf_root (h : Written pk heap root keys) {b : A} (hb : b ∈ keys) :
    keys.idxOf b ≠ 0 ↔ b ≠ root := by
  have hkey := key_idxOf hb
  rw [not_iff_not]
  constructor
  · intro hzero
    rw [hzero, h.first] at hkey
    exact (Option.some.inj hkey).symm
  · rintro rfl
    exact h.idxOf_eq h.first

theorem Written.copies_iff (h : Written pk heap root keys)
    (hmem : ∀ v, Held heap (.object root) v → ∀ a, (heap v).HasArray a → v ∈ keys)
    (hkeys : ∀ k ∈ keys, Held heap (.object root) k) :
    (∃ heads, fixupHeads (places heap keys) keys.length (initialHeads (readObjs heap keys)) =
        .ok heads ∧
      CopiesVectors heap root keys ⟨heads, memoryOf (readObjs heap keys) (places heap keys)⟩) ↔
        InWrittenOrder heap root keys := by
  have hlength : ∀ i a, arrayAt (readObjs heap keys) i = some a → i < keys.length := by
    intro i a ha
    obtain ⟨k, -, hk, -⟩ := key_of_arrayAt ha
    exact (List.getElem?_eq_some_iff.mp hk).1
  constructor
  · rintro ⟨heads, hheads, hcopies⟩ v b a hheld ha
    have hf := fixupHeads_fixed h.owned keys.length hheads
    have hv := key_idxOf (hmem v hheld a ha.1)
    obtain ⟨y, hy, hb, -, -, hd⟩ := h.displacedTo hv ha
    obtain ⟨block, m, -, hself⟩ := (hcopies v b a hheld ha).offset
    obtain ⟨hroot, horder⟩ := hf.order hlength hd hself
    refine ⟨(h.idxOf_root (List.mem_of_getElem? hb)).mp hroot, fun z hz => ?_⟩
    rw [← hy.unique hz]
    exact (horder _ hd.owner).imp_left Option.map_eq_none_iff.mp
  · intro horder
    have hordered : ∀ i j a y, DisplacedTo (readObjs heap keys) i j a y →
        j ≠ 0 ∧ InOrder (readObjs heap keys) i j := by
      intro i j a' y' hd
      obtain ⟨v, b, a, y, hv, ha, hb, hy, rfl, rfl⟩ := h.liesIn hd
      obtain ⟨hroot, hbefore⟩ := horder v b a (hkeys v (List.mem_of_getElem? hv)) ha
      rw [h.idxOf_eq hv, h.idxOf_eq hb] at hbefore
      refine ⟨?_, fun z hz => ?_⟩
      · rw [← h.idxOf_eq hb]
        exact (h.idxOf_root (List.mem_of_getElem? hb)).mpr hroot
      · rw [← Option.some.inj (hd.owner.symm.trans hz)]
        exact (hbefore y hy).imp_left Option.map_eq_none_iff.mpr
    obtain ⟨heads, hheads⟩ := fixupHeads_succeeds h.owned hordered keys.length
    have hf := fixupHeads_fixed h.owned keys.length hheads
    have hdisplaces : ∀ i j a y, DisplacedTo (readObjs heap keys) i j a y →
        Displaces heads i j a y := fun i j a y hd =>
      hf.displaces (fun i j a y hd => (hordered i j a y hd).2) h.owned hd (hlength i a hd.array)
    refine ⟨heads, hheads, fun v b a hheld ha => ?_⟩
    exact h.displacedCopy hf hdisplaces (key_idxOf (hmem v hheld a ha.1)) ha

/-- The vectors of a finite graph that are displaced to others are copied, with their targets, their
offsets and their elements, exactly if none of them is displaced to the root and each is displaced
to one with elements of its own or to one that si_serialize meets earlier. -/
theorem displaced_vectors_copied_iff (hgraph : VectorGraph pk heap root) {nodes : Finset A}
    (hfinite : ∀ a, Held heap (.object root) a → a ∈ nodes) {fuel : ℕ} (hfuel : nodes.card ≤ fuel) :
    ∃ raw, serialize (eql heap) heap fuel (.object root) = .ok (some raw) ∧
      ((∃ c, deserializeArrays pk raw = some (.ok c) ∧
          CopiesVectors heap root (writtenOrder heap fuel root) c) ↔
        InWrittenOrder heap root (writtenOrder heap fuel root)) := by
  have hplain : ∀ a, Reached (fun a => (heap a).targets) root a → (heap a).Plain :=
    fun a ha => (hgraph.sound a ⟨root, rfl, ha⟩).plain
  have hstart : Searched (eql heap) heap root [] (initPool root).work [] := Progress.start
  obtain ⟨keys, out, buffer, horder, hsearch, hcells, hloop⟩ := serializeLoop_searched
    (fun a ha => hfinite a ⟨root, rfl, ha⟩) hplain fuel hstart (List.append_nil _).symm
    (by simpa using hfuel)
  obtain rfl : keys = writtenOrder heap fuel root := horder
  generalize writtenOrder heap fuel root = keys at hsearch hloop ⊢
  have hwritten := hsearch.written hgraph
  have hread : (closePool buffer keys.length).drop 2 = (readObjs heap keys).flatMap Obj.cells := by
    rw [closePool, hcells, hsearch.out_eq]
    rfl
  have hpasses := hwritten.reconstruct rfl hread
  have hmem : ∀ v, Held heap (.object root) v → ∀ a, (heap v).HasArray a → v ∈ keys := by
    rintro v ⟨_, hx, hv⟩ a ha
    cases hx
    obtain ⟨i, hi⟩ := Progress.numbered hsearch (fun k l => eql_targets) hv
    exact List.mem_of_getElem? (keys_number hi ha.isNumber)
  have hcopies := hwritten.copies_iff hmem fun k hk => ⟨root, rfl, hsearch.reached k hk⟩
  refine ⟨_, hloop, ?_⟩
  rw [← hcopies]
  have hlength : (readObjs heap keys).length = keys.length := List.length_map _
  rw [deserializeArrays_eq hpasses, hlength]
  constructor
  · rintro ⟨c, hc, hall⟩
    cases hheads : fixupHeads (places heap keys) keys.length (initialHeads (readObjs heap keys)) with
    | error e =>
      rw [hheads] at hc
      cases hc
    | ok heads =>
      rw [hheads] at hc
      cases hc
      exact ⟨heads, rfl, hall⟩
  · rintro ⟨heads, hheads, hall⟩
    rw [hheads]
    exact ⟨_, rfl, hall⟩

end written

/-- A list of two vectors of octets: the second one is displaced to the first, which is displaced
to a third. -/
def chain : Bool × Bool → Obj (Ref (Bool × Bool))
  | (false, false) => .cons (.object (false, true)) (.object (true, false))
  | (false, true) => .vector .vector 4 ⟨.b8, 0, 4, some (.object (true, true)), .words [], 2, 0⟩
  | (true, false) => .vector .vector 2 ⟨.b8, 0, 2, some (.object (false, true)), .words [], 1, 0⟩
  | (true, true) => .vector .vector 8 ⟨.b8, 0, 8, none, .words [0x0807060504030201], 0, 0⟩

def noPackages (A : Type) [Inhabited A] : Packages A where
  findPackage _ := none
  intern _ _ := default

theorem chain_graph : VectorGraph (noPackages (Bool × Bool)) chain (false, false) where
  sound a _ := by
    have hnull : ∀ a, .null ∉ (chain a).plain.fields := by decide
    refine ⟨hnull a, ?_⟩
    match a with
    | (false, false) => trivial
    | (false, true) => exact ⟨⟨by decide, _, _, rfl, .inr ⟨_, _, rfl⟩, rfl, by decide⟩, rfl⟩
    | (true, false) => exact ⟨⟨by decide, _, _, rfl, .inr ⟨_, _, rfl⟩, rfl, by decide⟩, rfl⟩
    | (true, true) => exact ⟨⟨by decide, rfl⟩, rfl⟩
  root a _ r hr heql := by
    have hnone : ∀ a, ∀ r ∈ (chain a).targets,
        eclEql chain 3 (.object r) (.object (false, false)) = false := by decide
    rw [hnone a r hr] at heql
    cases heql

theorem displaced_vectors_copied_chain :
    ∃ raw, serialize (eql chain) chain 4 (.object (false, false)) = .ok (some raw) ∧
      ∃ c, deserializeArrays (noPackages (Bool × Bool)) raw = some (.ok c) ∧
        CopiesVectors chain (false, false)
          [(false, false), (false, true), (true, false), (true, true)] c := by
  obtain ⟨raw, hraw, hiff⟩ := displaced_vectors_copied_iff chain_graph
    (fun a _ => Finset.mem_univ a) (show Fintype.card (Bool × Bool) ≤ 4 by decide)
  have horder : writtenOrder chain 4 (false, false) =
      [(false, false), (false, true), (true, false), (true, true)] := by decide
  rw [horder] at hiff
  refine ⟨raw, hraw, hiff.mpr ?_⟩
  intro v b a _ ha
  match v with
  | (false, false) => exact absurd ha.1 (by simp [Obj.HasArray, chain])
  | (false, true) =>
    obtain rfl := ha.1.unique (.inr ⟨_, _, rfl⟩)
    cases ha.2
    refine ⟨by decide, fun y hy => .inl ?_⟩
    rw [hy.unique (.inr ⟨_, _, rfl⟩)]
    rfl
  | (true, false) =>
    obtain rfl := ha.1.unique (.inr ⟨_, _, rfl⟩)
    cases ha.2
    exact ⟨by decide, fun y hy => .inr (by decide)⟩
  | (true, true) =>
    obtain rfl := ha.1.unique (.inr ⟨_, _, rfl⟩)
    cases ha.2

def ring : Bool → Obj (Ref Bool)
  | false => .vector .vector 1 ⟨.object, 0, 1, none, .objects [.object true], 0, 0⟩
  | true => .vector .vector 1 ⟨.object, 0, 1, some (.object false), .words [], 0, 0⟩

/-- The reader displaces it to OBJNULL. -/
theorem displaced_to_root_lost : Held ring (.object false) true ∧ (∃ a, LiesIn ring true false a) ∧
    ∃ raw, serialize (eql ring) ring 2 (.object false) = .ok (some raw) ∧
      deserializeArrays (noPackages Bool) raw = some (.error .nullPointer) := by
  refine ⟨⟨false, rfl, .single (by decide)⟩, ⟨_, .inr ⟨_, _, rfl⟩, rfl⟩, _, rfl, rfl⟩

/-- The second vector of the chain alone is fixed up before the first, which still has its offset
for a pointer. -/
example : ∃ raw c, serialize (eql chain) chain 4 (.object (true, false)) = .ok (some raw) ∧
    deserializeArrays (noPackages (Bool × Bool)) raw = some (.ok c) ∧
      (c.heads 0).map Head.self = some (.raw 3) := ⟨_, _, rfl, rfl, rfl⟩

end Serializer
