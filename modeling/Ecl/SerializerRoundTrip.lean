import Ecl.SerializerReading
import Mathlib.Data.Fintype.Card

/-! What si_serialize writes for a graph of objects is read back as a copy of the graph. -/
namespace Serializer

open BreadthFirst Integers

variable {A : Type}

/-- The cl_object with other objects in the places of its own. -/
def Ref.through {B : Type} (image : A → Ref B) : Ref A → Ref B
  | .null => .null
  | .nil => .nil
  | .fixnum n => .fixnum n
  | .character code => .character code
  | .object a => image a

def Obj.interned : Obj (Ref A) → Bool
  | .package _ => true
  | .symbol _ .nil => false
  | .symbol _ _ => true
  | _ => false

/-- A new object; only the name of a symbol without a home package is copied. -/
def copyOf (heap : A → Obj (Ref A)) (image : A → Ref (Loc A)) (a : A) : Node A :=
  match heap a with
  | .symbol (.object s) .nil => (nameOf (heap s).plain).elim .known .uninterned
  | .symbol _ _ | .package _ => .known
  | o => .object (o.plain.map (Ref.through image))

def Held (heap : A → Obj (Ref A)) (x : Ref A) (a : A) : Prop :=
  ∃ root, x = .object root ∧ Reached (fun b => (heap b).targets) root a

/-- A copy of the graph of x in the image and the new objects. An object is shared in the copy by
all objects that are EQL to it. -/
structure Copies [DecidableEq A] (heap : A → Obj (Ref A)) (x : Ref A) (image : A → Ref (Loc A))
    (nodes : List (Node A)) : Prop where
  shared : ∀ a b, Held heap x a → Held heap x b → (image a = image b ↔ (eql heap).same a b)
  kept : ∀ a, Held heap x a → (heap a).interned → image a = .object (.old a)
  made : ∀ a, Held heap x a → (heap a).interned = false → ∃ i k, image a = .object (.new i) ∧
    Held heap x k ∧ (eql heap).same a k ∧ nodes[i]? = some (copyOf heap image k)

def Obj.HasArray {R : Type} (o : Obj R) (a : ArrayData R) : Prop :=
  (∃ dims, o = .array dims a) ∨ ∃ kind fillp, o = .vector kind fillp a

def ArrayData.Portable (heap : A → Obj (Ref A)) (a : ArrayData (Ref A)) : Prop :=
  match a.plain.displaced with
  | none => a.plain.Fits
  | some owner => a.elttype ≠ .bit ∧ ∃ b y, owner = .object b ∧ (heap b).HasArray y ∧
      y.plain.displaced = none ∧ y.elttype = a.elttype ∧ a.index + a.dim ≤ y.dim

/-- The supported types. Symbols and packages are found again by their names. -/
def PortableType (pk : Packages A) (heap : A → Obj (Ref A)) (a : A) : Obj (Ref A) → Prop
  | .bignum z => bignumBytes z < 256
  | .symbol name hpack => ∃ s n, name = .object s ∧ nameOf (heap s).plain = some n ∧
      (hpack = .nil ∨ ∃ p pname, hpack = .object p ∧ heap p = .package pname ∧ pk.intern n p = a)
  | .package name => ∃ s n, name = .object s ∧ nameOf (heap s).plain = some n ∧
      pk.findPackage n = some a
  | .array _ x => x.Portable heap
  | .vector kind _ x => x.Portable heap ∧ kind.keptOffset x.offset = x.offset
  | .nil | .hashtable _ | .bytecodes _ | .other => False
  | _ => True

def Portable (pk : Packages A) (heap : A → Obj (Ref A)) (a : A) : Prop :=
  .null ∉ (heap a).plain.fields ∧ PortableType pk heap a (heap a)

section words
variable {output : List (Ref (Loc A))} {image : A → Ref (Loc A)} {num : A → ℕ}

theorem getObject_word {r : Ref A}
    (h : ∀ a ∈ r.targets, num a ≠ 0 ∧ output[num a]? = some (image a)) :
    getObject output (wordOf num r) = r.through image := by
  cases r with
  | null => rfl
  | nil => rfl
  | fixnum n =>
    have htag : (4 * n.toNat + 3) % 4 = 3 := by omega
    have hdiv : (4 * n.toNat + 3) / 4 = n.toNat := by omega
    simp [getObject, wordOf, isIndex, immediate, htag, hdiv, Ref.through]
  | character code =>
    have htag : (4 * code + 2) % 4 = 2 := by omega
    have hdiv : (4 * code + 2) / 4 = code := by omega
    simp [getObject, wordOf, isIndex, immediate, htag, hdiv, Ref.through]
  | object a =>
    obtain ⟨hzero, hget⟩ := h a (List.mem_singleton.mpr rfl)
    have hindex : isIndex (4 * num a) = true := by simp [isIndex, hzero]
    have hdiv : 4 * num a / 4 = num a := Nat.mul_div_cancel_left _ (by decide)
    simp [getObject, wordOf, fixToPtr, hindex, hdiv, hget, Ref.through]

theorem nameOf_map {R T : Type} (g : R → T) (o : Obj R) : nameOf (o.map g) = nameOf o := by
  cases o with
  | vector kind fillp a =>
    obtain ⟨elttype, flags, dim, displaced, self, index, offset⟩ := a
    cases kind <;> cases displaced <;> cases self <;> rfl
  | _ => rfl

end words

theorem fixupContents_map {output : List (Ref (Loc A))} {word : Ref A → ℕ}
    {image : A → Ref (Loc A)} {c : Contents (Ref A)}
    (h : ∀ r ∈ c.fields, getObject output (word r) = r.through image) :
    fixupContents output (c.map word) = c.map (Ref.through image) := by
  cases c with
  | words l => rfl
  | objects l =>
    rw [Contents.map, fixupContents, List.map_map]
    exact congrArg Contents.objects (List.map_congr_left h)

theorem ArrayData.plain_of_displaced {a : ArrayData (Ref A)} {owner : Ref A}
    (h : a.plain.displaced = some owner) :
    a.plain = ⟨a.elttype, a.flags, a.dim, some owner, .words [], a.index, a.offset⟩ := by
  obtain ⟨elttype, flags, dim, displaced, self, index, offset⟩ := a
  cases displaced with
  | none => cases h
  | some r =>
    cases r with
    | nil => cases h
    | _ => cases h; rfl

theorem arrayData_map {o : Obj (Ref A)} {y : ArrayData (Ref A)} (h : o.HasArray y)
    (word : Ref A → ℕ) : arrayData (o.plain.map word) = some (y.plain.map word) := by
  obtain ⟨dims, rfl⟩ | ⟨kind, fillp, rfl⟩ := h <;> rfl

theorem Obj.HasArray.isNumber {o : Obj (Ref A)} {y : ArrayData (Ref A)} (h : o.HasArray y) :
    o.isNumber = false := by
  obtain ⟨dims, rfl⟩ | ⟨kind, fillp, rfl⟩ := h <;> rfl

theorem Obj.HasArray.not_interned {o : Obj (Ref A)} {y : ArrayData (Ref A)} (h : o.HasArray y) :
    ¬ o.interned := by
  obtain ⟨dims, rfl⟩ | ⟨kind, fillp, rfl⟩ := h <;> exact nofun

theorem ArrayData.plain_elttype (a : ArrayData (Ref A)) : a.plain.elttype = a.elttype := by
  fun_cases ArrayData.plain a <;> rfl

theorem ArrayData.plain_dim (a : ArrayData (Ref A)) : a.plain.dim = a.dim := by
  fun_cases ArrayData.plain a <;> rfl

theorem ArrayData.plain_offset (a : ArrayData (Ref A)) : a.plain.offset = a.offset := by
  fun_cases ArrayData.plain a <;> rfl

theorem ArrayData.Portable.fits {heap : A → Obj (Ref A)} {a : ArrayData (Ref A)}
    (h : a.Portable heap) (hnone : a.plain.displaced = none) : a.plain.Fits := by
  unfold ArrayData.Portable at h
  rw [hnone] at h
  exact h

section numbers
variable {pk : Packages A} {heap : A → Obj (Ref A)} {keys : List A}

def place (heap : A → Obj (Ref A)) (a : A) (i : ℕ) : Ref (Loc A) :=
  if (heap a).interned then .object (.old a) else .object (.new i)

def places (heap : A → Obj (Ref A)) (keys : List A) : List (Ref (Loc A)) :=
  keys.zipIdx.map fun e => place heap e.1 e.2

theorem places_getElem {a : A} {i : ℕ} (h : keys[i]? = some a) :
    (places heap keys)[i]? = some (place heap a i) := by
  rw [places, List.getElem?_map, List.getElem?_zipIdx, h, Nat.zero_add]
  rfl

theorem isNumber_of_name {o : Obj (Ref A)} {n : Name} (h : nameOf o.plain = some n) :
    o.isNumber = false := by
  cases o with
  | bignum z | ratio den num | singlefloat bits | doublefloat bits | longfloat low high
  | complex real imag => cases h
  | _ => rfl

theorem isNumber_of_interned {o : Obj (Ref A)} (h : o.interned) : o.isNumber = false := by
  cases o with
  | package name => rfl
  | symbol name hpack => rfl
  | _ => cases h

variable [DecidableEq A]

def numOf (heap : A → Obj (Ref A)) (keys : List A) (a : A) : ℕ :=
  (number? (eql heap) keys a).getD 0

def readObjs (heap : A → Obj (Ref A)) (keys : List A) : List (Obj ℕ) :=
  keys.map fun a => numberedObj heap a (numOf heap keys)

def imageOf (heap : A → Obj (Ref A)) (keys : List A) (a : A) : Ref (Loc A) :=
  (places heap keys).getD (numOf heap keys a) .null

def NumberedTargets (heap : A → Obj (Ref A)) (keys : List A) (k : A) : Prop :=
  ∀ r ∈ (heap k).targets, ∃ i, i ≠ 0 ∧ number? (eql heap) keys r = some i

/-- The writer is done: all that a written object refers to has a number, and that is not zero. -/
structure Numbered (pk : Packages A) (heap : A → Obj (Ref A)) (keys : List A) : Prop where
  distinct : Distinct (eql heap) keys
  portable : ∀ k ∈ keys, Portable pk heap k
  target : ∀ k ∈ keys, ∀ r ∈ (heap k).targets,
    ∃ i, i ≠ 0 ∧ number? (eql heap) keys r = some i

theorem numOf_eq {a : A} {i : ℕ} (h : number? (eql heap) keys a = some i) :
    numOf heap keys a = i := by
  rw [numOf, h, Option.getD_some]

theorem keys_number {a : A} {i : ℕ} (h : number? (eql heap) keys a = some i)
    (ha : (heap a).isNumber = false) : keys[i]? = some a := by
  obtain ⟨l, hl, hsame⟩ := number_spec h
  rw [hl, eq_of_eql ((eql heap).symm _ _ hsame) ha]

theorem imageOf_eq {a k : A} {i : ℕ} (h : number? (eql heap) keys a = some i)
    (hk : keys[i]? = some k) : imageOf heap keys a = place heap k i := by
  rw [imageOf, numOf_eq h, List.getD_eq_getElem?_getD, places_getElem hk, Option.getD_some]

theorem readObjs_getElem {a : A} {i : ℕ} (h : keys[i]? = some a) :
    (readObjs heap keys)[i]? = some (numberedObj heap a (numOf heap keys)) := by
  rw [readObjs, List.getElem?_map, h, Option.map_some]

theorem place_inj (hdistinct : Distinct (eql heap) keys) {a b : A} {i j : ℕ}
    (ha : keys[i]? = some a) (hb : keys[j]? = some b) (h : place heap a i = place heap b j) :
    i = j := by
  unfold place at h
  split at h
  · split at h
    · cases h
      have hi := number_getElem hdistinct ha
      exact Option.some.inj (hi.symm.trans (number_getElem hdistinct hb))
    · cases h
  · split at h
    · cases h
    · cases h
      rfl

theorem Numbered.targets (h : Numbered pk heap keys) {k : A} (hk : k ∈ keys) :
    NumberedTargets heap keys k := h.target k hk

theorem NumberedTargets.nameAt {k s : A} (h : NumberedTargets heap keys k) {n : Name}
    (hs : s ∈ (heap k).targets) (hname : nameOf (heap s).plain = some n) :
    Serializer.nameAt (readObjs heap keys) (wordOf (numOf heap keys) (.object s)) = some n := by
  obtain ⟨i, hi, hnum⟩ := h s hs
  have hindex : isIndex (4 * i) = true := by simp [isIndex, hi]
  have hdiv : 4 * i / 4 = i := Nat.mul_div_cancel_left _ (by decide)
  have hkey := keys_number hnum (isNumber_of_name hname)
  rw [Serializer.nameAt, wordOf, fixToPtr, numOf_eq hnum, if_pos hindex, hdiv,
    readObjs_getElem hkey, Option.bind_some, numberedObj, nameOf_map]
  exact hname

theorem mapM_some {α β γ : Type} {F : α → β} {f : β → Option γ} {g : α → γ} {l : List α}
    (h : ∀ x ∈ l, f (F x) = some (g x)) : (l.map F).mapM f = some (l.map g) := by
  induction l with
  | nil => rfl
  | cons x l ih =>
    rw [List.map_cons, List.mapM_cons, h x List.mem_cons_self,
      ih fun y hy => h y (List.mem_cons_of_mem _ hy)]
    rfl

theorem map_zipIdx_fst {α β : Type} (f : α → β) (l : List α) :
    (l.zipIdx.map fun e => f e.1) = l.map f :=
  calc (l.zipIdx.map fun e => f e.1) = (l.zipIdx.map Prod.fst).map f := List.map_map.symm
    _ = l.map f := by rw [List.zipIdx_map_fst]

/-- After the loop over the packages. -/
def firstPlace (heap : A → Obj (Ref A)) (a : A) (i : ℕ) : Ref (Loc A) :=
  match heap a with
  | .package _ => .object (.old a)
  | _ => .object (.new i)

def firstPlaces (heap : A → Obj (Ref A)) (keys : List A) : List (Ref (Loc A)) :=
  keys.zipIdx.map fun e => firstPlace heap e.1 e.2

theorem NumberedTargets.resolvePackage {k : A} (h : NumberedTargets heap keys k)
    (hportable : Portable pk heap k) (i : ℕ) :
    Serializer.resolvePackage pk (readObjs heap keys) (numberedObj heap k (numOf heap keys)) i =
      some (firstPlace heap k i) := by
  obtain ⟨-, htype⟩ := hportable
  unfold firstPlace numberedObj
  cases ho : heap k with
  | nil =>
    rw [ho] at htype
    exact htype.elim
  | package name =>
    rw [ho] at htype
    obtain ⟨s, n, rfl, hname, hfind⟩ := htype
    have hs : s ∈ (heap k).targets := by simp [ho, Obj.targets, Obj.plain, Obj.fields, Ref.targets]
    have hat := h.nameAt hs hname
    simp [Obj.plain, Obj.map, Serializer.resolvePackage, hat, hfind]
  | _ => rfl

theorem NumberedTargets.resolveSymbol {k : A} (h : NumberedTargets heap keys k)
    (hportable : Portable pk heap k) (i : ℕ) :
    Serializer.resolveSymbol pk (readObjs heap keys) (firstPlaces heap keys)
      (numberedObj heap k (numOf heap keys)) (firstPlace heap k i) = some (place heap k i) := by
  obtain ⟨-, htype⟩ := hportable
  unfold firstPlace numberedObj place
  cases ho : heap k with
  | symbol name hpack =>
    rw [ho] at htype
    obtain ⟨s, n, rfl, hname, hhome⟩ := htype
    have hs : s ∈ (heap k).targets := by simp [ho, Obj.targets, Obj.plain, Obj.fields, Ref.targets]
    have hat := h.nameAt hs hname
    obtain rfl | ⟨p, pname, rfl, hp, hintern⟩ := hhome
    · have hnil : getObject (firstPlaces heap keys) (wordOf (numOf heap keys) .nil) = .nil := rfl
      simp [Obj.plain, Obj.map, Serializer.resolveSymbol, hat, hnil, Obj.interned]
    · have hpt : p ∈ (heap k).targets := by
        simp [ho, Obj.targets, Obj.plain, Obj.fields, Ref.targets]
      obtain ⟨j, hj, hnum⟩ := h p hpt
      have hget : (firstPlaces heap keys)[j]? = some (.object (.old p)) := by
        have hkey := keys_number hnum (by rw [hp]; rfl)
        rw [firstPlaces, List.getElem?_map, List.getElem?_zipIdx, hkey, Nat.zero_add]
        simp [firstPlace, hp]
      have hpack : getObject (firstPlaces heap keys)
          (wordOf (numOf heap keys) (.object p)) = .object (.old p) := by
        simp [wordOf, fixToPtr, numOf_eq hnum, getObject, isIndex, hj, hget]
      simp [Obj.plain, Obj.map, Serializer.resolveSymbol, hat, hpack, hintern, Obj.interned]
  | _ => rfl

theorem NumberedTargets.getObject {k : A} (h : NumberedTargets heap keys k) {r : Ref A}
    (hr : r ∈ (heap k).plain.fields) :
    Serializer.getObject (places heap keys) (wordOf (numOf heap keys) r) =
      r.through (imageOf heap keys) := by
  refine getObject_word fun a ha => ?_
  obtain ⟨i, hi, hnum⟩ := h a (List.mem_flatMap.mpr ⟨r, hr, ha⟩)
  obtain ⟨l, hl, -⟩ := number_spec hnum
  rw [numOf_eq hnum, imageOf_eq hnum hl]
  exact ⟨hi, places_getElem hl⟩

theorem Numbered.fixupVector (h : Numbered pk heap keys) {k : A} (hk : k ∈ keys)
    {a : ArrayData (Ref A)} (ha : (heap k).HasArray a) (hport : a.Portable heap) (i : ℕ) :
    Serializer.fixupVector (readObjs heap keys) (places heap keys) i
      (a.plain.map (wordOf (numOf heap keys))) =
        some (a.plain.map (Ref.through (imageOf heap keys))) := by
  have hfields : (heap k).plain.fields = a.plain.fields := by
    obtain ⟨dims, ho⟩ | ⟨kind, fillp, ho⟩ := ha <;> rw [ho] <;> rfl
  have hget : ∀ r ∈ a.plain.fields, Serializer.getObject (places heap keys)
      (wordOf (numOf heap keys) r) = r.through (imageOf heap keys) :=
    fun r hr => (h.targets hk).getObject (hfields ▸ hr)
  unfold ArrayData.Portable at hport
  unfold ArrayData.fields at hget
  split at hport
  · next hnone =>
    rw [hnone] at hget
    simp [Serializer.fixupVector, ArrayData.map, hnone, fixupContents_map hget]
  · next owner hsome =>
    obtain ⟨-, b, y, rfl, hy, hown, htype, hroom⟩ := hport
    have hplain := ArrayData.plain_of_displaced hsome
    have hb : b ∈ (heap k).targets := by
      rw [Obj.targets, hfields, hplain]
      exact List.mem_singleton.mpr rfl
    obtain ⟨j, hj, hnum⟩ := h.target k hk b hb
    have hkey := keys_number hnum (hy.isNumber)
    have hat : (readObjs heap keys)[j]?.bind arrayData =
        some (y.plain.map (wordOf (numOf heap keys))) := by
      rw [readObjs_getElem hkey, Option.bind_some, numberedObj, arrayData_map hy]
    have himage : imageOf heap keys b = .object (.new j) := by
      rw [imageOf_eq hnum hkey, place, if_neg hy.not_interned]
    have howner := hget (.object b) (by rw [hsome]; exact List.mem_singleton.mpr rfl)
    rw [hplain]
    simp [Serializer.fixupVector, ArrayData.map, howner, Ref.through, himage, displace, hat, hown,
      y.plain_elttype, htype, y.plain_dim, hroom, Contents.map]

theorem Numbered.fixup (h : Numbered pk heap keys) {k : A} (hk : k ∈ keys) (i : ℕ) :
    Serializer.fixup (readObjs heap keys) (places heap keys) i
      (numberedObj heap k (numOf heap keys)) = some (copyOf heap (imageOf heap keys) k) := by
  obtain ⟨-, htype⟩ := h.portable k hk
  have hget := fun r => (h.targets hk).getObject (r := r)
  unfold numberedObj copyOf
  cases ho : heap k with
  | nil | hashtable table | bytecodes b | other => rw [ho] at htype; exact htype.elim
  | array dims a =>
    rw [ho] at htype
    have hvector := h.fixupVector hk (Or.inl ⟨dims, ho⟩) htype i
    simp [Obj.plain, Obj.map, Serializer.fixup, hvector]
  | vector kind fillp a =>
    rw [ho] at htype
    have hvector := h.fixupVector hk (Or.inr ⟨kind, fillp, ho⟩) htype.1 i
    simp [Obj.plain, Obj.map, Serializer.fixup, hvector]
  | symbol name hpack =>
    rw [ho] at htype
    obtain ⟨s, n, rfl, hname, hhome⟩ := htype
    have hs : s ∈ (heap k).targets := by simp [ho, Obj.targets, Obj.plain, Obj.fields, Ref.targets]
    have hat := (h.targets hk).nameAt hs hname
    obtain rfl | ⟨p, pname, rfl, hp, hintern⟩ := hhome
    · have hnil : Serializer.getObject (places heap keys) (wordOf (numOf heap keys) .nil) = .nil :=
        rfl
      change _ = some ((nameOf (heap s).plain).elim Node.known Node.uninterned)
      rw [hname]
      simp [Obj.plain, Obj.map, Serializer.fixup, hat, hnil]
    · have hpt : p ∈ (heap k).targets := by
        simp [ho, Obj.targets, Obj.plain, Obj.fields, Ref.targets]
      obtain ⟨j, hj, hnum⟩ := h.target k hk p hpt
      have hkey := keys_number hnum (by rw [hp]; rfl)
      have hpack := hget (.object p) (by simp [ho, Obj.plain, Obj.fields])
      have himage : imageOf heap keys p = .object (.old p) := by
        rw [imageOf_eq hnum hkey, place, hp]
        rfl
      rw [Ref.through, himage] at hpack
      simp [Obj.plain, Obj.map, Serializer.fixup, hpack]
  | package name => rfl
  | bignum z => rfl
  | singlefloat bits => rfl
  | doublefloat bits => rfl
  | longfloat low high => rfl
  | _ =>
    simp only [ho, Obj.plain, Obj.fields, List.forall_mem_cons] at hget
    simp [Obj.plain, Obj.map, Serializer.fixup, hget]

theorem NumberedTargets.word_ne_zero {k : A} (h : NumberedTargets heap keys k) {r : Ref A}
    (hr : r ∈ (heap k).plain.fields) (hnull : .null ∉ (heap k).plain.fields) :
    wordOf (numOf heap keys) r ≠ 0 := by
  cases r with
  | null => exact absurd hr hnull
  | object a =>
    obtain ⟨i, hi, hnum⟩ := h a
      (List.mem_flatMap.mpr ⟨_, hr, List.mem_singleton.mpr rfl⟩)
    simp [wordOf, fixToPtr, numOf_eq hnum, hi]
  | _ => simp [wordOf]

theorem NumberedTargets.kept {k : A} (h : NumberedTargets heap keys k)
    (hportable : Portable pk heap k) : (numberedObj heap k (numOf heap keys)).Kept := by
  obtain ⟨hnull, htype⟩ := hportable
  have hword := fun r hr => h.word_ne_zero (r := r) hr hnull
  unfold numberedObj
  cases ho : heap k with
  | nil | bytecodes b | other => rw [ho] at htype; exact htype.elim
  | cons car cdr =>
    rw [ho] at hword
    exact fun hzero => hword car List.mem_cons_self hzero.1
  | bignum z => rw [ho] at htype; exact htype
  | array dims a =>
    rw [ho] at htype
    exact ArrayData.plain_readable htype.fits _
  | vector kind fillp a =>
    rw [ho] at htype
    refine ⟨ArrayData.plain_readable htype.1.fits _, ?_⟩
    change kind.keptOffset a.plain.offset = a.plain.offset
    rw [a.plain_offset]
    exact htype.2
  | _ => trivial

theorem map_numbered_zipIdx (heap : A → Obj (Ref A)) (keys : List A) :
    (readObjs heap keys).zipIdx =
      keys.zipIdx.map fun e => (numberedObj heap e.1 (numOf heap keys), e.2) := List.zipIdx_map

theorem reconstruct_eq {raw : List Cell} (hlength : field raw 1 = keys.length)
    (hread : raw.drop 2 = (readObjs heap keys).flatMap Obj.cells)
    (hkept : ∀ k ∈ keys, (numberedObj heap k (numOf heap keys)).Kept)
    (hpackage : ∀ k ∈ keys, ∀ i, Serializer.resolvePackage pk (readObjs heap keys)
      (numberedObj heap k (numOf heap keys)) i = some (firstPlace heap k i))
    (hsymbol : ∀ k ∈ keys, ∀ i, Serializer.resolveSymbol pk (readObjs heap keys)
      (firstPlaces heap keys) (numberedObj heap k (numOf heap keys)) (firstPlace heap k i) =
        some (place heap k i)) :
    reconstruct pk raw = some (readObjs heap keys, places heap keys) := by
  have hobjs : reconstructAll (field raw 1) (raw.drop 2) = some (readObjs heap keys) := by
    have hlen : keys.length = (readObjs heap keys).length := (List.length_map _).symm
    rw [hlength, hread, hlen]
    refine reconstructAll_cells fun o ho => ?_
    obtain ⟨k, hk, rfl⟩ := List.mem_map.mp ho
    exact hkept k hk
  have hkey : ∀ e ∈ keys.zipIdx, e.1 ∈ keys := fun e he => List.fst_mem_of_mem_zipIdx he
  have hzip : (readObjs heap keys).zip (firstPlaces heap keys) = keys.zipIdx.map fun e =>
      (numberedObj heap e.1 (numOf heap keys), firstPlace heap e.1 e.2) := by
    rw [readObjs, ← map_zipIdx_fst, firstPlaces, List.zip_map']
  have hfirst : ((readObjs heap keys).zipIdx.mapM fun e =>
      Serializer.resolvePackage pk (readObjs heap keys) e.1 e.2) = some (firstPlaces heap keys) := by
    rw [map_numbered_zipIdx]
    exact mapM_some fun e he => hpackage e.1 (hkey e he) e.2
  have hsecond : (((readObjs heap keys).zip (firstPlaces heap keys)).mapM fun e =>
      Serializer.resolveSymbol pk (readObjs heap keys) (firstPlaces heap keys) e.1 e.2) =
        some (places heap keys) := by
    rw [hzip]
    exact mapM_some fun e he => hsymbol e.1 (hkey e he) e.2
  simp [reconstruct, hobjs, hfirst, hsecond]

theorem Numbered.deserialize (h : Numbered pk heap keys) {raw : List Cell}
    (hlength : field raw 1 = keys.length)
    (hread : raw.drop 2 = (readObjs heap keys).flatMap Obj.cells) :
    Serializer.deserialize pk raw = some ((places heap keys).getD 0 .null,
      keys.map (copyOf heap (imageOf heap keys))) := by
  have hpasses := reconstruct_eq hlength hread
    (fun k hk => (h.targets hk).kept (h.portable k hk))
    (fun k hk => (h.targets hk).resolvePackage (h.portable k hk))
    (fun k hk => (h.targets hk).resolveSymbol (h.portable k hk))
  have hlast : ((readObjs heap keys).zipIdx.mapM fun e => Serializer.fixup (readObjs heap keys)
      (places heap keys) e.2 e.1) =
        some (keys.zipIdx.map fun e => copyOf heap (imageOf heap keys) e.1) := by
    rw [map_numbered_zipIdx]
    exact mapM_some fun e he => h.fixup (List.fst_mem_of_mem_zipIdx he) e.2
  have hnodes : (keys.zipIdx.map fun e => copyOf heap (imageOf heap keys) e.1) =
      keys.map (copyOf heap (imageOf heap keys)) := map_zipIdx_fst _ keys
  rw [deserialize_eq, hpasses]
  simp [hlast, hnodes]

theorem Numbered.copies (h : Numbered pk heap keys) {x : Ref A}
    (hkeys : ∀ k ∈ keys, Held heap x k)
    (hnumbered : ∀ a, Held heap x a → ∃ i, number? (eql heap) keys a = some i) :
    Copies heap x (imageOf heap keys) (keys.map (copyOf heap (imageOf heap keys))) where
  shared a b ha hb := by
    obtain ⟨i, hi⟩ := hnumbered a ha
    obtain ⟨j, hj⟩ := hnumbered b hb
    obtain ⟨k, hk, -⟩ := number_spec hi
    obtain ⟨l, hl, -⟩ := number_spec hj
    rw [imageOf_eq hi hk, imageOf_eq hj hl, ← same_iff_number_eq hi hj]
    constructor
    · exact place_inj h.distinct hk hl
    · rintro rfl
      rw [Option.some.inj (hk.symm.trans hl)]
  kept a ha hinterned := by
    obtain ⟨i, hi⟩ := hnumbered a ha
    rw [imageOf_eq hi (keys_number hi (isNumber_of_interned hinterned)), place, if_pos hinterned]
  made a ha hinterned := by
    obtain ⟨i, hi⟩ := hnumbered a ha
    obtain ⟨k, hk, hsame⟩ := number_spec hi
    have hnew : ¬ (heap k).interned := by
      intro hold
      rw [eq_of_eql hsame (isNumber_of_interned hold), hold] at hinterned
      cases hinterned
    refine ⟨i, k, ?_, hkeys k (List.mem_of_getElem? hk), hsame, ?_⟩
    · rw [imageOf_eq hi hk, place, if_neg hnew]
    · rw [List.getElem?_map, hk, Option.map_some]

end numbers

section serialize
variable {pk : Packages A} {heap : A → Obj (Ref A)}

theorem PortableType.plain {o : Obj (Ref A)} {a : A} (h : PortableType pk heap a o) :
    o.Plain := by
  have harray : ∀ y : ArrayData (Ref A), y.Portable heap → y.Supported := by
    intro y hy hsome
    unfold ArrayData.Portable at hy
    split at hy
    · next hnone =>
      rw [hnone] at hsome
      cases hsome
    · exact hy.1
  cases o with
  | array dims y => exact harray y h
  | vector kind fillp y => exact harray y h.1
  | bytecodes b => exact h.elim
  | other => exact h.elim
  | _ => trivial

variable [DecidableEq A]

theorem Searched.numbered {root : A} {keys : List A} {out : List (Obj ℕ)}
    (h : Searched (eql heap) heap root keys ⟨keys, []⟩ out)
    (hportable : ∀ a, Held heap (.object root) a → Portable pk heap a)
    (hroot : ∀ a, Held heap (.object root) a → ∀ r ∈ (heap a).targets,
      eclEql heap 3 (.object r) (.object root) = false) : Numbered pk heap keys where
  distinct := h.distinct
  portable k hk := hportable k ⟨root, rfl, h.reached k hk⟩
  target k hk r hr := by
    obtain ⟨i, hi⟩ := Option.isSome_iff_exists.mp (h.closed k hk r hr)
    refine ⟨i, ?_, hi⟩
    rintro rfl
    obtain ⟨l, hl, hsame⟩ := number_spec hi
    rw [← List.head?_eq_getElem?, h.first] at hl
    cases hl
    exact absurd hsame (by simp [eql, hroot k ⟨root, rfl, h.reached k hk⟩ r hr])

def Ref.Boxed : Ref A → Prop
  | .nil | .object _ => True
  | _ => False

/-- si_deserialize makes a copy of a finite graph that si_serialize has written, if its objects
can be copied and none of them refers to the root. -/
theorem deserialize_serialize (pk : Packages A) (heap : A → Obj (Ref A)) {x : Ref A}
    (hx : x.Boxed) {nodes : Finset A} (hfinite : ∀ a, Held heap x a → a ∈ nodes)
    (hportable : ∀ a, Held heap x a → Portable pk heap a)
    (hroot : ∀ a, Held heap x a → ∀ r ∈ (heap a).targets, eclEql heap 3 (.object r) x = false)
    {fuel : ℕ} (hfuel : nodes.card ≤ fuel) :
    ∃ raw image made, serialize (eql heap) heap fuel x = .ok (some raw) ∧
      deserialize pk raw = some (x.through image, made) ∧ Copies heap x image made := by
  cases x with
  | null => exact hx.elim
  | fixnum n => exact hx.elim
  | character code => exact hx.elim
  | nil =>
    have hnone : ∀ a, ¬ Held heap .nil a := by
      rintro a ⟨root, hnil, -⟩
      cases hnil
    refine ⟨_, fun _ => .null, [.known], rfl, rfl, ?_⟩
    exact ⟨fun a _ ha => absurd ha (hnone a), fun a ha => absurd ha (hnone a),
      fun a ha => absurd ha (hnone a)⟩
  | object root =>
    have hplain : ∀ a, Reached (fun a => (heap a).targets) root a → (heap a).Plain :=
      fun a ha => (hportable a ⟨root, rfl, ha⟩).2.plain
    have hstart : Searched (eql heap) heap root [] (initPool root).work [] := Progress.start
    obtain ⟨keys, out, buffer, -, hsearch, hcells, hloop⟩ := serializeLoop_searched
      (fun a ha => hfinite a ⟨root, rfl, ha⟩) hplain fuel hstart (List.append_nil _).symm
      (by simpa using hfuel)
    have hnumbered := hsearch.numbered hportable hroot
    have hout : out = readObjs heap keys := hsearch.out_eq
    have hread : (closePool buffer keys.length).drop 2 = (readObjs heap keys).flatMap Obj.cells := by
      rw [closePool, hcells, hout]
      rfl
    have hfirst : number? (eql heap) keys root = some 0 :=
      number_getElem hsearch.distinct (List.head?_eq_getElem?.symm.trans hsearch.first)
    refine ⟨_, imageOf heap keys, _, hloop, ?_, hnumbered.copies ?_ ?_⟩
    · rw [hnumbered.deserialize rfl hread, Ref.through, imageOf, numOf_eq hfirst]
    · exact fun k hk => ⟨root, rfl, hsearch.reached k hk⟩
    · rintro a ⟨_, hx, ha⟩
      cases hx
      exact Progress.numbered hsearch (fun k l => eql_targets) ha

end serialize

def sample : Fin 6 → Obj (Ref (Fin 6))
  | 0 => .cons (.object 1) (.object 1)
  | 1 => .cons (.object 2) (.object 1)
  | 2 => .symbol (.object 3) (.object 4)
  | 3 => .vector .baseString 1 ⟨.bc, 0, 1, none, .words [0x41], 0, 0⟩
  | 4 => .package (.object 5)
  | 5 => .vector .baseString 1 ⟨.bc, 0, 1, none, .words [0x50], 0, 0⟩

def samplePackages : Packages (Fin 6) where
  findPackage name := if name = ⟨.baseString, .bc, 1, [0x50]⟩ then some 4 else none
  intern _ _ := 2

theorem deserialize_serialize_sample :
    ∃ raw image made, serialize (eql sample) sample 6 (.object 0) = .ok (some raw) ∧
      deserialize samplePackages raw = some ((Ref.object 0).through image, made) ∧
      Copies sample (.object 0) image made := by
  have hportable : ∀ a, Portable samplePackages sample a := by
    intro a
    refine ⟨?_, ?_⟩
    · revert a
      decide
    · match a with
      | 0 => trivial
      | 1 => trivial
      | 2 => exact ⟨3, _, rfl, rfl, Or.inr ⟨4, _, rfl, rfl, rfl⟩⟩
      | 3 => exact ⟨⟨by decide, rfl⟩, rfl⟩
      | 4 => exact ⟨5, _, rfl, rfl, rfl⟩
      | 5 => exact ⟨⟨by decide, rfl⟩, rfl⟩
  have hroot : ∀ a, ∀ r ∈ (sample a).targets,
      eclEql sample 3 (.object r) (.object 0) = false := by decide
  have hpair : (Ref.object 0 : Ref (Fin 6)).Boxed := trivial
  exact deserialize_serialize samplePackages sample hpair (fun a _ => Finset.mem_univ a)
    (fun a _ => hportable a) (fun a _ => hroot a) (Finset.card_fin 6).le

def structureList : Bool → Obj (Ref Bool)
  | false => .cons (.object true) .nil
  | true => .other

theorem structures_not_serialized :
    serialize (eql structureList) structureList 2 (.object false) = .error .unableToSerialize := by
  decide

end Serializer
