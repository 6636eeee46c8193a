import Ecl.DisplacedArrays

/-! Displaced arrays share the elements of their targets as long as every replaced array keeps
track of exactly the arrays displaced to it, and these have none displaced to them. -/
namespace DisplacedArrays

open ArrayBounds (ElementType)

variable {V : Type} {apart : ℕ → ℕ → ℤ} {toElement : ElementType → V → Option V}
  {h h' h₀ : Heap V} {a b f t olda newa : ℕ} {j : ℤ}

def Inside (h : Heap V) (a t : ℕ) : Prop :=
  (h.arrays a).self.block = (h.arrays t).self.block ∧
    (h.arrays t).self.index ≤ (h.arrays a).self.index ∧
    (h.arrays a).self.index + (h.arrays a).dim ≤ (h.arrays t).self.index + (h.arrays t).dim

structure Linked (h : Heap V) : Prop where
  cell_lt : ∀ a c, (h.arrays a).displaced = some c → c < h.cellsMade
  displaced_lt : ∀ a t, target h a = some t → a < h.made
  target_lt : ∀ a t, target h a = some t → t < h.made
  inside : ∀ a t, target h a = some t → Inside h a t

def geometry (h : Heap V) (a : ℕ) : Shape × Pointer := ((h.arrays a).toShape, (h.arrays a).self)

theorem Inside.congr (hi : Inside h a t) (ha : geometry h' a = geometry h a)
    (ht : geometry h' t = geometry h t) : Inside h' a t := by
  simp only [geometry, Prod.mk.injEq] at ha ht
  simpa only [Inside, ha.1, ha.2, ht.1, ht.2] using hi

theorem consDisplaced_target (hc : ∀ a c, (h.arrays a).displaced = some c → c < h.cellsMade)
    (a : ℕ) (car : Option ℕ) (b : ℕ) :
    target (consDisplaced h a car) b = if b = a then car else target h b := by
  unfold target consDisplaced
  by_cases hb : b = a
  · subst b
    simp
  · simp only [Function.update_of_ne hb, if_neg hb]
    cases hd : (h.arrays b).displaced with
    | none => rfl
    | some c =>
      have hne : c ≠ h.cellsMade := (hc b c hd).ne
      simp only [Option.bind_some, Function.update_of_ne hne]

theorem consDisplaced_geometry (h : Heap V) (a : ℕ) (car : Option ℕ) (b : ℕ) :
    geometry (consDisplaced h a car) b = geometry h b := by
  unfold geometry consDisplaced
  by_cases hb : b = a
  · subst b
    simp
  · simp [hb]

theorem consDisplaced_cell_lt (hc : ∀ a c, (h.arrays a).displaced = some c → c < h.cellsMade)
    (a : ℕ) (car : Option ℕ) (b c : ℕ)
    (hb : ((consDisplaced h a car).arrays b).displaced = some c) :
    c < (consDisplaced h a car).cellsMade := by
  simp only [consDisplaced] at hb ⊢
  by_cases hba : b = a
  · subst b
    simp only [Function.update_self, Option.some.injEq] at hb
    omega
  · rw [Function.update_of_ne hba] at hb
    have := hc b c hb
    omega

structure SameButLists (h h' : Heap V) : Prop where
  cell_lt : ∀ a c, (h'.arrays a).displaced = some c → c < h'.cellsMade
  targets : ∀ b, target h' b = target h b
  places : ∀ b, geometry h' b = geometry h b
  storage : h'.storage = h.storage
  made : h'.made = h.made

theorem track_same (hc : ∀ a c, (h.arrays a).displaced = some c → c < h.cellsMade) (a other : ℕ) :
    SameButLists h (track h a other) := by
  have hfirst : SameButLists h
      (if (h.arrays a).displaced = none then consDisplaced h a none else h) := by
    split
    · rename_i hnone
      refine ⟨consDisplaced_cell_lt hc a none, fun b => ?_, consDisplaced_geometry h a none, rfl, rfl⟩
      rw [consDisplaced_target hc]
      split
      · rename_i hb
        rw [hb]
        simp [target, hnone]
      · rfl
    · exact ⟨hc, fun _ => rfl, fun _ => rfl, rfl, rfl⟩
  unfold track
  split
  · dsimp only
    generalize (if (h.arrays a).displaced = none then consDisplaced h a none else h) = h₁ at hfirst
    split
    · exact hfirst
    · rename_i c hd
      refine ⟨hfirst.cell_lt, fun b => ?_, hfirst.places, hfirst.storage, hfirst.made⟩
      rw [← hfirst.targets b]
      unfold target
      dsimp only
      cases hb : (h₁.arrays b).displaced with
      | none => rfl
      | some c' =>
        by_cases hcc : c' = c
        · subst c'
          simp
        · simp [hcc]
  · exact ⟨hc, fun _ => rfl, fun _ => rfl, rfl, rfl⟩

/-- What ecl_displace does: array f gets the target t and a place inside it. -/
structure Displaces (h h' : Heap V) (f t : ℕ) (j : ℤ) : Prop where
  cell_lt : ∀ a c, (h'.arrays a).displaced = some c → c < h'.cellsMade
  offset : 0 ≤ j ∧ j + (h.arrays f).dim ≤ (h.arrays t).dim
  targets : ∀ b, target h' b = if b = f then some t else target h b
  shapes : ∀ b, (h'.arrays b).toShape = (h.arrays b).toShape
  place : (h'.arrays f).self =
    ⟨(h.arrays t).self.block, (h.arrays t).self.index + j.toNat⟩
  places : ∀ b ≠ f, geometry h' b = geometry h b
  storage : h'.storage = h.storage
  made : h'.made = h.made

theorem eclDisplace_displaces (hc : ∀ a c, (h.arrays a).displaced = some c → c < h.cellsMade)
    (hd : eclDisplace h f t j = .ok h') : Displaces h h' f t j := by
  unfold eclDisplace at hd
  dsimp only at hd
  split_ifs at hd with h0 htype hdim hmax
  have hcons := consDisplaced_cell_lt hc f (some t)
  have htrack := track_same hcons t f
  have hgeo : ∀ b, geometry (track (consDisplaced h f (some t)) t f) b = geometry h b :=
    fun b => (htrack.places b).trans (consDisplaced_geometry h f (some t) b)
  have htarget : ∀ b, target (track (consDisplaced h f (some t)) t f) b =
      if b = f then some t else target h b :=
    fun b => (htrack.targets b).trans (consDisplaced_target hc f (some t) b)
  have hstorage : (track (consDisplaced h f (some t)) t f).storage = h.storage := htrack.storage
  have hmade : (track (consDisplaced h f (some t)) t f).made = h.made := htrack.made
  have hcell := htrack.cell_lt
  generalize track (consDisplaced h f (some t)) t f = h₁ at hd hgeo htarget hstorage hmade hcell
  simp only [Except.ok.injEq] at hd
  subst h'
  have hself : (h₁.arrays t).self = (h.arrays t).self := congrArg Prod.snd (hgeo t)
  refine ⟨?_, ⟨by omega, by omega⟩, ?_, ?_, ?_, ?_, hstorage, hmade⟩
  · intro b c hb
    simp only [setSelf] at hb ⊢
    by_cases hbf : b = f
    · subst b
      rw [Function.update_self] at hb
      exact hcell f c hb
    · rw [Function.update_of_ne hbf] at hb
      exact hcell b c hb
  · intro b
    rw [← htarget b]
    unfold target setSelf
    by_cases hbf : b = f
    · subst b
      simp
    · simp [hbf]
  · intro b
    have hb : (h₁.arrays b).toShape = (h.arrays b).toShape := congrArg Prod.fst (hgeo b)
    rw [← hb]
    unfold setSelf
    by_cases hbf : b = f
    · subst b
      simp
    · simp [hbf]
  · simp [setSelf, hself]
  · intro b hbf
    rw [← hgeo b]
    simp [geometry, setSelf, hbf]

theorem Displaces.target_geometry (hd : Displaces h h' f t j) : geometry h' t = geometry h t := by
  by_cases hft : t = f
  · subst t
    have hj : j.toNat = 0 := by
      have := hd.offset
      omega
    simp only [geometry, hd.shapes, hd.place, hj]
    rfl
  · exact hd.places t hft

theorem Displaces.linked (hd : Displaces h h' f t j) (hl : Linked h) (hf : f < h.made)
    (ht : t < h.made) (hrefs : ∀ b, target h b = some f → b = f ∨ f = t) : Linked h' := by
  refine ⟨hd.cell_lt, fun b u hb => ?_, fun b u hb => ?_, fun b u hb => ?_⟩
  · rw [hd.made]
    rw [hd.targets] at hb
    split at hb
    · rename_i hbf
      exact hbf ▸ hf
    · exact hl.displaced_lt b u hb
  · rw [hd.made]
    rw [hd.targets] at hb
    split at hb
    · cases hb
      exact ht
    · exact hl.target_lt b u hb
  · rw [hd.targets] at hb
    split at hb
    · rename_i hbf
      cases hb
      subst b
      have hgeo := hd.target_geometry
      simp only [geometry, Prod.mk.injEq] at hgeo
      have hoff := hd.offset
      refine ⟨by rw [hd.place, hgeo.2], ?_, ?_⟩
      · rw [hd.place, hgeo.2]
        dsimp only
        omega
      · rw [hd.place, hgeo.2, hd.shapes f, hgeo.1]
        dsimp only
        omega
    · rename_i hbf
      have hi := hl.inside b u hb
      refine hi.congr (hd.places b hbf) ?_
      by_cases huf : u = f
      · subst u
        obtain rfl | rfl := hrefs b hb
        · exact absurd rfl hbf
        · exact hd.target_geometry
      · exact hd.places u huf

def Tracks (h : Heap V) (olda : ℕ) : Prop :=
  (∀ a, a ∈ dependents h olda ↔ target h a = some olda) ∧
    ∀ a b, target h a = some olda → target h b ≠ some a

/-- While the loop of si_replace_array goes from the heap h₀ to the heap h. -/
structure Moved (h₀ : Heap V) (olda newa : ℕ) (h : Heap V) : Prop where
  linked : Linked h
  replacement : geometry h newa = geometry h₀ newa
  others : ∀ a, target h₀ a ≠ some olda → target h a = target h₀ a ∧ geometry h a = geometry h₀ a
  moved : ∀ a, target h₀ a = some olda → target h a = some olda ∨ target h a = some newa
  storage : h.storage = h₀.storage
  made : h.made = h₀.made

theorem Moved.start (hl : Linked h) (olda newa : ℕ) : Moved h olda newa h :=
  ⟨hl, rfl, fun _ _ => ⟨rfl, rfl⟩, fun _ => Or.inl, rfl, rfl⟩

theorem Moved.displace (hm : Moved h₀ olda newa h) (hd : Displaces h h' f newa j)
    (hf : target h₀ f = some olda) (hnew : newa < h₀.made)
    (hchain : ∀ a b, target h₀ a = some olda → target h₀ b ≠ some a) :
    Moved h₀ olda newa h' := by
  have hfmade : f < h.made := by
    rcases hm.moved f hf with h1 | h1 <;> exact hm.linked.displaced_lt f _ h1
  have hrefs : ∀ b, target h b = some f → b = f ∨ f = newa := by
    intro b hb
    by_cases hold : target h₀ b = some olda
    · rcases hm.moved b hold with h1 | h1
      · -- the replaced array would be displaced to itself
        rw [hb] at h1
        cases h1
        exact absurd hf (hchain f f hf)
      · rw [hb] at h1
        cases h1
        exact Or.inr rfl
    · rw [(hm.others b hold).1] at hb
      exact absurd hb (hchain f b hf)
  refine ⟨hd.linked hm.linked hfmade (hm.made ▸ hnew) hrefs, ?_, fun a ha => ?_, fun a ha => ?_,
    hd.storage.trans hm.storage, hd.made.trans hm.made⟩
  · exact hd.target_geometry.trans hm.replacement
  · have haf : a ≠ f := by
      rintro rfl
      exact ha hf
    rw [hd.targets, if_neg haf, hd.places a haf]
    exact hm.others a ha
  · rw [hd.targets]
    split
    · exact Or.inr rfl
    · exact hm.moved a ha

/-- The loop keeps the heap in order, also where it breaks off; once done, it has moved all
the arrays of the list. -/
theorem redisplace_moved (hnew : newa < h₀.made)
    (hchain : ∀ a b, target h₀ a = some olda → target h₀ b ≠ some a) :
    ∀ dlist h, (∀ a ∈ dlist, target h₀ a = some olda) → Moved h₀ olda newa h →
      Moved h₀ olda newa (redisplace apart newa dlist h).2 ∧
        ((redisplace apart newa dlist h).1 = .ok () → ∀ a, a ∈ dlist ∨ target h a = some newa →
          target (redisplace apart newa dlist h).2 a = some newa) := by
  intro dlist
  induction dlist with
  | nil => intro h _ hm; exact ⟨hm, fun _ a ha => by simpa [redisplace] using ha⟩
  | cons other dlist ih =>
    intro h hlist hm
    have hother : target h₀ other = some olda := hlist other (by simp)
    rw [redisplace]
    cases hd : eclDisplace h other newa (clArrayDisplacement apart h other).2 with
    | error e => exact ⟨hm, fun hok => by cases hok⟩
    | ok h₁ =>
      have hdisp := eclDisplace_displaces hm.linked.cell_lt hd
      obtain ⟨hm', hall⟩ := ih h₁ (fun a ha => hlist a (by simp [ha]))
        (hm.displace hdisp hother hnew hchain)
      refine ⟨hm', fun hok a ha => hall hok a ?_⟩
      rw [hdisp.targets]
      rw [List.mem_cons] at ha
      rcases ha with (rfl | ha) | ha
      · exact Or.inr (by simp)
      · exact Or.inl ha
      · split
        · exact Or.inr rfl
        · exact Or.inr ha

structure Unchanged (apart : ℕ → ℕ → ℤ) (h h' : Heap V) (a : ℕ) : Prop where
  shape : (h'.arrays a).toShape = (h.arrays a).toShape
  displacement : clArrayDisplacement apart h' a = clArrayDisplacement apart h a
  elements : ∀ i, aref h' a i = aref h a i

theorem unchanged_of_geometry (hstorage : h'.storage = h.storage)
    (ha : geometry h' a = geometry h a) (htarget : target h' a = target h a)
    (ht : ∀ t, target h a = some t → geometry h' t = geometry h t) : Unchanged apart h h' a := by
  have hshape : (h'.arrays a).toShape = (h.arrays a).toShape := congrArg Prod.fst ha
  have hself : (h'.arrays a).self = (h.arrays a).self := congrArg Prod.snd ha
  refine ⟨hshape, ?_, fun i => by simp only [aref, hshape, hself, hstorage]⟩
  unfold clArrayDisplacement
  rw [htarget]
  cases htar : target h a with
  | none => rfl
  | some t =>
    have htself : (h'.arrays t).self = (h.arrays t).self := congrArg Prod.snd (ht t htar)
    simp only [hself, htself]

/-- The struct copy at the end of si_replace_array. -/
def overwrite (h : Heap V) (olda newa : ℕ) : Heap V :=
  { h with arrays := Function.update h.arrays olda (h.arrays newa) }

theorem overwrite_of_ne (ha : a ≠ olda) :
    target (overwrite h olda newa) a = target h a ∧
      geometry (overwrite h olda newa) a = geometry h a := by
  simp [target, geometry, overwrite, ha]

theorem overwrite_self : target (overwrite h olda newa) olda = target h newa ∧
    geometry (overwrite h olda newa) olda = geometry h newa := by
  simp [target, geometry, overwrite]

theorem overwrite_linked (hl : Linked h) (hold : olda < h.made)
    (hrefs : ∀ a, target h a = some olda → olda = newa) : Linked (overwrite h olda newa) := by
  by_cases heq : olda = newa
  · subst newa
    have hid : overwrite h olda olda = h := by simp [overwrite]
    rwa [hid]
  have htarget : ∀ a u, target (overwrite h olda newa) a = some u → u ≠ olda := by
    rintro a u hu rfl
    by_cases ha : a = u
    · rw [ha, overwrite_self.1] at hu
      exact heq (hrefs newa hu)
    · rw [(overwrite_of_ne ha).1] at hu
      exact heq (hrefs a hu)
  refine ⟨fun a c ha => ?_, fun a u hu => ?_, fun a u hu => ?_, fun a u hu => ?_⟩
  · simp only [overwrite] at ha ⊢
    by_cases hao : a = olda
    · subst a
      rw [Function.update_self] at ha
      exact hl.cell_lt newa c ha
    · rw [Function.update_of_ne hao] at ha
      exact hl.cell_lt a c ha
  · by_cases hao : a = olda
    · exact hao ▸ hold
    · exact hl.displaced_lt a u ((overwrite_of_ne hao).1 ▸ hu)
  · by_cases hao : a = olda
    · subst a
      exact hl.target_lt newa u (overwrite_self.1 ▸ hu)
    · exact hl.target_lt a u ((overwrite_of_ne hao).1 ▸ hu)
  · have hplace : geometry (overwrite h olda newa) u = geometry h u :=
      (overwrite_of_ne (htarget a u hu)).2
    by_cases hao : a = olda
    · subst a
      have hi := hl.inside newa u (overwrite_self.1 ▸ hu)
      have hself : geometry (overwrite h olda newa) olda = geometry h newa := overwrite_self.2
      simp only [geometry, Prod.mk.injEq] at hself hplace
      simpa only [Inside, hself.1, hself.2, hplace.1, hplace.2] using hi
    · exact (hl.inside a u ((overwrite_of_ne hao).1 ▸ hu)).congr (overwrite_of_ne hao).2 hplace

theorem siReplaceArray_keeps (hl : Linked h) (hold : olda < h.made) (hnew : newa < h.made)
    (htracks : (h.arrays olda).adjustable = true → Tracks h olda) :
    Linked (siReplaceArray apart h olda newa).2 ∧
      ∀ a ≠ olda, target h a ≠ some olda →
        Unchanged apart h (siReplaceArray apart h olda newa).2 a := by
  have hsame : ∀ a, Unchanged apart h h a := fun a => ⟨rfl, rfl, fun _ => rfl⟩
  unfold siReplaceArray
  split
  · exact ⟨hl, fun a _ _ => hsame a⟩
  split
  · exact ⟨hl, fun a _ _ => hsame a⟩
  rename_i hadj
  obtain ⟨hlist, hchain⟩ := htracks (by simpa using hadj)
  obtain ⟨hm, hall⟩ := redisplace_moved hnew hchain (dependents h olda) h
    (fun a ha => (hlist a).mp ha) (Moved.start hl olda newa)
  cases hloop : redisplace apart newa (dependents h olda) h with
  | mk r h₁ =>
    rw [hloop] at hm hall
    have hplain : ∀ a, target h a ≠ some olda → Unchanged apart h h₁ a := by
      intro a ha
      obtain ⟨htarget, hgeo⟩ := hm.others a ha
      refine unchanged_of_geometry hm.storage hgeo htarget fun t ht => ?_
      exact (hm.others t fun hto => hchain t a hto ht).2
    cases r with
    | error e => exact ⟨hm.linked, fun a _ ha => hplain a ha⟩
    | ok u =>
      have hmoved : ∀ a, target h₁ a = some olda → olda = newa := by
        intro a ha
        by_cases hdep : target h a = some olda
        · have := hall rfl a (Or.inl ((hlist a).mpr hdep))
          rw [ha] at this
          exact Option.some.inj this
        · rw [(hm.others a hdep).1] at ha
          exact absurd ha hdep
      refine ⟨overwrite_linked hm.linked (hm.made ▸ hold) hmoved, fun a hao ha => ?_⟩
      obtain ⟨htarget, hgeo⟩ := hm.others a ha
      refine unchanged_of_geometry hm.storage ((overwrite_of_ne hao).2.trans hgeo)
        ((overwrite_of_ne hao).1.trans htarget) fun t ht => ?_
      have hto : t ≠ olda := by
        rintro rfl
        exact ha ht
      exact (overwrite_of_ne hto).2.trans (hm.others t fun h1 => hchain t a h1 ht).2

theorem new_linked (hl : Linked h) (x : ArrayObject) (hx : x.displaced = none) :
    Linked { h with arrays := Function.update h.arrays h.made x, made := h.made + 1 } := by
  have htarget : ∀ a t, target { h with
      arrays := Function.update h.arrays h.made x, made := h.made + 1 } a = some t →
      a ≠ h.made ∧ target h a = some t := by
    intro a t ha
    by_cases ham : a = h.made
    · simp [target, ham, hx] at ha
    · exact ⟨ham, by simpa [target, ham] using ha⟩
  refine ⟨fun a c ha => ?_, fun a t ha => ?_, fun a t ha => ?_, fun a t ha => ?_⟩
  · by_cases ham : a = h.made
    · simp [ham, hx] at ha
    · exact hl.cell_lt a c (by simpa [ham] using ha)
  · exact (hl.displaced_lt a t (htarget a t ha).2).trans (Nat.lt_succ_self _)
  · exact (hl.target_lt a t (htarget a t ha).2).trans (Nat.lt_succ_self _)
  · obtain ⟨ham, hold⟩ := htarget a t ha
    have htm : t ≠ h.made := (hl.target_lt a t hold).ne
    refine (hl.inside a t hold).congr ?_ ?_
    · simp [geometry, ham]
    · simp [geometry, htm]

theorem Linked.storage (hl : Linked h) (s : ℕ → ℕ → V) : Linked { h with storage := s } :=
  ⟨hl.cell_lt, hl.displaced_lt, hl.target_lt, hl.inside⟩

theorem siMakeArray_linked (hl : Linked h) (shape : Shape) {displaced : Option (ℕ × ℤ)}
    (hd : ∀ p, displaced = some p → p.1 < h.made) (contents : ℕ → V) :
    Linked (siMakeArray h shape displaced contents).2 := by
  have hnew := new_linked hl ⟨shape, none, ⟨h.made, 0⟩⟩ rfl
  unfold siMakeArray
  cases displaced with
  | none => exact hnew.storage _
  | some p =>
    have hp := hd p rfl
    dsimp only
    cases hdisp : eclDisplace { h with
        arrays := Function.update h.arrays h.made ⟨shape, none, ⟨h.made, 0⟩⟩
        made := h.made + 1 } h.made p.1 p.2 with
    | error e => exact hl
    | ok h' =>
      refine (eclDisplace_displaces hnew.cell_lt hdisp).linked hnew (Nat.lt_succ_self _)
        (hp.trans (Nat.lt_succ_self _)) fun b hb => ?_
      have hlt : h.made < h.made + 1 := Nat.lt_succ_self _
      by_cases hbm : b = h.made
      · exact Or.inl hbm
      · have hold : target h b = some h.made := by simpa [target, hbm] using hb
        exact absurd (hl.target_lt b _ hold) (lt_irrefl _)

def Tracked (h : Heap V) : Op V → Prop
  | .replace olda _ => (h.arrays olda).adjustable = true → Tracks h olda
  | _ => True

theorem step_linked (hl : Linked h) {op : Op V} (hnames : op.Names h) (hop : Tracked h op) :
    Linked (step apart toElement h op) := by
  cases op with
  | make shape displaced contents =>
    refine siMakeArray_linked hl shape (fun p hp => ?_) contents
    subst displaced
    exact hnames
  | replace olda newa => exact (siReplaceArray_keeps hl hnames.1 hnames.2 hop).1
  | aset a i value =>
    unfold step aset
    dsimp only
    split_ifs
    · exact hl
    · cases toElement (h.arrays a).elttype value with
      | none => exact hl
      | some v => exact hl.storage _

theorem reached_linked (hr : Reached apart toElement Tracked h) : Linked h := by
  induction hr with
  | start contents =>
    exact ⟨fun a c ha => by simp [emptyHeap] at ha, fun a t ha => by simp [target, emptyHeap] at ha,
      fun a t ha => by simp [target, emptyHeap] at ha,
      fun a t ha => by simp [target, emptyHeap] at ha⟩
  | step _ hnames hop ih => exact step_linked ih hnames hop

def Coherent (apart : ℕ → ℕ → ℤ) (h : Heap V) : Prop :=
  ∀ d t o, clArrayDisplacement apart h d = (some t, o) →
    0 ≤ o ∧ ∀ i < (h.arrays d).dim, ∃ v, aref h d i = .ok v ∧ aref h t (o.toNat + i) = .ok v

theorem Linked.coherent (hl : Linked h) : Coherent apart h := by
  intro d t o hd
  unfold clArrayDisplacement at hd
  cases htar : target h d with
  | none => simp [htar] at hd
  | some u =>
    simp only [htar, Prod.mk.injEq, Option.some.injEq] at hd
    obtain ⟨rfl, rfl⟩ := hd
    obtain ⟨hblock, hle, hdim⟩ := hl.inside d u htar
    have hoffset : pointerDifference apart (h.arrays d).self (h.arrays u).self =
        ((h.arrays d).self.index - (h.arrays u).self.index : ℕ) := by
      simp only [pointerDifference, if_pos hblock]
      omega
    rw [hoffset, Int.toNat_natCast]
    refine ⟨Int.natCast_nonneg _, fun i hi =>
      ⟨h.storage (h.arrays d).self.block ((h.arrays d).self.index + i), ?_, ?_⟩⟩
    · simp only [aref, if_neg (not_le.mpr hi)]
    · have hin : ¬ (h.arrays u).dim ≤ (h.arrays d).self.index - (h.arrays u).self.index + i := by
        omega
      simp only [aref, if_neg hin, hblock]
      rw [show (h.arrays u).self.index + ((h.arrays d).self.index - (h.arrays u).self.index + i) =
        (h.arrays d).self.index + i by omega]

/-- In every run whose replaced arrays keep track of their dependents, displaced arrays show
the elements of their targets, and replacing leaves all arrays not displaced alone. -/
theorem displaced_arrays_coherent (hr : Reached apart toElement Tracked h) :
    Coherent apart h ∧ ∀ olda newa, olda < h.made → newa < h.made →
      Tracked h (.replace olda newa) → ∀ a ≠ olda,
        (clArrayDisplacement apart h a).1 ≠ some olda →
          Unchanged apart h (siReplaceArray apart h olda newa).2 a := by
  have hl := reached_linked hr
  refine ⟨hl.coherent, fun olda newa hold hnew htracks a hao ha => ?_⟩
  refine (siReplaceArray_keeps hl hold hnew htracks).2 a hao fun htar => ha ?_
  simp only [clArrayDisplacement, htar]

section Runs

def Along (apart : ℕ → ℕ → ℤ) (toElement : ElementType → V → Option V)
    (meets : Heap V → Op V → Prop) : Heap V → List (Op V) → Prop
  | _, [] => True
  | h, op :: ops => op.Names h ∧ meets h op ∧ Along apart toElement meets
      (step apart toElement h op) ops

theorem reached_run {meets : Heap V → Op V → Prop} :
    ∀ {ops : List (Op V)} {h : Heap V}, Reached apart toElement meets h →
      Along apart toElement meets h ops →
      Reached apart toElement meets (ops.foldl (step apart toElement) h) := by
  intro ops
  induction ops with
  | nil => intro h hr _; exact hr
  | cons op ops ih => intro h hr ha; exact ih (.step hr ha.1 ha.2.1) ha.2.2

theorem Linked.tracks (hl : Linked h) (hlist : ∀ a ∈ dependents h olda, a < h.made)
    (htarget : ∀ a < h.made, a ∈ dependents h olda ↔ target h a = some olda)
    (hchain : ∀ a < h.made, ∀ b < h.made, target h a = some olda → target h b ≠ some a) :
    Tracks h olda := by
  refine ⟨fun a => ⟨fun ha => (htarget a (hlist a ha)).mp ha, fun ha => ?_⟩, fun a b ha hb => ?_⟩
  · exact (htarget a (hl.displaced_lt a olda ha)).mpr ha
  · exact hchain a (hl.displaced_lt a olda ha) b (hl.displaced_lt b a hb) ha hb

def adjustableVector (dim : ℕ) : Shape := ⟨.vector, .object, 1, [dim], dim, dim, false, true⟩

def inOrder (p q : ℕ) : ℤ := 1000 * (p - q)

def anyElement (_ : ElementType) (v : ℕ) : Option ℕ := some v

/-- A vector of four elements, one of two displaced to it, and the first one adjusted. -/
def adjusted : List (Op ℕ) :=
  [.make (adjustableVector 4) none id, .make (adjustableVector 2) (some (0, 1)) id,
    .aset 0 2 7, .make (adjustableVector 6) none id, .replace 0 2]

theorem displaced_arrays_coherent_adjusted :
    let h := adjusted.foldl (step inOrder anyElement) (emptyHeap fun _ _ => 0)
    clArrayDisplacement inOrder h 1 = (some 2, 1) ∧
      ∃ v, aref h 1 0 = .ok v ∧ aref h 2 1 = .ok v := by
  have hbefore : Reached inOrder anyElement Tracked
      ((adjusted.take 4).foldl (step inOrder anyElement) (emptyHeap fun _ _ => 0)) :=
    reached_run (.start _) ⟨trivial, trivial, by decide +kernel, trivial, by decide +kernel,
      trivial, trivial, trivial, trivial⟩
  have htracks : Tracks _ 0 := (reached_linked hbefore).tracks (by decide +kernel)
    (by decide +kernel) (by decide +kernel)
  have hcoherent := (displaced_arrays_coherent
    (.step hbefore (by decide +kernel : Op.Names _ (.replace 0 2)) fun _ => htracks)).1
  have hreport : clArrayDisplacement inOrder
      (adjusted.foldl (step inOrder anyElement) (emptyHeap fun _ _ => 0)) 1 = (some 2, 1) := by
    decide +kernel
  exact ⟨hreport, (hcoherent 1 2 1 hreport).2 0 (by decide +kernel)⟩

/-- Array 2 is displaced to array 0, then adjusted to be displaced to array 1, which is then
adjusted: the back pointer of array 1 is not to array 2 but to the array it was replaced by. -/
def displacedElsewhere : List (Op ℕ) :=
  [.make (adjustableVector 4) none id, .make (adjustableVector 4) none id,
    .make (adjustableVector 2) (some (0, 0)) id, .make (adjustableVector 2) (some (1, 0)) id,
    .replace 2 3, .make (adjustableVector 4) none id, .replace 1 4]

theorem displaced_elsewhere_left_behind :
    ∃ h : Heap ℕ, Reached inOrder anyElement (fun _ _ => True) h ∧ ¬ Coherent inOrder h := by
  refine ⟨displacedElsewhere.foldl (step inOrder anyElement) (emptyHeap fun _ _ => 0),
    reached_run (.start _) ⟨trivial, trivial, trivial, trivial, by decide +kernel, trivial,
      by decide +kernel, trivial, by decide +kernel, trivial, trivial, trivial,
      by decide +kernel, trivial, trivial⟩, fun hcoherent => ?_⟩
  have hreport : clArrayDisplacement inOrder (displacedElsewhere.foldl (step inOrder anyElement)
      (emptyHeap fun _ _ => 0)) 2 = (some 1, -3000) := by decide +kernel
  have := (hcoherent 2 1 (-3000) hreport).1
  omega

end Runs

end DisplacedArrays
