import Ecl.DisplacementCoherence

/-! An array is replaced under the arrays displaced to it: what an error in the loop of
si_replace_array leaves. -/
namespace ArrayReplacement

open DisplacedArrays

variable {V : Type} {apart : ℕ → ℕ → ℤ} {h h' h₀ : Heap V} {a b f t olda newa : ℕ} {j : ℤ}

/-- The offset that cl_array_displacement reports. -/
def offset (apart : ℕ → ℕ → ℤ) (h : Heap V) (a : ℕ) : ℤ := (clArrayDisplacement apart h a).2

def Fits (apart : ℕ → ℕ → ℤ) (h : Heap V) (newa a : ℕ) : Prop :=
  0 ≤ offset apart h a ∧ (h.arrays newa).elttype = (h.arrays a).elttype ∧
    offset apart h a + (h.arrays a).dim ≤ (h.arrays newa).dim

instance : Decidable (Fits apart h newa a) := inferInstanceAs (Decidable (_ ∧ _))

theorem eclDisplace_ok (h0 : 0 ≤ j) (htype : (h.arrays t).elttype = (h.arrays f).elttype)
    (hdim : j + (h.arrays f).dim ≤ (h.arrays t).dim) : ∃ h', eclDisplace h f t j = .ok h' := by
  unfold eclDisplace
  dsimp only
  rw [if_neg (not_lt.mpr h0), if_neg (not_not.mpr htype), if_neg (by omega), if_neg (by omega)]
  exact ⟨_, rfl⟩

theorem eclDisplace_fits (hd : eclDisplace h f t j = .ok h') :
    0 ≤ j ∧ (h.arrays t).elttype = (h.arrays f).elttype ∧
      j + (h.arrays f).dim ≤ (h.arrays t).dim := by
  unfold eclDisplace at hd
  dsimp only at hd
  split_ifs at hd with h0 htype hdim hmax
  exact ⟨not_lt.mp h0, not_not.mp htype, by omega⟩

structure Displaced (h : Heap V) (olda : ℕ) : Prop where
  linked : Linked h
  target : ∀ a ∈ dependents h olda, target h a = some olda
  others : olda ∉ dependents h olda

/-- While the loop goes from the heap h₀ to the heap h. -/
structure Loop (apart : ℕ → ℕ → ℤ) (h₀ : Heap V) (olda newa : ℕ) (h : Heap V) : Prop where
  cell_lt : ∀ a c, (h.arrays a).displaced = some c → c < h.cellsMade
  shapes : ∀ a, (h.arrays a).toShape = (h₀.arrays a).toShape
  replaced : (h.arrays olda).self = (h₀.arrays olda).self
  replacement : (h.arrays newa).self = (h₀.arrays newa).self
  targets : ∀ a ∈ dependents h₀ olda, target h a = some olda ∨ target h a = some newa
  offsets : ∀ a ∈ dependents h₀ olda, offset apart h a = offset apart h₀ a

theorem Loop.start (hd : Displaced h olda) (newa : ℕ) : Loop apart h olda newa h :=
  ⟨hd.linked.cell_lt, fun _ => rfl, rfl, rfl, fun a ha => Or.inl (hd.target a ha), fun _ _ => rfl⟩

theorem Loop.fits_iff (hl : Loop apart h₀ olda newa h) (ha : a ∈ dependents h₀ olda) :
    Fits apart h newa a ↔ Fits apart h₀ newa a := by
  rw [Fits, Fits, hl.offsets a ha, hl.shapes, hl.shapes]

theorem offset_eq (ht : target h a = some t) :
    offset apart h a = pointerDifference apart (h.arrays a).self (h.arrays t).self := by
  rw [offset, clArrayDisplacement, ht]

theorem pointerDifference_add (p : DisplacedArrays.Pointer) (n : ℕ) :
    pointerDifference apart ⟨p.block, p.index + n⟩ p = n := by
  simp [pointerDifference]

theorem Loop.displace (hl : Loop apart h₀ olda newa h) (hf : f ∈ dependents h₀ olda)
    (hold : olda ∉ dependents h₀ olda) (hd : Displaces h h' f newa (offset apart h f)) :
    Loop apart h₀ olda newa h' := by
  have hnew : (h'.arrays newa).self = (h.arrays newa).self := congrArg Prod.snd hd.target_geometry
  have holdself : (h'.arrays olda).self = (h.arrays olda).self := by
    have hne : olda ≠ f := by
      rintro rfl
      exact hold hf
    exact congrArg Prod.snd (hd.places olda hne)
  refine ⟨hd.cell_lt, fun a => (hd.shapes a).trans (hl.shapes a), holdself.trans hl.replaced,
    hnew.trans hl.replacement, fun a ha => ?_, fun a ha => ?_⟩
  · rw [hd.targets]
    split
    · exact Or.inr rfl
    · exact hl.targets a ha
  · rw [← hl.offsets a ha]
    have htarget := hd.targets a
    by_cases haf : a = f
    · subst haf
      rw [if_pos rfl] at htarget
      rw [offset_eq htarget, hd.place, hnew, pointerDifference_add]
      exact Int.toNat_of_nonneg hd.offset.1
    · rw [if_neg haf] at htarget
      have hself : (h'.arrays a).self = (h.arrays a).self := congrArg Prod.snd (hd.places a haf)
      rcases hl.targets a ha with ht | ht
      · rw [offset_eq (htarget.trans ht), offset_eq ht, hself, holdself]
      · rw [offset_eq (htarget.trans ht), offset_eq ht, hself, hnew]

theorem redisplace_fits (hl : Loop apart h₀ olda newa h) (hf : f ∈ dependents h₀ olda)
    (hold : olda ∉ dependents h₀ olda) (hfits : Fits apart h₀ newa f) (dlist : List ℕ) :
    ∃ h', Displaces h h' f newa (offset apart h f) ∧ Loop apart h₀ olda newa h' ∧
      redisplace apart newa (f :: dlist) h = redisplace apart newa dlist h' := by
  obtain ⟨hoffset, htype, hdim⟩ := (hl.fits_iff hf).mpr hfits
  obtain ⟨h', hd⟩ := eclDisplace_ok hoffset htype hdim
  have hdisplaces := eclDisplace_displaces hl.cell_lt hd
  refine ⟨h', hdisplaces, hl.displace hf hold hdisplaces, ?_⟩
  rw [offset] at hd
  rw [redisplace, hd]

theorem redisplace_misfit (hl : Loop apart h₀ olda newa h) (hf : f ∈ dependents h₀ olda)
    (hfits : ¬Fits apart h₀ newa f) (dlist : List ℕ) :
    ∃ e, redisplace apart newa (f :: dlist) h = (.error e, h) := by
  cases hd : eclDisplace h f newa (offset apart h f) with
  | error e =>
    refine ⟨e, ?_⟩
    rw [offset] at hd
    rw [redisplace, hd]
  | ok h' => exact absurd ((hl.fits_iff hf).mp (eclDisplace_fits hd)) hfits

theorem redisplace_ok_iff (hold : olda ∉ dependents h₀ olda) (dlist : List ℕ)
    (hdlist : ∀ a ∈ dlist, a ∈ dependents h₀ olda) (hl : Loop apart h₀ olda newa h) :
    (redisplace apart newa dlist h).1 = .ok () ↔ ∀ a ∈ dlist, Fits apart h₀ newa a := by
  induction dlist generalizing h with
  | nil => simp [redisplace]
  | cons f dlist ih =>
    have hf := hdlist f List.mem_cons_self
    rw [List.forall_mem_cons]
    by_cases hfits : Fits apart h₀ newa f
    · obtain ⟨h', -, hl', heq⟩ := redisplace_fits hl hf hold hfits dlist
      rw [heq, ih (fun a ha => hdlist a (List.mem_cons_of_mem f ha)) hl']
      exact ⟨fun hall => ⟨hfits, hall⟩, And.right⟩
    · obtain ⟨e, heq⟩ := redisplace_misfit hl hf hfits dlist
      rw [heq]
      exact ⟨fun hok => absurd hok (by simp), fun hall => absurd hall.1 hfits⟩

theorem redisplace_target (hold : olda ∉ dependents h₀ olda) (dlist : List ℕ)
    (hdlist : ∀ a ∈ dlist, a ∈ dependents h₀ olda) (hl : Loop apart h₀ olda newa h)
    (ha : target h a = some newa) : target (redisplace apart newa dlist h).2 a = some newa := by
  induction dlist generalizing h with
  | nil => exact ha
  | cons f dlist ih =>
    have hf := hdlist f List.mem_cons_self
    by_cases hfits : Fits apart h₀ newa f
    · obtain ⟨h', hd, hl', heq⟩ := redisplace_fits hl hf hold hfits dlist
      rw [heq]
      refine ih (fun a ha => hdlist a (List.mem_cons_of_mem f ha)) hl' ?_
      rw [hd.targets]
      split
      · rfl
      · exact ha
    · obtain ⟨e, heq⟩ := redisplace_misfit hl hf hfits dlist
      rw [heq]
      exact ha

theorem redisplace_self (hold : olda ∉ dependents h₀ olda) (dlist : List ℕ)
    (hdlist : ∀ a ∈ dlist, a ∈ dependents h₀ olda ∧ Inside h₀ a olda)
    (hl : Loop apart h₀ olda olda h) (hsame : ∀ a, geometry h a = geometry h₀ a)
    (htargets : ∀ a, target h a = target h₀ a) (hstorage : h.storage = h₀.storage) :
    ∀ a, Unchanged apart h₀ (redisplace apart olda dlist h).2 a := by
  induction dlist generalizing h with
  | nil =>
    exact fun a => unchanged_of_geometry hstorage (hsame a) (htargets a) fun t _ => hsame t
  | cons f dlist ih =>
    obtain ⟨hf, hinside⟩ := hdlist f List.mem_cons_self
    have ht : target h f = some olda := (hl.targets f hf).elim id id
    by_cases hfits : Fits apart h₀ olda f
    · obtain ⟨h', hd, hl', heq⟩ := redisplace_fits hl hf hold hfits dlist
      rw [heq]
      refine ih (fun a ha => hdlist a (List.mem_cons_of_mem f ha)) hl' (fun a => ?_) (fun a => ?_)
        (hd.storage.trans hstorage)
      · rw [← hsame a]
        by_cases haf : a = f
        · subst haf
          obtain ⟨hblock, hindex, -⟩ := hinside.congr (hsame a) (hsame olda)
          have hplace : (h.arrays olda).self.index + (offset apart h a).toNat =
              (h.arrays a).self.index := by
            rw [offset_eq ht, pointerDifference, if_pos hblock]
            omega
          have hself : (h'.arrays a).self = (h.arrays a).self := by
            rw [hd.place, hplace, ← hblock]
          rw [geometry, geometry, hd.shapes, hself]
        · exact hd.places a haf
      · rw [hd.targets]
        split
        · next haf => rw [haf, ← htargets f, ht]
        · exact htargets a
    · obtain ⟨e, heq⟩ := redisplace_misfit hl hf hfits dlist
      rw [heq]
      exact fun a => unchanged_of_geometry hstorage (hsame a) (htargets a) fun t _ => hsame t

def AtomicOnError (apart : ℕ → ℕ → ℤ) (h : Heap V) (olda newa : ℕ) : Prop :=
  ∀ e, (siReplaceArray apart h olda newa).1 = .error e →
    ∀ a, Unchanged apart h (siReplaceArray apart h olda newa).2 a

def CannotReplace (h : Heap V) (olda newa : ℕ) : Prop :=
  (h.arrays olda).type ≠ (h.arrays newa).type ∨
    (h.arrays olda).type = .array ∧ (h.arrays olda).rank ≠ (h.arrays newa).rank

def NoneBefore (apart : ℕ → ℕ → ℤ) (h : Heap V) (olda newa : ℕ) : Prop :=
  (∀ a ∈ dependents h olda, Fits apart h newa a) ∨
    ∃ a, (dependents h olda).head? = some a ∧ ¬Fits apart h newa a

theorem Unchanged.refl (h : Heap V) (a : ℕ) : Unchanged apart h h a := ⟨rfl, rfl, fun _ => rfl⟩

theorem siReplaceArray_loop (hcan : ¬CannotReplace h olda newa)
    (hadjustable : (h.arrays olda).adjustable = true) {e : ArrayError} {h' : Heap V} :
    siReplaceArray apart h olda newa = (.error e, h') ↔
      redisplace apart newa (dependents h olda) h = (.error e, h') := by
  unfold CannotReplace at hcan
  unfold siReplaceArray
  rw [if_neg hcan, if_neg (by simp [hadjustable])]
  rcases redisplace apart newa (dependents h olda) h with ⟨r, h₁⟩
  cases r <;> simp

theorem atomicOnError_loop (hcan : ¬CannotReplace h olda newa)
    (hadjustable : (h.arrays olda).adjustable = true) :
    AtomicOnError apart h olda newa ↔
      ∀ e, (redisplace apart newa (dependents h olda) h).1 = .error e →
        ∀ a, Unchanged apart h (redisplace apart newa (dependents h olda) h).2 a := by
  constructor
  · intro hatomic e he a
    have hloop := (siReplaceArray_loop hcan hadjustable).mpr (Prod.ext he rfl)
    have hkept := hatomic e (by rw [hloop]) a
    rwa [hloop] at hkept
  · intro hatomic e he a
    have hloop := (siReplaceArray_loop hcan hadjustable).mp (Prod.ext he rfl)
    have hkept := hatomic e (by rw [hloop]) a
    rwa [hloop] at hkept

/-- If the first array is moved and another one is refused, the first one has another target. -/
theorem not_atomic_of_moved (hd : Displaced h olda) (hne : olda ≠ newa)
    (hbefore : ¬NoneBefore apart h olda newa) :
    ∃ e, (redisplace apart newa (dependents h olda) h).1 = .error e ∧
      ∃ a, ¬Unchanged apart h (redisplace apart newa (dependents h olda) h).2 a := by
  have hstart : Loop apart h olda newa h := Loop.start hd newa
  have hok := redisplace_ok_iff hd.others (dependents h olda) (fun a ha => ha) hstart
  rw [NoneBefore, not_or] at hbefore
  obtain ⟨hall, hhead⟩ := hbefore
  cases hr : (redisplace apart newa (dependents h olda) h).1 with
  | ok u => exact absurd (hok.mp hr) hall
  | error e =>
    refine ⟨e, rfl, ?_⟩
    cases hdlist : dependents h olda with
    | nil => exact absurd (by simp [hdlist]) hall
    | cons f dlist =>
      have hf : f ∈ dependents h olda := by simp [hdlist]
      have hrest : ∀ a ∈ dlist, a ∈ dependents h olda := by
        intro a ha
        simp [hdlist, ha]
      have hfits : Fits apart h newa f := by
        by_contra hfits
        exact hhead ⟨f, by simp [hdlist], hfits⟩
      obtain ⟨h', hdisplaces, hl', heq⟩ := redisplace_fits hstart hf hd.others hfits dlist
      have hmoved : target (redisplace apart newa (f :: dlist) h).2 f = some newa := by
        rw [heq]
        exact redisplace_target hd.others dlist hrest hl' (by rw [hdisplaces.targets, if_pos rfl])
      refine ⟨f, fun hunchanged => hne ?_⟩
      have hkept := congrArg Prod.fst hunchanged.displacement
      simp only [clArrayDisplacement, hmoved, hd.target f hf, Option.some.injEq] at hkept
      exact hkept.symm

theorem unchanged_of_refused (hd : Displaced h olda) (hhead : (dependents h olda).head? = some f)
    (hfits : ¬Fits apart h newa f) (a : ℕ) :
    Unchanged apart h (redisplace apart newa (dependents h olda) h).2 a := by
  cases hdlist : dependents h olda with
  | nil => simp [hdlist] at hhead
  | cons g dlist =>
    obtain rfl : g = f := by simpa [hdlist] using hhead
    obtain ⟨e, heq⟩ := redisplace_misfit (Loop.start hd newa) (by simp [hdlist]) hfits dlist
    rw [heq]
    exact Unchanged.refl h a

/-- si_replace_array is atomic unless an array that fits has been moved before the one that does
not. -/
theorem siReplaceArray_atomic_iff (hd : Displaced h olda) :
    AtomicOnError apart h olda newa ↔ olda = newa ∨ CannotReplace h olda newa ∨
      (h.arrays olda).adjustable = false ∨ NoneBefore apart h olda newa := by
  by_cases hcan : CannotReplace h olda newa
  · refine iff_of_true (fun e _ a => ?_) (.inr (.inl hcan))
    unfold CannotReplace at hcan
    rw [siReplaceArray, if_pos hcan]
    exact Unchanged.refl h a
  by_cases hadjustable : (h.arrays olda).adjustable = false
  · refine iff_of_true (fun e he => ?_) (.inr (.inr (.inl hadjustable)))
    unfold CannotReplace at hcan
    rw [siReplaceArray, if_neg hcan, if_pos hadjustable] at he
    cases he
  rw [Bool.not_eq_false] at hadjustable
  rw [atomicOnError_loop hcan hadjustable]
  constructor
  · intro hatomic
    by_contra hnot
    simp only [not_or] at hnot
    obtain ⟨hne, -, -, hbefore⟩ := hnot
    obtain ⟨e, he, a, hchanged⟩ := not_atomic_of_moved hd hne hbefore
    exact hchanged (hatomic e he a)
  · have hstart : Loop apart h olda newa h := Loop.start hd newa
    rintro (rfl | hcan' | hadjustable' | hall | ⟨f, hhead, hfits⟩) e he
    · exact redisplace_self hd.others _
        (fun a ha => ⟨ha, hd.linked.inside a olda (hd.target a ha)⟩) hstart (fun _ => rfl)
        (fun _ => rfl) rfl
    · exact absurd hcan' hcan
    · rw [hadjustable] at hadjustable'
      cases hadjustable'
    · rw [(redisplace_ok_iff hd.others (dependents h olda) (fun a ha => ha) hstart).mpr hall] at he
      cases he
    · exact unchanged_of_refused hd hhead hfits

section Runs

def twoDisplaced (dim1 dim2 : ℕ) : List (Op ℕ) :=
  [.make (adjustableVector 4) none id, .make (adjustableVector dim1) (some (0, 0)) id,
    .make (adjustableVector dim2) (some (0, 0)) id, .make (adjustableVector 2) none id]

def heap (dim1 dim2 : ℕ) : Heap ℕ :=
  (twoDisplaced dim1 dim2).foldl (step inOrder anyElement) (emptyHeap fun _ _ => 0)

/-- The second vector has one element and is moved first. -/
theorem moved_before_error : ¬AtomicOnError inOrder (heap 4 1) 0 3 := by
  intro hatomic
  have herror : (siReplaceArray inOrder (heap 4 1) 0 3).1 = .error .displacedTotalSize := by
    decide +kernel
  have hkept := (hatomic _ herror 2).displacement
  exact absurd hkept (by decide +kernel)

/-- The second vector has four elements and is refused first. -/
theorem siReplaceArray_atomic_first : AtomicOnError inOrder (heap 1 4) 0 3 := by
  have hreached : Reached inOrder anyElement Tracked (heap 1 4) :=
    reached_run (.start _) ⟨trivial, trivial, by decide +kernel, trivial, by decide +kernel,
      trivial, trivial, trivial, trivial⟩
  have hdisplaced : Displaced (heap 1 4) 0 :=
    ⟨reached_linked hreached, by decide +kernel, by decide +kernel⟩
  exact (siReplaceArray_atomic_iff hdisplaced).mpr
    (.inr (.inr (.inr (.inr ⟨2, by decide +kernel, by decide +kernel⟩))))

end Runs

end ArrayReplacement
