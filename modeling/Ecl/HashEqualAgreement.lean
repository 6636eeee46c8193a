import Ecl.HashEqual

/-! When EQUAL objects hash alike. ecl_equal and _hash_equal traverse the same pairs of
components; they part only on leaves that ecl_equal identifies and whose hashed
representation differs. -/
namespace HashEqual

open NewHash Objects Traversals

variable {L : CLibrary} {heap : Heap}

/-- Two NaNs are EQL whatever their bits, but the bits are hashed. -/
def numberAgrees (L : CLibrary) : Number → Number → Prop
  | .float t a, .float _ b => t.isnan a = true → floatBytes L t a = floatBytes L t b
  | .cfloat t r i, .cfloat _ r' i' =>
    t.isnan r = true ∨ t.isnan i = true → cfloatBytes L t r i = cfloatBytes L t r' i'
  | _, _ => True

/-- The leaves on which ecl_equal is coarser than the hash: bit-vectors, whose storage is
hashed from its first byte whatever the offset; foreign objects, hashed by their own address;
NaNs. -/
def LeafAgrees (L : CLibrary) (heap : Heap) (x y : Obj) : Prop :=
  match heap.deref x, heap.deref y with
  | some (.bitvector v), some (.bitvector w) =>
    v.bytes.take (v.fillp / 8) = w.bytes.take (w.fillp / 8)
  | some (.foreign _), some (.foreign _) => word x / 4 = word y / 4
  | some (.number a), some (.number b) => numberAgrees L a b
  | _, _ => True

def Equal (heap : Heap) (x y : Obj) : Prop := ∃ n, eclEqual heap n x y = some true

theorem equal_refl (x : Obj) : Equal heap x x := ⟨1, by simp [eclEqual]⟩

theorem equal_cases {x y : Obj} (h : Equal heap x y) : ∃ n, EqualStep heap n x y := by
  obtain ⟨n, hn⟩ := h
  cases n with
  | zero => simp [eclEqual] at hn
  | succ n => exact ⟨n, eclEqual_step.mp hn⟩

theorem deref_eq_some {x : Obj} {c : Cell} :
    heap.deref x = some c ↔ ∃ w, x = .pointer w ∧ heap w = c := by
  cases x <;> simp [Heap.deref]

theorem integerCalls_eql {n m : Integer} (h : n.eql m = true) : integerCalls n = integerCalls m := by
  cases n <;> cases m <;> simp only [Integer.eql, decide_eq_true_eq, Bool.false_eq_true] at h
  · subst h; rfl
  · subst h; rfl

theorem rationalCalls_eql {a b : Rational} (h : a.eql b = true) :
    rationalCalls a = rationalCalls b := by
  cases a <;> cases b <;> simp only [Rational.eql, Bool.and_eq_true, Bool.false_eq_true] at h
  · exact integerCalls_eql h
  · simp only [rationalCalls, integerCalls_eql h.1, integerCalls_eql h.2]

theorem numberCalls_length {a b : Number} (h : a.eql b = true) :
    (numberCalls L a).length = (numberCalls L b).length := by
  cases a <;> cases b <;> simp only [Number.eql, Bool.and_eq_true, Bool.false_eq_true] at h
  · simp only [numberCalls, rationalCalls_eql h]
  · rfl
  · simp only [numberCalls, rationalCalls_eql h.1, rationalCalls_eql h.2]
  · rfl

theorem numberCalls_iff {a b : Number} (h : a.eql b = true) :
    numberCalls L a = numberCalls L b ↔ numberAgrees L a b := by
  cases a <;> cases b <;>
    simp only [Number.eql, Bool.and_eq_true, decide_eq_true_eq, Bool.false_eq_true] at h
  · exact iff_of_true (rationalCalls_eql h) trivial
  · obtain ⟨rfl, hbits⟩ := h
    simp only [numberCalls, numberAgrees, List.cons.injEq, Call.hashString.injEq, and_true]
    rcases floatEql_iff.mp hbits with rfl | ⟨hnan, _⟩
    · simp
    · simp [hnan]
  · refine iff_of_true ?_ trivial
    simp only [numberCalls, rationalCalls_eql h.1, rationalCalls_eql h.2]
  · obtain ⟨⟨rfl, hre⟩, him⟩ := h
    simp only [numberCalls, numberAgrees, List.cons.injEq, Call.hashString.injEq, and_true]
    rcases floatEql_iff.mp hre with rfl | ⟨hnan, _⟩
    · rcases floatEql_iff.mp him with rfl | ⟨hnan, _⟩
      · simp
      · simp [hnan]
    · simp [hnan]

/-- The hash traverses EQUAL objects in step. -/
theorem equal_sameShape (heap : Heap) :
    SameShape (equalChildren heap) (fun _ => Equal heap) where
  leaf_shape := by
    intro depth x y h hx
    obtain ⟨n, hn⟩ := equal_cases h
    cases hn with
    | same => exact hx
    | list hcx | pathname hcx => simp [equalChildren, hcx] at hx
    | number _ hcy | string _ hcy | bitvector _ hcy | foreign _ hcy => simp [equalChildren, hcy]
  node_shape := by
    intro depth x y depth' cs h hx
    obtain ⟨n, hn⟩ := equal_cases h
    cases hn with
    | same => exact ⟨cs, hx, List.forall₂_same.mpr fun c _ => equal_refl c⟩
    | list hcx hcy hcar hcdr =>
      simp only [equalChildren, hcx, Option.some.injEq, Prod.mk.injEq] at hx
      obtain ⟨rfl, rfl⟩ := hx
      refine ⟨_, by simp only [equalChildren, hcy]; rfl, ?_⟩
      split
      · exact .nil
      · exact .cons ⟨n, hcar⟩ (.cons ⟨n, hcdr⟩ .nil)
    | pathname hcx hcy hpairs =>
      simp only [equalChildren, hcx, Option.some.injEq, Prod.mk.injEq] at hx
      obtain ⟨rfl, rfl⟩ := hx
      refine ⟨_, by simp only [equalChildren, hcy]; rfl, ?_⟩
      simp only [Pathname.pairs, List.forall_mem_cons] at hpairs
      obtain ⟨hhost, hdevice, hdirectory, hname, htype, hversion, _⟩ := hpairs
      exact .cons ⟨n, hdirectory⟩ (.cons ⟨n, hname⟩ (.cons ⟨n, htype⟩ (.cons ⟨n, hhost⟩
        (.cons ⟨n, hdevice⟩ (.cons ⟨n, hversion⟩ .nil)))))
    | number hcx | string hcx | bitvector hcx | foreign hcx => simp [equalChildren, hcx] at hx

theorem equal_congruence (L : CLibrary) (heap : Heap) :
    Congruence (equalChildren heap) (fun _ => leafCalls L heap) (fun _ => Equal heap) where
  toSameShape := equal_sameShape heap
  leaf_length := by
    intro depth x y h hx
    obtain ⟨n, hn⟩ := equal_cases h
    cases hn with
    | same => rfl
    | list hcx | pathname hcx => simp [equalChildren, hcx] at hx
    | number hcx hcy heql =>
      obtain ⟨w, rfl, hw⟩ := deref_eq_some.mp hcx
      obtain ⟨w', rfl, hw'⟩ := deref_eq_some.mp hcy
      simp only [leafCalls, hw, hw', numberCalls_length heql]
    | string hcx hcy | bitvector hcx hcy | foreign hcx hcy =>
      obtain ⟨w, rfl, hw⟩ := deref_eq_some.mp hcx
      obtain ⟨w', rfl, hw'⟩ := deref_eq_some.mp hcy
      simp only [leafCalls, hw, hw', List.length_cons, List.length_nil]

theorem leafAgrees_refl (x : Obj) : LeafAgrees L heap x x := by
  unfold LeafAgrees
  cases heap.deref x with
  | none => trivial
  | some c =>
    cases c with
    | number a => exact (numberCalls_iff (Number.eql_equivalence.refl a)).mp rfl
    | bitvector | foreign => rfl
    | _ => trivial

/-- On the leaves the calls agree exactly as LeafAgrees says. -/
theorem leafCalls_iff {depth : ℤ} {x y : Obj} (h : Equal heap x y) :
    (equalChildren heap depth x = none → leafCalls L heap x = leafCalls L heap y) ↔
      LeafAgrees L heap x y := by
  obtain ⟨n, hn⟩ := equal_cases h
  cases hn with
  | same => exact iff_of_true (fun _ => rfl) (leafAgrees_refl x)
  | list hx | pathname hx => simp [equalChildren, LeafAgrees, hx]
  | number hx hy heql =>
    simp only [equalChildren, LeafAgrees, hx, hy, forall_const, ← numberCalls_iff heql]
    obtain ⟨w, rfl, hw⟩ := deref_eq_some.mp hx
    obtain ⟨w', rfl, hw'⟩ := deref_eq_some.mp hy
    simp only [leafCalls, hw, hw']
  | string hx hy hcodes =>
    simp only [equalChildren, LeafAgrees, hx, hy, forall_const, iff_true]
    obtain ⟨w, rfl, hw⟩ := deref_eq_some.mp hx
    obtain ⟨w', rfl, hw'⟩ := deref_eq_some.mp hy
    simp only [leafCalls, hw, hw', hcodes]
  | bitvector hx hy | foreign hx hy =>
    simp only [equalChildren, LeafAgrees, hx, hy, forall_const]
    obtain ⟨w, rfl, hw⟩ := deref_eq_some.mp hx
    obtain ⟨w', rfl, hw'⟩ := deref_eq_some.mp hy
    simp [leafCalls, hw, hw', word]

/-- EQUAL objects have the same hash, for every mixing function, exactly when the leaves
visited by both traversals agree. -/
theorem hash_equal_iff_agrees (L : CLibrary) (heap : Heap) (x y : Obj)
    (hequal : ∃ n, eclEqual heap n x y = some true)
    (hreturns : ∃ n ts,
      tokens (equalChildren heap) (fun _ => leafCalls L heap) n 3 x = some ts) :
    (∀ (H : Type) (mix : H → Call → H) (n : ℕ) (h : H),
      hashEqual mix L heap n 3 h x = hashEqual mix L heap n 3 h y) ↔
    ∀ depth u v, Visits (equalChildren heap) 3 x y depth u v → LeafAgrees L heap u v := by
  have hR := equal_congruence L heap
  have hiff := hash_eq_iff hR (R := fun _ => Equal heap) (d := 3) hequal hreturns
  refine Iff.trans hiff ⟨fun h depth u v hv => ?_, fun h depth u v hv => ?_⟩
  · exact (leafCalls_iff (visits_related hR.toSameShape hv hequal)).mp (h depth u v hv)
  · exact (leafCalls_iff (visits_related hR.toSameShape hv hequal)).mpr (h depth u v hv)

def stringHeap : Heap
  | 8 => .string { base := true, codes := [65, 66] }
  | 16 => .string { base := false, codes := [65, 66] }
  | _ => .other

def noFloats : CLibrary where
  frexpl := fun _ => (0, 0)
  zeroTimes := fun _ _ => 0
  frexpl_zero := by simp [FloatType.isZero, FloatType.magnitude]

theorem hash_equal_iff_agrees_strings :
    hashEqual newhash noFloats stringHeap 1 3 0 (.pointer 8) =
      hashEqual newhash noFloats stringHeap 1 3 0 (.pointer 16) := by
  refine (hash_equal_iff_agrees noFloats stringHeap (.pointer 8) (.pointer 16)
    ⟨1, by decide⟩ ⟨1, _, rfl⟩).mpr ?_ Word newhash 1 0
  intro depth u v hv
  cases hv with
  | here => trivial
  | child hx => simp [equalChildren, Heap.deref, stringHeap] at hx

/-- Eight bits 11110000, once from the start of a byte and once displaced by four bits. -/
def bitHeap : Heap
  | 8 => .bitvector { fillp := 8, offset := 0, bytes := [0xF0] }
  | 16 => .bitvector { fillp := 8, offset := 4, bytes := [0x0F, 0x00] }
  | _ => .other

theorem displaced_bitvectors_hash_apart :
    ¬ ∀ (L : CLibrary) (heap : Heap) (x y : Obj), (∃ n, eclEqual heap n x y = some true) →
      ∀ n, hashEqual newhash L heap n 3 0 x = hashEqual newhash L heap n 3 0 y := by
  intro h
  have hsame := h noFloats bitHeap (.pointer 8) (.pointer 16) ⟨1, by decide⟩ 1
  revert hsame
  decide

end HashEqual
