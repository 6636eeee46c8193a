import Mathlib.Data.List.Basic

/-! Dynamic scope with shallow binding: a table of current values and a stack that saves what
each binding hides. The bindings themselves, innermost first, are the meaning of both. -/
namespace ShallowBinding

variable {S V : Type} [DecidableEq S]

/-- Live bindings, innermost first, over the values that no binding of the stack made. -/
structure Bindings (S V : Type) where
  frames : List (S × V)
  outer : S → Option V

def lookup (outer : S → Option V) : List (S × V) → S → Option V
  | [] => outer
  | (s, v) :: fs => Function.update (lookup outer fs) s (some v)

def saves (outer : S → Option V) : List (S × V) → List (S × Option V)
  | [] => []
  | (s, _) :: fs => (s, lookup outer fs s) :: saves outer fs

def assignFrames (s : S) (v : V) : List (S × V) → List (S × V)
  | [] => []
  | (t, w) :: fs => if t = s then (t, v) :: fs else (t, w) :: assignFrames s v fs

def undo : List (S × Option V) → (S → Option V) → S → Option V
  | [], current => current
  | (s, v) :: rest, current => undo rest (Function.update current s v)

namespace Bindings

def depth (b : Bindings S V) : ℕ := b.frames.length

def current (b : Bindings S V) : S → Option V := lookup b.outer b.frames

def saved (b : Bindings S V) : List (S × Option V) := saves b.outer b.frames

def bind (b : Bindings S V) (s : S) (v : V) : Bindings S V :=
  { b with frames := (s, v) :: b.frames }

def assign (b : Bindings S V) (s : S) (v : V) : Bindings S V where
  frames := assignFrames s v b.frames
  outer := if s ∈ b.frames.map Prod.fst then b.outer else Function.update b.outer s (some v)

def unwind (b : Bindings S V) (n : ℕ) : Bindings S V :=
  { b with frames := b.frames.drop (b.depth - n) }

end Bindings

open Bindings

variable {outer : S → Option V}

theorem lookup_ne_none {fs : List (S × V)} {s : S} (h : s ∈ fs.map Prod.fst) :
    lookup outer fs s ≠ none := by
  induction fs with
  | nil => exact absurd h List.not_mem_nil
  | cons f fs ih =>
    obtain ⟨t, w⟩ := f
    rw [lookup]
    by_cases hs : s = t
    · rw [hs, Function.update_self]
      exact Option.some_ne_none w
    · rw [Function.update_of_ne hs]
      exact ih (by simpa [hs] using h)

theorem saves_length (fs : List (S × V)) : (saves outer fs).length = fs.length := by
  induction fs with
  | nil => rfl
  | cons f fs ih => simpa [saves] using ih

theorem saves_names (fs : List (S × V)) : (saves outer fs).map Prod.fst = fs.map Prod.fst := by
  induction fs with
  | nil => rfl
  | cons f fs ih => simpa [saves] using ih

theorem saves_drop (fs : List (S × V)) : ∀ k,
    (saves outer fs).drop k = saves outer (fs.drop k) := by
  induction fs with
  | nil => simp [saves]
  | cons f fs ih =>
    intro k
    cases k with
    | zero => rfl
    | succ k => exact ih k

theorem undo_saves (fs : List (S × V)) : ∀ k,
    undo ((saves outer fs).take k) (lookup outer fs) = lookup outer (fs.drop k) := by
  induction fs with
  | nil => simp [saves, undo]
  | cons f fs ih =>
    obtain ⟨s, v⟩ := f
    intro k
    cases k with
    | zero => rfl
    | succ k =>
      rw [saves, lookup, List.take_succ_cons, undo, Function.update_idem, Function.update_eq_self]
      exact ih k

theorem lookup_outer_of_ne {s t : S} (hts : t ≠ s) (o : Option V) (fs : List (S × V)) :
    lookup (Function.update outer s o) fs t = lookup outer fs t := by
  induction fs with
  | nil => exact Function.update_of_ne hts _ _
  | cons f fs ih =>
    rw [lookup, lookup]
    by_cases ht : t = f.1
    · rw [ht, Function.update_self, Function.update_self]
    · rw [Function.update_of_ne ht, Function.update_of_ne ht, ih]

theorem lookup_assignFrames_of_ne {s t : S} (hts : t ≠ s) (v : V) (fs : List (S × V)) :
    lookup outer (assignFrames s v fs) t = lookup outer fs t := by
  induction fs with
  | nil => rfl
  | cons f fs ih =>
    obtain ⟨u, w⟩ := f
    rw [assignFrames]
    split
    case isTrue hu =>
      rw [lookup, lookup, Function.update_of_ne (hu ▸ hts), Function.update_of_ne (hu ▸ hts)]
    case isFalse =>
      rw [lookup, lookup]
      by_cases ht : t = u
      · rw [ht, Function.update_self, Function.update_self]
      · rw [Function.update_of_ne ht, Function.update_of_ne ht, ih]

theorem lookup_assignFrames {s : S} (v : V) {fs : List (S × V)} (h : s ∈ fs.map Prod.fst) :
    lookup outer (assignFrames s v fs) s = some v := by
  induction fs with
  | nil => exact absurd h List.not_mem_nil
  | cons f fs ih =>
    obtain ⟨u, w⟩ := f
    rw [assignFrames]
    split
    case isTrue hu => rw [lookup, hu, Function.update_self]
    case isFalse hu =>
      rw [lookup, Function.update_of_ne (Ne.symm hu)]
      exact ih (by simpa [Ne.symm hu] using h)

theorem assignFrames_of_not_mem {s : S} (v : V) {fs : List (S × V)}
    (h : s ∉ fs.map Prod.fst) : assignFrames s v fs = fs := by
  induction fs with
  | nil => rfl
  | cons f fs ih =>
    simp only [List.map_cons, List.mem_cons, not_or] at h
    rw [assignFrames, if_neg (Ne.symm h.1), ih h.2]

theorem assignFrames_length (s : S) (v : V) (fs : List (S × V)) :
    (assignFrames s v fs).length = fs.length := by
  induction fs with
  | nil => rfl
  | cons f fs ih =>
    obtain ⟨u, w⟩ := f
    rw [assignFrames]
    split
    case isTrue => rfl
    case isFalse => rw [List.length_cons, ih, List.length_cons]

theorem saves_assignFrames (s : S) (v : V) (fs : List (S × V)) :
    saves outer (assignFrames s v fs) = saves outer fs := by
  induction fs with
  | nil => rfl
  | cons f fs ih =>
    obtain ⟨u, w⟩ := f
    rw [assignFrames]
    split
    case isTrue => rfl
    case isFalse hu => rw [saves, saves, ih, lookup_assignFrames_of_ne hu]

theorem saves_outer_of_not_mem {s : S} (o : Option V) {fs : List (S × V)}
    (h : s ∉ fs.map Prod.fst) : saves (Function.update outer s o) fs = saves outer fs := by
  induction fs with
  | nil => rfl
  | cons f fs ih =>
    simp only [List.map_cons, List.mem_cons, not_or] at h
    rw [saves, saves, ih h.2, lookup_outer_of_ne (Ne.symm h.1)]

theorem lookup_outer_self {s : S} (v : V) {fs : List (S × V)} (h : s ∉ fs.map Prod.fst) :
    lookup (Function.update outer s (some v)) fs s = some v := by
  induction fs with
  | nil => exact Function.update_self _ _ _
  | cons f fs ih =>
    simp only [List.map_cons, List.mem_cons, not_or] at h
    rw [lookup, Function.update_of_ne h.1, ih h.2]

theorem assignFrames_drop_of_mem {s : S} (v : V) (fs : List (S × V)) : ∀ k,
    s ∈ (fs.take k).map Prod.fst → (assignFrames s v fs).drop k = fs.drop k := by
  induction fs with
  | nil =>
    intro k h
    simp at h
  | cons f fs ih =>
    obtain ⟨u, w⟩ := f
    intro k h
    cases k with
    | zero => simp at h
    | succ k =>
      rw [assignFrames]
      split
      case isTrue => rfl
      case isFalse hu =>
        rw [List.drop_succ_cons, List.drop_succ_cons]
        exact ih k (by simpa [Ne.symm hu] using h)

theorem lookup_assignFrames_drop_of_ne {s t : S} (hts : t ≠ s) (v : V) (fs : List (S × V)) :
    ∀ k, lookup outer ((assignFrames s v fs).drop k) t = lookup outer (fs.drop k) t := by
  induction fs with
  | nil => exact fun k => rfl
  | cons f fs ih =>
    obtain ⟨u, w⟩ := f
    intro k
    cases k with
    | zero => exact lookup_assignFrames_of_ne hts v _
    | succ k =>
      rw [assignFrames]
      split
      case isTrue => rfl
      case isFalse => exact ih k

namespace Bindings

variable {b : Bindings S V}

omit [DecidableEq S] in
@[simp] theorem depth_bind (b : Bindings S V) (s : S) (v : V) :
    (b.bind s v).depth = b.depth + 1 := rfl

theorem saved_length (b : Bindings S V) : b.saved.length = b.depth := saves_length _

@[simp] theorem depth_assign (b : Bindings S V) (s : S) (v : V) :
    (b.assign s v).depth = b.depth := assignFrames_length s v b.frames

theorem current_assign (b : Bindings S V) (s : S) (v : V) :
    (b.assign s v).current = Function.update b.current s (some v) := by
  funext t
  unfold current assign
  by_cases hmem : s ∈ b.frames.map Prod.fst
  · rw [if_pos hmem]
    by_cases ht : t = s
    · rw [ht, Function.update_self, lookup_assignFrames v hmem]
    · rw [Function.update_of_ne ht, lookup_assignFrames_of_ne ht]
  · rw [if_neg hmem, assignFrames_of_not_mem v hmem]
    by_cases ht : t = s
    · rw [ht, Function.update_self, lookup_outer_self v hmem]
    · rw [Function.update_of_ne ht, lookup_outer_of_ne ht]

theorem saved_assign (b : Bindings S V) (s : S) (v : V) : (b.assign s v).saved = b.saved := by
  unfold saved assign
  by_cases hmem : s ∈ b.frames.map Prod.fst
  · rw [if_pos hmem, saves_assignFrames]
  · rw [if_neg hmem, assignFrames_of_not_mem v hmem, saves_outer_of_not_mem _ hmem]

theorem current_unwind (b : Bindings S V) (n : ℕ) :
    (b.unwind n).current = undo (b.saved.take (b.depth - n)) b.current :=
  (undo_saves b.frames _).symm

theorem saved_unwind (b : Bindings S V) (n : ℕ) :
    (b.unwind n).saved = b.saved.drop (b.depth - n) := (saves_drop b.frames _).symm

omit [DecidableEq S] in
theorem depth_unwind (n : ℕ) (h : n ≤ b.depth) : (b.unwind n).depth = n := by
  have hlen : b.frames.length = b.depth := rfl
  simp only [depth, unwind, List.length_drop] at *
  omega

omit [DecidableEq S] in
theorem unwind_of_le {n : ℕ} (h : b.depth ≤ n) : b.unwind n = b := by
  rw [unwind, Nat.sub_eq_zero_of_le h, List.drop_zero]

omit [DecidableEq S] in
theorem unwind_bind {n : ℕ} (h : n ≤ b.depth) (s : S) (v : V) :
    (b.bind s v).unwind n = b.unwind n := by
  unfold unwind
  rw [depth_bind, Nat.succ_sub h]
  rfl

omit [DecidableEq S] in
theorem unwind_unwind {m n : ℕ} (hm : m ≤ b.depth) (hn : n ≤ m) :
    (b.unwind m).unwind n = b.unwind n := by
  have hdepth := depth_unwind m hm
  unfold unwind at *
  simp only [hdepth, List.drop_drop]
  congr 2
  omega

theorem unwind_assign_of_mem {n : ℕ} {s : S} (v : V)
    (h : s ∈ (b.frames.take (b.depth - n)).map Prod.fst) :
    (b.assign s v).unwind n = b.unwind n := by
  have hmem : s ∈ b.frames.map Prod.fst := by
    obtain ⟨f, hf, hfs⟩ := List.mem_map.mp h
    exact List.mem_map.mpr ⟨f, List.mem_of_mem_take hf, hfs⟩
  unfold unwind
  rw [depth_assign]
  simp only [assign, if_pos hmem, assignFrames_drop_of_mem v b.frames _ h]

theorem current_unwind_assign_of_ne {s t : S} (hts : t ≠ s) (v : V) (n : ℕ) :
    ((b.assign s v).unwind n).current t = (b.unwind n).current t := by
  unfold unwind current
  rw [depth_assign]
  by_cases hmem : s ∈ b.frames.map Prod.fst
  · simp only [assign, if_pos hmem]
    exact lookup_assignFrames_drop_of_ne hts v _ _
  · simp only [assign, if_neg hmem]
    rw [lookup_outer_of_ne hts]
    exact lookup_assignFrames_drop_of_ne hts v _ _

end Bindings
end ShallowBinding
