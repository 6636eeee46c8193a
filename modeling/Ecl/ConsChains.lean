import Mathlib.Data.List.Nodup
import Mathlib.Data.List.Perm.Subperm

/-! Lists as chains of cells in a memory, and operations that change their links. -/
namespace ConsChains

structure Cell (α : Type*) where
  car : α
  cdr : Option ℕ
  deriving DecidableEq

structure Memory (α : Type*) where
  cell : ℕ → Cell α
  size : ℕ

variable {α : Type*}

def Memory.car (m : Memory α) (a : ℕ) : α := (m.cell a).car

def Memory.cdr (m : Memory α) (a : ℕ) : Option ℕ := (m.cell a).cdr

def Memory.rplacd (m : Memory α) (a : ℕ) (q : Option ℕ) : Memory α :=
  { m with cell := Function.update m.cell a { m.cell a with cdr := q } }

def Memory.cons (m : Memory α) (x : α) (q : Option ℕ) : Memory α × ℕ :=
  ({ cell := Function.update m.cell m.size ⟨x, q⟩, size := m.size + 1 }, m.size)

def Segment (m : Memory α) : Option ℕ → List ℕ → Option ℕ → Prop
  | p, [], q => p = q
  | p, a :: l, q => p = some a ∧ Segment m (m.cdr a) l q

structure Chain (m : Memory α) (p : Option ℕ) (l : List ℕ) : Prop where
  links : Segment m p l none
  nodup : l.Nodup
  used : ∀ a ∈ l, a < m.size

@[simp] theorem rplacd_car (m : Memory α) (a : ℕ) (q : Option ℕ) : (m.rplacd a q).car = m.car := by
  funext b
  by_cases h : b = a
  · subst h
    simp [Memory.car, Memory.rplacd]
  · simp [Memory.car, Memory.rplacd, h]

@[simp] theorem rplacd_cdr_self (m : Memory α) (a : ℕ) (q : Option ℕ) :
    (m.rplacd a q).cdr a = q := by
  simp [Memory.cdr, Memory.rplacd]

theorem rplacd_cdr_of_ne (m : Memory α) {a b : ℕ} (q : Option ℕ) (h : b ≠ a) :
    (m.rplacd a q).cdr b = m.cdr b := by
  simp [Memory.cdr, Memory.rplacd, h]

@[simp] theorem rplacd_size (m : Memory α) (a : ℕ) (q : Option ℕ) :
    (m.rplacd a q).size = m.size := rfl

theorem cons_car_of_lt (m : Memory α) (x : α) (q : Option ℕ) {a : ℕ} (h : a < m.size) :
    (m.cons x q).1.car a = m.car a := by
  simp [Memory.car, Memory.cons, Nat.ne_of_lt h]

theorem cons_cdr_of_lt (m : Memory α) (x : α) (q : Option ℕ) {a : ℕ} (h : a < m.size) :
    (m.cons x q).1.cdr a = m.cdr a := by
  simp [Memory.cdr, Memory.cons, Nat.ne_of_lt h]

theorem cons_cdr_self (m : Memory α) (x : α) (q : Option ℕ) : (m.cons x q).1.cdr m.size = q := by
  simp [Memory.cdr, Memory.cons]

theorem Segment.congr {m m' : Memory α} {p q : Option ℕ} {l : List ℕ} (h : Segment m p l q)
    (hl : ∀ a ∈ l, m'.cdr a = m.cdr a) : Segment m' p l q := by
  induction l generalizing p with
  | nil => exact h
  | cons a l ih =>
    refine ⟨h.1, ?_⟩
    rw [hl a List.mem_cons_self]
    exact ih h.2 fun b hb => hl b (List.mem_cons_of_mem _ hb)

theorem Segment.append {m : Memory α} {p q r : Option ℕ} {l l' : List ℕ} (h : Segment m p l q)
    (h' : Segment m q l' r) : Segment m p (l ++ l') r := by
  induction l generalizing p with
  | nil =>
    cases h
    exact h'
  | cons a l ih => exact ⟨h.1, ih h.2⟩

theorem Segment.relink {m : Memory α} {p q : Option ℕ} {l : List ℕ} {a : ℕ}
    (h : Segment m p (l ++ [a]) q) (ha : a ∉ l) (r : Option ℕ) :
    Segment (m.rplacd a r) p (l ++ [a]) r := by
  induction l generalizing p with
  | nil => exact ⟨h.1, rplacd_cdr_self m a r⟩
  | cons b l ih =>
    refine ⟨h.1, ?_⟩
    have hb : b ≠ a := fun hb => ha (hb ▸ List.mem_cons_self)
    rw [rplacd_cdr_of_ne m r hb]
    exact ih h.2 fun hm => ha (List.mem_cons_of_mem _ hm)

theorem Segment.split {m : Memory α} {p r : Option ℕ} {l l' : List ℕ}
    (h : Segment m p (l ++ l') r) : ∃ q, Segment m p l q ∧ Segment m q l' r := by
  induction l generalizing p with
  | nil => exact ⟨p, rfl, h⟩
  | cons a l ih =>
    obtain ⟨q, hl, hl'⟩ := ih h.2
    exact ⟨q, ⟨h.1, hl⟩, hl'⟩

theorem Segment.last_cdr {m : Memory α} {p q : Option ℕ} {l : List ℕ} {a : ℕ}
    (h : Segment m p (l ++ [a]) q) : m.cdr a = q := by
  induction l generalizing p with
  | nil => exact h.2
  | cons b l ih => exact ih h.2

def contents (m : Memory α) : ℕ → Option ℕ → List α
  | 0, _ => []
  | _ + 1, none => []
  | n + 1, some a => m.car a :: contents m n (m.cdr a)

theorem contents_spec {n : ℕ} {m : Memory α} {p : Option ℕ} {l : List ℕ}
    (h : Segment m p l none) (hn : l.length ≤ n) : contents m n p = l.map m.car := by
  induction l generalizing n p with
  | nil =>
    cases h
    cases n <;> rfl
  | cons b l ih =>
    obtain ⟨rfl, hrest⟩ := h
    cases n with
    | zero => exact absurd hn (by simp)
    | succ n => rw [contents, ih hrest (Nat.le_of_succ_le_succ hn), List.map_cons]

theorem Chain.length_le {m : Memory α} {p : Option ℕ} {l : List ℕ} (h : Chain m p l) :
    l.length ≤ m.size := by
  have hsub : l ⊆ List.range m.size := fun a ha => List.mem_range.mpr (h.used a ha)
  have hle := (List.subperm_of_subset h.nodup hsub).length_le
  rwa [List.length_range] at hle

theorem Chain.cons {m : Memory α} {p : Option ℕ} {l : List ℕ} (h : Chain m p l) (x : α) :
    Chain (m.cons x p).1 (some m.size) (m.size :: l) where
  links := ⟨rfl, by
    rw [cons_cdr_self]
    exact h.links.congr fun b hb => cons_cdr_of_lt m x p (h.used b hb)⟩
  nodup := List.nodup_cons.mpr ⟨fun hm => Nat.lt_irrefl _ (h.used _ hm), h.nodup⟩
  used := by
    intro b hb
    obtain rfl | hb := List.mem_cons.mp hb
    · exact Nat.lt_succ_self _
    · exact Nat.lt_succ_of_lt (h.used b hb)

theorem Chain.cons_map_car {m : Memory α} {p : Option ℕ} {l : List ℕ} (h : Chain m p l) (x : α) :
    l.map (m.cons x p).1.car = l.map m.car :=
  List.map_congr_left fun b hb => cons_car_of_lt m x p (h.used b hb)

/-- The loop over a list: every cell is linked to the one before it. The number bounds the cells
that are left. -/
def reverseLoop : ℕ → Memory α → Option ℕ → Option ℕ → Memory α × Option ℕ
  | 0, m, _, y => (m, y)
  | n + 1, m, x, y =>
    match x with
    | none => (m, y)
    | some z => reverseLoop n (m.rplacd z y) (m.cdr z) (some z)

theorem reverseLoop_spec {n : ℕ} {m : Memory α} {x y : Option ℕ} {l : List ℕ} (done : List ℕ)
    (hn : l.length ≤ n) (hx : Segment m x l none) (hy : Segment m y done none)
    (hnodup : (l ++ done).Nodup) :
    Segment (reverseLoop n m x y).1 (reverseLoop n m x y).2 (l.reverse ++ done) none ∧
      (reverseLoop n m x y).1.car = m.car ∧ (reverseLoop n m x y).1.size = m.size := by
  induction l generalizing n m x y done with
  | nil =>
    have hnone : x = none := hx
    subst hnone
    cases n <;> exact ⟨hy, rfl, rfl⟩
  | cons a l ih =>
    obtain ⟨rfl, hrest⟩ := hx
    cases n with
    | zero => exact absurd hn (by simp)
    | succ n =>
      have hd := List.nodup_cons.mp hnodup
      have ha : a ∉ l := fun h => hd.1 (List.mem_append_left _ h)
      have hdone : a ∉ done := fun h => hd.1 (List.mem_append_right _ h)
      have hnext := ih (n := n) (m := m.rplacd a y) (x := m.cdr a) (y := some a) (a :: done) (by simpa using hn)
        (hrest.congr fun b hb => rplacd_cdr_of_ne m y fun he => ha (he ▸ hb))
        ⟨rfl, by
          rw [rplacd_cdr_self]
          exact hy.congr fun b hb => rplacd_cdr_of_ne m y fun he => hdone (he ▸ hb)⟩
        (List.nodup_middle.mpr hnodup)
      rw [reverseLoop, List.reverse_cons, List.append_assoc, List.singleton_append]
      exact ⟨hnext.1, hnext.2.1.trans (rplacd_car m a y), hnext.2.2⟩

theorem reverseLoop_frame {n : ℕ} {m : Memory α} {x y : Option ℕ} {l : List ℕ}
    (hx : Segment m x l none) (hnodup : l.Nodup) {b : ℕ} (hb : b ∉ l) :
    (reverseLoop n m x y).1.cdr b = m.cdr b := by
  induction n generalizing m x y l with
  | zero => rfl
  | succ n ih =>
    cases l with
    | nil =>
      cases hx
      rfl
    | cons a l =>
      obtain ⟨rfl, hrest⟩ := hx
      have hd := List.nodup_cons.mp hnodup
      rw [reverseLoop, ih (hrest.congr fun c hc => rplacd_cdr_of_ne m y fun he : c = a =>
        hd.1 (he ▸ hc)) hd.2 (List.not_mem_of_not_mem_cons hb),
        rplacd_cdr_of_ne m y (List.ne_of_not_mem_cons hb)]

theorem Chain.reverse {m : Memory α} {p : Option ℕ} {l : List ℕ} (h : Chain m p l) :
    Chain (reverseLoop m.size m p none).1 (reverseLoop m.size m p none).2 l.reverse ∧
      (reverseLoop m.size m p none).1.car = m.car ∧ (reverseLoop m.size m p none).1.size = m.size := by
  obtain ⟨hlinks, hcar, hsize⟩ := reverseLoop_spec [] h.length_le h.links
    (show Segment m none [] none from rfl) (by simpa using h.nodup)
  rw [List.append_nil] at hlinks
  refine ⟨⟨hlinks, List.nodup_reverse.mpr h.nodup, fun a ha => ?_⟩, hcar, hsize⟩
  rw [hsize]
  exact h.used a (List.mem_reverse.mp ha)

end ConsChains
