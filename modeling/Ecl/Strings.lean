import Ecl.Characters
import Ecl.SequenceRemoval

/-! The strings of src/c/string.d: octets for base characters or words for all characters. -/
namespace Strings

/-- The storage of a string up to its dimension, and the fill pointer, which a string without one
has at its end. -/
structure LispString where
  extended : Bool
  self : List ℕ
  fillp : ℕ
  fillp_le : fillp ≤ self.length
  base_lt : extended = false → ∀ c ∈ self, c < 256

namespace LispString

def dim (s : LispString) : ℕ := s.self.length

/-- ecl_char, for an index below the dimension. -/
def char (s : LispString) (index : ℕ) : ℕ := s.self.getD index 0

def active (s : LispString) : List ℕ := s.self.take s.fillp

def between (s : LispString) (start stop : ℕ) : List ℕ := (s.self.take stop).drop start

theorem between_nil (s : LispString) {start stop : ℕ} (h : stop ≤ start) :
    s.between start stop = [] := by
  apply List.drop_eq_nil_of_le
  rw [List.length_take]
  omega

theorem between_cons (s : LispString) {start stop : ℕ} (h : start < stop) (hstop : stop ≤ s.dim) :
    s.between start stop = s.char start :: s.between (start + 1) stop := by
  have hdim : start < s.self.length := lt_of_lt_of_le h hstop
  have hlen : start < (s.self.take stop).length := by
    rw [List.length_take]
    exact lt_min h hdim
  rw [between, List.drop_eq_getElem_cons hlen, List.getElem_take, char,
    List.getD_eq_getElem _ _ hdim]
  rfl

theorem length_between (s : LispString) {start stop : ℕ} (hstop : stop ≤ s.dim) :
    (s.between start stop).length = stop - start := by
  rw [dim] at hstop
  rw [between, List.length_drop, List.length_take, Nat.min_eq_left hstop]

def cell (s : LispString) (c : ℕ) : ℕ := if s.extended then c else c % 256

def set (s : LispString) (index c : ℕ) : LispString where
  extended := s.extended
  self := s.self.set index (s.cell c)
  fillp := s.fillp
  fillp_le := by
    rw [List.length_set]
    exact s.fillp_le
  base_lt := by
    intro hbase x hx
    rcases List.mem_or_eq_of_mem_set hx with hx | rfl
    · exact s.base_lt hbase x hx
    · rw [cell, if_neg (by simp [hbase])]
      exact Nat.mod_lt _ (by decide)

/-- cl_copy_seq -/
def copySeq (s : LispString) : LispString where
  extended := s.extended
  self := s.active
  fillp := s.fillp
  fillp_le := by
    rw [active, List.length_take, Nat.min_eq_left s.fillp_le]
  base_lt := by
    intro hbase x hx
    exact s.base_lt hbase x (List.mem_of_mem_take hx)

theorem char_lt (s : LispString) (hbase : s.extended = false) (i : ℕ) : s.char i < 256 := by
  rw [char, List.getD_eq_getElem?_getD]
  cases hget : s.self[i]? with
  | none => exact Nat.zero_lt_succ 255
  | some c => exact s.base_lt hbase c (List.mem_of_getElem? hget)

theorem char_set (s : LispString) {index : ℕ} (h : index < s.dim) (c j : ℕ) :
    (s.set index c).char j = if j = index then s.cell c else s.char j := by
  simp only [char, set, List.getD_eq_getElem?_getD, List.getElem?_set]
  by_cases hj : j = index
  · subst hj
    rw [dim] at h
    simp [h]
  · simp [hj, Ne.symm hj]

theorem dim_set (s : LispString) (index c : ℕ) : (s.set index c).dim = s.dim := List.length_set

theorem dim_copySeq (s : LispString) : s.copySeq.dim = s.fillp :=
  List.length_take_of_le s.fillp_le

theorem char_copySeq (s : LispString) {i : ℕ} (h : i < s.fillp) : s.copySeq.char i = s.char i := by
  change (s.self.take s.fillp).getD i 0 = s.self.getD i 0
  rw [List.getD_eq_getElem?_getD, List.getD_eq_getElem?_getD, List.getElem?_take_of_lt h]

theorem active_eq_iff (s t : LispString) :
    s.active = t.active ↔ s.fillp = t.fillp ∧ ∀ i < s.fillp, s.char i = t.char i := by
  have hlength : ∀ s : LispString, s.active.length = s.fillp :=
    fun s => List.length_take_of_le s.fillp_le
  have hget : ∀ (s : LispString) (i : ℕ), i < s.fillp → s.active[i]? = some (s.char i) := by
    intro s i hi
    rw [active, List.getElem?_take_of_lt hi, List.getElem?_eq_getElem (hi.trans_le s.fillp_le),
      char, List.getD_eq_getElem _ _ (hi.trans_le s.fillp_le)]
  constructor
  · intro h
    have hfillp : s.fillp = t.fillp := by rw [← hlength s, h, hlength t]
    refine ⟨hfillp, fun i hi => Option.some.inj ?_⟩
    rw [← hget s i hi, h, hget t i (hfillp ▸ hi)]
  · rintro ⟨hfillp, hchar⟩
    apply List.ext_getElem?
    intro i
    by_cases hi : i < s.fillp
    · rw [hget s i hi, hget t i (hfillp ▸ hi), hchar i hi]
    · rw [List.getElem?_eq_none (by rw [hlength]; omega),
        List.getElem?_eq_none (by rw [hlength]; omega)]

end LispString

end Strings
