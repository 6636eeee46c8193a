import Ecl.SerializerAgreement
import Ecl.SerializerKeys

/-! The first loop of ecl_deserialize reads the objects that the loop of si_serialize has
written. -/
namespace Serializer

open BreadthFirst Integers

theorem mpzImport_digits (v n : ℕ) :
    mpzImport ((List.range n).reverse.map fun i => v / 256 ^ i % 256) = v % 256 ^ n := by
  have hacc : ∀ acc, ((List.range n).reverse.map fun i => v / 256 ^ i % 256).foldl
      (fun v b => v * 256 + b) acc = acc * 256 ^ n + v % 256 ^ n := by
    induction n with
    | zero => intro acc; simp [Nat.mod_one]
    | succ n ih =>
      intro acc
      rw [List.range_succ, List.reverse_append, List.reverse_singleton, List.singleton_append,
        List.map_cons, List.foldl_cons, ih]
      have hsplit : v % 256 ^ (n + 1) = v % 256 ^ n + 256 ^ n * (v / 256 ^ n % 256) :=
        Nat.mod_pow_succ
      rw [hsplit, Nat.pow_succ]
      ring
  rw [mpzImport, hacc, Nat.zero_mul, Nat.zero_add]

theorem natAbs_lt_bytes (z : ℤ) : z.natAbs < 256 ^ bignumBytes z := by
  have hbits : z.natAbs.size ≤ 8 * bignumBytes z := by
    simp only [bignumBytes, bigIntegerLength]
    omega
  calc z.natAbs < 2 ^ z.natAbs.size := Nat.lt_size_self _
    _ ≤ 2 ^ (8 * bignumBytes z) := Nat.pow_le_pow_right (by decide) hbits
    _ = 256 ^ bignumBytes z := Nat.pow_mul 2 8 _

theorem mpzImport_mpzExport (z : ℤ) : mpzImport (mpzExport z) = z.natAbs := by
  rw [mpzExport, mpzImport_digits]
  exact Nat.mod_eq_of_lt (natAbs_lt_bytes z)

theorem asBytes_byteCells (l : List ℕ) : (byteCells l).flatMap Cell.asBytes = l := by
  fun_induction byteCells l with
  | case1 => rfl
  | case2 a b c d e f g h rest ih => rw [List.flatMap_cons, ih]; rfl
  | case3 rest => simp [Cell.asBytes]

/-- What serialize_bignum appends. -/
def bignumCells (z : ℤ) : List Cell := (Obj.bignum z).chunks.flatten

theorem bignumCells_eq (z : ℤ) : bignumCells z =
    [.bytes [signByte z], .word (bignumBytes z)] ++ byteCells (mpzExport z) := by
  simp [bignumCells, Obj.chunks]

theorem length_bignumCells (z : ℤ) : 8 * (bignumCells z).length = 16 + roundToWord (bignumBytes z) := by
  rw [bignumCells_eq, List.length_append, Nat.mul_add, length_byteCells, length_mpzExport]
  rfl

theorem reconstructBignum_cursor (z : ℤ) (rest : List Cell) :
    (reconstructBignum (bignumCells z ++ rest)).2 = 16 + roundToWord (bignumBytes z % 256) := by
  rw [bignumCells_eq]
  rfl

theorem reconstructBignum_short {z : ℤ} (h : bignumBytes z < 256) (rest : List Cell) :
    reconstructBignum (bignumCells z ++ rest) = (z, 8 * (bignumCells z).length) := by
  have hbytes : bignumBytes z % 256 = bignumBytes z := Nat.mod_eq_of_lt h
  have hdigits : ((byteCells (mpzExport z) ++ rest).flatMap Cell.asBytes).take (bignumBytes z) =
      mpzExport z := by
    rw [List.flatMap_append, asBytes_byteCells]
    exact List.take_left' (length_mpzExport z)
  have hsign : (if signByte z = 255 then -(z.natAbs : ℤ) else z.natAbs) = z := by
    unfold signByte
    split
    · rw [if_pos rfl]
      omega
    · split <;> simp <;> omega
  rw [length_bignumCells, bignumCells_eq]
  simp only [reconstructBignum, List.cons_append, List.nil_append, List.getD_cons_zero,
    List.getD_cons_succ, Cell.firstByte, hbytes, List.drop_succ_cons, List.drop_zero, hdigits,
    mpzImport_mpzExport, hsign]

theorem bignumBytes_lt_iff (z : ℤ) : bignumBytes z < 256 ↔ z.natAbs < 2 ^ 2040 := by
  rw [← Nat.size_le, bignumBytes, bigIntegerLength]
  omega

/-- Whatever follows a bignum, it is read back with all its bytes, exactly if these are fewer than
256. -/
theorem bignum_roundTrip_iff (z : ℤ) :
    (∀ rest, reconstructBignum (bignumCells z ++ rest) = (z, 8 * (bignumCells z).length)) ↔
      z.natAbs < 2 ^ 2040 := by
  rw [← bignumBytes_lt_iff]
  constructor
  · intro hread
    have hcursor := congrArg Prod.snd (hread [])
    rw [reconstructBignum_cursor, length_bignumCells] at hcursor
    simp only [roundToWord] at hcursor
    omega
  · exact reconstructBignum_short

theorem bignumBytes_two_pow (n : ℕ) : bignumBytes (2 ^ n) = (n + 8) / 8 := by
  have hsize : (2 ^ n : ℤ).natAbs.size = n + 1 := by
    rw [Int.natAbs_pow]
    exact Nat.size_pow
  rw [bignumBytes, bigIntegerLength, hsize]
  omega

/-- 256 bytes are written and none is read. -/
theorem long_bignum_lost : reconstructBignum (bignumCells (2 ^ 2040)) = (0, 16) ∧
    8 * (bignumCells (2 ^ 2040)).length = 272 := by
  constructor
  · rw [bignumCells_eq, bignumBytes_two_pow]
    generalize signByte (2 ^ 2040) = sign
    generalize mpzExport (2 ^ 2040) = magnitude
    simp [reconstructBignum, Cell.firstByte, mpzImport, roundToWord]
  · rw [length_bignumCells, bignumBytes_two_pow]
    rfl

theorem reconstructOne_bignum {z : ℤ} (h : bignumBytes z < 256) (rest : List Cell) :
    reconstructOne ((Obj.bignum z).cells ++ rest) =
      some (.bignum z, 8 * (Obj.bignum z).cells.length) := by
  have hone : ∀ tail, reconstructOne ((Obj.bignum z).structCells ++ tail) =
      some (.bignum (reconstructBignum tail).1, 24 + (reconstructBignum tail).2) := fun _ => rfl
  have hsize : 8 * (Obj.bignum z).cells.length = 24 + 8 * (bignumCells z).length := by
    rw [Obj.cells, List.length_append, Nat.mul_add]
    rfl
  rw [hsize, Obj.cells, List.append_assoc, hone, ← bignumCells, reconstructBignum_short h]

/-- The objects that are read back as they are. A cons of two zeros is taken for NIL. -/
def Obj.Kept : Obj ℕ → Prop
  | .cons car cdr => ¬ (car = 0 ∧ cdr = 0)
  | .bignum z => bignumBytes z < 256
  | .array _ a => a.Readable
  | .vector kind _ a => a.Readable ∧ kind.keptOffset a.offset = a.offset
  | .nil | .bytecodes _ | .other => False
  | _ => True

theorem reconstructOne_kept {o : Obj ℕ} (h : o.Kept) (rest : List Cell) :
    reconstructOne (o.cells ++ rest) = some (o, 8 * o.cells.length) := by
  cases o with
  | nil => exact h.elim
  | bytecodes b => exact h.elim
  | other => exact h.elim
  | cons car cdr =>
    have hone : reconstructOne ((Obj.cons car cdr).cells ++ rest) =
        some (if car = 0 ∧ cdr = 0 then .nil else .cons car cdr, 24) := rfl
    rw [hone, if_neg h]
    rfl
  | bignum z => exact reconstructOne_bignum h rest
  | hashtable table => exact reconstructOne_hashtable table rest
  | array dims a => exact reconstructOne_array dims h rest
  | vector kind fillp a =>
    rw [reconstructOne_vector kind fillp h.1, h.2]
  | ratio den num | singlefloat bits | doublefloat bits | longfloat low high | complex real imag
  | symbol name hpack | package name | random value
  | pathname logical host device directory name type version | bclosure code lex => rfl

theorem reconstructAll_cells {objs : List (Obj ℕ)} (h : ∀ o ∈ objs, o.Kept) :
    reconstructAll objs.length (objs.flatMap Obj.cells) = some objs := by
  induction objs with
  | nil => rfl
  | cons o objs ih =>
    have hone := reconstructOne_kept (h o List.mem_cons_self) (objs.flatMap Obj.cells)
    have hrest := ih fun o' ho' => h o' (List.mem_cons_of_mem _ ho')
    rw [List.flatMap_cons, List.length_cons, reconstructAll, hone]
    simp [hrest]

section loop
variable {A : Type} {S : Sameness A} {heap : A → Obj (Ref A)} {root : A}

/-- What serialize_one writes for an object, by the numbers of the objects. -/
def numberedObj (heap : A → Obj (Ref A)) (a : A) (num : A → ℕ) : Obj ℕ :=
  (heap a).plain.map (wordOf num)

abbrev Searched (S : Sameness A) (heap : A → Obj (Ref A)) (root : A) :=
  Progress (S := S) (fun a => (heap a).targets) (numberedObj heap) root

/-- Bytecodes have a size that depends on the buffer, and some types cannot be written. -/
def Obj.Plain {R : Type} : Obj (Ref R) → Prop
  | .bytecodes _ => False
  | o => o.Supported

theorem Obj.Plain.supported {o : Obj (Ref A)} (h : o.Plain) : o.Supported := by
  cases o with
  | bytecodes b => exact h.elim
  | _ => exact h

theorem stored_numberedObj {a : A} (h : (heap a).Plain) (buffer : Buffer) (num : A → ℕ) :
    stored buffer (numberedObj heap a num) = numberedObj heap a num := by
  unfold numberedObj
  cases ha : heap a with
  | bytecodes b =>
    rw [ha] at h
    exact h.elim
  | _ => rfl

theorem Searched.out_eq {done : List A} {w : Worklist A} {out : List (Obj ℕ)}
    (h : Searched S heap root done w out) :
    out = done.map fun a => numberedObj heap a fun k => (number? S w.keys k).getD 0 := by
  refine h.out _ fun k hk r hr => ?_
  obtain ⟨i, hi⟩ := Option.isSome_iff_exists.mp (h.closed k hk r hr)
  rw [hi]
  rfl

theorem Searched.serializeOne {done queue keys : List A} {a : A} {out : List (Obj ℕ)}
    {buffer : Buffer} (h : Searched S heap root done ⟨keys, a :: queue⟩ out)
    (ha : (heap a).Plain) (hcells : buffer.cells = initBuffer.cells ++ out.flatMap Obj.cells) :
    ∃ v pool, Serializer.serializeOne S (heap a) ⟨buffer, ⟨keys, queue⟩⟩ = .ok pool ∧
      Searched S heap root (done ++ [a]) pool.work (out ++ [v]) ∧
      pool.work = (heap a).targets.foldl (meet S) ⟨keys, queue⟩ ∧
      pool.buffer.cells = initBuffer.cells ++ (out ++ [v]).flatMap Obj.cells := by
  have hfields := interns_fields (S := S) ha.supported
  obtain ⟨v, work, hrun, hnext⟩ := h.step hfields.emits
  obtain ⟨v', hmeets⟩ := hfields.meets ⟨keys, queue⟩
  rw [hrun] at hmeets
  obtain ⟨rfl, hwork⟩ := Prod.mk.inj (Except.ok.inj hmeets)
  refine ⟨v, ⟨buffer.write v, work⟩, by rw [Serializer.serializeOne, hrun], hnext, hwork, ?_⟩
  have hv : ∃ num, v = numberedObj heap a num := by
    have hout := Searched.out_eq hnext
    rw [List.map_append] at hout
    exact ⟨_, List.singleton_injective (List.append_inj' hout rfl).2⟩
  obtain ⟨num, rfl⟩ := hv
  rw [Buffer.write_cells, stored_numberedObj ha, hcells]
  simp

theorem serializeLoop_searched {nodes : Finset A}
    (hnodes : ∀ a, Reached (fun a => (heap a).targets) root a → a ∈ nodes)
    (hplain : ∀ a, Reached (fun a => (heap a).targets) root a → (heap a).Plain) (fuel : ℕ)
    {done : List A} {pool : Pool A} {out : List (Obj ℕ)}
    (h : Searched S heap root done pool.work out)
    (hcells : pool.buffer.cells = initBuffer.cells ++ out.flatMap Obj.cells)
    (hfuel : nodes.card ≤ done.length + fuel) :
    ∃ keys out buffer, keys = search S (fun a => (heap a).targets) fuel pool.work ∧
      Searched S heap root keys ⟨keys, []⟩ out ∧
      buffer.cells = initBuffer.cells ++ out.flatMap Obj.cells ∧
      serializeLoop S heap fuel pool = .ok (some (closePool buffer keys.length)) := by
  induction fuel generalizing done pool out with
  | zero =>
    obtain ⟨buffer, keys, queue⟩ := pool
    cases queue with
    | nil =>
      have hkeys : keys = done := h.keys.trans (List.append_nil _)
      rw [hkeys] at h
      exact ⟨done, out, buffer, hkeys.symm, h, hcells, by rw [serializeLoop, hkeys]⟩
    | cons a queue =>
      have hroom := h.length_le hnodes
      simp only [List.length_cons] at hroom
      omega
  | succ fuel ih =>
    obtain ⟨buffer, keys, queue⟩ := pool
    cases queue with
    | nil =>
      have hkeys : keys = done := h.keys.trans (List.append_nil _)
      rw [hkeys] at h
      exact ⟨done, out, buffer, hkeys.symm, h, hcells, by rw [serializeLoop, hkeys]⟩
    | cons a queue =>
      have ha : (heap a).Plain := hplain a (h.reached a (h.keys ▸ by simp))
      obtain ⟨v, pool, hone, hnext, hwork, hcells'⟩ := h.serializeOne ha hcells
      have hfuel' : nodes.card ≤ (done ++ [a]).length + fuel := by
        rw [List.length_append, List.length_singleton]
        omega
      obtain ⟨keys', out', buffer', horder, hend, hread, hloop⟩ := ih hnext hcells' hfuel'
      rw [hwork] at horder
      exact ⟨keys', out', buffer', horder, hend, hread, by simp only [serializeLoop, hone, hloop]⟩

end loop

end Serializer
