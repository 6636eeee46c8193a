import Ecl.SerializerCursor

/-! serialize_one and reconstruct_one agree on the size of an object, but for long bignums and for
bytecodes. -/
namespace Serializer

open BreadthFirst Integers

variable {A : Type} {S : Sameness A}

def Obj.WellFormed : Obj (Ref A) → Prop
  | .array _ a | .vector _ _ a => a.plain.displaced = none → a.plain.Fits
  | .bytecodes b => 8 * b.code.length = roundToWord b.codeSize
  | _ => True

theorem serializeVector_supported {a : ArrayData (Ref A)} {w : Worklist A}
    {r : ArrayData ℕ × Worklist A} (h : serializeVector S a w = .ok r) : a.Supported := by
  intro hsome hbit
  obtain ⟨elttype, flags, dim, displaced, self, index, offset⟩ := a
  have hthrow : ∀ owner : Ref A, (if elttype = .bit then throw SerializeError.displacedBitvector
      else do
        let owner ← enqueue S owner
        pure (⟨elttype, flags, dim, some owner, .words [], index, offset⟩ : ArrayData ℕ) :
        Writer A (ArrayData ℕ)) w ≠ .ok r := by
    intro owner
    rw [if_pos hbit]
    exact fun hr => nomatch hr
  cases displaced with
  | none => cases hsome
  | some owner =>
    cases owner with
    | nil => cases hsome
    | null => exact hthrow .null h
    | fixnum n => exact hthrow (.fixnum n) h
    | character code => exact hthrow (.character code) h
    | object b => exact hthrow (.object b) h

theorem bind_ok {α β : Type} {m : Writer A α} {k : α → Writer A β} {w : Worklist A}
    {r : β × Worklist A} (h : (m >>= k) w = .ok r) : ∃ x, m w = .ok x ∧ k x.1 x.2 = .ok r := by
  simp only [bind, StateT.bind] at h
  cases hm : m w with
  | error e =>
    rw [hm] at h
    cases h
  | ok x =>
    rw [hm] at h
    exact ⟨x, rfl, h⟩

theorem serializeFields_supported {o : Obj (Ref A)} {w : Worklist A} {r : Obj ℕ × Worklist A}
    (h : serializeFields S o w = .ok r) : o.Supported := by
  cases o with
  | array dims a | vector kind fillp a =>
    obtain ⟨x, hx, -⟩ := bind_ok h
    exact serializeVector_supported hx
  | other => cases h
  | _ => trivial

theorem Buffer.foldl_cells (chunks : List (List Cell)) (buffer : Buffer) :
    (chunks.foldl Buffer.alloc buffer).cells = buffer.cells ++ chunks.flatten := by
  induction chunks generalizing buffer with
  | nil => exact (List.append_nil _).symm
  | cons chunk chunks ih =>
    rw [List.foldl_cons, ih, List.flatten_cons]
    exact List.append_assoc _ _ _

theorem stored_chunks (buffer : Buffer) (o : Obj ℕ) : (stored buffer o).chunks = o.chunks := by
  cases o <;> rfl

theorem Buffer.write_cells (buffer : Buffer) (o : Obj ℕ) :
    (buffer.write o).cells = buffer.cells ++ (stored buffer o).cells := by
  rw [Buffer.write, Buffer.foldl_cells, Obj.cells, stored_chunks]
  exact List.append_assoc _ _ _

theorem serializeOne_cells {o : Obj (Ref A)} {pool pool' : Pool A}
    (h : serializeOne S o pool = .ok pool') : o.Supported ∧ ∃ num : A → ℕ,
      pool'.buffer.cells =
        pool.buffer.cells ++ (stored pool.buffer (o.plain.map (wordOf num))).cells := by
  unfold serializeOne at h
  split at h
  · cases h
  · next x work hx =>
    have hsupported := serializeFields_supported hx
    obtain ⟨y, w, hy, hext, hval⟩ := (interns_fields (S := S) hsupported).emits pool.work
    rw [hx] at hy
    cases hy
    let num : A → ℕ := fun a => (number? S work.keys a).getD 0
    have hnum : ∀ a ∈ o.targets, number? S work.keys a = some (num a) := by
      intro a ha
      obtain ⟨i, hi⟩ := Option.isSome_iff_exists.mp (hext.numbered a ha)
      simp [num, hi]
    cases h
    exact ⟨hsupported, num, by rw [Buffer.write_cells, hval num hnum]⟩

theorem wordOf_ne_one {num : A → ℕ} {r : Ref A} (h : r ≠ .nil) : wordOf num r ≠ 1 := by
  cases r with
  | nil => exact absurd rfl h
  | _ => simp only [wordOf, fixToPtr]; omega

theorem ArrayData.plain_displaced_ne_nil (a : ArrayData (Ref A)) : a.plain.displaced ≠ some .nil := by
  obtain ⟨elttype, flags, dim, displaced, self, index, offset⟩ := a
  cases displaced with
  | none => exact nofun
  | some owner => cases owner <;> exact nofun

theorem ArrayData.Fits.map {R T : Type} {g : R → T} {a : ArrayData R} (h : a.Fits) :
    (a.map g).Fits := by
  obtain ⟨elttype, flags, dim, displaced, self, index, offset⟩ := a
  cases self with
  | objects l => exact ⟨h.1, (List.length_map _).trans h.2⟩
  | words l => exact h

theorem ArrayData.plain_readable {a : ArrayData (Ref A)}
    (h : a.plain.displaced = none → a.plain.Fits) (num : A → ℕ) :
    (a.plain.map (wordOf num)).Readable where
  owner := by
    intro hone
    obtain ⟨owner, howner, hword⟩ := Option.map_eq_some_iff.mp hone
    refine wordOf_ne_one (fun hnil => a.plain_displaced_ne_nil ?_) hword
    rw [howner, hnil]
  fits := by
    intro hnone
    have hplain : a.plain.displaced = none := Option.map_eq_none_iff.mp hnone
    refine ⟨(h hplain).map, ?_⟩
    obtain ⟨elttype, flags, dim, displaced, self, index, offset⟩ := a
    cases displaced with
    | none => rfl
    | some owner =>
      cases owner with
      | nil => rfl
      | _ => cases hplain
  bare := by
    intro hsome
    obtain ⟨elttype, flags, dim, displaced, self, index, offset⟩ := a
    cases displaced with
    | none => exact absurd rfl hsome
    | some owner =>
      cases owner with
      | nil => exact absurd rfl hsome
      | _ => rfl

theorem stored_readable {o : Obj (Ref A)} (hsupported : o.Supported) (h : o.WellFormed)
    (buffer : Buffer) (num : A → ℕ) : (stored buffer (o.plain.map (wordOf num))).Readable := by
  cases o with
  | array dims a => exact ArrayData.plain_readable h num
  | vector kind fillp a => exact ArrayData.plain_readable h num
  | other => exact hsupported.elim
  | _ => trivial

/-- The buffer moves when the code is appended to the structure of bytecodes. -/
def Buffer.movesForCode (buffer : Buffer) (codeSize : ℕ) : Bool :=
  let index := buffer.fillp + objectSize .bytecodes
  (if buffer.dim ≤ index then index + index / 2 else buffer.dim) ≤ index + roundToWord codeSize

/-- The size of the code has to be its index in the buffer, or a whole number of words where the
buffer moves. -/
def Buffer.codeSizeAgrees (buffer : Buffer) (codeSize : ℕ) : Prop :=
  if buffer.movesForCode codeSize then codeSize % 8 = 0
  else buffer.fillp + objectSize .bytecodes = roundToWord codeSize

def Obj.SizeAgrees (buffer : Buffer) : Obj (Ref A) → Prop
  | .bignum z => bignumBytes z < 256
  | .bytecodes b => buffer.codeSizeAgrees b.codeSize
  | _ => True

theorem bignum_size (z : ℤ) :
    (Obj.bignum z).bytesRead = 8 * (Obj.bignum z).cells.length ↔ bignumBytes z < 256 := by
  have hmagnitude := length_byteCells (mpzExport z)
  rw [length_mpzExport] at hmagnitude
  have hlength : (Obj.bignum z).cells.length = 5 + (byteCells (mpzExport z)).length := by
    simp [Obj.cells, Obj.structCells, Obj.chunks]
    omega
  rw [hlength, Nat.mul_add, hmagnitude]
  simp only [Obj.bytesRead, objectSize, roundToWord]
  omega

theorem bytecodes_size (buffer : Buffer) {b : Bytecodes ℕ}
    (h : 8 * b.code.length = roundToWord b.codeSize) :
    (stored buffer (.bytecodes b)).bytesRead = 8 * (stored buffer (.bytecodes b)).cells.length ↔
      buffer.codeSizeAgrees b.codeSize := by
  have hlength : (stored buffer (.bytecodes b)).cells.length = 11 + b.code.length := by
    simp [stored, Obj.cells, Obj.structCells, Obj.chunks]
    omega
  have hindex : (buffer.alloc (Obj.bytecodes b).structCells).fillp = buffer.fillp + 88 := by
    simp only [Buffer.fillp, Buffer.alloc, List.length_append, Nat.mul_add]
    rfl
  have hmoves : (buffer.alloc (Obj.bytecodes b).structCells).moves (b.code.map .word) =
      buffer.movesForCode b.codeSize := by
    rw [Buffer.moves, hindex, List.length_map, h, Buffer.movesForCode]
    simp only [Buffer.alloc, Buffer.moves, decide_eq_true_eq]
    rfl
  have hread : (stored buffer (.bytecodes b)).bytesRead = 88 +
      if buffer.movesForCode b.codeSize then b.codeSize else buffer.fillp + 88 := by
    rw [← hindex, ← hmoves]
    rfl
  rw [hlength, hread, Nat.mul_add, h, Buffer.codeSizeAgrees]
  split
  · simp only [roundToWord]
    omega
  · simp only [objectSize]
    omega

/-- What serialize_one appends to the buffer. -/
def appended (pool pool' : Pool A) : List Cell :=
  pool'.buffer.cells.drop pool.buffer.cells.length

/-- Whatever follows the object, reconstruct_one takes as many bytes for it as have been
appended. -/
def CursorsAgree (pool pool' : Pool A) : Prop :=
  ∀ rest, (reconstructOne (appended pool pool' ++ rest)).map Prod.snd =
    some (8 * (appended pool pool').length)

theorem cursors_agree_iff_bytesRead {o : Obj ℕ} (h : o.Readable) {pool pool' : Pool A}
    (hcells : pool'.buffer.cells = pool.buffer.cells ++ o.cells) :
    CursorsAgree pool pool' ↔ o.bytesRead = 8 * o.cells.length := by
  have hbytes := reconstructOne_bytes h
  rw [CursorsAgree, appended, hcells, List.drop_left]
  constructor
  · intro hagree
    exact Option.some.inj ((hbytes []).symm.trans (hagree []))
  · intro hsize rest
    rw [hbytes rest, hsize]

theorem plain_size {o : Obj (Ref A)} (h : o.WellFormed) (buffer : Buffer) (num : A → ℕ) :
    (stored buffer (o.plain.map (wordOf num))).bytesRead =
      8 * (stored buffer (o.plain.map (wordOf num))).cells.length ↔ o.SizeAgrees buffer := by
  cases o with
  | bignum z => exact bignum_size z
  | bytecodes b => exact bytecodes_size buffer h
  | _ => exact ⟨fun _ => trivial, fun _ => rfl⟩

/-- The reader is at the next object after one that is written to any buffer, unless the object is
a bignum of 256 bytes or more, or bytecodes whose size is not the one that is read. -/
theorem cursors_agree_iff {o : Obj (Ref A)} (ho : o.WellFormed) {pool pool' : Pool A}
    (h : serializeOne S o pool = .ok pool') :
    CursorsAgree pool pool' ↔ o.SizeAgrees pool.buffer := by
  obtain ⟨hsupported, num, hcells⟩ := serializeOne_cells h
  have hreadable := stored_readable hsupported ho pool.buffer num
  exact (cursors_agree_iff_bytesRead hreadable hcells).trans (plain_size ho pool.buffer num)

def identity (A : Type) [DecidableEq A] : Sameness A where
  same a b := a = b
  refl a := by simp
  symm a b := by simp [eq_comm]
  trans a b c := by simp; exact Eq.trans

theorem cursors_agree_after_word :
    CursorsAgree (initPool 0) ⟨initBuffer.write (.bignum (2 ^ 64)), ⟨[0], [0]⟩⟩ := by
  have hsize : (2 ^ 64 : ℤ).natAbs.size ≤ 65 := by
    rw [Nat.size_le]
    decide
  refine (cursors_agree_iff (S := identity ℕ) (o := .bignum (2 ^ 64)) trivial rfl).mpr ?_
  simp only [Obj.SizeAgrees, bignumBytes, bigIntegerLength]
  omega

/-- The length 256 is read as 0. -/
theorem long_bignum_disagrees : ∃ pool : Pool ℕ,
    serializeOne (identity ℕ) (.bignum (2 ^ 2040)) (initPool 0) = .ok pool ∧
      ¬ CursorsAgree (initPool 0) pool := by
  have hsize : ∀ n, (2 ^ n : ℤ).natAbs.size = n + 1 := by
    intro n
    rw [Int.natAbs_pow]
    exact Nat.size_pow
  refine ⟨⟨initBuffer.write (.bignum (2 ^ 2040)), ⟨[0], [0]⟩⟩, rfl, fun hagree => ?_⟩
  have hbytes := (cursors_agree_iff_bytesRead (o := .bignum (2 ^ 2040)) trivial
    (initBuffer.write_cells (.bignum (2 ^ 2040)))).mp hagree
  rw [bignum_size, bignumBytes, bigIntegerLength, hsize] at hbytes
  exact absurd hbytes (by decide)

end Serializer
