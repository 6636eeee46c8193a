import Ecl.Deserializer

/-! What serialize_one writes: the object itself, with the numbers of other objects in the places
of these. -/
namespace Serializer

open BreadthFirst Integers

section maps
variable {R T : Type} (g : R → T)

def Contents.map : Contents R → Contents T
  | .objects l => .objects (l.map g)
  | .words l => .words l

def ArrayData.map (a : ArrayData R) : ArrayData T :=
  ⟨a.elttype, a.flags, a.dim, a.displaced.map g, a.self.map g, a.index, a.offset⟩

def Obj.map : Obj R → Obj T
  | .nil => .nil
  | .cons car cdr => .cons (g car) (g cdr)
  | .bignum z => .bignum z
  | .ratio den num => .ratio (g den) (g num)
  | .singlefloat bits => .singlefloat bits
  | .doublefloat bits => .doublefloat bits
  | .longfloat low high => .longfloat low high
  | .complex real imag => .complex (g real) (g imag)
  | .symbol name hpack => .symbol (g name) (g hpack)
  | .package name => .package (g name)
  | .hashtable h =>
    .hashtable ⟨h.test, h.weak, g h.syncLock, h.entries, h.limit, g h.rehashSize, g h.threshold,
      h.factor, h.data.map fun e => (g e.1, g e.2)⟩
  | .array dims a => .array dims (a.map g)
  | .vector kind fillp a => .vector kind fillp (a.map g)
  | .random value => .random (g value)
  | .pathname logical host device directory name type version =>
    .pathname logical (g host) (g device) (g directory) (g name) (g type) (g version)
  | .bytecodes b =>
    .bytecodes ⟨g b.name, g b.definition, b.codeSize, b.code, g b.data, g b.flex, b.nlcl, g b.file,
      g b.filePosition⟩
  | .bclosure code lex => .bclosure (g code) (g lex)
  | .other => .other

end maps

section fields
variable {A : Type}

def ArrayData.plain (a : ArrayData (Ref A)) : ArrayData (Ref A) :=
  match a.displaced with
  | none => { a with index := 0 }
  | some .nil => { a with displaced := none, index := 0 }
  | some _ => { a with self := .words [] }

def Obj.plain : Obj (Ref A) → Obj (Ref A)
  | .array dims a => .array dims a.plain
  | .vector kind fillp a => .vector kind fillp a.plain
  | o => o

/-- The fields that are enqueued, in their order. -/
def Contents.fields {R : Type} : Contents R → List R
  | .objects l => l
  | .words _ => []

def ArrayData.fields {R : Type} (a : ArrayData R) : List R :=
  match a.displaced with
  | some owner => [owner]
  | none => a.self.fields

def Obj.fields {R : Type} : Obj R → List R
  | .cons car cdr => [car, cdr]
  | .ratio den num => [den, num]
  | .complex real imag => [real, imag]
  | .symbol name hpack => [name, hpack]
  | .package name => [name]
  | .hashtable h => [h.syncLock, h.rehashSize, h.threshold] ++ h.data.flatMap fun e => [e.1, e.2]
  | .array _ a | .vector _ _ a => a.fields
  | .random value => [value]
  | .pathname _ host device directory name type version =>
    [host, device, directory, name, type, version]
  | .bytecodes b => [b.name, b.definition, b.data, b.flex, b.file, b.filePosition]
  | .bclosure code lex => [code, lex]
  | _ => []

def Ref.targets : Ref A → List A
  | .object a => [a]
  | _ => []

def Obj.targets (o : Obj (Ref A)) : List A := o.plain.fields.flatMap Ref.targets

/-- The word for a cl_object, by the numbers of the objects. -/
def wordOf (num : A → ℕ) : Ref A → ℕ
  | .null => 0
  | .nil => 1
  | .fixnum n => 4 * n.toNat + 3
  | .character code => 4 * code + 2
  | .object a => fixToPtr (num a)

def ArrayData.Supported (a : ArrayData (Ref A)) : Prop :=
  a.plain.displaced.isSome → a.elttype ≠ .bit

/-- The objects for which serialize_one signals no error. -/
def Obj.Supported : Obj (Ref A) → Prop
  | .array _ a | .vector _ _ a => a.Supported
  | .other => False
  | _ => True

variable {S : Sameness A}

theorem interns_enqueue (r : Ref A) :
    Interns S (enqueue S r) (fun num => wordOf num r) r.targets := by
  cases r with
  | object a => exact .seq (.one a) fun i => .ret (fixToPtr i)
  | null | nil | fixnum n | character code => exact .ret _

theorem interns_pair (e : Ref A × Ref A) :
    Interns S (enqueuePair S e) (fun num => (wordOf num e.1, wordOf num e.2))
      (e.1.targets ++ e.2.targets) :=
  .seq (interns_enqueue e.1) fun key => (interns_enqueue e.2).map fun value => (key, value)

theorem interns_self (a : ArrayData (Ref A)) :
    Interns S (serializeSelf S a)
      (fun num => ⟨a.elttype, a.flags, a.dim, none, a.self.map (wordOf num), 0, a.offset⟩)
      (a.self.fields.flatMap Ref.targets) := by
  have hself : Interns S (enqueueContents S a.self) (fun num => a.self.map (wordOf num))
      (a.self.fields.flatMap Ref.targets) := by
    cases a.self with
    | words l => exact .ret _
    | objects l => exact (Interns.mapM interns_enqueue l).map Contents.objects
  exact hself.map fun self =>
    (⟨a.elttype, a.flags, a.dim, none, self, 0, a.offset⟩ : ArrayData ℕ)

theorem interns_vector {a : ArrayData (Ref A)} (h : a.Supported) :
    Interns S (serializeVector S a) (fun num => a.plain.map (wordOf num))
      (a.plain.fields.flatMap Ref.targets) := by
  obtain ⟨elttype, flags, dim, displaced, self, index, offset⟩ := a
  have howner : ∀ owner : Ref A, elttype ≠ .bit → Interns S
      (if elttype = .bit then throw SerializeError.displacedBitvector
        else do
          let owner ← enqueue S owner
          pure (⟨elttype, flags, dim, some owner, .words [], index, offset⟩ : ArrayData ℕ))
      (fun num => ⟨elttype, flags, dim, some (wordOf num owner), .words [], index, offset⟩)
      ([owner].flatMap Ref.targets) := by
    intro owner hbit
    rw [if_neg hbit]
    exact .seq (interns_enqueue owner) fun w =>
      .ret (⟨elttype, flags, dim, some w, .words [], index, offset⟩ : ArrayData ℕ)
  cases displaced with
  | none => exact interns_self ⟨elttype, flags, dim, none, self, index, offset⟩
  | some owner =>
    cases owner with
    | nil => exact interns_self ⟨elttype, flags, dim, none, self, index, offset⟩
    | null => exact howner .null (h rfl)
    | fixnum n => exact howner (.fixnum n) (h rfl)
    | character code => exact howner (.character code) (h rfl)
    | object b => exact howner (.object b) (h rfl)

theorem interns_fields {o : Obj (Ref A)} (h : o.Supported) :
    Interns S (serializeFields S o) (fun num => o.plain.map (wordOf num)) o.targets := by
  cases o with
  | nil | bignum z | singlefloat bits | doublefloat bits | longfloat low high => exact .ret _
  | cons car cdr =>
    exact .seq (interns_enqueue car) fun _ => .seq (interns_enqueue cdr) fun _ =>
      .ret _
  | ratio den num =>
    exact .seq (interns_enqueue den) fun _ => .seq (interns_enqueue num) fun _ =>
      .ret _
  | complex real imag =>
    exact .seq (interns_enqueue real) fun _ => .seq (interns_enqueue imag) fun _ =>
      .ret _
  | symbol name hpack =>
    exact .seq (interns_enqueue name) fun _ => .seq (interns_enqueue hpack) fun _ =>
      .ret _
  | package name => exact .seq (interns_enqueue name) fun _ => .ret _
  | random value => exact .seq (interns_enqueue value) fun _ => .ret _
  | bclosure code lex =>
    exact .seq (interns_enqueue code) fun _ => .seq (interns_enqueue lex) fun _ =>
      .ret _
  | pathname logical host device directory name type version =>
    exact .seq (interns_enqueue host) fun _ => .seq (interns_enqueue device) fun _ =>
      .seq (interns_enqueue directory) fun _ => .seq (interns_enqueue name) fun _ =>
      .seq (interns_enqueue type) fun _ => .seq (interns_enqueue version) fun _ =>
      .ret _
  | bytecodes b =>
    exact .seq (interns_enqueue b.name) fun _ => .seq (interns_enqueue b.definition) fun _ =>
      .seq (interns_enqueue b.data) fun _ => .seq (interns_enqueue b.flex) fun _ =>
      .seq (interns_enqueue b.file) fun _ => .seq (interns_enqueue b.filePosition) fun _ =>
      .ret _
  | array dims a => exact (interns_vector h).map (Obj.array dims)
  | vector kind fillp a => exact (interns_vector h).map (Obj.vector kind fillp)
  | hashtable table =>
    have hdata := Interns.mapM (interns_pair (S := S)) table.data
    have hall := (interns_enqueue (S := S) table.syncLock).seq fun syncLock =>
      (interns_enqueue table.rehashSize).seq fun rehashSize =>
      (interns_enqueue table.threshold).seq fun threshold =>
      hdata.map fun data => Obj.hashtable
        ⟨table.test, table.weak, syncLock, table.entries, table.limit, rehashSize, threshold, table.factor, data⟩
    have htargets : (Obj.hashtable table).targets = table.syncLock.targets ++ (table.rehashSize.targets ++
        (table.threshold.targets ++ table.data.flatMap fun e => e.1.targets ++ e.2.targets)) := by
      simp [Obj.targets, Obj.plain, Obj.fields, List.flatMap_assoc]
    rw [htargets]
    exact hall
  | other => exact h.elim

end fields

end Serializer

namespace Serializer

open BreadthFirst Integers

def ArrayData.Fits {R : Type} (a : ArrayData R) : Prop :=
  match a.self with
  | .objects l => a.elttype = .object ∧ l.length = a.dim
  | .words l => a.elttype ≠ .object ∧ 8 * l.length = vectorSelfSize a.elttype a.dim

theorem roundToWord_words (n : ℕ) : roundToWord (n * 8) = n * 8 := by
  unfold roundToWord
  omega

theorem ArrayData.Fits.cells {a : ArrayData ℕ} (h : a.Fits) :
    8 * a.self.cells.length = vectorSelfSize a.elttype a.dim := by
  unfold ArrayData.Fits at h
  split at h
  · next l heq =>
    obtain ⟨htype, hdim⟩ := h
    rw [heq, htype, Contents.cells, List.length_map, hdim, vectorSelfSize, if_neg (by decide),
      aetSize, roundToWord_words]
    omega
  · next l heq =>
    rw [heq, Contents.cells, List.length_map]
    exact h.2

theorem length_byteCells (l : List ℕ) : 8 * (byteCells l).length = roundToWord l.length := by
  fun_induction byteCells l with
  | case1 => rfl
  | case2 a b c d e f g h rest ih =>
    simp only [List.length_cons, roundToWord] at ih ⊢
    omega
  | case3 rest hnil hshort =>
    have hlt : rest.length < 8 := by
      by_contra hlong
      rcases rest with _ | ⟨a, _ | ⟨b, _ | ⟨c, _ | ⟨d, _ | ⟨e, _ | ⟨f, _ | ⟨g, _ | ⟨h, rest⟩⟩⟩⟩⟩⟩⟩⟩
      case cons.cons.cons.cons.cons.cons.cons.cons => exact hshort a b c d e f g h rest rfl
      all_goals exact hlong (by simp)
    have hpos : 0 < rest.length := List.length_pos_iff.mpr hnil
    simp only [List.length_singleton, roundToWord]
    omega

theorem length_mpzExport (z : ℤ) : (mpzExport z).length = bignumBytes z := by
  simp [mpzExport]

def Obj.cells (o : Obj ℕ) : List Cell := o.structCells ++ o.chunks.flatten

/-- The elements are read where there is no owner, by the word for NIL; only one of the two is
written. -/
structure ArrayData.Readable (a : ArrayData ℕ) : Prop where
  owner : a.displaced ≠ some 1
  fits : a.displaced = none → a.Fits ∧ a.index = 0
  bare : a.displaced ≠ none → a.self = .words []

theorem displacedWord_eq {d : Option ℕ} (h : d ≠ some 1) :
    (if displacedWord d = 1 then none else some (displacedWord d)) = d := by
  cases d with
  | none => rfl
  | some w => exact if_neg fun hw => h (by rw [← hw]; rfl)

theorem asWord_words (l : List ℕ) : (l.map Cell.word).map Cell.asWord = l := by
  rw [List.map_map]
  exact List.map_id l

theorem readWords_append (l : List ℕ) (rest : List Cell) :
    readWords (l.map Cell.word ++ rest) l.length = l := by
  rw [readWords, List.take_left' (List.length_map _), asWord_words]

theorem readContents_cells {a : ArrayData ℕ} (h : a.Fits) (rest : List Cell) :
    readContents a.elttype (a.self.cells ++ rest) (vectorSelfSize a.elttype a.dim / 8) = a.self := by
  have hcells := h.cells
  unfold ArrayData.Fits at h
  split at h
  · next l heq =>
    rw [heq, Contents.cells, List.length_map] at hcells
    rw [← hcells, Nat.mul_div_cancel_left _ (by decide), readContents, if_pos h.1, heq,
      Contents.cells, readWords_append]
  · next l heq =>
    rw [heq, Contents.cells, List.length_map] at hcells
    rw [← hcells, Nat.mul_div_cancel_left _ (by decide), readContents, if_neg h.1, heq,
      Contents.cells, readWords_append]

theorem reconstructVector_cells {a : ArrayData ℕ} (h : a.Readable) (offset : ℕ)
    (rest : List Cell) :
    reconstructVector ⟨a.elttype, a.flags, a.dim, a.displaced, .words [], a.selfCell.asWord, offset⟩
      (a.chunks.flatten ++ rest) = ({ a with offset }, 8 * a.chunks.flatten.length) := by
  obtain ⟨elttype, flags, dim, displaced, self, index, written⟩ := a
  cases displaced with
  | none =>
    obtain ⟨hfits, hindex⟩ := h.fits rfl
    have hcells := hfits.cells
    have hread := readContents_cells hfits rest
    simp only [ArrayData.chunks, List.flatten_cons, List.flatten_nil, List.append_nil,
      reconstructVector, ArrayData.selfCell, Cell.asWord] at hcells hread hindex ⊢
    rw [hread, hcells, hindex]
  | some w =>
    have hself : self = .words [] := h.bare (by simp)
    rw [hself]
    rfl

def VectorKind.keptOffset (kind : VectorKind) (offset : ℕ) : ℕ :=
  match kind with
  | .vector | .bitvector => offset
  | .string | .baseString => 0

def ArrayData.struct (a : ArrayData ℕ) (offset : ℕ) : ArrayData ℕ :=
  ⟨a.elttype, a.flags, a.dim,
    if displacedWord a.displaced = 1 then none else some (displacedWord a.displaced), .words [],
    a.selfCell.asWord, offset⟩

theorem reconstructVector_struct {a : ArrayData ℕ} (h : a.Readable) (offset : ℕ)
    (rest : List Cell) :
    reconstructVector (a.struct offset) (a.chunks.flatten ++ rest) =
      ({ a with offset }, 8 * a.chunks.flatten.length) := by
  rw [ArrayData.struct, displacedWord_eq h.owner]
  exact reconstructVector_cells h offset rest

theorem reconstructOne_vector (kind : VectorKind) (fillp : ℕ) {a : ArrayData ℕ} (h : a.Readable)
    (rest : List Cell) :
    reconstructOne ((Obj.vector kind fillp a).cells ++ rest) =
      some (.vector kind fillp { a with offset := kind.keptOffset a.offset },
        8 * (Obj.vector kind fillp a).cells.length) := by
  have hread := reconstructVector_struct h (kind.keptOffset a.offset) rest
  have hlength : (Obj.vector kind fillp a).cells.length =
      objectSize kind.type / 8 + a.chunks.flatten.length := by
    have hstruct : (Obj.vector kind fillp a).structCells.length = objectSize kind.type / 8 := by
      cases kind <;> simp [Obj.structCells, VectorKind.offsetCells, VectorKind.type, objectSize]
    rw [Obj.cells, List.length_append, hstruct, Obj.chunks]
  have hsize : 8 * (objectSize kind.type / 8) = objectSize kind.type := by cases kind <;> rfl
  have hone : reconstructOne ((Obj.vector kind fillp a).cells ++ rest) =
      some (.vector kind fillp (reconstructVector (a.struct (kind.keptOffset a.offset))
          (a.chunks.flatten ++ rest)).1,
        objectSize kind.type + (reconstructVector (a.struct (kind.keptOffset a.offset))
          (a.chunks.flatten ++ rest)).2) := by
    cases kind <;> rfl
  rw [hone, hread, hlength, Nat.mul_add, hsize]

theorem reconstructOne_array (dims : List ℕ) {a : ArrayData ℕ} (h : a.Readable)
    (rest : List Cell) :
    reconstructOne ((Obj.array dims a).cells ++ rest) =
      some (.array dims a, 8 * (Obj.array dims a).cells.length) := by
  have hread := reconstructVector_struct h a.offset rest
  have hlength : (Obj.array dims a).cells.length = 6 + dims.length + a.chunks.flatten.length := by
    simp [Obj.cells, Obj.structCells, Obj.chunks]
    omega
  have hdims : (dims.map Cell.word ++ (a.chunks.flatten ++ rest)).drop dims.length =
      a.chunks.flatten ++ rest := List.drop_left' (List.length_map _)
  have hone : reconstructOne ((Obj.array dims a).cells ++ rest) =
      some (.array (readWords (dims.map Cell.word ++ a.chunks.flatten ++ rest) dims.length)
          (reconstructVector (a.struct a.offset)
            ((dims.map Cell.word ++ a.chunks.flatten ++ rest).drop dims.length)).1,
        48 + roundToWord (dims.length * 8) + (reconstructVector (a.struct a.offset)
          ((dims.map Cell.word ++ a.chunks.flatten ++ rest).drop dims.length)).2) := rfl
  rw [hone, List.append_assoc, readWords_append, hdims, hread, hlength, roundToWord_words]
  simp only [Option.some.injEq, Prod.mk.injEq, true_and]
  omega

theorem reconstructPairs_cells (l : List (ℕ × ℕ)) (rest : List Cell) :
    reconstructPairs l.length ((l.flatMap fun e => [.word e.1, .word e.2]) ++ rest) = l := by
  induction l with
  | nil => rfl
  | cons e l ih => exact congrArg (e :: ·) ih

theorem reconstructOne_hashtable (h : Hashtable ℕ) (rest : List Cell) :
    reconstructOne ((Obj.hashtable h).cells ++ rest) =
      some (.hashtable h, 8 * (Obj.hashtable h).cells.length) := by
  have hlength : (Obj.hashtable h).cells.length = 17 + 2 * h.data.length := by
    simp [Obj.cells, Obj.structCells, Obj.chunks, List.length_flatMap]
    omega
  have hone : ∀ tail, reconstructOne ((Obj.hashtable h).structCells ++ tail) =
      some (.hashtable { h with data := reconstructPairs h.data.length tail },
        136 + roundToWord (h.data.length * 16)) := fun _ => rfl
  have hchunk : (Obj.hashtable h).chunks.flatten =
      h.data.flatMap fun e => [.word e.1, .word e.2] := List.append_nil _
  have hround : roundToWord (h.data.length * 16) = h.data.length * 16 := by
    rw [show h.data.length * 16 = h.data.length * 2 * 8 by omega, roundToWord_words]
  rw [hlength, Obj.cells, List.append_assoc, hone, hchunk, reconstructPairs_cells, hround]
  simp only [Option.some.injEq, Prod.mk.injEq, true_and]
  omega

/-- What the reader takes for an object. The length of a bignum is cut to a byte, and the size of
bytecodes is not rounded. -/
def Obj.bytesRead (o : Obj ℕ) : ℕ :=
  match o with
  | .bignum z => objectSize .bignum + (16 + roundToWord (bignumBytes z % 256))
  | .bytecodes b => objectSize .bytecodes + b.codeSize
  | o => 8 * o.cells.length

def Obj.Readable : Obj ℕ → Prop
  | .array _ a | .vector _ _ a => a.Readable
  | .other => False
  | _ => True

theorem reconstructOne_bytes {o : Obj ℕ} (h : o.Readable) (rest : List Cell) :
    (reconstructOne (o.cells ++ rest)).map Prod.snd = some o.bytesRead := by
  cases o with
  | other => exact h.elim
  | nil | cons car cdr | bignum z | ratio den num | singlefloat bits | doublefloat bits
  | longfloat low high | complex real imag | symbol name hpack | package name | random value
  | pathname logical host device directory name type version | bytecodes b | bclosure code lex =>
    rfl
  | hashtable table => rw [reconstructOne_hashtable]; rfl
  | array dims a => rw [reconstructOne_array dims h]; rfl
  | vector kind fillp a => rw [reconstructOne_vector kind fillp h]; rfl

end Serializer
