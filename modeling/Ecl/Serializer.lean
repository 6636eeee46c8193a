import Ecl.BreadthFirst
import Ecl.Integers

/-! The writer of src/c/serialize.d, for words of 64 bits, small conses and Unicode strings. The
table object_size has no entries for complex floats: this is the build without them. -/
namespace Serializer

open BreadthFirst Integers

/-- A cl_object: an immediate value, or an object in memory. -/
inductive Ref (A : Type) where
  | null
  | nil
  | fixnum (n : Fixnum)
  | character (code : ℕ)
  | object (a : A)
  deriving DecidableEq

/-- enum cl_elttype. -/
inductive ElementType where
  | object | sf | df | lf | bit | fix | index | b8 | i8 | b16 | i16 | b32 | i32 | b64 | i64 | ch | bc
  deriving DecidableEq

/-- The entry for bits is not used. -/
def aetSize : ElementType → ℕ
  | .object | .df | .fix | .index | .b64 | .i64 => 8
  | .lf => 16
  | .sf | .b32 | .i32 | .ch => 4
  | .b16 | .i16 => 2
  | .b8 | .i8 | .bc => 1
  | .bit => 0

/-- The types in enum cl_type that serialize_one has a case for. -/
inductive ClType where
  | list | bignum | ratio | singlefloat | doublefloat | longfloat | complex | symbol | package
  | hashtable | array | vector | string | baseString | bitvector | random | pathname | bytecodes
  | bclosure
  deriving DecidableEq

def roundToWord (n : ℕ) : ℕ := (n + 7) / 8 * 8

/-- The sizes of the structures, of the fake ones for symbols and packages. -/
def objectSize : ClType → ℕ
  | .list | .doublefloat | .package | .random => 16
  | .bignum | .ratio | .complex | .symbol => 24
  | .singlefloat => 8
  | .longfloat | .bclosure => 32
  | .hashtable => 136
  | .array | .vector | .bitvector => 48
  | .string | .baseString => 40
  | .pathname => 56
  | .bytecodes => 88

/-- sizeof (large_cons). -/
def largeConsSize : ℕ := 24

inductive Contents (R : Type) where
  | objects (l : List R)
  | words (l : List ℕ)
  deriving DecidableEq

/-- What arrays and vectors have in common. In place of the list displaced stands its car, and
none for an empty list: the car is the array that owns the elements, or NIL where the rest of the
list tells which arrays use these. The pointer self is index elements into the owner's. -/
structure ArrayData (R : Type) where
  elttype : ElementType
  flags : ℕ
  dim : ℕ
  displaced : Option R
  self : Contents R
  index : ℕ
  offset : ℕ
  deriving DecidableEq

inductive VectorKind where
  | vector | string | baseString | bitvector
  deriving DecidableEq

structure Hashtable (R : Type) where
  test : ℕ
  weak : ℕ
  syncLock : R
  entries : ℕ
  limit : ℕ
  rehashSize : R
  threshold : R
  factor : ℕ
  data : List (R × R)
  deriving DecidableEq

/-- The code is the memory that the structure points to, in whole words. -/
structure Bytecodes (R : Type) where
  name : R
  definition : R
  codeSize : ℕ
  code : List ℕ
  data : R
  flex : R
  nlcl : ℕ
  file : R
  filePosition : R
  deriving DecidableEq

/-- Objects whose fields are cl_objects of type R; floats are kept as their bits. -/
inductive Obj (R : Type) where
  | nil
  | cons (car cdr : R)
  | bignum (value : ℤ)
  | ratio (den num : R)
  | singlefloat (bits : ℕ)
  | doublefloat (bits : ℕ)
  | longfloat (low high : ℕ)
  | complex (real imag : R)
  | symbol (name hpack : R)
  | package (name : R)
  | hashtable (h : Hashtable R)
  | array (dims : List ℕ) (a : ArrayData R)
  | vector (kind : VectorKind) (fillp : ℕ) (a : ArrayData R)
  | random (value : R)
  | pathname (logical : ℕ) (host device directory name type version : R)
  | bytecodes (b : Bytecodes R)
  | bclosure (code lex : R)
  | other
  deriving DecidableEq

inductive SerializeError where
  | unableToSerialize
  | displacedBitvector
  deriving DecidableEq

/-- A word of the buffer. The first word of a structure holds the type, two more bytes and, in a
single float, the number. A stale word has its meaning in the memory of the writer. -/
inductive Cell where
  | header (t : ClType) (field1 field2 upper : ℕ)
  | arrayHeader (t : ClType) (elttype : ElementType) (flags : ℕ)
  | word (w : ℕ)
  | bytes (l : List ℕ)
  | stale
  deriving DecidableEq

def fixToPtr (i : ℕ) : ℕ := 4 * i

def vectorSelfSize (elttype : ElementType) (dim : ℕ) : ℕ :=
  if elttype = .bit then roundToWord ((dim + 7) / 8) else roundToWord (dim * aetSize elttype)

/-- mpz_sizeinbase counts one digit for zero. -/
def bigIntegerLength (z : ℤ) : ℕ := max 1 z.natAbs.size

def bignumBytes (z : ℤ) : ℕ := (bigIntegerLength z + 7) / 8

/-- The sign as an int8_t. -/
def signByte (z : ℤ) : ℕ := if z < 0 then 255 else if z = 0 then 0 else 1

def mpzExport (z : ℤ) : List ℕ :=
  (List.range (bignumBytes z)).reverse.map fun i => z.natAbs / 256 ^ i % 256

def byteCells : List ℕ → List Cell
  | [] => []
  | a :: b :: c :: d :: e :: f :: g :: h :: rest => .bytes [a, b, c, d, e, f, g, h] :: byteCells rest
  | rest => [.bytes rest]

def Contents.cells : Contents ℕ → List Cell
  | .objects l | .words l => l.map .word

/-- NIL is the word 1. -/
def displacedWord : Option ℕ → ℕ
  | none => 1
  | some w => w

def VectorKind.type : VectorKind → ClType
  | .vector => .vector
  | .string => .string
  | .baseString => .baseString
  | .bitvector => .bitvector

def VectorKind.offsetCells (kind : VectorKind) (offset : ℕ) : List Cell :=
  match kind with
  | .vector | .bitvector => [.bytes [offset]]
  | .string | .baseString => []

def ArrayData.selfCell (a : ArrayData ℕ) : Cell :=
  match a.displaced with
  | none => .stale
  | some _ => .word a.index

def Obj.structCells : Obj ℕ → List Cell
  | .nil => [.header .list 0 0 0, .word 0, .word 0]
  | .cons car cdr => [.header .list 0 0 0, .word car, .word cdr]
  | .bignum _ => [.header .bignum 0 0 0, .stale, .stale]
  | .ratio den num => [.header .ratio 0 0 0, .word den, .word num]
  | .singlefloat bits => [.header .singlefloat 0 0 bits]
  | .doublefloat bits => [.header .doublefloat 0 0 0, .word bits]
  | .longfloat low high => [.header .longfloat 0 0 0, .stale, .word low, .word high]
  | .complex real imag => [.header .complex 0 0 0, .word real, .word imag]
  | .symbol name hpack => [.header .symbol 0 0 0, .word name, .word hpack]
  | .package name => [.header .package 0 0 0, .word name]
  | .hashtable h =>
    [.header .hashtable h.test h.weak 0, .stale, .word h.syncLock, .stale, .stale, .word h.entries,
      .word h.data.length, .word h.limit, .word h.rehashSize, .word h.threshold, .word h.factor,
      .stale, .stale, .stale, .stale, .stale, .stale]
  | .array dims a =>
    [.arrayHeader .array a.elttype a.flags, .word (displacedWord a.displaced), .word a.dim, .stale,
      a.selfCell, .bytes [a.offset, dims.length]]
  | .vector kind fillp a =>
    [.arrayHeader kind.type a.elttype a.flags, .word (displacedWord a.displaced), .word a.dim,
      .word fillp, a.selfCell] ++ kind.offsetCells a.offset
  | .random value => [.header .random 0 0 0, .word value]
  | .pathname logical host device directory name type version =>
    [.header .pathname logical 0 0, .word host, .word device, .word directory, .word name,
      .word type, .word version]
  | .bytecodes b =>
    [.header .bytecodes 0 0 0, .word b.name, .word b.definition, .stale, .word b.codeSize, .stale,
      .word b.data, .word b.flex, .word b.nlcl, .word b.file, .word b.filePosition]
  | .bclosure code lex => [.header .bclosure 0 0 0, .word code, .word lex, .stale]
  | .other => []

/-- serialize_vector, after the cl_objects have become words. -/
def ArrayData.chunks (a : ArrayData ℕ) : List (List Cell) :=
  match a.displaced with
  | none => [a.self.cells]
  | some _ => []

def Obj.chunks : Obj ℕ → List (List Cell)
  | .bignum z => [[.bytes [signByte z]], [.word (bignumBytes z)], byteCells (mpzExport z)]
  | .hashtable h => [h.data.flatMap fun e => [.word e.1, .word e.2]]
  | .array dims a => dims.map .word :: a.chunks
  | .vector _ _ a => a.chunks
  | .bytecodes b => [b.code.map .word]
  | _ => []

structure Buffer where
  cells : List Cell
  dim : ℕ
  deriving DecidableEq

def Buffer.fillp (b : Buffer) : ℕ := 8 * b.cells.length

def Buffer.moves (b : Buffer) (chunk : List Cell) : Bool := b.dim ≤ b.fillp + 8 * chunk.length

def Buffer.alloc (b : Buffer) (chunk : List Cell) : Buffer where
  cells := b.cells ++ chunk
  dim :=
    let next := b.fillp + 8 * chunk.length
    if b.moves chunk then next + next / 2 else b.dim

structure Pool (A : Type) where
  buffer : Buffer
  work : Worklist A
  deriving DecidableEq

section
variable {A : Type} (S : Sameness A)

abbrev Writer (A : Type) := Visit A SerializeError

def enqueue : Ref A → Writer A ℕ
  | .null => pure 0
  | .nil => pure 1
  | .fixnum n => pure (4 * n.toNat + 3)
  | .character code => pure (4 * code + 2)
  | .object a => do
    let index ← intern S a
    pure (fixToPtr index)

def enqueueContents : Contents (Ref A) → Writer A (Contents ℕ)
  | .objects l => do
    let l ← l.mapM (enqueue S)
    pure (.objects l)
  | .words l => pure (.words l)

def serializeSelf (a : ArrayData (Ref A)) : Writer A (ArrayData ℕ) := do
  let self ← enqueueContents S a.self
  pure ⟨a.elttype, a.flags, a.dim, none, self, 0, a.offset⟩

/-- serialize_vector and serialize_displaced_vector. -/
def serializeVector (a : ArrayData (Ref A)) : Writer A (ArrayData ℕ) :=
  match a.displaced with
  | none => serializeSelf S a
  | some .nil => serializeSelf S a
  | some owner =>
    if a.elttype = .bit then throw .displacedBitvector
    else do
      let owner ← enqueue S owner
      pure ⟨a.elttype, a.flags, a.dim, some owner, .words [], a.index, a.offset⟩

def enqueuePair (e : Ref A × Ref A) : Writer A (ℕ × ℕ) := do
  let key ← enqueue S e.1
  let value ← enqueue S e.2
  pure (key, value)

/-- The cases of serialize_one: the object with words for its cl_objects. -/
def serializeFields : Obj (Ref A) → Writer A (Obj ℕ)
  | .nil => pure .nil
  | .cons car cdr => do
    let car ← enqueue S car
    let cdr ← enqueue S cdr
    pure (.cons car cdr)
  | .bignum z => pure (.bignum z)
  | .ratio den num => do
    let den ← enqueue S den
    let num ← enqueue S num
    pure (.ratio den num)
  | .singlefloat bits => pure (.singlefloat bits)
  | .doublefloat bits => pure (.doublefloat bits)
  | .longfloat low high => pure (.longfloat low high)
  | .complex real imag => do
    let real ← enqueue S real
    let imag ← enqueue S imag
    pure (.complex real imag)
  | .symbol name hpack => do
    let name ← enqueue S name
    let hpack ← enqueue S hpack
    pure (.symbol name hpack)
  | .package name => do
    let name ← enqueue S name
    pure (.package name)
  | .hashtable h => do
    let syncLock ← enqueue S h.syncLock
    let rehashSize ← enqueue S h.rehashSize
    let threshold ← enqueue S h.threshold
    let data ← h.data.mapM (enqueuePair S)
    pure (.hashtable
      ⟨h.test, h.weak, syncLock, h.entries, h.limit, rehashSize, threshold, h.factor, data⟩)
  | .array dims a => do
    let a ← serializeVector S a
    pure (.array dims a)
  | .vector kind fillp a => do
    let a ← serializeVector S a
    pure (.vector kind fillp a)
  | .random value => do
    let value ← enqueue S value
    pure (.random value)
  | .pathname logical host device directory name type version => do
    let host ← enqueue S host
    let device ← enqueue S device
    let directory ← enqueue S directory
    let name ← enqueue S name
    let type ← enqueue S type
    let version ← enqueue S version
    pure (.pathname logical host device directory name type version)
  | .bytecodes b => do
    let name ← enqueue S b.name
    let definition ← enqueue S b.definition
    let data ← enqueue S b.data
    let flex ← enqueue S b.flex
    let file ← enqueue S b.file
    let filePosition ← enqueue S b.filePosition
    pure (.bytecodes ⟨name, definition, b.codeSize, b.code, data, flex, b.nlcl, file, filePosition⟩)
  | .bclosure code lex => do
    let code ← enqueue S code
    let lex ← enqueue S lex
    pure (.bclosure code lex)
  | .other => throw .unableToSerialize

/-- The field code_size receives the index that serialize_bits returns. Where the buffer has moved
the assignment goes to the old one. -/
def codeSizeWritten (buffer : Buffer) (b : Bytecodes ℕ) : ℕ :=
  let buffer := buffer.alloc (Obj.bytecodes b).structCells
  if buffer.moves (b.code.map .word) then b.codeSize else buffer.fillp

def stored (buffer : Buffer) : Obj ℕ → Obj ℕ
  | .bytecodes b => .bytecodes { b with codeSize := codeSizeWritten buffer b }
  | o => o

/-- The structure is allocated first; what comes after it follows in pieces. -/
def Buffer.write (buffer : Buffer) (o : Obj ℕ) : Buffer :=
  o.chunks.foldl Buffer.alloc (buffer.alloc (stored buffer o).structCells)

def serializeOne (what : Obj (Ref A)) (pool : Pool A) : Except SerializeError (Pool A) :=
  match serializeFields S what pool.work with
  | .error e => .error e
  | .ok (o, work) => .ok ⟨pool.buffer.write o, work⟩

/-- Two words are left free at the beginning, for the length and the number of objects. -/
def initBuffer : Buffer := ⟨[.word 0, .word 0], 1024⟩

def initPool (root : A) : Pool A := ⟨initBuffer, ⟨[root], [root]⟩⟩

def closePool (buffer : Buffer) (entries : ℕ) : List Cell :=
  [.word buffer.fillp, .word entries] ++ buffer.cells.drop 2

/-- The loop of si_serialize, for at most fuel objects: none is for an object too many. -/
def serializeLoop (heap : A → Obj (Ref A)) :
    ℕ → Pool A → Except SerializeError (Option (List Cell))
  | fuel, pool =>
    match pool.work.queue with
    | [] => .ok (some (closePool pool.buffer pool.work.keys.length))
    | what :: queue =>
      match fuel with
      | 0 => .ok none
      | fuel + 1 =>
        match serializeOne S (heap what) { pool with work := ⟨pool.work.keys, queue⟩ } with
        | .error e => .error e
        | .ok pool => serializeLoop heap fuel pool

/-- si_serialize. The table object_size has a zero for immediate values, which then are objects
of an unknown type. -/
def serialize (heap : A → Obj (Ref A)) (fuel : ℕ) :
    Ref A → Except SerializeError (Option (List Cell))
  | .object root => serializeLoop S heap fuel (initPool root)
  | .nil => .ok (some (closePool (initBuffer.write .nil) 1))
  | .null | .fixnum _ | .character _ => .error .unableToSerialize

end

end Serializer
