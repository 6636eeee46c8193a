import Ecl.Serializer

/-! The reader of src/c/serialize.d. -/
namespace Serializer

open BreadthFirst Integers

/-- Whatever is in a cell can be read as a word, and as bytes. -/
def Cell.asWord : Cell → ℕ
  | .word w => w
  | _ => 0

def Cell.firstByte : Cell → ℕ
  | .word w => w % 256
  | .bytes (b :: _) => b
  | _ => 0

def Cell.asBytes : Cell → List ℕ
  | .bytes l => l
  | _ => []

/-- The field of a structure that is k words after its beginning. -/
def field (data : List Cell) (k : ℕ) : ℕ := (data.getD k .stale).asWord

def displacedField (data : List Cell) : Option ℕ := if field data 1 = 1 then none else some (field data 1)

def bytesField (data : List Cell) (k i : ℕ) : ℕ := (data.getD k .stale).asBytes.getD i 0

def readWords (data : List Cell) (n : ℕ) : List ℕ := (data.take n).map Cell.asWord

/-- mpz_import, most significant byte first. -/
def mpzImport (l : List ℕ) : ℕ := l.foldl (fun v b => v * 256 + b) 0

def reconstructBignum (data : List Cell) : ℤ × ℕ :=
  let sign := (data.getD 0 .stale).firstByte
  let bytes := (data.getD 1 .stale).firstByte
  let magnitude : ℤ := mpzImport (((data.drop 2).flatMap Cell.asBytes).take bytes)
  (if sign = 255 then -magnitude else magnitude, 16 + roundToWord bytes)

def readContents (elttype : ElementType) (data : List Cell) (n : ℕ) : Contents ℕ :=
  if elttype = .object then .objects (readWords data n) else .words (readWords data n)

def reconstructVector (a : ArrayData ℕ) (data : List Cell) : ArrayData ℕ × ℕ :=
  match a.displaced with
  | none =>
    let bytes := vectorSelfSize a.elttype a.dim
    ({ a with self := readContents a.elttype data (bytes / 8) }, bytes)
  | some _ => (a, 0)

def reconstructPairs : ℕ → List Cell → List (ℕ × ℕ)
  | 0, _ => []
  | n + 1, data => (field data 0, field data 1) :: reconstructPairs n (data.drop 2)

def arrayStruct (elttype : ElementType) (flags offset : ℕ) (data : List Cell) : ArrayData ℕ :=
  ⟨elttype, flags, field data 2, displacedField data, .words [], field data 4, offset⟩

def afterStruct (t : ClType) (data : List Cell) : List Cell := data.drop (objectSize t / 8)

def reconstructKind (kind : VectorKind) (elttype : ElementType) (flags offset : ℕ)
    (data : List Cell) : Obj ℕ × ℕ :=
  let (a, bytes) := reconstructVector (arrayStruct elttype flags offset data)
    (afterStruct kind.type data)
  (.vector kind (field data 3) a, objectSize kind.type + bytes)

/-- reconstruct_one: the object, and how many bytes it takes. -/
def reconstructOne (data : List Cell) : Option (Obj ℕ × ℕ) :=
  match data.getD 0 .stale with
  | .header t field1 field2 upper =>
    match t with
    | .list =>
      let car := field data 1
      let cdr := field data 2
      some (if car = 0 ∧ cdr = 0 then .nil else .cons car cdr, largeConsSize)
    | .bignum =>
      let (z, bytes) := reconstructBignum (afterStruct .bignum data)
      some (.bignum z, objectSize .bignum + bytes)
    | .ratio => some (.ratio (field data 1) (field data 2), objectSize t)
    | .singlefloat => some (.singlefloat upper, objectSize t)
    | .doublefloat => some (.doublefloat (field data 1), objectSize t)
    | .longfloat => some (.longfloat (field data 2) (field data 3), objectSize t)
    | .complex => some (.complex (field data 1) (field data 2), objectSize t)
    | .symbol => some (.symbol (field data 1) (field data 2), 24)
    | .package => some (.package (field data 1), 16)
    | .hashtable =>
      let size := field data 6
      let pairs := reconstructPairs size (afterStruct t data)
      some (.hashtable ⟨field1, field2, field data 2, field data 5, field data 7, field data 8,
        field data 9, field data 10, pairs⟩, objectSize t + roundToWord (size * 16))
    | .random => some (.random (field data 1), objectSize t)
    | .pathname =>
      some (.pathname field1 (field data 1) (field data 2) (field data 3) (field data 4)
        (field data 5) (field data 6), objectSize t)
    | .bytecodes =>
      let codeSize := field data 4
      let code := readWords (afterStruct t data) ((codeSize + 7) / 8)
      some (.bytecodes ⟨field data 1, field data 2, codeSize, code, field data 6, field data 7,
        field data 8, field data 9, field data 10⟩, objectSize t + codeSize)
    | .bclosure => some (.bclosure (field data 1) (field data 2), objectSize t)
    | .array | .vector | .string | .baseString | .bitvector => none
  | .arrayHeader t elttype flags =>
    match t with
    | .array =>
      let rank := bytesField data 5 1
      let data' := afterStruct t data
      let dims := readWords data' rank
      let (a, bytes) := reconstructVector (arrayStruct elttype flags (bytesField data 5 0) data)
        (data'.drop rank)
      some (.array dims a, objectSize t + roundToWord (rank * 8) + bytes)
    | .vector => some (reconstructKind .vector elttype flags (bytesField data 5 0) data)
    | .bitvector => some (reconstructKind .bitvector elttype flags (bytesField data 5 0) data)
    | .string => some (reconstructKind .string elttype flags 0 data)
    | .baseString => some (reconstructKind .baseString elttype flags 0 data)
    | _ => none
  | _ => none

/-- The first loop of ecl_deserialize. It fails where no structure begins. -/
def reconstructAll : ℕ → List Cell → Option (List (Obj ℕ))
  | 0, _ => some []
  | n + 1, data => do
    let (o, bytes) ← reconstructOne data
    if bytes % 8 ≠ 0 then none
    else do
      let objs ← reconstructAll n (data.drop (bytes / 8))
      return o :: objs

inductive Loc (A : Type) where
  | old (a : A)
  | new (i : ℕ)
  deriving DecidableEq

structure Name where
  kind : VectorKind
  elttype : ElementType
  fillp : ℕ
  words : List ℕ
  deriving DecidableEq

/-- ecl_find_package_nolock and ecl_intern on the packages of the image. -/
structure Packages (A : Type) where
  findPackage : Name → Option A
  intern : Name → A → A

def nameOf {R : Type} : Obj R → Option Name
  | .vector .string fillp ⟨elttype, _, _, none, .words words, _, _⟩ =>
    some ⟨.string, elttype, fillp, words⟩
  | .vector .baseString fillp ⟨elttype, _, _, none, .words words, _, _⟩ =>
    some ⟨.baseString, elttype, fillp, words⟩
  | _ => none

/-- An object as the reader leaves it: a new symbol has a copy of its name. -/
inductive Node (A : Type) where
  | object (o : Obj (Ref (Loc A)))
  | uninterned (name : Name)
  | known
  deriving DecidableEq

section
variable {A : Type}

/-- The cl_object in a word that is no index. -/
def immediate (w : ℕ) : Ref (Loc A) :=
  if w % 4 = 3 then .fixnum (BitVec.ofNat 62 (w / 4))
  else if w % 4 = 2 then .character (w / 4)
  else if w % 4 = 1 then .nil
  else .null

/-- An index is told by its tag; the word 0 is OBJNULL. -/
def isIndex (w : ℕ) : Bool := w % 4 = 0 ∧ w ≠ 0

def getObject (output : List (Ref (Loc A))) (w : ℕ) : Ref (Loc A) :=
  if isIndex w then output.getD (w / 4) .null else immediate w

def nameAt (objs : List (Obj ℕ)) (w : ℕ) : Option Name :=
  if isIndex w then objs[w / 4]?.bind nameOf else none

/-- The loop over the packages; the names are strings, on which it does nothing. -/
def resolvePackage (pk : Packages A) (objs : List (Obj ℕ)) (o : Obj ℕ) (i : ℕ) :
    Option (Ref (Loc A)) :=
  match o with
  | .nil => some .nil
  | .package name => do
    let name ← nameAt objs name
    let p ← pk.findPackage name
    return .object (.old p)
  | _ => some (.object (.new i))

/-- The loop over the symbols. -/
def resolveSymbol (pk : Packages A) (objs : List (Obj ℕ)) (output : List (Ref (Loc A)))
    (o : Obj ℕ) (r : Ref (Loc A)) : Option (Ref (Loc A)) :=
  match o with
  | .symbol name hpack => do
    let name ← nameAt objs name
    match getObject output hpack with
    | .nil => return r
    | .object (.old p) => return .object (.old (pk.intern name p))
    | _ => none
  | _ => some r

def arrayData : Obj ℕ → Option (ArrayData ℕ)
  | .array _ a => some a
  | .vector _ _ a => some a
  | _ => none

/-- ecl_displace from the object with number i: the elements of the other array are in their
place if they are its own, or if it has been displaced before. -/
def displace (objs : List (Obj ℕ)) (i : ℕ) (a : ArrayData ℕ) (owner : Ref (Loc A)) :
    Option (ArrayData (Ref (Loc A))) :=
  match owner with
  | .object (.new j) =>
    match objs[j]?.bind arrayData with
    | some b =>
      if b.elttype = a.elttype ∧ a.index + a.dim ≤ b.dim ∧ (b.displaced = none ∨ j < i) then
        some ⟨a.elttype, a.flags, a.dim, some owner, .words [], a.index, a.offset⟩
      else none
    | none => none
  | _ => none

section
variable (objs : List (Obj ℕ)) (output : List (Ref (Loc A)))

def fixupContents : Contents ℕ → Contents (Ref (Loc A))
  | .objects l => .objects (l.map (getObject output))
  | .words l => .words l

def fixupVector (i : ℕ) (a : ArrayData ℕ) : Option (ArrayData (Ref (Loc A))) :=
  match a.displaced with
  | none =>
    some ⟨a.elttype, a.flags, a.dim, none, fixupContents output a.self, a.index, a.offset⟩
  | some w => displace objs i a (getObject output w)

/-- fixup. The lock of a hash table is not looked up; symbols and packages have been. -/
def fixup (i : ℕ) (o : Obj ℕ) : Option (Node A) :=
  let get := getObject output
  match o with
  | .nil => some .known
  | .cons car cdr => some (.object (.cons (get car) (get cdr)))
  | .bignum z => some (.object (.bignum z))
  | .ratio den num => some (.object (.ratio (get den) (get num)))
  | .singlefloat bits => some (.object (.singlefloat bits))
  | .doublefloat bits => some (.object (.doublefloat bits))
  | .longfloat low high => some (.object (.longfloat low high))
  | .complex real imag => some (.object (.complex (get real) (get imag)))
  | .symbol name hpack =>
    match get hpack with
    | .nil => (nameAt objs name).map .uninterned
    | _ => some .known
  | .package _ => some .known
  | .hashtable h =>
    some (.object (.hashtable ⟨h.test, h.weak, immediate h.syncLock, h.entries, h.limit,
      get h.rehashSize, get h.threshold, h.factor, h.data.map fun e => (get e.1, get e.2)⟩))
  | .array dims a => (fixupVector objs output i a).map fun a => .object (.array dims a)
  | .vector kind fillp a => (fixupVector objs output i a).map fun a => .object (.vector kind fillp a)
  | .random value => some (.object (.random (get value)))
  | .pathname logical host device directory name type version =>
    some (.object (.pathname logical (get host) (get device) (get directory) (get name) (get type)
      (get version)))
  | .bytecodes b =>
    some (.object (.bytecodes ⟨get b.name, get b.definition, b.codeSize, b.code, get b.data,
      get b.flex, b.nlcl, get b.file, get b.filePosition⟩))
  | .bclosure code lex => some (.object (.bclosure (get code) (get lex)))
  | .other => none

end

/-- The loops of ecl_deserialize before the last one. -/
def reconstruct (pk : Packages A) (raw : List Cell) :
    Option (List (Obj ℕ) × List (Ref (Loc A))) := do
  let objs ← reconstructAll (field raw 1) (raw.drop 2)
  let output ← (objs.zipIdx).mapM fun e => resolvePackage pk objs e.1 e.2
  let output ← (objs.zip output).mapM fun e => resolveSymbol pk objs output e.1 e.2
  return (objs, output)

/-- ecl_deserialize: the object, and what the reader has made. -/
def deserialize (pk : Packages A) (raw : List Cell) : Option (Ref (Loc A) × List (Node A)) := do
  let objs ← reconstructAll (field raw 1) (raw.drop 2)
  let output ← (objs.zipIdx).mapM fun e => resolvePackage pk objs e.1 e.2
  let output ← (objs.zip output).mapM fun e => resolveSymbol pk objs output e.1 e.2
  let nodes ← (objs.zipIdx).mapM fun e => fixup objs output e.2 e.1
  return (output.getD 0 .null, nodes)

theorem deserialize_eq (pk : Packages A) (raw : List Cell) :
    deserialize pk raw = (reconstruct pk raw).bind fun (objs, output) => do
      let nodes ← (objs.zipIdx).mapM fun e => fixup objs output e.2 e.1
      return (output.getD 0 .null, nodes) := by
  simp [deserialize, reconstruct, Option.bind_assoc]

end

end Serializer
