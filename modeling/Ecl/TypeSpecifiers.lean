import Mathlib.Data.Int.Bitwise
import Mathlib.Data.Rat.Floor

/-! # Type specifiers and the objects they speak about

Specifiers as `canonical-type` reads them, what it looks up about them outside the type
database, and the elementary types it registers there, with the orders of their families.
The build is a 64-bit one with Unicode, threads, foreign data and complex floats, without
short floats and without SSE packs. -/
namespace TypeTags

inductive Sym where
  | t | nil | star | and | or | not | eql | member | satisfies
  | integer | ratio | singleFloat | doubleFloat | longFloat | float | real | rational
  | complex | cons | array | complexArray | simpleArray | function
  | symbol | keyword | package | compiledFunction | funcallableStandardObject
  | fixnum | bignum | complexSingleFloat | complexDoubleFloat | complexLongFloat
  | complexFloat | number | character | baseChar | standardChar | null | list
  | simpleVector | simpleBitVector | vector | string | baseString | simpleString
  | simpleBaseString | bitVector | sequence | hashTable | pathname | logicalPathname
  | broadcastStream | concatenatedStream | echoStream | fileStream | stringStream
  | synonymStream | twoWayStream | sequenceStream | ansiStream | stream | virtualStream
  | fundamentalStream | readtable | process | lock | rwlock | conditionVariable
  | semaphore | barrier | mailbox | foreignData | codeBlock
  | boolean | index | radix | bit | byte8 | integer8 | byte16 | integer16 | byte32
  | integer32 | byte64 | integer64 | clFixnum | clIndex | shortFloat | mod | signedByte
  | unsignedByte | properList | propertyList | atom | extendedChar | extendedString
  | arrayIndex
  | user (n : ℕ)
  deriving DecidableEq

inductive FloatFormat where
  | single
  | double
  | long
  deriving DecidableEq

/-- A real number. Infinities and NaNs are left out. -/
inductive Number where
  | integer (z : ℤ)
  | ratio (q : ℚ)
  | floating (f : FloatFormat) (q : ℚ)
  | minusZero (f : FloatFormat)
  deriving DecidableEq

def Number.value : Number → ℚ
  | .integer z => z
  | .ratio q => q
  | .floating _ q => q
  | .minusZero _ => 0

/-- A Lisp object where a type specifier is expected. `cell` is a list that somebody
holds, known by its address; `fresh` is a list consed for the occasion. -/
inductive Spec where
  | symbol (s : Sym)
  | number (x : Number)
  | thing (id : ℕ)
  | cell (a : ℕ)
  | fresh (elements : List Spec)

/-- `eq`, and `eql` on numbers: a fresh list is nobody else's. -/
def Spec.eql : Spec → Spec → Bool
  | .symbol s, .symbol s' => s == s'
  | .number x, .number x' => x == x'
  | .thing i, .thing i' => i == i'
  | .cell a, .cell a' => a == a'
  | _, _ => false

/-- The third element of a `(:type name definition)` record. -/
inductive Definition where
  | constant (s : Spec)
  | function (f : List Spec → Except Unit Spec)

/-- The records of an environment that `search-type-in-env` and `complex-float-feature`
read. -/
inductive Record where
  | type (name : Sym) (definition : Definition)
  | complexFloat (on : Bool)

abbrev Env := List Record

/-- The part of the families in which numbers are registered: one for each actual type. -/
inductive IntervalKind where
  | integer
  | ratio
  | float (f : FloatFormat)
  deriving DecidableEq

def IntervalKind.name : IntervalKind → Sym
  | .integer => .integer
  | .ratio => .ratio
  | .float .single => .singleFloat
  | .float .double => .doubleFloat
  | .float .long => .longFloat

/-- `(if (integerp object) 'INTEGER (type-of object))`. -/
def Number.kind : Number → IntervalKind
  | .integer _ => .integer
  | .ratio _ => .ratio
  | .floating f _ => .float f
  | .minusZero f => .float f

inductive ArrayClass where
  | complexArray
  | simpleArray
  deriving DecidableEq

def ArrayClass.name : ArrayClass → Sym
  | .complexArray => .complexArray
  | .simpleArray => .simpleArray

/-- The dimensions of an array type: `*`, or a list whose elements are `*` or a size. -/
inductive Dims where
  | any
  | sizes (l : List (Option ℕ))
  deriving DecidableEq

/-- One end of an interval: `*`, a number, or a number in a list of its own. -/
inductive Bound where
  | star
  | closed (q : ℚ)
  | opened (q : ℚ)
  deriving DecidableEq

/-- What is kept in `*elementary-types*`: names, classes, `(array-class elt dims)`,
`(number-type bound)` and `(complex part)`. -/
inductive Elementary where
  | builtIn (s : Sym)
  | cls (c : ℕ)
  | array (k : ArrayClass) (elt : Sym) (dims : Dims)
  | interval (k : IntervalKind) (b : Bound)
  | complex (u : Sym)
  deriving DecidableEq

structure ArrayObject where
  kind : ArrayClass
  elementType : Sym
  dimensions : List ℕ

/-- What the decision procedure looks at outside of the type database: the specifiers
held somewhere, the type and class definitions, and the objects. -/
structure World where
  listAt : ℕ → List Spec
  deftype : Sym → Option (List Spec → Env → Except Unit Spec)
  isClass : ℕ → Bool
  findClass : Sym → Option ℕ
  className : ℕ → Option Sym
  finalized : ℕ → Bool
  precedenceList : ℕ → List ℕ
  classOf : Spec → ℕ
  predicate : Sym → Spec → Bool
  arrayAt : ℕ → Option ArrayObject
  complexAt : ℕ → Option (Spec × Spec)
  hashEql : Spec → Spec → Fin 256

def builtInAlias : Sym → Option Spec
  | .function => some (.fresh [.symbol .or, .symbol .compiledFunction,
      .symbol .funcallableStandardObject])
  | .integer => some (.fresh [.symbol .integer, .symbol .star, .symbol .star])
  | .fixnum => some (.fresh [.symbol .integer, .number (.integer (-2 ^ 61)),
      .number (.integer (2 ^ 61 - 1))])
  | .bignum => some (.fresh [.symbol .or,
      .fresh [.symbol .integer, .symbol .star, .fresh [.number (.integer (-2 ^ 61))]],
      .fresh [.symbol .integer, .fresh [.number (.integer (2 ^ 61 - 1))], .symbol .star]])
  | .singleFloat => some (.fresh [.symbol .singleFloat, .symbol .star, .symbol .star])
  | .doubleFloat => some (.fresh [.symbol .doubleFloat, .symbol .star, .symbol .star])
  | .longFloat => some (.fresh [.symbol .longFloat, .symbol .star, .symbol .star])
  | .ratio => some (.fresh [.symbol .ratio, .symbol .star, .symbol .star])
  | .rational => some (.fresh [.symbol .or, .symbol .integer, .symbol .ratio])
  | .float => some (.fresh [.symbol .or, .symbol .singleFloat, .symbol .doubleFloat,
      .symbol .longFloat])
  | .real => some (.fresh [.symbol .or, .symbol .rational, .symbol .float])
  | .complexSingleFloat => some (.fresh [.symbol .complex, .symbol .singleFloat])
  | .complexDoubleFloat => some (.fresh [.symbol .complex, .symbol .doubleFloat])
  | .complexLongFloat => some (.fresh [.symbol .complex, .symbol .longFloat])
  | .complexFloat => some (.fresh [.symbol .complex, .symbol .float])
  | .complex => some (.fresh [.symbol .complex, .symbol .star])
  | .number => some (.fresh [.symbol .or, .symbol .real, .symbol .complex])
  | .null => some (.fresh [.symbol .member, .symbol .nil])
  | .list => some (.fresh [.symbol .or, .symbol .cons,
      .fresh [.symbol .member, .symbol .nil]])
  | .array => some (.fresh [.symbol .array, .symbol .star, .symbol .star])
  | .simpleArray => some (.fresh [.symbol .simpleArray, .symbol .star, .symbol .star])
  | .simpleVector => some (.fresh [.symbol .simpleArray, .symbol .t,
      .fresh [.symbol .star]])
  | .simpleBitVector => some (.fresh [.symbol .simpleArray, .symbol .bit,
      .fresh [.symbol .star]])
  | .vector => some (.fresh [.symbol .array, .symbol .star, .fresh [.symbol .star]])
  | .string => some (.fresh [.symbol .or,
      .fresh [.symbol .array, .symbol .character, .fresh [.symbol .star]],
      .fresh [.symbol .array, .symbol .baseChar, .fresh [.symbol .star]]])
  | .baseString => some (.fresh [.symbol .array, .symbol .baseChar,
      .fresh [.symbol .star]])
  | .simpleString => some (.fresh [.symbol .simpleArray, .symbol .character,
      .fresh [.symbol .star]])
  | .simpleBaseString => some (.fresh [.symbol .simpleArray, .symbol .baseChar,
      .fresh [.symbol .star]])
  | .bitVector => some (.fresh [.symbol .array, .symbol .bit, .fresh [.symbol .star]])
  | .sequence => some (.fresh [.symbol .or, .symbol .cons,
      .fresh [.symbol .member, .symbol .nil],
      .fresh [.symbol .array, .symbol .star, .fresh [.symbol .star]]])
  | .ansiStream => some (.fresh [.symbol .or, .symbol .broadcastStream,
      .symbol .concatenatedStream, .symbol .echoStream, .symbol .fileStream,
      .symbol .stringStream, .symbol .synonymStream, .symbol .twoWayStream,
      .symbol .sequenceStream])
  | .stream => some (.fresh [.symbol .or, .symbol .ansiStream,
      .symbol .fundamentalStream])
  | .virtualStream => some (.fresh [.symbol .or, .symbol .stringStream,
      .symbol .fundamentalStream])
  | _ => none

/-- The built-in types that are registered under their name, with the type each is part
of. -/
def builtInSupertype : Sym → Option Sym
  | .keyword => some .symbol
  | .baseChar => some .character
  | .standardChar => some .baseChar
  | .logicalPathname => some .pathname
  | .symbol | .package | .compiledFunction | .character | .cons | .hashTable | .pathname
  | .broadcastStream | .concatenatedStream | .echoStream | .fileStream | .stringStream
  | .synonymStream | .twoWayStream | .sequenceStream | .readtable | .process | .lock
  | .rwlock | .conditionVariable | .semaphore | .barrier | .mailbox | .foreignData
  | .codeBlock => some .t
  | _ => none

/-- `+upgraded-array-element-types+`. -/
def upgradedArrayElementTypes : List Sym :=
  [.nil, .baseChar, .character, .bit, .byte8, .integer8, .byte16, .integer16, .byte32,
    .integer32, .byte64, .integer64, .singleFloat, .doubleFloat, .longFloat,
    .complexSingleFloat, .complexDoubleFloat, .complexLongFloat, .t]

def arrayRankLimit : ℕ := 64

def arrayDimensionLimit : ℕ := 2 ^ 61 - 1

/-- A `deftype` without arguments. -/
def constantDeftype (s : Spec) : List Spec → Env → Except Unit Spec
  | [], _ => .ok s
  | _, _ => .error ()

/-- A `deftype` with one optional argument, which is `*` where it is left out. -/
def optionalDeftype (f : Spec → Except Unit Spec) : List Spec → Env → Except Unit Spec
  | [], _ => f (.symbol .star)
  | [size], _ => f size
  | _, _ => .error ()

def integerSpec (low high : Spec) : Spec := .fresh [.symbol .integer, low, high]

def integers (low high : ℤ) : Spec :=
  integerSpec (.number (.integer low)) (.number (.integer high))

def arraySpec (k elt : Sym) (size : Spec) : Spec :=
  .fresh [.symbol k, .symbol elt, .fresh [size]]

/-- A number of bits turned into a power of two, `1 / 2` and so on included. -/
def powerOfTwo (z : ℤ) : ℚ := if 0 ≤ z then 2 ^ z.toNat else 1 / 2 ^ (-z).toNat

def Number.ofRat (q : ℚ) : Number := if q.den = 1 then .integer q.num else .ratio q

/-- The type definitions of the system. `(real start end)` is none of them: it is taken
apart before definitions are looked up. -/
def systemDeftype : Sym → Option (List Spec → Env → Except Unit Spec)
  | .boolean => some (constantDeftype (.fresh [.symbol .member, .symbol .nil, .symbol .t]))
  | .index => some (constantDeftype (integers 0 arrayDimensionLimit))
  | .radix => some (constantDeftype (integers 2 36))
  | .fixnum => some (constantDeftype (integers (-2 ^ 61) (2 ^ 61 - 1)))
  | .bignum => some (constantDeftype (.fresh [.symbol .or,
      integerSpec (.symbol .star) (.fresh [.number (.integer (-2 ^ 61))]),
      integerSpec (.fresh [.number (.integer (2 ^ 61 - 1))]) (.symbol .star)]))
  | .byte8 => some (constantDeftype (integers 0 (2 ^ 8 - 1)))
  | .integer8 => some (constantDeftype (integers (-2 ^ 7) (2 ^ 7 - 1)))
  | .byte16 => some (constantDeftype (integers 0 (2 ^ 16 - 1)))
  | .integer16 => some (constantDeftype (integers (-2 ^ 15) (2 ^ 15 - 1)))
  | .byte32 => some (constantDeftype (integers 0 (2 ^ 32 - 1)))
  | .integer32 => some (constantDeftype (integers (-2 ^ 31) (2 ^ 31 - 1)))
  | .byte64 => some (constantDeftype (integers 0 (2 ^ 64 - 1)))
  | .integer64 => some (constantDeftype (integers (-2 ^ 63) (2 ^ 63 - 1)))
  | .clFixnum => some (constantDeftype (.fresh [.symbol .signedByte, .number (.integer 64)]))
  | .clIndex => some (constantDeftype (.fresh [.symbol .unsignedByte, .number (.integer 64)]))
  | .real => some (constantDeftype (.fresh [.symbol .or, .symbol .rational, .symbol .float]))
  | .shortFloat => some fun arguments _ =>
      match arguments with
      | [] => .ok (.symbol .singleFloat)
      | arguments => .ok (.fresh (.symbol .singleFloat :: arguments))
  | .bit => some (constantDeftype (integers 0 1))
  | .mod => some fun arguments _ =>
      match arguments with
      | [.number (.integer n)] => .ok (integers 0 (n - 1))
      | _ => .error ()
  | .signedByte => some (optionalDeftype fun s =>
      match s with
      | .symbol .nil => .ok (integerSpec (.symbol .star) (.symbol .star))
      | .symbol .star => .ok (integerSpec (.symbol .star) (.symbol .star))
      | .number (.integer s) =>
        .ok (integerSpec (.number (.ofRat (-powerOfTwo (s - 1))))
          (.number (.ofRat (powerOfTwo (s - 1) - 1))))
      | _ => .error ())
  | .unsignedByte => some (optionalDeftype fun s =>
      match s with
      | .symbol .nil => .ok (integerSpec (.number (.integer 0)) (.symbol .star))
      | .symbol .star => .ok (integerSpec (.number (.integer 0)) (.symbol .star))
      | .number (.integer s) =>
        .ok (integerSpec (.number (.integer 0)) (.number (.ofRat (powerOfTwo s - 1))))
      | _ => .error ())
  | .null => some (constantDeftype (.fresh [.symbol .member, .symbol .nil]))
  | .sequence => some (constantDeftype (.fresh [.symbol .or, .symbol .cons, .symbol .null,
      arraySpec .array .star (.symbol .star)]))
  | .list => some (constantDeftype (.fresh [.symbol .or, .symbol .cons, .symbol .null]))
  | .properList => some (constantDeftype (.fresh [.symbol .or,
      .fresh [.symbol .cons, .symbol .t, .symbol .properList], .symbol .null]))
  | .propertyList => some (constantDeftype (.fresh [.symbol .or,
      .fresh [.symbol .cons, .symbol .t,
        .fresh [.symbol .cons, .symbol .t, .symbol .propertyList]], .symbol .null]))
  | .atom => some (constantDeftype (.fresh [.symbol .not, .symbol .cons]))
  | .vector => some fun arguments _ =>
      if arguments.length ≤ 2 then
        .ok (.fresh [.symbol .array, arguments.getD 0 (.symbol .star),
          .fresh [arguments.getD 1 (.symbol .star)]])
      else .error ()
  | .extendedChar => some (constantDeftype (.fresh [.symbol .and, .symbol .character,
      .fresh [.symbol .not, .symbol .baseChar]]))
  | .string => some (optionalDeftype fun size => .ok (.fresh [.symbol .or,
      arraySpec .array .baseChar size, arraySpec .array .character size]))
  | .baseString => some (optionalDeftype fun size => .ok (arraySpec .array .baseChar size))
  | .extendedString => some (optionalDeftype fun size =>
      .ok (arraySpec .array .character size))
  | .bitVector => some (optionalDeftype fun size => .ok (arraySpec .array .bit size))
  | .simpleVector => some (optionalDeftype fun size => .ok (arraySpec .simpleArray .t size))
  | .simpleString => some (optionalDeftype fun size =>
      let size := orStar size
      .ok (.fresh [.symbol .or, arraySpec .simpleArray .baseChar size,
        arraySpec .simpleArray .character size]))
  | .simpleBaseString => some (optionalDeftype fun size =>
      .ok (arraySpec .simpleArray .baseChar (orStar size)))
  | .simpleBitVector => some (optionalDeftype fun size =>
      .ok (arraySpec .simpleArray .bit (orStar size)))
  | .arrayIndex => some (constantDeftype (integers 0 (arrayDimensionLimit - 1)))
  | .virtualStream => some (constantDeftype (.fresh [.symbol .or, .symbol .stringStream,
      .symbol .fundamentalStream]))
  | _ => none
where
  orStar : Spec → Spec
    | .symbol .nil => .symbol .star
    | size => size

namespace World

variable (w : World)

def uncons : Spec → Option (Spec × List Spec)
  | .cell a =>
    match w.listAt a with
    | [] => none
    | head :: args => some (head, args)
  | .fresh (head :: args) => some (head, args)
  | _ => none

/-- The bound a specifier gives, as `canonical-interval-type` takes it apart. -/
def boundOf (s : Spec) : Option Bound :=
  match s, w.uncons s with
  | .symbol .star, _ => some .star
  | .number x, _ => some (.closed x.value)
  | _, some (.number x, _) => some (.opened x.value)
  | _, _ => none

def sizeOf? : Spec → Option (Option ℕ)
  | .symbol .star => some none
  | .number (.integer z) =>
    if 0 ≤ z ∧ z < arrayDimensionLimit then some (some z.toNat) else none
  | _ => none

/-- Dimensions written as `*` or as a list. -/
def listedDims (s : Spec) : Option Dims :=
  match s, w.uncons s with
  | .symbol .star, _ => some .any
  | .symbol .nil, _ => some (.sizes [])
  | _, some (head, args) => ((head :: args).mapM sizeOf?).map .sizes
  | _, none => none

/-- The dimensions `parse-array-type` reads, where a number stands for as many `*`. -/
def dimsOf (s : Spec) : Option Dims :=
  match s with
  | .number (.integer z) =>
    if 0 ≤ z ∧ z < arrayRankLimit then some (.sizes (List.replicate z.toNat none)) else none
  | _ => w.listedDims s

/-- `(eql spec type)` for a registered type. -/
def eqlSpec : Spec → Elementary → Bool
  | .symbol s, .builtIn s' => s == s'
  | .thing c, .cls c' => c == c'
  | _, _ => false

/-- `(equal spec type)` for a registered type. -/
def equalSpec (s : Spec) (e : Elementary) : Bool :=
  eqlSpec s e ||
    match w.uncons s, e with
    | some (.symbol h, [.symbol x, d]), .array k elt dims =>
      h == k.name && x == elt && w.listedDims d == some dims
    | some (.symbol h, [b]), .interval k b' => h == k.name && w.boundOf b == some b'
    | some (.symbol h, [.symbol x]), .complex u => h == .complex && x == u
    | _, _ => false

def subclassp (low high : ℕ) : Bool :=
  low == high || (w.precedenceList low).contains high

end World

/-- `(bounds-<= b1 b2)`: whether what starts at `b2` is part of what starts at `b1`. -/
def boundsLe : Bound → Bound → Bool
  | .star, _ => true
  | _, .star => false
  | .opened q, .opened q' => q ≤ q'
  | .opened q, .closed q' => q < q'
  | .closed q, .opened q' => q ≤ q'
  | .closed q, .closed q' => q ≤ q'

def numericRangeP : Elementary → Bool
  | .interval _ _ => true
  | _ => false

def numericRangeLe : Elementary → Elementary → Bool
  | .interval k b, .interval k' b' => k == k' && boundsLe b' b
  | _, _ => false

/-- The loop of `array-type-<=` over the dimensions of one type and the pattern of the
other. -/
def dimsLe : List (Option ℕ) → List (Option ℕ) → Bool
  | [], [] => true
  | a :: dim, b :: pat => (b == none || b == a) && dimsLe dim pat
  | _, _ => false

def arrayTypeP : Elementary → Bool
  | .array _ _ _ => true
  | _ => false

def arrayTypeLe : Elementary → Elementary → Bool
  | .array k elt dim, .array k' elt' pat =>
    k == k' && elt == elt' &&
      match dim, pat with
      | _, .any => true
      | .any, _ => false
      | .sizes dim, .sizes pat => dimsLe dim pat
  | _, _ => false

/-- The first argument `register-class` gives to `register-type`. -/
def classOrNameP : Elementary → Bool
  | .builtIn _ => true
  | .cls _ => true
  | _ => false

def World.classAt (w : World) : Elementary → Option ℕ
  | .builtIn s => w.findClass s
  | .cls c => some c
  | _ => none

/-- The second argument `register-class` gives to `register-type`. -/
def World.classLe (w : World) (c1 c2 : Elementary) : Bool :=
  match w.classAt c1, w.classAt c2 with
  | some c1, some c2 => w.subclassp c1 c2
  | _, _ => false

/-- `in-interval-p` for a type with its lower end only. -/
def inInterval (x : ℚ) : Bound → Bool
  | .star => true
  | .closed q => q ≤ x
  | .opened q => q < x

/-- `match-dimensions` for a pattern that is no number. -/
def Dims.matches : Dims → List ℕ → Bool
  | .any, _ => true
  | .sizes pat, dims => dimsLe (dims.map some) pat

/-- `typep` for a type of `*elementary-types*`. -/
def World.typep (w : World) (object : Spec) : Elementary → Bool
  | .builtIn s => w.predicate s object
  | .cls c => w.subclassp (w.classOf object) c
  | .array k elt dims =>
    match object with
    | .thing i =>
      match w.arrayAt i with
      | some x => x.kind == k && x.elementType == elt && dims.matches x.dimensions
      | none => false
    | _ => false
  | .interval k b =>
    match object with
    | .number x => x.kind == k && inInterval x.value b
    | _ => false
  | .complex u =>
    match object with
    | .thing i =>
      match w.complexAt i with
      | some (re, im) => w.predicate u re && w.predicate u im
      | none => false
    | _ => false

end TypeTags

namespace TypeTags

/-- `*highest-type-tag*` is `2 ^ highest`. `outer` holds the cells of the list of
elementary types that was in force around the query: until `save` is off they are also
cells of `elementary`. -/
structure Database where
  highest : ℕ
  save : Bool
  members : List (Spec × ℤ)
  elementary : List (Elementary × ℤ)
  outer : List (Elementary × ℤ)

def Database.initial : Database := ⟨0, false, [], [], []⟩

def addTag (mask new : ℤ) (x : Elementary × ℤ) : Elementary × ℤ :=
  if Int.land x.2 mask ≠ 0 then (x.1, Int.lor new x.2) else x

def extendTag (tag minimal : ℤ) (x : Elementary × ℤ) : Elementary × ℤ :=
  if Int.ldiff minimal x.2 = 0 then (x.1, Int.lor tag x.2) else x

namespace Database

variable (w : World) (d : Database)

/-- `with-type-database` on the way in. -/
def enter : Database := { d with save := true, outer := d.elementary }

/-- `with-type-database` on the way out, from the database `inner`: the bindings are the
old ones, but cells of theirs may have been changed. -/
def leave (inner : Database) : Database :=
  { d with
    elementary := inner.outer
    outer := if d.save then inner.outer.drop (d.elementary.length - d.outer.length)
      else d.outer }

def newTypeTag : ℤ × Database := (2 ^ d.highest, { d with highest := d.highest + 1 })

def pushNewType (type : Elementary) (tag : ℤ) : ℤ × Database :=
  let tag := d.members.foldl (fun tag i => if w.typep i.1 type then Int.lor tag i.2 else tag) tag
  (tag, { d with elementary := (type, tag) :: d.elementary })

def findRegisteredTag (test : Elementary → Bool) : Option ℤ :=
  (d.elementary.find? fun x => test x.1).map Prod.snd

def maybeSaveTypes : Database := { d with save := false }

def updateTypes (mask new : ℤ) : Database :=
  { d.maybeSaveTypes with elementary := d.elementary.map (addTag mask new) }

/-- What `find-type-bounds` has found so far: an equivalent type, or the tags of the
supertypes, subtypes and other types of the family. -/
inductive Bounds where
  | equivalent (tag : ℤ)
  | between (super sub disjoint : ℤ)

def boundsWith (le : Elementary → Elementary → Bool) (type : Elementary) :
    Bounds → Elementary × ℤ → Bounds
  | .equivalent tag, _ => .equivalent tag
  | .between super sub disjoint, (other, tag) =>
    match le type other, le other type with
    | true, true => .equivalent tag
    | true, false => .between (Int.lor tag super) sub disjoint
    | false, true => .between super (Int.lor tag sub) disjoint
    | false, false => .between super sub (Int.lor disjoint tag)

/-- The check for a total order that comes after the loop asks whether a number is `nil`,
which none is. -/
def findTypeBounds (type : Elementary) (family : Elementary → Bool)
    (le : Elementary → Elementary → Bool) : Option ℤ × ℤ :=
  match (d.elementary.filter fun x => family x.1).foldl (boundsWith le type)
      (.between 0 0 0) with
  | .equivalent tag => (none, tag)
  | .between super sub disjoint => (some (Int.ldiff super (Int.lor disjoint sub)), sub)

def makeRegisteredTag (type : Elementary) (family : Elementary → Bool)
    (le : Elementary → Elementary → Bool) : ℤ × Database :=
  match d.findTypeBounds type family le with
  | (none, tagSub) => d.pushNewType w type tagSub
  | (some tagSuper, tagSub) =>
    let (tag, d) := d.newTypeTag
    (d.updateTypes tagSuper tag).pushNewType w type (Int.lor tag tagSub)

def registerType (type : Elementary) (family : Elementary → Bool)
    (le : Elementary → Elementary → Bool) : ℤ × Database :=
  match d.findRegisteredTag (· == type) with
  | some tag => (tag, d)
  | none => d.makeRegisteredTag w type family le

/-- `(find-registered-tag type #'equalp)` needs no other test: bounds are compared by
their value. -/
def registerIntervalType (kind : IntervalKind) (b : Bound) : ℤ × Database :=
  d.registerType w (.interval kind b) numericRangeP numericRangeLe

def aboveHigh (kind : IntervalKind) : Bound → Option Bound
  | .star => none
  | .closed q => some (if kind = .integer then .closed ⌊q + 1⌋ else .opened q)
  | .opened q => some (if kind = .integer then .closed ⌈q⌉ else .closed q)

def fromLow (kind : IntervalKind) : Bound → Bound
  | .star => .star
  | .closed q => if kind = .integer then .closed ⌈q⌉ else .closed q
  | .opened q => if kind = .integer then .closed ⌊q + 1⌋ else .opened q

def canonicalIntervalType (kind : IntervalKind) (low high : Bound) : ℤ × Database :=
  let (tagHigh, d) :=
    match aboveHigh kind high with
    | none => (0, d)
    | some b => d.registerIntervalType w kind b
  let (tagLow, d) := d.registerIntervalType w kind (fromLow kind low)
  (Int.ldiff tagLow tagHigh, d)

def findMemberType (object : Spec) : Option ℤ :=
  (d.members.find? fun x => object.eql x.1).map Prod.snd

def simpleMemberType (object : Spec) : ℤ × Database :=
  let (tag, d) := d.newTypeTag
  (tag, { d.maybeSaveTypes with
    members := (object, tag) :: d.members
    elementary := d.elementary.map fun x =>
      if w.typep object x.1 then (x.1, Int.lor tag x.2) else x })

def numberMemberType (x : Number) : ℤ × Database :=
  d.canonicalIntervalType w x.kind (.closed x.value) (.closed x.value)

/-- `register-member-type` on an object not registered yet. Positive zero is the interval
of both zeros less the negative one. -/
def registerNewMember (object : Spec) : ℤ × Database :=
  match object with
  | .number (.floating f q) =>
    let (tag, d) := d.numberMemberType w (.floating f q)
    if q = 0 then
      let (minus, d) :=
        match d.findMemberType (.number (.minusZero f)) with
        | some minus => (minus, d)
        | none => d.simpleMemberType w (.number (.minusZero f))
      (Int.ldiff tag minus, d)
    else (tag, d)
  | .number (.minusZero f) => d.simpleMemberType w (.number (.minusZero f))
  | .number x => d.numberMemberType w x
  | object => d.simpleMemberType w object

def registerMemberType (object : Spec) : ℤ × Database :=
  match d.findMemberType object with
  | some tag => (tag, d)
  | none => d.registerNewMember w object

/-- `extend-type-tag` works on the cells there are, without a copy. -/
def extendTypeTag (tag minimal : ℤ) : Database :=
  { d with
    elementary := d.elementary.map (extendTag tag minimal)
    outer := if d.save then d.outer.map (extendTag tag minimal) else d.outer }

def registerComplexType (upgraded : Sym) : ℤ × Database :=
  let (tag, d) := d.newTypeTag
  d.pushNewType w (.complex upgraded) tag

/-- The last part of `find-built-in-tag`: a name with a tag of its own. -/
def registerBuiltIn (name : Sym) (supertypeTag : Option ℤ) : ℤ × Database :=
  let (tag, d) := d.newTypeTag
  match supertypeTag with
  | none => d.pushNewType w (.builtIn name) tag
  | some supertypeTag => (d.extendTypeTag tag supertypeTag).pushNewType w (.builtIn name) tag

end Database

end TypeTags
