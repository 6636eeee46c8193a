import Ecl.Equalp
import Ecl.HashEqual

/-! The hash of EQUALP tables, _hash_equalp of src/c/hash.d. -/
namespace HashEqualp

open NewHash Objects Equalp HashEqual

/-- The cast (cl_index) of a float. C defines it when the integral part is a cl_index;
otherwise the machine decides. -/
def indexSource : FloatValue → ℤ ⊕ FloatValue
  | .finite q => if -1 < q ∧ q < 2 ^ 64 then .inl ⌊q⌋.toNat else .inr (.finite q)
  | v => .inr v

def sourceWord (machine : FloatValue → ℕ) : ℤ ⊕ FloatValue → ℕ
  | .inl n => (n % 2 ^ 64).toNat
  | .inr v => machine v % 2 ^ 64

/-- What _hash_equalp reads of a bignum: USIZE * LIMB_BITS bytes where USIZE limbs are
USIZE * 8 bytes, the rest being the memory behind. -/
def bignumMemory (n : ℤ) (after : List ℕ) : List ℕ :=
  let limbs := leBytes (8 * bignumSize n.natAbs) n.natAbs
  (List.range (64 * bignumSize n.natAbs)).map (fun i => (limbs ++ after).getD i 0)

def integerCallsp : Integer → List Call
  | .fixnum n => [.hashWord (n % 2 ^ 64).toNat]
  | .bignum n after => [.hashString (bignumMemory n after)]

def rationalCallsp : Rational → List Call
  | .integer n => integerCallsp n
  | .ratio num den => integerCallsp num ++ integerCallsp den

/-- Long floats have no case of their own and are hashed as by _hash_equal. -/
def numberCallsp (machine : FloatValue → ℕ) (L : CLibrary) : Number → List Call
  | .rational r => rationalCallsp r
  | .float .long bits => numberCalls L (.float .long bits)
  | .float t bits => [.hashWord (sourceWord machine (indexSource (floatValue t bits)))]
  | .complex re im => rationalCallsp re ++ rationalCallsp im
  | .cfloat t re _ => [.hashWord (sourceWord machine (indexSource (floatValue t re)))]

inductive Place where
  | equalp (depth : ℤ)
  | equal (depth : ℤ)
  deriving DecidableEq

def objectItems (xs : List Obj) : List Item := xs.map .obj

/-- The recursive calls of _hash_equal, which pathnames are left to. -/
def throughEqual (heap : Heap) (depth : ℤ) (x : Obj) : Option (Place × List Item) :=
  (equalChildren heap depth x).map fun node => (.equal node.1, objectItems node.2)

def belowDepth (depth : ℤ) (items : List Item) : Option (Place × List Item) :=
  some (.equalp (depth - 1), if depth - 1 = 0 then [] else items)

def equalpChildren (P : Platform) (heap : Heap) : Place → Item → Option (Place × List Item)
  | .equal depth, .obj x => throughEqual heap depth x
  | .equal _, .number _ => none
  | .equalp depth, item => match view heap item with
    | .list a d => belowDepth depth [.obj a, .obj d]
    | .vector x e => belowDepth depth (elementItems P x e)
    | .array x _ e => belowDepth depth (elementItems P x e)
    | .other .nil => belowDepth depth (elementItems P .nil (.character nilName.codes))
    | .pathname x => throughEqual heap depth x
    | _ => none

def equalpCalls (machine : FloatValue → ℕ) (P : Platform) (L : CLibrary) (heap : Heap) :
    Place → Item → List Call
  | .equal _, .obj x => leafCalls L heap x
  | .equal _, .number n => numberCalls L n
  | .equalp _, item => match view heap item with
    | .number n => numberCallsp machine L n
    | .character c => [.hashWord (P.charUpcase c)]
    | .eclInstance .. => [.hashWord 42]
    | .hashtable .. => [.hashWord 42]
    | .random state => [.hashString (state.take (4 * 624))]
    | .ssePack bytes => [.hashString bytes]
    | .other x => leafCalls L heap x
    | _ => []

def hashEqualp {H : Type} (mix : H → Call → H) (machine : FloatValue → ℕ) (P : Platform)
    (L : CLibrary) (heap : Heap) : ℕ → Place → H → Item → Option H :=
  Traversals.hash (equalpChildren P heap) (equalpCalls machine P L heap) mix

end HashEqualp
