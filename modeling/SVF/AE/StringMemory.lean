import SVF.AE.IntervalDivision
import SVF.AE.Memory

namespace SVF.AE.StringMemory

open NumericValue NumericValue.BoundedInt Intervals States AddressValue AbstractState Util.DefaultMaps
open IntervalDivision.Bound (getNumeral)

inductive VarType
  | array (elemByteSize : ℕ)
  | pointer
  | other

inductive ObjType
  | array (elemByteSize byteSize : ℕ)
  | other (byteSize : ℕ)

/-- The size of the object of an `AddrStmt`: constant, or that of an array with variable sizes. -/
inductive AllocaSize
  | constant (byteSize : ℕ)
  | arrSize (sizes : List NodeID)

/-- What the graph says of objects. Objects have identifiers that an address can hold, and other ones
than pointers, which are no array sizes. -/
structure Objects where
  getGepObjVar : NodeID → ℕ → NodeID
  constantByteSize : NodeID → Option ℕ
  addrStmts : NodeID → List AllocaSize
  getType : NodeID → ObjType
  maxFieldLimit : ℕ
  pointers : Set NodeID
  small : ∀ o i, (getGepObjVar o i).toNat < 2 ^ 24
  nonnull : ∀ o i, o ≠ 0 → getGepObjVar o i ≠ 0
  gep_ne : ∀ o i, getGepObjVar o i ∉ pointers
  size_ne : ∀ o sizes, .arrSize sizes ∈ addrStmts o → ∀ value ∈ sizes, value ∉ pointers
  limit_lt : maxFieldLimit < 2 ^ 32

variable (O : Objects)

def getAllocaInstByteSize : AllocaSize → AbstractState → ℕ × AbstractState
  | .constant sz, as => (sz, as)
  | .arrSize sizes, as =>
      let (res, as) := sizes.foldl (fun (res, as) value =>
        let as := if as.inVarToValTable value then as else as.setVar value ⟨.ofInt O.maxFieldLimit, []⟩
        let (itv, as) := as.getVar value
        let product := (res * getNumeral itv.interval.ub % 2 ^ 64).toNat
        (if product > O.maxFieldLimit then O.maxFieldLimit else product, as)) (1, as)
      (res % 2 ^ 32, as)

def getDstSize (addrs : AddressValue) (as : AbstractState) : ℕ × AbstractState :=
  addrs.foldl (fun (dst_size, as) addr =>
    match O.constantByteSize (getInternalID addr) with
    | some byteSize => (byteSize, as)
    | none => (O.addrStmts (getInternalID addr)).foldl (fun (_, as) stmt => getAllocaInstByteSize O stmt as)
        (dst_size, as)) (0, as)

def getPointeeElement (as : AbstractState) (id : NodeID) : Option ObjType :=
  if as.inVarToAddrsTable id then
    ((as.varToAbsVal.get id).addrs.find? fun addr => !isNullPtr addr).map fun addr => O.getType (getInternalID addr)
  else none

/-- `none` is a failed assertion. -/
def getElemSize (as : AbstractState) (id : NodeID) : VarType → Option ℕ
  | .array elemByteSize => some elemByteSize
  | .pointer =>
      match getPointeeElement O as id with
      | some (.array elemByteSize _) => some elemByteSize
      | some (.other byteSize) => some byteSize
      | none => some 1
  | .other => none

/-- The size in `handleMemset`, which does not look into arrays. -/
def getSetSize (as : AbstractState) (id : NodeID) : VarType → Option ℕ
  | .array elemByteSize => some elemByteSize
  | .pointer =>
      match getPointeeElement O as id with
      | some (.array _ byteSize) => some byteSize
      | some (.other byteSize) => some byteSize
      | none => some 1
  | .other => none

def getVirtualMemAddress (idx : NodeID) : NodeID := AddressMask + idx

def getGepObjAddrs (as : AbstractState) (pointer : NodeID) (offset : ℕ) : AddressValue × AbstractState :=
  let i := Min.min offset O.maxFieldLimit
  let (addrs, as) := as.getVar pointer
  addrs.addrs.foldl (fun (gepAddrs, as) addr =>
    let gepObj := O.getGepObjVar (getInternalID addr) i
    (gepAddrs.insert (getVirtualMemAddress gepObj), as.setVar gepObj ⟨.bottom, [getVirtualMemAddress gepObj]⟩))
    ([], as)

def joinLoads (addrs : AddressValue) (as : AbstractState) : AbstractValue × AbstractState :=
  addrs.foldl (fun (val, as) addr =>
    let (v, as) := as.load addr
    (val.join_with v, as)) (default, as)

def isTerminator (val : AbstractValue) : Bool :=
  val.interval.is_numeral && BitVec.ofInt 8 (getNumeral val.interval.lb) == 0

def lenLoop (str : NodeID) : ℕ → ℕ → AbstractState → ℕ × AbstractState
  | 0, len, as => (len, as)
  | left + 1, len, as =>
      let (addrs, as) := getGepObjAddrs O as str len
      let (val, as) := joinLoads addrs as
      if isTerminator val then (len, as) else lenLoop str left (len + 1) as

def cellLength (as : AbstractState) (str : NodeID) : ℕ × AbstractState :=
  let (v, as) := as.getVar str
  let (dst_size, as) := getDstSize O v.addrs as
  if as.inVarToAddrsTable str then lenLoop O str dst_size 0 as else (0, as)

def lengthInterval (len : ℕ) (value : ℕ) : IntervalValue :=
  if len = 0 then ⟨num 0, num O.maxFieldLimit⟩ else .ofInt value

def sse_strlen (as : AbstractState) (str lhs : NodeID) : AbstractState :=
  let (len, as) := cellLength O as str
  as.setVar lhs ⟨lengthInterval O len len, []⟩

def getStrlen (as : AbstractState) (str : NodeID) (type : VarType) : Option (IntervalValue × AbstractState) :=
  let (len, as) := cellLength O as str
  if as.inVarToAddrsTable str then
    (getElemSize O as str type).map fun elemSize => (lengthInterval O len (len * elemSize % 2 ^ 32), as)
  else some (lengthInterval O len 0, as)

/-- The number of elements that are written. A division by zero is undefined. -/
def getRange (len : IntervalValue) (elemSize : ℕ) : Option ℕ :=
  let size := Min.min O.maxFieldLimit (getNumeral len.lb % 2 ^ 32).toNat
  if elemSize = 0 then none else some (size / elemSize)

def copyElement (dst src : NodeID) (start_idx index : ℕ) (as : AbstractState) : AbstractState :=
  let (expr_src, as) := getGepObjAddrs O as src index
  let (expr_dst, as) := getGepObjAddrs O as dst ((index + start_idx) % 2 ^ 32)
  expr_dst.foldl (fun as dst => expr_src.foldl (fun as src =>
    let objId := getInternalID src
    if as.inAddrToValTable objId || as.inAddrToAddrsTable objId then
      let (v, as) := as.load src
      as.store dst v
    else as) as) as

def handleMemcpy (as : AbstractState) (dst : NodeID) (dstType : VarType) (src : NodeID) (len : IntervalValue)
    (start_idx : ℕ) : Option AbstractState :=
  (getElemSize O as dst dstType).bind fun elemSize =>
    (getRange O len elemSize).map fun range_val =>
      if as.inVarToAddrsTable src && as.inVarToAddrsTable dst then
        (List.range range_val).foldl (fun as index => copyElement O dst src start_idx index as) as
      else as

def setAddr (elem : IntervalValue) (as : AbstractState) (addr : NodeID) : AbstractState :=
  let objId := getInternalID addr
  if as.inAddrToValTable objId then
    let (tmp, as) := as.load addr
    as.store addr (tmp.join_with ⟨elem, []⟩)
  else as.store addr ⟨elem, []⟩

def setElement (dst : NodeID) (elem : IntervalValue) (index : ℕ) (as : AbstractState) : AbstractState :=
  let (lhs_gep, as) := getGepObjAddrs O as dst index
  lhs_gep.foldl (setAddr elem) as

/-- The loop ends when the pointer has no addresses. -/
def setLoop (dst : NodeID) (elem : IntervalValue) : List ℕ → AbstractState → AbstractState
  | [], as => as
  | index :: indices, as =>
      if as.inVarToAddrsTable dst then setLoop dst elem indices (setElement O dst elem index as) else as

def handleMemset (as : AbstractState) (dst : NodeID) (dstType : VarType) (elem len : IntervalValue) :
    Option AbstractState :=
  (getSetSize O as dst dstType).bind fun elemSize =>
    (getRange O len elemSize).map fun range_val => setLoop O dst elem (List.range range_val) as

/-- Where the elements of objects lie: from an address on, the element `i` has the bytes from
`offset i` to `offset (i + 1)`, and the object ends after `size` bytes. -/
structure Layout where
  offset : NodeID → ℕ → ℕ
  zero : ∀ a, offset a 0 = 0
  mono : ∀ a, StrictMono (offset a)
  size : NodeID → ℕ

section

variable (L : Layout) (mem mem' : NodeID → Option Value)

def element (a : NodeID) (i : ℕ) : NodeID := O.getGepObjVar (getInternalID a) i

def Layout.bytes (a : NodeID) (i : ℕ) : ℕ := L.offset a (i + 1) - L.offset a i

def IsZero (v : BitVec 64) (bytes : ℕ) : Prop := (256 ^ bytes : ℤ) ∣ v.toInt

/-- Before the end of the object, the element `n` is the first that is zero. -/
structure IsString (a : NodeID) (n : ℕ) : Prop where
  inside : L.offset a (n + 1) ≤ L.size a
  terminated : ∃ v, mem (element O a n) = some (.int v) ∧ IsZero v (L.bytes a n)
  nonzero : ∀ i < n, ∃ v, mem (element O a i) = some (.int v) ∧ ¬ IsZero v (L.bytes a i)

/-- `n` bytes from `b` on are copied to `a`, from its element `start` on. Elements that are written in part,
or from bytes of several elements, can hold anything. -/
structure Copied (a b : NodeID) (start n : ℕ) : Prop where
  whole : ∀ i, L.offset a (start + i + 1) ≤ L.offset a start + n →
    L.offset a (start + i) = L.offset a start + L.offset b i →
    L.offset a (start + i + 1) = L.offset a start + L.offset b (i + 1) →
    mem' (element O a (start + i)) = mem (element O b i)
  kept : ∀ k, (∀ i, L.offset a (start + i) < L.offset a start + n → k ≠ element O a (start + i)) →
    mem' k = mem k

/-- An integer of that many bytes, which are all the low byte of `c`. -/
def fill (bytes : ℕ) (c : BitVec 64) : BitVec 64 :=
  .ofInt 64 ((c.toInt % 256 * ((256 ^ bytes - 1) / 255)).bmod (256 ^ bytes))

structure Filled (a : NodeID) (n : ℕ) (c : BitVec 64) : Prop where
  whole : ∀ i, L.offset a (i + 1) ≤ n → mem' (element O a i) = some (.int (fill (L.bytes a i) c))
  kept : ∀ k, (∀ i, L.offset a i < n → k ≠ element O a i) → mem' k = mem k

end

section

variable (L : Layout) (as : AbstractState)

def StrlenSound (str : NodeID) (type : VarType) : Prop :=
  ∀ mem a n, DescribesAll as.addrToAbsVal mem → a ∈ (as.varToAbsVal.get str).addrs → IsString O L mem a n →
    ∃ r, getStrlen O as str type = some r ∧ (L.offset a n : ℤ) ∈ r.1.concretize

def MemcpySound (dst : NodeID) (dstType : VarType) (src : NodeID) (len : IntervalValue) (start_idx : ℕ) : Prop :=
  ∀ mem mem' a b (n : ℕ), DescribesAll as.addrToAbsVal mem → a ∈ (as.varToAbsVal.get dst).addrs →
    b ∈ (as.varToAbsVal.get src).addrs → isNullPtr a = false → isNullPtr b = false → (n : ℤ) ∈ len.concretize →
    Copied O L mem mem' a b start_idx n →
    ∃ as', handleMemcpy O as dst dstType src len start_idx = some as' ∧ DescribesAll as'.addrToAbsVal mem'

def MemsetSound (dst : NodeID) (dstType : VarType) (elem len : IntervalValue) : Prop :=
  ∀ mem mem' a (n : ℕ) (c : BitVec 64), DescribesAll as.addrToAbsVal mem → a ∈ (as.varToAbsVal.get dst).addrs →
    isNullPtr a = false → (n : ℤ) ∈ len.concretize → c.toInt ∈ elem.concretize → Filled O L mem mem' a n c →
    ∃ as', handleMemset O as dst dstType elem len = some as' ∧ DescribesAll as'.addrToAbsVal mem'

end

end SVF.AE.StringMemory
