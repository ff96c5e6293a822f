import Mathlib.Data.BitVec
import SVF.AE.Intervals
import SVF.Util.DefaultMaps
import SVF.Util.Folds

namespace SVF.AE.States

open NumericValue Intervals Util.DefaultMaps Util.Folds

abbrev NodeID := BitVec 32

instance : LawfulBEq NodeID := instLawfulBEq

abbrev AddressValue := List NodeID

namespace AddressValue

def AddressMask : NodeID := 0x7f000000

def FlippedAddressMask : NodeID := AddressMask ^^^ 0xffffffff

def isVirtualMemAddress (val : NodeID) : Bool := val &&& 0xff000000 == AddressMask && val != AddressMask

def getInternalID (idx : NodeID) : NodeID := idx &&& FlippedAddressMask

def join_with (addrs other : AddressValue) : AddressValue :=
  other.foldl (fun s addr => s.insert addr) addrs

def meet_with (addrs other : AddressValue) : AddressValue := other.filter (· ∈ addrs)

def equals (addrs rhs : AddressValue) : Bool := addrs.all (· ∈ rhs) && rhs.all (· ∈ addrs)

end AddressValue

open AddressValue

structure AbstractValue where
  interval : IntervalValue
  addrs : AddressValue
  deriving DecidableEq

instance : Inhabited AbstractValue := ⟨⟨.bottom, []⟩⟩

namespace AbstractValue

def isInterval (v : AbstractValue) : Bool := !v.interval.isBottom

def isAddr (v : AbstractValue) : Bool := !v.addrs.isEmpty

def equals (v rhs : AbstractValue) : Bool :=
  v.interval.equals rhs.interval && AddressValue.equals v.addrs rhs.addrs

def join_with (v other : AbstractValue) : AbstractValue :=
  ⟨v.interval.join_with other.interval, AddressValue.join_with v.addrs other.addrs⟩

def meet_with (v other : AbstractValue) : AbstractValue :=
  ⟨v.interval.meet_with other.interval, AddressValue.meet_with v.addrs other.addrs⟩

def widen_with (v other : AbstractValue) : AbstractValue :=
  { v with interval := v.interval.widen_with other.interval }

def narrow_with (v other : AbstractValue) : AbstractValue :=
  { v with interval := v.interval.narrow_with other.interval }

end AbstractValue

abbrev AbsValMap := DefaultMap NodeID AbstractValue

/-- Assertions of the source are not modelled. Reading through `operator[]` or
`load` makes a key present; it then holds the default value, bottom and no address. -/
structure AbstractState where
  varToAbsVal : AbsValMap
  addrToAbsVal : AbsValMap

namespace AbsValMap

def widening (m other : AbsValMap) : AbsValMap :=
  m.mapWithKey fun key v =>
    if key ∈ other.keys then
      if v.isInterval && (other.get key).isInterval then v.widen_with (other.get key) else v
    else v

def narrowing (m other : AbsValMap) : AbsValMap :=
  m.mapWithKey fun key v =>
    if key ∈ other.keys then
      if v.isInterval && (other.get key).isInterval then v.narrow_with (other.get key) else v
    else v

def joinWith (m other : AbsValMap) : AbsValMap :=
  other.keys.foldl (fun m key =>
    if key ∈ m.keys then m.modify key (·.join_with (other.get key))
    else m.set key (other.get key)) m

def eqVarToValMap (lhs rhs : AbsValMap) : Bool :=
  lhs.keys.length == rhs.keys.length &&
    lhs.keys.all fun key => key ∈ rhs.keys && (lhs.get key).equals (rhs.get key)

end AbsValMap

namespace AbstractState

def empty : AbstractState := ⟨.empty, .empty⟩

def widening (es other : AbstractState) : AbstractState :=
  ⟨AbsValMap.widening es.varToAbsVal other.varToAbsVal,
    AbsValMap.widening es.addrToAbsVal other.addrToAbsVal⟩

def narrowing (es other : AbstractState) : AbstractState :=
  ⟨AbsValMap.narrowing es.varToAbsVal other.varToAbsVal,
    AbsValMap.narrowing es.addrToAbsVal other.addrToAbsVal⟩

def joinWith (es other : AbstractState) : AbstractState :=
  ⟨AbsValMap.joinWith es.varToAbsVal other.varToAbsVal,
    AbsValMap.joinWith es.addrToAbsVal other.addrToAbsVal⟩

def eq (lhs rhs : AbstractState) : Bool :=
  AbsValMap.eqVarToValMap lhs.varToAbsVal rhs.varToAbsVal &&
    AbsValMap.eqVarToValMap lhs.addrToAbsVal rhs.addrToAbsVal

def inVarToAddrsTable (as : AbstractState) (id : NodeID) : Bool :=
  id ∈ as.varToAbsVal.keys && (as.varToAbsVal.get id).isAddr

def inAddrToValTable (as : AbstractState) (id : NodeID) : Bool :=
  id ∈ as.addrToAbsVal.keys && (as.addrToAbsVal.get id).isInterval

def inVarToValTable (as : AbstractState) (id : NodeID) : Bool :=
  id ∈ as.varToAbsVal.keys && (as.varToAbsVal.get id).isInterval

def inAddrToAddrsTable (as : AbstractState) (id : NodeID) : Bool :=
  id ∈ as.addrToAbsVal.keys && (as.addrToAbsVal.get id).isAddr

def isNullPtr (addr : NodeID) : Bool := getInternalID addr == 0

def store (as : AbstractState) (addr : NodeID) (val : AbstractValue) : AbstractState :=
  if isNullPtr addr then as
  else { as with addrToAbsVal := as.addrToAbsVal.set (getInternalID addr) val }

def load (as : AbstractState) (addr : NodeID) : AbstractValue × AbstractState :=
  (as.addrToAbsVal.get (getInternalID addr),
    { as with addrToAbsVal := as.addrToAbsVal.touch (getInternalID addr) })

def getVar (as : AbstractState) (varId : NodeID) : AbstractValue × AbstractState :=
  (as.varToAbsVal.get varId, { as with varToAbsVal := as.varToAbsVal.touch varId })

def setVar (as : AbstractState) (varId : NodeID) (v : AbstractValue) : AbstractState :=
  { as with varToAbsVal := as.varToAbsVal.set varId v }

def loadValue (as : AbstractState) (varId : NodeID) : AbstractValue × AbstractState :=
  let (val, as) := as.getVar varId
  val.addrs.foldl (fun (res, as) addr =>
    let (val, as) := as.load addr
    (res.join_with val, as)) (default, as)

def storeValue (as : AbstractState) (varId : NodeID) (val : AbstractValue) : AbstractState :=
  let (ptr, as) := as.getVar varId
  ptr.addrs.foldl (fun as addr => as.store addr val) as

end AbstractState

inductive Value
  | int (n : BitVec 64)
  | addr (a : NodeID)

def AbstractValue.Describes (v : AbstractValue) : Value → Prop
  | .int n => n.toInt ∈ v.interval.concretize
  | .addr a => a ∈ v.addrs

instance (v : AbstractValue) (w : Value) : Decidable (v.Describes w) :=
  match w with
  | .int n => inferInstanceAs (Decidable (v.interval.contains n.toInt = true))
  | .addr a => inferInstanceAs (Decidable (a ∈ v.addrs))

/-- A run-time state gives values to some variables, and to some objects by
their identifiers. -/
structure ConcreteState where
  vars : NodeID → Option Value
  mem : NodeID → Option Value

def DescribesAll (m : AbsValMap) (f : NodeID → Option Value) : Prop :=
  ∀ k w, f k = some w → (m.get k).Describes w

structure Describes (as : AbstractState) (c : ConcreteState) : Prop where
  vars : DescribesAll as.varToAbsVal c.vars
  mem : DescribesAll as.addrToAbsVal c.mem

theorem describes_join_left {v other : AbstractValue} {w : Value} (h : v.Describes w) :
    (v.join_with other).Describes w := by
  cases w with
  | int n => exact concretize_join_left _ _ h
  | addr a =>
      refine foldl_invariant (I := fun s : AddressValue => a ∈ s) (fun b _ s hs => ?_) h
      exact List.mem_insert_of_mem hs

theorem mem_addresses_join {a : NodeID} (addrs other : AddressValue) :
    a ∈ AddressValue.join_with addrs other ↔ a ∈ addrs ∨ a ∈ other := by
  rw [AddressValue.join_with]
  induction other generalizing addrs with
  | nil => simp
  | cons b other ih =>
      rw [List.foldl_cons, ih, List.mem_insert_iff, List.mem_cons]
      tauto

theorem describes_join_right {v other : AbstractValue} {w : Value} (h : other.Describes w) :
    (v.join_with other).Describes w := by
  cases w with
  | int n => exact concretize_join_right _ _ h
  | addr a => exact (mem_addresses_join _ _).mpr (.inr h)

theorem not_describes_default (w : Value) : ¬ (default : AbstractValue).Describes w := by
  cases w with
  | int n =>
      intro h
      have hb : n.toInt ∈ IntervalValue.bottom.concretize := h
      rw [concretize_bottom] at hb
      exact hb
  | addr a => exact List.not_mem_nil

end SVF.AE.States
