import SVF.AE.Addresses
import SVF.AE.IntervalComparisons
import SVF.AE.StringMemory

namespace SVF.AE.StringLengths

open NumericValue NumericValue.BoundedInt Intervals States AddressValue AbstractState Util.DefaultMaps Util.Folds
open IntervalDivision.Bound (getNumeral)
open IntervalComparisons Memory StringMemory

variable {O : Objects} {as as' as'' : AbstractState}

structure Agrees (O : Objects) (as as' : AbstractState) : Prop where
  vars : ∀ q ∈ O.pointers, as'.varToAbsVal.get q = as.varToAbsVal.get q
  mem : as'.addrToAbsVal.get = as.addrToAbsVal.get

theorem Agrees.refl (as : AbstractState) : Agrees O as as := ⟨fun _ _ => rfl, rfl⟩

theorem Agrees.trans (h : Agrees O as as') (h' : Agrees O as' as'') : Agrees O as as'' :=
  ⟨fun q hq => (h'.vars q hq).trans (h.vars q hq), h'.mem.trans h.mem⟩

theorem agrees_getVar (as : AbstractState) (id : NodeID) : Agrees O as (as.getVar id).2 :=
  ⟨fun _ _ => by rw [AbstractState.getVar, get_touch], rfl⟩

theorem agrees_load (as : AbstractState) (addr : NodeID) : Agrees O as (as.load addr).2 :=
  ⟨fun _ _ => rfl, get_touch _ _⟩

theorem agrees_setVar (as : AbstractState) {id : NodeID} (v : AbstractValue) (h : id ∉ O.pointers) :
    Agrees O as (as.setVar id v) := by
  refine ⟨fun q hq => ?_, rfl⟩
  apply get_set_of_ne
  rintro rfl
  exact h hq

theorem agrees_foldl {α β : Type} (f : β × AbstractState → α → β × AbstractState) (l : List α)
    (h : ∀ x ∈ l, ∀ b as, Agrees O as (f (b, as) x).2) (b : β) (as : AbstractState) :
    Agrees O as (l.foldl f (b, as)).2 := by
  induction l generalizing b as with
  | nil => exact .refl as
  | cons x l ih =>
      rw [List.foldl_cons]
      have hrest := ih (fun y hy => h y (List.mem_cons_of_mem x hy)) (f (b, as) x).1 (f (b, as) x).2
      exact (h x List.mem_cons_self b as).trans hrest

theorem agrees_getGepObjAddrs (as : AbstractState) (pointer : NodeID) (i : ℕ) :
    Agrees O as (getGepObjAddrs O as pointer i).2 := by
  apply (agrees_getVar as pointer).trans
  apply agrees_foldl
  intro addr _ b as
  exact agrees_setVar as _ (O.gep_ne _ _)

theorem agrees_joinLoads (addrs : AddressValue) (as : AbstractState) : Agrees O as (joinLoads addrs as).2 := by
  apply agrees_foldl
  intro addr _ b as
  exact agrees_load as addr

theorem agrees_getAllocaInstByteSize {o : NodeID} {stmt : AllocaSize} (h : stmt ∈ O.addrStmts o) (as : AbstractState) :
    Agrees O as (getAllocaInstByteSize O stmt as).2 := by
  cases stmt with
  | constant sz => exact .refl as
  | arrSize sizes =>
      have hloop := agrees_foldl (O := O) (fun (p : ℕ × AbstractState) value =>
        let as := if p.2.inVarToValTable value then p.2 else p.2.setVar value ⟨.ofInt O.maxFieldLimit, []⟩
        let product := (p.1 * getNumeral (as.getVar value).1.interval.ub % 2 ^ 64).toNat
        (if product > O.maxFieldLimit then O.maxFieldLimit else product, (as.getVar value).2)) sizes
      apply hloop
      intro value hvalue b as
      dsimp only
      split
      · exact agrees_getVar as value
      · exact (agrees_setVar as _ (O.size_ne o sizes h value hvalue)).trans (agrees_getVar _ value)

theorem agrees_getDstSize (addrs : AddressValue) (as : AbstractState) : Agrees O as (getDstSize O addrs as).2 := by
  apply agrees_foldl
  intro addr _ b as
  dsimp only
  split
  · exact .refl as
  · apply agrees_foldl
    intro stmt hstmt b as
    exact agrees_getAllocaInstByteSize hstmt as

theorem inVarToAddrsTable_eq (as : AbstractState) (id : NodeID) :
    as.inVarToAddrsTable id = (as.varToAbsVal.get id).isAddr := by
  unfold AbstractState.inVarToAddrsTable
  by_cases h : id ∈ as.varToAbsVal.keys
  · simp [h]
  · rw [as.varToAbsVal.get_absent id h]
    simp [AbstractValue.isAddr]
    intro hne
    exact absurd rfl hne

theorem Agrees.inVarToAddrsTable (h : Agrees O as as') {id : NodeID} (hid : id ∈ O.pointers) :
    as'.inVarToAddrsTable id = as.inVarToAddrsTable id := by
  rw [inVarToAddrsTable_eq, inVarToAddrsTable_eq, h.vars id hid]

theorem Agrees.getElemSize (h : Agrees O as as') {id : NodeID} (hid : id ∈ O.pointers) (type : VarType) :
    getElemSize O as' id type = getElemSize O as id type := by
  cases type with
  | pointer =>
      have hpointee : getPointeeElement O as' id = getPointeeElement O as id := by
        rw [getPointeeElement, getPointeeElement, h.inVarToAddrsTable hid, h.vars id hid]
      rw [StringMemory.getElemSize, hpointee]
      rfl
  | _ => rfl

def gepAddrs (O : Objects) (addrs : AddressValue) (i : ℕ) : AddressValue :=
  addrs.foldl (fun gepAddrs addr =>
    gepAddrs.insert (getVirtualMemAddress (O.getGepObjVar (getInternalID addr) (Min.min i O.maxFieldLimit)))) []

def joined (m : NodeID → AbstractValue) (addrs : AddressValue) : AbstractValue :=
  addrs.foldl (fun val addr => val.join_with (m (getInternalID addr))) default

theorem getInternalID_gep (O : Objects) (o : NodeID) (i : ℕ) :
    getInternalID (getVirtualMemAddress (O.getGepObjVar o i)) = O.getGepObjVar o i :=
  Addresses.getInternalID_add (O.small o i)

theorem getGepObjAddrs_fst (as : AbstractState) (pointer : NodeID) (i : ℕ) :
    (getGepObjAddrs O as pointer i).1 = gepAddrs O (as.varToAbsVal.get pointer).addrs i := by
  have hloop : ∀ (l : AddressValue) (res : AddressValue) (as : AbstractState),
      (l.foldl (fun (p : AddressValue × AbstractState) addr =>
        let gepObj := O.getGepObjVar (getInternalID addr) (Min.min i O.maxFieldLimit)
        (p.1.insert (getVirtualMemAddress gepObj), p.2.setVar gepObj ⟨.bottom, [getVirtualMemAddress gepObj]⟩))
        (res, as)).1 = l.foldl (fun gepAddrs addr =>
          gepAddrs.insert (getVirtualMemAddress (O.getGepObjVar (getInternalID addr) (Min.min i O.maxFieldLimit)))) res := by
    intro l
    induction l with
    | nil => intro res as; rfl
    | cons addr l ih => intro res as; exact ih _ _
  exact hloop _ _ _

theorem mem_gepAddrs (addrs : AddressValue) (i : ℕ) (x : NodeID) : x ∈ gepAddrs O addrs i ↔
    ∃ a ∈ addrs, x = getVirtualMemAddress (O.getGepObjVar (getInternalID a) (Min.min i O.maxFieldLimit)) := by
  have hloop : ∀ (l res : AddressValue), x ∈ l.foldl (fun gepAddrs addr =>
      gepAddrs.insert (getVirtualMemAddress (O.getGepObjVar (getInternalID addr) (Min.min i O.maxFieldLimit)))) res ↔
      x ∈ res ∨ ∃ a ∈ l, x = getVirtualMemAddress (O.getGepObjVar (getInternalID a) (Min.min i O.maxFieldLimit)) := by
    intro l
    induction l with
    | nil => simp
    | cons a l ih =>
        intro res
        rw [List.foldl_cons, ih, List.mem_insert_iff]
        simp only [List.mem_cons, exists_eq_or_imp]
        tauto
  rw [gepAddrs, hloop]
  simp

theorem mem_gepAddrs_element {addrs : AddressValue} {i : ℕ} (hi : i ≤ O.maxFieldLimit) (k : NodeID) :
    (∃ x ∈ gepAddrs O addrs i, getInternalID x = k) ↔ ∃ a ∈ addrs, element O a i = k := by
  constructor
  · rintro ⟨x, hx, rfl⟩
    obtain ⟨a, ha, rfl⟩ := (mem_gepAddrs addrs i x).mp hx
    refine ⟨a, ha, ?_⟩
    rw [getInternalID_gep, Nat.min_eq_left hi]
    rfl
  · rintro ⟨a, ha, rfl⟩
    refine ⟨_, (mem_gepAddrs addrs i _).mpr ⟨a, ha, rfl⟩, ?_⟩
    rw [getInternalID_gep, Nat.min_eq_left hi]
    rfl

theorem gepAddrs_single (d : NodeID) {i : ℕ} (hi : i ≤ O.maxFieldLimit) :
    gepAddrs O [d] i = [getVirtualMemAddress (element O d i)] := by
  rw [gepAddrs, List.foldl_cons, List.foldl_nil, Nat.min_eq_left hi]
  rfl

theorem joinLoads_fst (addrs : AddressValue) (as : AbstractState) :
    (joinLoads addrs as).1 = joined as.addrToAbsVal.get addrs := by
  have hloop : ∀ (l : AddressValue) (val : AbstractValue) (as : AbstractState),
      (l.foldl (fun (p : AbstractValue × AbstractState) addr =>
        (p.1.join_with (p.2.load addr).1, (p.2.load addr).2)) (val, as)).1 =
      l.foldl (fun val addr => val.join_with (as.addrToAbsVal.get (getInternalID addr))) val := by
    intro l
    induction l with
    | nil => intro val as; rfl
    | cons addr l ih =>
        intro val as
        rw [List.foldl_cons, List.foldl_cons, ih]
        simp only [AbstractState.load, get_touch]
  exact hloop _ _ _

theorem joined_describes {m : NodeID → AbstractValue} {addrs : AddressValue} {x : NodeID} {w : Value}
    (hx : x ∈ addrs) (hw : (m (getInternalID x)).Describes w) : (joined m addrs).Describes w := by
  have hloop : ∀ (l : AddressValue) (val : AbstractValue),
      (val.Describes w ∨ x ∈ l) →
        (l.foldl (fun val addr => val.join_with (m (getInternalID addr))) val).Describes w := by
    intro l
    induction l with
    | nil =>
        rintro val (h | h)
        · exact h
        · exact absurd h List.not_mem_nil
    | cons y l ih =>
        intro val h
        apply ih
        obtain h | h := h
        · exact .inl (describes_join_left h)
        · obtain rfl | h := List.mem_cons.mp h
          · exact .inl (describes_join_right hw)
          · exact .inr h
  exact hloop addrs default (.inr hx)

section

/-- At that index, all objects together are one integer whose low byte is zero. -/
def Certain (O : Objects) (as : AbstractState) (str : NodeID) (i : ℕ) : Prop :=
  isTerminator (joined as.addrToAbsVal.get (gepAddrs O (as.varToAbsVal.get str).addrs i)) = true

theorem Agrees.certain_iff (h : Agrees O as as') {str : NodeID} (hstr : str ∈ O.pointers) (i : ℕ) :
    Certain O as' str i ↔ Certain O as str i := by
  rw [Certain, Certain, h.vars str hstr, h.mem]

theorem lenLoop_eq {str : NodeID} (hstr : str ∈ O.pointers) {n : ℕ} (left len : ℕ) (as : AbstractState)
    (hlen : len ≤ n) (hn : n < len + left) (hcertain : Certain O as str n)
    (hfirst : ∀ i, len ≤ i → i < n → ¬ Certain O as str i) : (lenLoop O str left len as).1 = n := by
  induction left generalizing len as with
  | zero => omega
  | succ left ih =>
      have hval : (joinLoads (getGepObjAddrs O as str len).1 (getGepObjAddrs O as str len).2).1 =
          joined as.addrToAbsVal.get (gepAddrs O (as.varToAbsVal.get str).addrs len) := by
        rw [joinLoads_fst, getGepObjAddrs_fst, (agrees_getGepObjAddrs as str len).mem]
      rw [lenLoop]
      dsimp only
      rw [hval]
      split
      · rename_i hstop
        by_contra hne
        exact hfirst len le_rfl (lt_of_le_of_ne hlen hne) hstop
      · rename_i hstop
        have hagrees : Agrees O as (joinLoads (getGepObjAddrs O as str len).1 (getGepObjAddrs O as str len).2).2 :=
          (agrees_getGepObjAddrs as str len).trans (agrees_joinLoads _ _)
        have hne : len ≠ n := fun he => hstop (he ▸ hcertain)
        apply ih
        · omega
        · omega
        · exact (hagrees.certain_iff hstr n).mpr hcertain
        · intro i hi hin
          rw [hagrees.certain_iff hstr i]
          exact hfirst i (by omega) hin

/-- At a certain index, the low byte of what is there is zero. -/
theorem dvd_of_certain {str : NodeID} {i : ℕ} (h : Certain O as str i) {v : BitVec 64}
    (hv : (joined as.addrToAbsVal.get (gepAddrs O (as.varToAbsVal.get str).addrs i)).Describes (.int v)) :
    (256 : ℤ) ∣ v.toInt := by
  rw [Certain, isTerminator, Bool.and_eq_true, beq_iff_eq] at h
  have hlb := lb_of_numeral h.1 hv
  rw [hlb] at h
  have hzero := congrArg BitVec.toInt h.2
  rw [getNumeral, BitVec.toInt_ofInt] at hzero
  exact Int.dvd_of_bmod_eq_zero hzero

/-- What an element holds is among what is joined at its index. -/
theorem joined_of_element {str a : NodeID} {i : ℕ} (ha : a ∈ (as.varToAbsVal.get str).addrs)
    (hi : i ≤ O.maxFieldLimit) {v : BitVec 64} (hv : (as.addrToAbsVal.get (element O a i)).Describes (.int v)) :
    (joined as.addrToAbsVal.get (gepAddrs O (as.varToAbsVal.get str).addrs i)).Describes (.int v) := by
  obtain ⟨x, hx, hid⟩ := (mem_gepAddrs_element hi _).mpr ⟨a, ha, rfl⟩
  rw [← hid] at hv
  exact joined_describes hx hv

variable {L : Layout} {str : NodeID} {type : VarType} {e : ℕ}

/-- The elements have the size that the function takes them to have. An element in which a string can end
does not come before the first index at which all objects certainly hold zero, and the loop gets there. -/
structure StrlenFits (O : Objects) (L : Layout) (as : AbstractState) (str : NodeID) (type : VarType) (e : ℕ) :
    Prop where
  elemSize : getElemSize O as str type = some e
  offset : ∀ a ∈ (as.varToAbsVal.get str).addrs, ∀ i, L.offset a i = i * e
  bounded : ∀ a ∈ (as.varToAbsVal.get str).addrs, L.size a < 2 ^ 32
  certain : ∀ a ∈ (as.varToAbsVal.get str).addrs, ∀ i, L.offset a (i + 1) ≤ L.size a →
    (∃ v, (as.addrToAbsVal.get (element O a i)).Describes (.int v) ∧ IsZero v e) →
    ∃ j ≤ i, j < (getDstSize O (as.varToAbsVal.get str).addrs (as.getVar str).2).1 ∧ j ≤ O.maxFieldLimit ∧
      Certain O as str j
  zeros : ∀ j, Certain O as str j → ∀ v,
    (joined as.addrToAbsVal.get (gepAddrs O (as.varToAbsVal.get str).addrs j)).Describes (.int v) → IsZero v e

/-- Where the element that ends a string is certain, it is the first that is. -/
theorem StrlenFits.first (h : StrlenFits O L as str type e) {mem : NodeID → Option Value} {a : NodeID} {n : ℕ}
    (hmem : DescribesAll as.addrToAbsVal mem) (ha : a ∈ (as.varToAbsVal.get str).addrs)
    (hstring : IsString O L mem a n) :
    n < (getDstSize O (as.varToAbsVal.get str).addrs (as.getVar str).2).1 ∧ Certain O as str n ∧
      ∀ i < n, ¬ Certain O as str i := by
  have hbytes : ∀ i, L.bytes a i = e := by
    intro i
    rw [Layout.bytes, h.offset a ha, h.offset a ha, Nat.add_mul, one_mul, Nat.add_sub_cancel_left]
  obtain ⟨v, hv, hzero⟩ := hstring.terminated
  rw [hbytes] at hzero
  obtain ⟨j, hjn, hjsize, hjlimit, hj⟩ := h.certain a ha n hstring.inside ⟨v, hmem _ _ hv, hzero⟩
  have hnot : ∀ i < n, i ≤ O.maxFieldLimit → ¬ Certain O as str i := by
    intro i hi hlimit hcertain
    obtain ⟨u, hu, hne⟩ := hstring.nonzero i hi
    rw [hbytes] at hne
    exact hne (h.zeros i hcertain u (joined_of_element ha hlimit (hmem _ _ hu)))
  have heq : j = n := by
    by_contra hne
    exact hnot j (lt_of_le_of_ne hjn hne) hjlimit hj
  subst heq
  exact ⟨hjsize, hj, fun i hi => hnot i hi (hi.le.trans hjlimit)⟩

theorem cellLength_eq (hstr : str ∈ O.pointers) {n : ℕ} (haddr : (as.varToAbsVal.get str).addrs ≠ [])
    (hn : n < (getDstSize O (as.varToAbsVal.get str).addrs (as.getVar str).2).1) (hcertain : Certain O as str n)
    (hfirst : ∀ i < n, ¬ Certain O as str i) : (cellLength O as str).1 = n := by
  have hagrees : Agrees O as (getDstSize O (as.varToAbsVal.get str).addrs (as.getVar str).2).2 :=
    (agrees_getVar as str).trans (agrees_getDstSize _ _)
  have htable : (getDstSize O (as.varToAbsVal.get str).addrs (as.getVar str).2).2.inVarToAddrsTable str = true := by
    rw [hagrees.inVarToAddrsTable hstr, inVarToAddrsTable_eq, AbstractValue.isAddr]
    simpa using haddr
  have hrun : cellLength O as str =
      lenLoop O str (getDstSize O (as.varToAbsVal.get str).addrs (as.getVar str).2).1 0
        (getDstSize O (as.varToAbsVal.get str).addrs (as.getVar str).2).2 := if_pos htable
  rw [hrun]
  apply lenLoop_eq hstr
  · exact Nat.zero_le n
  · omega
  · exact (hagrees.certain_iff hstr n).mpr hcertain
  · intro i _ hi
    rw [hagrees.certain_iff hstr i]
    exact hfirst i hi

theorem agrees_lenLoop (left len : ℕ) (as : AbstractState) : Agrees O as (lenLoop O str left len as).2 := by
  induction left generalizing len as with
  | zero => exact .refl as
  | succ left ih =>
      have hbody := (agrees_getGepObjAddrs (O := O) as str len).trans
        (agrees_joinLoads (getGepObjAddrs O as str len).1 (getGepObjAddrs O as str len).2)
      rw [lenLoop]
      dsimp only
      split
      · exact hbody
      · exact hbody.trans (ih _ _)

theorem agrees_cellLength (as : AbstractState) (str : NodeID) : Agrees O as (cellLength O as str).2 := by
  have hagrees : Agrees O as (getDstSize O (as.varToAbsVal.get str).addrs (as.getVar str).2).2 :=
    (agrees_getVar as str).trans (agrees_getDstSize _ _)
  unfold cellLength
  dsimp only
  split
  · exact hagrees.trans (agrees_lenLoop _ _ _)
  · exact hagrees

theorem strlen_sound (hstr : str ∈ O.pointers) (h : StrlenFits O L as str type e) : StrlenSound O L as str type := by
  intro mem a n hmem ha hstring
  obtain ⟨hsize, hcertain, hfirst⟩ := h.first hmem ha hstring
  have hne : (as.varToAbsVal.get str).addrs ≠ [] := List.ne_nil_of_mem ha
  have hlen : (cellLength O as str).1 = n := cellLength_eq hstr hne hsize hcertain hfirst
  have hagrees := agrees_cellLength (O := O) as str
  have htable : (cellLength O as str).2.inVarToAddrsTable str = true := by
    rw [hagrees.inVarToAddrsTable hstr, inVarToAddrsTable_eq, AbstractValue.isAddr]
    simpa using hne
  have hrun : getStrlen O as str type =
      some (lengthInterval O n (n * e % 2 ^ 32), (cellLength O as str).2) := by
    rw [getStrlen]
    dsimp only
    rw [if_pos htable, hagrees.getElemSize hstr, h.elemSize, hlen]
    rfl
  refine ⟨_, hrun, ?_⟩
  have hlt : n * e < 2 ^ 32 := by
    have hinside := hstring.inside
    have hbounded := h.bounded a ha
    have hmono := (L.mono a).monotone (Nat.le_succ n)
    rw [h.offset a ha n] at hmono
    exact (hmono.trans hinside).trans_lt hbounded
  rw [h.offset a ha, lengthInterval]
  split
  · rename_i hzero
    subst hzero
    rw [mem_concretize, num_le_num, num_le_num]
    constructor
    · exact Int.natCast_nonneg _
    · simp
  · rw [Nat.mod_eq_of_lt hlt]
    exact mem_ofInt _

end

end SVF.AE.StringLengths
