import SVF.AE.StringLengths

namespace SVF.AE.MemoryWrites

open NumericValue NumericValue.BoundedInt Intervals States AddressValue AbstractState Util.DefaultMaps
open IntervalDivision.Bound (getNumeral)
open IntervalComparisons Memory StringMemory StringLengths

variable {O : Objects} {L : Layout} {as as' : AbstractState} {dst src : NodeID} {dstType : VarType}
  {len elem : IntervalValue}

def HasValue (v : AbstractValue) : Bool := v.isInterval || v.isAddr

theorem hasValue_of_describes {v : AbstractValue} {w : Value} (h : v.Describes w) : HasValue v = true := by
  cases w with
  | int n =>
      have hne := isBottom_eq_false (v := v.interval) h
      simp [HasValue, AbstractValue.isInterval, hne]
  | addr a =>
      have hne : v.addrs ≠ [] := List.ne_nil_of_mem h
      simp [HasValue, AbstractValue.isAddr, hne]

theorem inAddrToValTable_eq (as : AbstractState) (id : NodeID) :
    as.inAddrToValTable id = (as.addrToAbsVal.get id).isInterval := by
  unfold AbstractState.inAddrToValTable
  by_cases h : id ∈ as.addrToAbsVal.keys
  · simp [h]
  · rw [as.addrToAbsVal.get_absent id h]
    simp [h]
    rfl

theorem inAddrToAddrsTable_eq (as : AbstractState) (id : NodeID) :
    as.inAddrToAddrsTable id = (as.addrToAbsVal.get id).isAddr := by
  unfold AbstractState.inAddrToAddrsTable
  by_cases h : id ∈ as.addrToAbsVal.keys
  · simp [h]
  · rw [as.addrToAbsVal.get_absent id h]
    simp [h]
    rfl

theorem element_ne_zero {a : NodeID} (ha : isNullPtr a = false) (i : ℕ) : element O a i ≠ 0 :=
  O.nonnull _ i (by simpa [AbstractState.isNullPtr] using ha)

theorem getInternalID_element (a : NodeID) (i : ℕ) :
    getInternalID (getVirtualMemAddress (element O a i)) = element O a i := getInternalID_gep O _ i

theorem isNullPtr_element {a : NodeID} (ha : isNullPtr a = false) (i : ℕ) :
    isNullPtr (getVirtualMemAddress (element O a i)) = false := by
  rw [AbstractState.isNullPtr, getInternalID_element]
  simpa using element_ne_zero ha i

theorem getRange_eq {e R : ℕ} (he : 0 < e) (hlimit : R * e ≤ O.maxFieldLimit) :
    getRange O (.ofInt (R * e : ℕ)) e = some R := by
  have hlt := O.limit_lt
  have hsize : (getNumeral (IntervalValue.ofInt (R * e : ℕ)).lb % 2 ^ 32).toNat = R * e := by
    rw [IntervalValue.ofInt, getNumeral, Int.emod_eq_of_lt (Int.natCast_nonneg _) (by omega), Int.toNat_natCast]
  rw [getRange, hsize, Nat.min_eq_right hlimit, if_neg he.ne', Nat.mul_div_cancel _ he]

section

/-- Both pointers have one address, the length is a constant number of whole elements within the limit, and
the elements, of the size that the function takes them to have, are different ones. -/
structure CopyFits (O : Objects) (L : Layout) (as : AbstractState) (dst : NodeID) (dstType : VarType) (src : NodeID)
    (len : IntervalValue) (start_idx : ℕ) (d s : NodeID) (e R : ℕ) : Prop where
  dstAddrs : (as.varToAbsVal.get dst).addrs = [d]
  srcAddrs : (as.varToAbsVal.get src).addrs = [s]
  elemSize : getElemSize O as dst dstType = some e
  pos : 0 < e
  length : len = .ofInt (R * e : ℕ)
  limit : R * e ≤ O.maxFieldLimit ∧ start_idx + R ≤ O.maxFieldLimit + 1
  dstOffset : ∀ i ≤ R, L.offset d (start_idx + i) = L.offset d start_idx + i * e
  srcOffset : ∀ i ≤ R, L.offset s i = i * e
  distinct : ∀ i < R, ∀ j < R, element O d (start_idx + i) = element O d (start_idx + j) → i = j
  apart : ∀ i < R, ∀ j < R, element O s i ≠ element O d (start_idx + j)

variable {start_idx : ℕ} {d s : NodeID} {e R : ℕ}

theorem copyElement_spec (as : AbstractState) (hdst : dst ∈ O.pointers)
    (hd : (as.varToAbsVal.get dst).addrs = [d]) (hs : (as.varToAbsVal.get src).addrs = [s])
    (hnull : isNullPtr d = false) {index : ℕ} (hindex : start_idx + index ≤ O.maxFieldLimit) :
    (∀ q ∈ O.pointers, (copyElement O dst src start_idx index as).varToAbsVal.get q = as.varToAbsVal.get q) ∧
    ∀ k, (copyElement O dst src start_idx index as).addrToAbsVal.get k =
      if k = element O d (start_idx + index) ∧ HasValue (as.addrToAbsVal.get (element O s index)) = true then
        as.addrToAbsVal.get (element O s index)
      else as.addrToAbsVal.get k := by
  have hlt := O.limit_lt
  have hmod : (index + start_idx) % 2 ^ 32 = start_idx + index := by
    rw [Nat.mod_eq_of_lt (by omega), Nat.add_comm]
  obtain ⟨as₁, has₁⟩ : ∃ as₁, (getGepObjAddrs O as src index).2 = as₁ := ⟨_, rfl⟩
  obtain ⟨as₂, has₂⟩ : ∃ as₂, (getGepObjAddrs O as₁ dst (start_idx + index)).2 = as₂ := ⟨_, rfl⟩
  have hagrees₁ : Agrees O as as₁ := has₁ ▸ agrees_getGepObjAddrs as src index
  have hagrees : Agrees O as as₂ := hagrees₁.trans (has₂ ▸ agrees_getGepObjAddrs as₁ dst (start_idx + index))
  have hsrcAddrs : (getGepObjAddrs O as src index).1 = [getVirtualMemAddress (element O s index)] := by
    rw [getGepObjAddrs_fst, hs, gepAddrs_single s (by omega)]
  have hdstAddrs : (getGepObjAddrs O as₁ dst (start_idx + index)).1 =
      [getVirtualMemAddress (element O d (start_idx + index))] := by
    rw [getGepObjAddrs_fst, hagrees₁.vars dst hdst, hd, gepAddrs_single d hindex]
  have hrun : copyElement O dst src start_idx index as =
      if as₂.inAddrToValTable (element O s index) || as₂.inAddrToAddrsTable (element O s index) then
        (as₂.load (getVirtualMemAddress (element O s index))).2.store
          (getVirtualMemAddress (element O d (start_idx + index)))
          (as₂.load (getVirtualMemAddress (element O s index))).1
      else as₂ := by
    unfold copyElement
    dsimp only
    rw [hsrcAddrs, hmod, has₁, hdstAddrs, has₂]
    simp only [List.foldl_cons, List.foldl_nil, getInternalID_element]
  have hvalue : (as₂.inAddrToValTable (element O s index) || as₂.inAddrToAddrsTable (element O s index)) =
      HasValue (as.addrToAbsVal.get (element O s index)) := by
    rw [inAddrToValTable_eq, inAddrToAddrsTable_eq, hagrees.mem]
    rfl
  rw [hrun, hvalue]
  by_cases hhas : HasValue (as.addrToAbsVal.get (element O s index)) = true
  · rw [if_pos hhas]
    constructor
    · intro q hq
      rw [store_vars]
      exact hagrees.vars q hq
    · intro k
      rw [store_get, isNullPtr_element hnull, getInternalID_element]
      simp only [AbstractState.load, get_touch, hagrees.mem, getInternalID_element, true_and]
      by_cases hk : k = element O d (start_idx + index)
      · rw [if_pos hk, if_pos ⟨hk, hhas⟩]
      · rw [if_neg hk, if_neg (fun h => hk h.1)]
  · rw [if_neg hhas]
    refine ⟨hagrees.vars, fun k => ?_⟩
    rw [if_neg (fun h => hhas h.2), hagrees.mem]

/-- After `k` elements, these are copies of what the elements of the source were, where that was known. -/
theorem copyLoop_spec (hdst : dst ∈ O.pointers) (hsrc : src ∈ O.pointers)
    (h : CopyFits O L as dst dstType src len start_idx d s e R) (hnull : isNullPtr d = false) {k : ℕ} (hk : k ≤ R) :
    (∀ q ∈ O.pointers, ((List.range k).foldl (fun as index => copyElement O dst src start_idx index as) as).varToAbsVal.get q =
      as.varToAbsVal.get q) ∧
    (∀ i < k, HasValue (as.addrToAbsVal.get (element O s i)) = true →
      ((List.range k).foldl (fun as index => copyElement O dst src start_idx index as) as).addrToAbsVal.get
        (element O d (start_idx + i)) = as.addrToAbsVal.get (element O s i)) ∧
    ∀ id, (∀ i < k, id ≠ element O d (start_idx + i)) →
      ((List.range k).foldl (fun as index => copyElement O dst src start_idx index as) as).addrToAbsVal.get id =
        as.addrToAbsVal.get id := by
  induction k with
  | zero => exact ⟨fun _ _ => rfl, fun i hi => absurd hi (Nat.not_lt_zero i), fun _ _ => rfl⟩
  | succ k ih =>
      obtain ⟨hvars, hcopied, hkept⟩ := ih (by omega)
      have hlimit := h.limit.2
      rw [List.range_succ, List.foldl_append, List.foldl_cons, List.foldl_nil]
      generalize (List.range k).foldl (fun as index => copyElement O dst src start_idx index as) as = as₁ at *
      obtain ⟨hvars', hget⟩ := copyElement_spec as₁ hdst
        (by rw [hvars dst hdst, h.dstAddrs]) (by rw [hvars src hsrc, h.srcAddrs]) hnull
        (show start_idx + k ≤ O.maxFieldLimit by omega)
      have hsource : as₁.addrToAbsVal.get (element O s k) = as.addrToAbsVal.get (element O s k) :=
        hkept _ fun i hi => h.apart k (by omega) i (by omega)
      refine ⟨fun q hq => (hvars' q hq).trans (hvars q hq), fun i hi hhas => ?_, fun id hid => ?_⟩
      · rw [hget, hsource]
        by_cases hik : i = k
        · subst hik
          rw [if_pos ⟨rfl, hhas⟩]
        · have hne : element O d (start_idx + i) ≠ element O d (start_idx + k) :=
            fun heq => hik (h.distinct i (by omega) k (by omega) heq)
          rw [if_neg (fun hp => hne hp.1)]
          exact hcopied i (by omega) hhas
      · rw [hget, if_neg (fun hp => hid k (by omega) hp.1)]
        exact hkept id fun i hi => hid i (by omega)

theorem memcpy_sound (hdst : dst ∈ O.pointers) (hsrc : src ∈ O.pointers)
    (h : CopyFits O L as dst dstType src len start_idx d s e R) : MemcpySound O L as dst dstType src len start_idx := by
  intro mem mem' a b n hmem ha hb hanull hbnull hn hcopied
  rw [h.dstAddrs, List.mem_singleton] at ha
  rw [h.srcAddrs, List.mem_singleton] at hb
  subst ha hb
  rw [h.length, concretize_ofInt, Set.mem_singleton_iff, Nat.cast_inj] at hn
  subst hn
  have htables : (as.inVarToAddrsTable src && as.inVarToAddrsTable dst) = true := by
    rw [inVarToAddrsTable_eq, inVarToAddrsTable_eq, AbstractValue.isAddr, AbstractValue.isAddr, h.srcAddrs, h.dstAddrs]
    rfl
  have hrun : handleMemcpy O as dst dstType src len start_idx =
      some ((List.range R).foldl (fun as index => copyElement O dst src start_idx index as) as) := by
    rw [handleMemcpy, h.elemSize, Option.bind_some, h.length, getRange_eq h.pos h.limit.1, Option.map_some, if_pos htables]
  obtain ⟨-, hvalues, hothers⟩ := copyLoop_spec hdst hsrc h hanull le_rfl
  refine ⟨_, hrun, fun k w hw => ?_⟩
  have hoffset := h.dstOffset
  by_cases htarget : ∃ i < R, k = element O a (start_idx + i)
  · obtain ⟨i, hi, rfl⟩ := htarget
    have hend : L.offset a (start_idx + i + 1) = L.offset a start_idx + (i + 1) * e := hoffset (i + 1) (by omega)
    have hwhole := hcopied.whole i
      (by rw [hend]; exact Nat.add_le_add_left (Nat.mul_le_mul_right e (by omega)) _)
      (by rw [hoffset i (by omega), h.srcOffset i (by omega)])
      (by rw [hend, h.srcOffset (i + 1) (by omega)])
    rw [hwhole] at hw
    have hdesc := hmem _ _ hw
    rwa [hvalues i hi (hasValue_of_describes hdesc)]
  · have hkept : mem' k = mem k := by
      apply hcopied.kept
      rintro i hi rfl
      apply htarget
      refine ⟨i, ?_, rfl⟩
      by_contra hge
      have hmono := (L.mono a).monotone (show start_idx + R ≤ start_idx + i by omega)
      rw [hoffset R le_rfl] at hmono
      omega
    rw [hkept] at hw
    rw [hothers k fun i hi he => htarget ⟨i, hi, he⟩]
    exact hmem k w hw

end

section

def filled (elem : IntervalValue) (old : AbstractValue) : AbstractValue :=
  if old.isInterval then old.join_with ⟨elem, []⟩ else ⟨elem, []⟩

theorem filled_describes {c : BitVec 64} (hc : c.toInt ∈ elem.concretize) (old : AbstractValue) :
    (filled elem old).Describes (.int c) := by
  have hnew : (⟨elem, []⟩ : AbstractValue).Describes (.int c) := hc
  unfold filled
  split
  · exact describes_join_right hnew
  · exact hnew

/-- An object that holds addresses only forgets them. -/
def Keeps (v : AbstractValue) : Prop := v.isInterval = false → v.addrs = []

theorem filled_keeps {v : AbstractValue} (h : Keeps v) {w : Value} (hw : v.Describes w) :
    (filled elem v).Describes w := by
  unfold filled
  split
  · exact describes_join_left hw
  · rename_i hnot
    have haddrs := h ((Bool.not_eq_true _).mp hnot)
    cases w with
    | int n =>
        have hbot := isBottom_eq_false (v := v.interval) hw
        simp [AbstractValue.isInterval, hbot] at hnot
    | addr a =>
        have hmem : a ∈ v.addrs := hw
        rw [haddrs] at hmem
        exact absurd hmem List.not_mem_nil

theorem join_ne_bottom {v : IntervalValue} (h : v.isBottom = false) (other : IntervalValue) :
    (v.join_with other).isBottom = false := by
  unfold IntervalValue.join_with
  rw [h, if_neg Bool.false_ne_true]
  split
  · exact h
  · by_contra hne
    rw [Bool.not_eq_false, isBottom_iff, IntervalValue.bottom, IntervalValue.mk.injEq, min_eq_inf, max_eq_sup] at hne
    have hlb : v.lb = plus_infinity := le_antisymm (le_plus_infinity _) (hne.1 ▸ inf_le_left)
    have hub : v.ub = minus_infinity := le_antisymm (hne.2 ▸ le_sup_left) (minus_infinity_le _)
    have hbot : v = IntervalValue.bottom := by
      rw [IntervalValue.bottom, ← hlb, ← hub]
    rw [hbot, isBottom_bottom] at h
    cases h

theorem keeps_filled (v : AbstractValue) : Keeps (filled elem v) := by
  unfold filled
  split
  · rename_i hint
    intro hnot
    rw [AbstractValue.isInterval, Bool.not_eq_true'] at hint
    have hjoin := join_ne_bottom hint elem
    rw [AbstractValue.isInterval, Bool.not_eq_false'] at hnot
    exact absurd (hnot.symm.trans hjoin) (by decide)
  · intro _
    rfl

theorem iterate_describes {n : ℕ} (hn : n ≠ 0) {c : BitVec 64} (hc : c.toInt ∈ elem.concretize) (v : AbstractValue) :
    ((filled elem)^[n] v).Describes (.int c) := by
  obtain ⟨n, rfl⟩ := Nat.exists_eq_succ_of_ne_zero hn
  rw [Function.iterate_succ_apply']
  exact filled_describes hc _

theorem iterate_keeps {v : AbstractValue} (h : Keeps v) {w : Value} (hw : v.Describes w) (n : ℕ) :
    ((filled elem)^[n] v).Describes w := by
  induction n generalizing v with
  | zero => exact hw
  | succ n ih => exact ih (keeps_filled v) (filled_keeps h hw)

theorem setAddr_get (as : AbstractState) (addr k : NodeID) : (setAddr elem as addr).addrToAbsVal.get k =
    if isNullPtr addr = false ∧ k = getInternalID addr then filled elem (as.addrToAbsVal.get k)
    else as.addrToAbsVal.get k := by
  unfold setAddr
  dsimp only
  rw [inAddrToValTable_eq, filled]
  by_cases hk : isNullPtr addr = false ∧ k = getInternalID addr
  · rw [if_pos hk, hk.2]
    split
    · rw [store_get, if_pos ⟨hk.1, rfl⟩]
      rfl
    · rw [store_get, if_pos ⟨hk.1, rfl⟩]
  · rw [if_neg hk]
    split
    · rw [store_get, if_neg hk]
      simp [AbstractState.load]
    · rw [store_get, if_neg hk]

theorem setAddr_vars (as : AbstractState) (addr : NodeID) : (setAddr elem as addr).varToAbsVal = as.varToAbsVal := by
  unfold setAddr
  dsimp only
  split
  · exact store_vars _ _ _
  · exact store_vars _ _ _

theorem setAddrs_spec (elem : IntervalValue) (l : AddressValue) (as : AbstractState) :
    (l.foldl (setAddr elem) as).varToAbsVal = as.varToAbsVal ∧
    ∀ k, ∃ n, (l.foldl (setAddr elem) as).addrToAbsVal.get k = (filled elem)^[n] (as.addrToAbsVal.get k) ∧
      (n = 0 ↔ ¬ Targets l k) := by
  induction l generalizing as with
  | nil =>
      refine ⟨rfl, fun k => ⟨0, rfl, ?_⟩⟩
      simp [Targets]
  | cons addr l ih =>
      rw [List.foldl_cons]
      obtain ⟨hvars, hget⟩ := ih (setAddr elem as addr)
      refine ⟨hvars.trans (setAddr_vars as addr), fun k => ?_⟩
      obtain ⟨n, hn, hzero⟩ := hget k
      have hcons : Targets (addr :: l) k ↔ (isNullPtr addr = false ∧ k = getInternalID addr) ∨ Targets l k := by
        simp [Targets]
      rw [setAddr_get] at hn
      by_cases hk : isNullPtr addr = false ∧ k = getInternalID addr
      · rw [if_pos hk] at hn
        refine ⟨n + 1, hn, iff_of_false (Nat.succ_ne_zero n) ?_⟩
        exact not_not.mpr (hcons.mpr (.inl hk))
      · rw [if_neg hk] at hn
        refine ⟨n, hn, ?_⟩
        rw [hzero, hcons, or_iff_right hk]

theorem setElement_spec (elem : IntervalValue) (as : AbstractState) (dst : NodeID) (index : ℕ) :
    (∀ q ∈ O.pointers, (setElement O dst elem index as).varToAbsVal.get q = as.varToAbsVal.get q) ∧
    ∀ k, ∃ n, (setElement O dst elem index as).addrToAbsVal.get k = (filled elem)^[n] (as.addrToAbsVal.get k) ∧
      (n = 0 ↔ ¬ Targets (gepAddrs O (as.varToAbsVal.get dst).addrs index) k) := by
  have hagrees := agrees_getGepObjAddrs (O := O) as dst index
  obtain ⟨hvars, hget⟩ := setAddrs_spec elem (getGepObjAddrs O as dst index).1 (getGepObjAddrs O as dst index).2
  rw [getGepObjAddrs_fst, hagrees.mem] at hget
  rw [← getGepObjAddrs_fst] at hget
  refine ⟨fun q hq => ?_, ?_⟩
  · exact (congrFun (congrArg DefaultMap.get hvars) q).trans (hagrees.vars q hq)
  · rw [← getGepObjAddrs_fst]
    exact hget

theorem setLoop_spec (elem : IntervalValue) (hdst : dst ∈ O.pointers) (indices : List ℕ) (as : AbstractState)
    (hne : (as.varToAbsVal.get dst).addrs ≠ []) (k : NodeID) :
    ∃ n, (setLoop O dst elem indices as).addrToAbsVal.get k = (filled elem)^[n] (as.addrToAbsVal.get k) ∧
      (n = 0 ↔ ∀ i ∈ indices, ¬ Targets (gepAddrs O (as.varToAbsVal.get dst).addrs i) k) := by
  induction indices generalizing as with
  | nil => exact ⟨0, rfl, by simp⟩
  | cons index indices ih =>
      have htable : as.inVarToAddrsTable dst = true := by
        rw [inVarToAddrsTable_eq, AbstractValue.isAddr]
        simpa using hne
      obtain ⟨hvars, hget⟩ := setElement_spec (O := O) elem as dst index
      obtain ⟨n, hn, hzero⟩ := hget k
      obtain ⟨n', hn', hzero'⟩ := ih (setElement O dst elem index as) (by rw [hvars dst hdst]; exact hne)
      rw [hvars dst hdst] at hzero'
      rw [setLoop, if_pos htable]
      refine ⟨n' + n, ?_, ?_⟩
      · rw [hn', hn, Function.iterate_add_apply]
      · rw [List.forall_mem_cons, ← hzero, ← hzero']
        omega

/-- The length is a constant number of whole elements within the limit, the elements have the size that the
function takes them to have, and bytes that are all the same make up an integer of the interval. With
several addresses, no object that is filled holds addresses only. -/
structure SetFits (O : Objects) (L : Layout) (as : AbstractState) (dst : NodeID) (dstType : VarType)
    (elem len : IntervalValue) (e R : ℕ) : Prop where
  elemSize : getSetSize O as dst dstType = some e
  pos : 0 < e
  length : len = .ofInt (R * e : ℕ)
  limit : R * e ≤ O.maxFieldLimit
  offset : ∀ a ∈ (as.varToAbsVal.get dst).addrs, ∀ i ≤ R, L.offset a i = i * e
  value : ∀ c : BitVec 64, c.toInt ∈ elem.concretize → (fill e c).toInt ∈ elem.concretize
  keeps : (∃ d, (as.varToAbsVal.get dst).addrs = [d]) ∨ ∀ a ∈ (as.varToAbsVal.get dst).addrs, ∀ i < R,
    Keeps (as.addrToAbsVal.get (element O a i))

variable {e R : ℕ}

theorem SetFits.index_le (h : SetFits O L as dst dstType elem len e R) {i : ℕ} (hi : i < R) :
    i ≤ O.maxFieldLimit := by
  have hle := Nat.le_mul_of_pos_right R h.pos
  have hlimit := h.limit
  omega

theorem targets_iff (h : SetFits O L as dst dstType elem len e R) {i : ℕ} (hi : i < R) (k : NodeID) :
    Targets (gepAddrs O (as.varToAbsVal.get dst).addrs i) k ↔
      k ≠ 0 ∧ ∃ a ∈ (as.varToAbsVal.get dst).addrs, element O a i = k := by
  rw [← mem_gepAddrs_element (h.index_le hi) k]
  constructor
  · rintro ⟨x, hx, hnull, rfl⟩
    exact ⟨by simpa [AbstractState.isNullPtr] using hnull, x, hx, rfl⟩
  · rintro ⟨hne, x, hx, rfl⟩
    exact ⟨x, hx, by simpa [AbstractState.isNullPtr] using hne, rfl⟩

theorem memset_sound (hdst : dst ∈ O.pointers) (h : SetFits O L as dst dstType elem len e R) :
    MemsetSound O L as dst dstType elem len := by
  intro mem mem' a n c hmem ha hnull hn hc hfilled
  have hlength := h.length
  rw [hlength, concretize_ofInt, Set.mem_singleton_iff, Nat.cast_inj] at hn
  subst hn
  have hrun : handleMemset O as dst dstType elem len = some (setLoop O dst elem (List.range R) as) := by
    rw [handleMemset, h.elemSize, Option.bind_some, hlength, getRange_eq h.pos h.limit, Option.map_some]
  refine ⟨_, hrun, fun k w hw => ?_⟩
  obtain ⟨n, hget, hzero⟩ := setLoop_spec elem hdst (List.range R) as (List.ne_nil_of_mem ha) k
  rw [hget]
  by_cases htarget : ∃ i < R, k = element O a i
  · obtain ⟨i, hi, rfl⟩ := htarget
    have hend : L.offset a (i + 1) ≤ R * e := by
      rw [h.offset a ha (i + 1) hi]
      exact Nat.mul_le_mul_right e hi
    have hbytes : L.bytes a i = e := by
      rw [Layout.bytes, h.offset a ha (i + 1) hi, h.offset a ha i hi.le, Nat.add_mul, one_mul,
        Nat.add_sub_cancel_left]
    rw [hfilled.whole i hend, hbytes] at hw
    obtain rfl := Option.some.inj hw
    apply iterate_describes
    · intro hnone
      apply hzero.mp hnone i (List.mem_range.mpr hi)
      exact (targets_iff h hi _).mpr ⟨element_ne_zero hnull i, a, ha, rfl⟩
    · exact h.value c hc
  · have hkept : mem' k = mem k := by
      apply hfilled.kept
      rintro i hi rfl
      apply htarget
      refine ⟨i, ?_, rfl⟩
      by_contra hge
      have hmono := (L.mono a).monotone (show R ≤ i by omega)
      rw [h.offset a ha R le_rfl] at hmono
      omega
    rw [hkept] at hw
    by_cases hn : n = 0
    · rw [hn]
      exact hmem k w hw
    · have hsome : ∃ i < R, ∃ b ∈ (as.varToAbsVal.get dst).addrs, element O b i = k := by
        by_contra hnone
        apply hn
        apply hzero.mpr
        intro i hi htargets
        rw [List.mem_range] at hi
        obtain ⟨-, b, hb, hbk⟩ := (targets_iff h hi k).mp htargets
        exact hnone ⟨i, hi, b, hb, hbk⟩
      obtain ⟨i, hi, b, hb, rfl⟩ := hsome
      obtain ⟨d, hd⟩ | hkeeps := h.keeps
      · rw [hd, List.mem_singleton] at ha hb
        exact absurd ⟨i, hi, by rw [ha, hb]⟩ htarget
      · exact iterate_keeps (hkeeps b hb i hi) (hmem _ w hw) n

end

section

variable {str : NodeID} {type : VarType} {start_idx : ℕ}

/-- Objects of two characters; the identifiers from `2 ^ 24` on are those of pointers. -/
def characters : Objects where
  getGepObjVar o i := if o = 0 then 0 else .ofNat 32 (Min.min (o.toNat + i) (2 ^ 24 - 1))
  constantByteSize _ := some 2
  addrStmts _ := []
  getType _ := .array 1 2
  maxFieldLimit := 512
  pointers := {id | 2 ^ 24 ≤ id.toNat}
  small o i := by
    split
    · decide
    · rw [BitVec.toNat_ofNat]
      omega
  nonnull o i h := by
    rw [if_neg h, ne_eq, ← BitVec.toNat_inj, BitVec.toNat_ofNat]
    have hpos : o.toNat ≠ 0 := fun hz => h (BitVec.eq_of_toNat_eq hz)
    change ¬ _ = 0
    omega
  gep_ne o i := by
    change ¬ 2 ^ 24 ≤ (if o = 0 then (0 : NodeID) else .ofNat 32 (Min.min (o.toNat + i) (2 ^ 24 - 1))).toNat
    split
    · decide
    · rw [BitVec.toNat_ofNat]
      omega
  size_ne o sizes h := absurd h List.not_mem_nil
  limit_lt := by norm_num

def bytes : Layout := ⟨fun _ i => i, fun _ => rfl, fun _ => strictMono_id, fun _ => 2⟩

/-- A pointer to the object 8, one to the objects 8 and 16, and one to the object 24. -/
def characterState (first : IntervalValue) : AbstractState :=
  ⟨((DefaultMap.empty.set 0x1000000#32 ⟨.bottom, [0x7f000008#32]⟩).set
      0x1000001#32 ⟨.bottom, [0x7f000008#32, 0x7f000010#32]⟩).set 0x1000002#32 ⟨.bottom, [0x7f000018#32]⟩,
    (((DefaultMap.empty.set 8#32 ⟨first, []⟩).set 9#32 ⟨.ofInt 0, []⟩).set 16#32 ⟨.ofInt 5, []⟩).set
      24#32 ⟨.ofInt 7, []⟩⟩

theorem strlenFits_characters :
    StrlenFits characters bytes (characterState (.ofInt 1)) 0x1000000#32 .pointer 1 := by
  have haddrs : ((characterState (.ofInt 1)).varToAbsVal.get 0x1000000#32).addrs = [0x7f000008#32] := by decide
  constructor
  · decide
  · intro a _ i
    rw [mul_one]
    rfl
  · intro a _
    change 2 < 2 ^ 32
    norm_num
  · intro a ha i hi hzero
    rw [haddrs, List.mem_singleton] at ha
    subst ha
    have hlast : i + 1 ≤ 2 := hi
    obtain rfl | rfl : i = 0 ∨ i = 1 := by omega
    · obtain ⟨v, hv, hdvd⟩ := hzero
      have hone : v.toInt ∈ (IntervalValue.ofInt 1).concretize := hv
      rw [concretize_ofInt, Set.mem_singleton_iff] at hone
      rw [IsZero, hone] at hdvd
      norm_num at hdvd
    · refine ⟨1, le_rfl, ?_, ?_, ?_⟩
      · decide
      · decide
      · rw [Certain]
        decide
  · intro j hj v hv
    rw [IsZero, pow_one]
    exact dvd_of_certain hj hv

theorem copyFits_characters : CopyFits characters bytes (characterState (.ofInt 1)) 0x1000000#32 (.array 1)
    0x1000002#32 (.ofInt 1) 0 0x7f000008#32 0x7f000018#32 1 1 := by
  constructor
  · decide
  · decide
  · rfl
  · norm_num
  · rfl
  · decide
  · intro i _
    rw [mul_one]
    rfl
  · intro i _
    rw [mul_one]
    rfl
  · intro i hi j hj _
    omega
  · intro i hi j hj
    obtain rfl : i = 0 := by omega
    obtain rfl : j = 0 := by omega
    decide

theorem setFits_characters : SetFits characters bytes (characterState (.ofInt 1)) 0x1000000#32 (.array 1)
    (.ofInt 3) (.ofInt 2) 1 2 := by
  constructor
  · rfl
  · norm_num
  · rfl
  · decide
  · intro a _ i _
    rw [mul_one]
    rfl
  · intro c hc
    rw [concretize_ofInt, Set.mem_singleton_iff] at hc
    rw [fill, hc]
    exact mem_ofInt 3
  · exact .inl ⟨_, rfl⟩

def characterMemory : NodeID → Option Value :=
  Function.update (Function.update (Function.update (fun _ => none) 8#32 (some (.int 0))) 16#32 (some (.int 5)))
    24#32 (some (.int 7))

theorem describes_characterMemory :
    DescribesAll (characterState ⟨num 0, num 1⟩).addrToAbsVal characterMemory := by
  intro k v hv
  by_cases h24 : k = 24#32
  · subst h24
    obtain rfl : Value.int 7 = v := Option.some.inj hv
    decide
  · rw [characterMemory, Function.update_of_ne h24] at hv
    by_cases h16 : k = 16#32
    · subst h16
      obtain rfl : Value.int 5 = v := Option.some.inj hv
      decide
    · rw [Function.update_of_ne h16] at hv
      by_cases h8 : k = 8#32
      · subst h8
        obtain rfl : Value.int 0 = v := Option.some.inj hv
        decide
      · rw [Function.update_of_ne h8] at hv
        cases hv

end

end SVF.AE.MemoryWrites
