import SVF.AE.States
import SVF.Util.NodeIDs

namespace SVF.AE.Addresses

open States States.AddressValue Util.NodeIDs

def BlackHoleAddr : NodeID := 0x7f000000 + 2

def getVirtualMemAddress (idx : NodeID) : Option NodeID := if idx = 0 then none else some (AddressMask + idx)

def isNullPtr (addr : NodeID) : Bool := getInternalID addr == 0

def NullPtr : NodeID := 0

def BlkPtr : NodeID := 1

def BlackHole : NodeID := 2

def ConstantObj : NodeID := 3

section

variable {o o' : NodeID}

theorem eq_append (o : NodeID) : ∃ (hi : BitVec 8) (lo : BitVec 24), o = hi ++ lo :=
  ⟨o.extractLsb' 24 8, o.extractLsb' 0 24, BitVec.eq_of_toNat_eq (by
    rw [BitVec.extractLsb'_append_extractLsb'_eq_extractLsb' (by rfl)]
    simp)⟩

theorem toNat_append (hi : BitVec 8) (lo : BitVec 24) : (hi ++ lo).toNat = hi.toNat * 2 ^ 24 + lo.toNat := by
  rw [BitVec.toNat_append, ← Nat.shiftLeft_add_eq_or_of_lt lo.isLt, Nat.shiftLeft_eq]

theorem append_inj (hi hi' : BitVec 8) (lo lo' : BitVec 24) :
    hi ++ lo = hi' ++ lo' ↔ hi = hi' ∧ lo = lo' := by
  have hlo := lo.isLt
  have hlo' := lo'.isLt
  rw [← BitVec.toNat_inj, ← BitVec.toNat_inj, ← BitVec.toNat_inj, toNat_append, toNat_append]
  omega

theorem add_append (hi : BitVec 8) (lo : BitVec 24) : AddressMask + (hi ++ lo) = (0x7f + hi) ++ lo := by
  apply BitVec.eq_of_toNat_eq
  have hlo := lo.isLt
  rw [BitVec.toNat_add, toNat_append, toNat_append, BitVec.toNat_add]
  change (127 * 2 ^ 24 + _) % 2 ^ 32 = (127 + _) % 2 ^ 8 * 2 ^ 24 + _
  omega

theorem lt_iff_append (hi : BitVec 8) (lo : BitVec 24) : (hi ++ lo).toNat < 2 ^ 24 ↔ hi = 0 := by
  have hlo := lo.isLt
  rw [toNat_append, ← BitVec.toNat_inj]
  change _ ↔ hi.toNat = 0
  omega

theorem isVirtualMemAddress_add (o : NodeID) :
    isVirtualMemAddress (AddressMask + o) = true ↔ o.toNat < 2 ^ 24 ∧ o ≠ 0 := by
  obtain ⟨hi, lo, rfl⟩ := eq_append o
  have hmask : (0xff000000 : NodeID) = (0xff : BitVec 8) ++ (0 : BitVec 24) := by decide
  have hzero : (0 : NodeID) = (0 : BitVec 8) ++ (0 : BitVec 24) := by decide
  have htag : AddressMask = (0x7f : BitVec 8) ++ (0 : BitVec 24) := by decide
  have htop : ∀ hi : BitVec 8, (0x7f + hi) &&& 0xff = 0x7f ↔ hi = 0 := by decide
  rw [isVirtualMemAddress, Bool.and_eq_true, beq_iff_eq, bne_iff_ne, lt_iff_append, add_append, hmask,
    BitVec.and_append, htag, hzero]
  have hlow : lo &&& 0 = 0 := BitVec.and_zero
  have hsum : (0x7f : BitVec 8) + 0 = 0x7f := by decide
  rw [append_inj, htop, hlow, and_iff_left rfl]
  refine and_congr_right ?_
  rintro rfl
  rw [Ne, Ne, append_inj, append_inj, hsum, and_iff_right rfl, and_iff_right rfl]

theorem getInternalID_add (h : o.toNat < 2 ^ 24) : getInternalID (AddressMask + o) = o := by
  obtain ⟨hi, lo, rfl⟩ := eq_append o
  obtain rfl := (lt_iff_append hi lo).mp h
  have hmask : FlippedAddressMask = (0x80 : BitVec 8) ++ BitVec.allOnes 24 := by decide
  rw [getInternalID, add_append, hmask, BitVec.and_append, BitVec.and_allOnes]
  rfl

theorem getVirtualMemAddress_inj (h : getVirtualMemAddress o = getVirtualMemAddress o') : o = o' := by
  rw [getVirtualMemAddress, getVirtualMemAddress] at h
  split at h <;> split at h
  · rename_i ho ho'
    rw [ho, ho']
  · contradiction
  · contradiction
  · exact add_left_cancel (Option.some.inj h)

inductive ObjNode
  | blackHole
  | constantObj
  | allocated (c : Call)

/-- The address of an object stands for it. -/
def Faithful (n : ObjNode) (id : NodeID) : Prop :=
  ∃ addr, getVirtualMemAddress id = some addr ∧ isVirtualMemAddress addr = true ∧ getInternalID addr = id ∧
    isNullPtr addr = false ∧ (addr = BlackHoleAddr → n = .blackHole)

theorem faithful_iff (n : ObjNode) (id : NodeID) :
    Faithful n id ↔ id.toNat < 2 ^ 24 ∧ id ≠ 0 ∧ (id = BlackHole → n = .blackHole) := by
  have hblack : AddressMask + id = BlackHoleAddr ↔ id = BlackHole := by
    rw [show BlackHoleAddr = AddressMask + BlackHole by decide, add_right_inj]
  constructor
  · rintro ⟨addr, haddr, hvirtual, -, -, hhole⟩
    have hne : id ≠ 0 := by
      rintro rfl
      cases haddr
    rw [getVirtualMemAddress, if_neg hne] at haddr
    obtain rfl := Option.some.inj haddr
    exact ⟨((isVirtualMemAddress_add id).mp hvirtual).1, hne, fun h => hhole (hblack.mpr h)⟩
  · rintro ⟨hlt, hne, hhole⟩
    refine ⟨AddressMask + id, if_neg hne, (isVirtualMemAddress_add id).mpr ⟨hlt, hne⟩, getInternalID_add hlt,
      ?_, fun h => hhole (hblack.mp h)⟩
    rw [isNullPtr, getInternalID_add hlt]
    exact beq_false_of_ne hne

end

section

variable {maxFieldLimit : ℕ}

/-- The condition on an allocation, which reads the counters. -/
def Below (maxFieldLimit : ℕ) (s : State) (c : Call) : Prop :=
  match s.allocator.strategy, c with
  | _, .symbol .value => True
  | .DENSE, _ => s.allocator.numObjects < 2 ^ 24
  | .REVERSE_DENSE, _ => 2 ^ 32 - 2 ^ 24 ≤ s.allocator.numObjects
  | .SEQ, _ | .DBUG, .symbol .object => s.allocator.numNodes < 2 ^ 24
  | .DBUG, .gep base offset =>
      (offset.toNat + 1) * s.allocator.gepMultiplier maxFieldLimit + base.toNat < 2 ^ 24

def AllBelow (maxFieldLimit : ℕ) (s : State) : List Call → Prop
  | [] => True
  | c :: cs => Below maxFieldLimit s c ∧ AllBelow maxFieldLimit (s.call maxFieldLimit c) cs

def BuildBelow (maxFieldLimit : ℕ) (strategy : Strategy) (symbols : List Symbol) (later : List Call) : Prop :=
  let s := State.calls maxFieldLimit ⟨.new strategy, []⟩ (symbols.map .symbol)
  AllBelow maxFieldLimit ⟨.new strategy, []⟩ (symbols.map .symbol) ∧
    AllBelow maxFieldLimit ⟨s.allocator.endSymbolAllocation, s.given⟩ later

/-- The object nodes of a graph: the special ones, and an allocated one for each id given to an object. -/
def objNodes (given : List (Call × ℕ)) : List (ObjNode × NodeID) :=
  (given.filter fun p => p.1 ≠ .symbol .value).map (fun p => (.allocated p.1, BitVec.ofNat 32 p.2)) ++
    [(.constantObj, ConstantObj), (.blackHole, BlackHole)]

def AllFaithful (nodes : List (ObjNode × NodeID)) : Prop :=
  (∀ p ∈ nodes, Faithful p.1 p.2) ∧ nodes.Pairwise fun p q =>
    getVirtualMemAddress p.2 = getVirtualMemAddress q.2 →
      ∃ base offset, p.1 = .allocated (.gep base offset) ∧ q.1 = .allocated (.gep base offset)

def Small (given : List (Call × ℕ)) : Prop := ∀ p ∈ given, p.1 ≠ .symbol .value → p.2 < 2 ^ 24

def Fits (given : List (Call × ℕ)) : Prop := ∀ p ∈ given, 4 ≤ p.2 ∧ p.2 < 2 ^ 32

theorem allocate_lt {s : State} {c : Call} (h : Inv maxFieldLimit s) :
    (allocate maxFieldLimit s.allocator c).2 < 2 ^ 32 := by
  obtain ⟨⟨o, v, sy, n, strategy⟩, given⟩ := s
  obtain ⟨hcounted, -, -⟩ := h
  have hmod : ∀ k, k % 2 ^ 32 < 2 ^ 32 := fun k => Nat.mod_lt k (by decide)
  cases strategy with
  | DENSE | REVERSE_DENSE =>
      simp only [Counted] at hcounted
      rcases c with (_ | _) | ⟨base, offset⟩ <;>
        simp only [allocate, NodeIDAllocator.allocateObjectId, NodeIDAllocator.allocateValueId,
          NodeIDAllocator.allocateGepObjectId, UINT_MAX] <;> omega
  | SEQ =>
      simp only [Counted] at hcounted
      rcases c with (_ | _) | ⟨base, offset⟩ <;> exact hcounted.2
  | DBUG =>
      simp only [Counted] at hcounted
      rcases c with (_ | _) | ⟨base, offset⟩
      · exact hcounted.2
      · exact hcounted.2
      · exact hmod _

theorem allocate_below {s : State} {c : Call} (hc : Condition maxFieldLimit s c) (hobj : c ≠ .symbol .value) :
    (allocate maxFieldLimit s.allocator c).2 < 2 ^ 24 ↔ Below maxFieldLimit s c := by
  obtain ⟨⟨o, v, sy, n, strategy⟩, given⟩ := s
  cases strategy with
  | DENSE | SEQ =>
      rcases c with (_ | _) | ⟨base, offset⟩
      · exact Iff.rfl
      · contradiction
      · exact Iff.rfl
  | REVERSE_DENSE =>
      have hlt : o + v < 2 ^ 32 := hc
      rcases c with (_ | _) | ⟨base, offset⟩
      · change UINT_MAX - o < 2 ^ 24 ↔ 2 ^ 32 - 2 ^ 24 ≤ o
        rw [UINT_MAX]
        omega
      · contradiction
      · change UINT_MAX - o < 2 ^ 24 ↔ 2 ^ 32 - 2 ^ 24 ≤ o
        rw [UINT_MAX]
        omega
  | DBUG =>
      rcases c with (_ | _) | ⟨base, offset⟩
      · exact Iff.rfl
      · contradiction
      · obtain ⟨-, -, hsmall, -⟩ := hc
        change (_ % 2 ^ 32 < 2 ^ 24) ↔ _
        rw [Nat.mod_eq_of_lt hsmall]
        exact Iff.rfl

theorem fits_call {s : State} {c : Call} (h : Inv maxFieldLimit s) (hc : Condition maxFieldLimit s c)
    (hfits : Fits s.given) : Fits (s.call maxFieldLimit c).given := by
  intro p hp
  refine ⟨((inv_call h hc).located p hp).1, ?_⟩
  rcases List.mem_cons.mp hp with rfl | hp
  · exact allocate_lt h
  · exact (hfits p hp).2

theorem small_call {s : State} {c : Call} (hc : Condition maxFieldLimit s c) :
    Small (s.call maxFieldLimit c).given ↔ Small s.given ∧ Below maxFieldLimit s c := by
  rw [Small, State.call, List.forall_mem_cons, and_comm]
  refine and_congr_right fun _ => ?_
  by_cases hobj : c = .symbol .value
  · refine iff_of_true (fun h => absurd hobj h) ?_
    rw [hobj, Below]
    trivial
  · exact (imp_iff_right hobj).trans (allocate_below hc hobj)

theorem calls_spec {s : State} {cs : List Call} (h : Inv maxFieldLimit s) (hfits : Fits s.given)
    (hmeets : Meets maxFieldLimit s cs) : Fits (s.calls maxFieldLimit cs).given ∧
      (Small (s.calls maxFieldLimit cs).given ↔ Small s.given ∧ AllBelow maxFieldLimit s cs) := by
  induction cs generalizing s with
  | nil => exact ⟨hfits, (and_iff_left trivial).symm⟩
  | cons c cs ih =>
      obtain ⟨hfits', hsmall⟩ := ih (inv_call h hmeets.1) (fits_call h hmeets.1 hfits) hmeets.2
      refine ⟨hfits', hsmall.trans ?_⟩
      rw [small_call hmeets.1, AllBelow, and_assoc]

theorem mem_objNodes (given : List (Call × ℕ)) (p : ObjNode × NodeID) : p ∈ objNodes given ↔
    (∃ q ∈ given, q.1 ≠ .symbol .value ∧ p = (.allocated q.1, BitVec.ofNat 32 q.2)) ∨
      p = (.constantObj, ConstantObj) ∨ p = (.blackHole, BlackHole) := by
  simp only [objNodes, List.mem_append, List.mem_map, List.mem_filter, decide_eq_true_iff, List.mem_cons,
    List.not_mem_nil, or_false, and_assoc, @eq_comm _ _ p]

theorem toNat_id {given : List (Call × ℕ)} (hfits : Fits given) {q : Call × ℕ} (hq : q ∈ given) :
    (BitVec.ofNat 32 q.2).toNat = q.2 := by
  rw [BitVec.toNat_ofNat, Nat.mod_eq_of_lt (hfits q hq).2]

theorem ne_special {given : List (Call × ℕ)} (hfits : Fits given) {q : Call × ℕ} (hq : q ∈ given) {id : NodeID}
    (hid : id.toNat < 4) : BitVec.ofNat 32 q.2 ≠ id := by
  intro heq
  have hnat := congrArg BitVec.toNat heq
  rw [toNat_id hfits hq] at hnat
  exact absurd (hfits q hq).1 (by omega)

theorem pairwise_objNodes {given : List (Call × ℕ)} (hfits : Fits given) (hdistinct : Distinct given) :
    (objNodes given).Pairwise fun p q => getVirtualMemAddress p.2 = getVirtualMemAddress q.2 →
      ∃ base offset, p.1 = .allocated (.gep base offset) ∧ q.1 = .allocated (.gep base offset) := by
  refine List.pairwise_append.mpr ⟨List.pairwise_map.mpr ?_, ?_, ?_⟩
  · refine ((hdistinct.1.filter _).imp_of_mem ?_)
    intro p q hp hq hpq heq
    have hid := getVirtualMemAddress_inj heq
    have hnat := congrArg BitVec.toNat hid
    rw [toNat_id hfits (List.mem_of_mem_filter hp), toNat_id hfits (List.mem_of_mem_filter hq)] at hnat
    obtain ⟨base, offset, hp, hq⟩ := hpq hnat
    exact ⟨base, offset, congrArg ObjNode.allocated hp, congrArg ObjNode.allocated hq⟩
  · refine List.pairwise_pair.mpr fun heq => ?_
    exact absurd (getVirtualMemAddress_inj heq) (by decide)
  · intro p hp q hq heq
    obtain ⟨r, hr, rfl⟩ := List.mem_map.mp hp
    have hr := List.mem_of_mem_filter hr
    simp only [List.mem_cons, List.not_mem_nil, or_false] at hq
    have hid := getVirtualMemAddress_inj heq
    rcases hq with rfl | rfl
    · exact absurd hid (ne_special hfits hr (by decide))
    · exact absurd hid (ne_special hfits hr (by decide))

theorem allFaithful_iff {given : List (Call × ℕ)} (hfits : Fits given) (hdistinct : Distinct given) :
    AllFaithful (objNodes given) ↔ Small given := by
  rw [AllFaithful, and_iff_left (pairwise_objNodes hfits hdistinct)]
  constructor
  · intro h q hq hobj
    obtain ⟨hlt, -, -⟩ := (faithful_iff _ _).mp (h _ ((mem_objNodes given _).mpr (.inl ⟨q, hq, hobj, rfl⟩)))
    rwa [toNat_id hfits hq] at hlt
  · intro h p hp
    apply (faithful_iff _ _).mpr
    rcases (mem_objNodes given p).mp hp with ⟨q, hq, hobj, rfl⟩ | rfl | rfl
    · refine ⟨?_, ne_special hfits hq (by decide), fun heq => absurd heq (ne_special hfits hq (by decide))⟩
      rw [toNat_id hfits hq]
      exact h q hq hobj
    · exact ⟨by decide, by decide, fun h => absurd h (by decide)⟩
    · exact ⟨by decide, by decide, fun _ => rfl⟩

/-- In a run whose ids are distinct. -/
theorem addresses_faithful_iff {strategy : Strategy} {symbols : List Symbol} {later : List Call}
    (hmeets : BuildMeets maxFieldLimit strategy symbols later) :
    AllFaithful (objNodes (build maxFieldLimit strategy symbols later).given) ↔
      BuildBelow maxFieldLimit strategy symbols later := by
  have hempty : ∀ p ∈ ([] : List (Call × ℕ)), ∃ kind, p.1 = .symbol kind := fun p hp => absurd hp List.not_mem_nil
  have hinv := inv_calls (inv_new strategy) hmeets.1
  have hend := inv_endSymbolAllocation hinv (given_symbols ⟨.new strategy, []⟩ hempty symbols)
  have hnone : Fits ([] : List (Call × ℕ)) ∧ Small ([] : List (Call × ℕ)) :=
    ⟨fun p hp => absurd hp List.not_mem_nil, fun p hp => absurd hp List.not_mem_nil⟩
  obtain ⟨hfits, hsmall⟩ := calls_spec (inv_new strategy) hnone.1 hmeets.1
  obtain ⟨hfits', hsmall'⟩ := calls_spec hend hfits hmeets.2
  have hdistinct := (inv_calls hend hmeets.2).distinct
  refine (allFaithful_iff hfits' hdistinct).trans (hsmall'.trans (and_congr_left fun _ => ?_))
  exact hsmall.trans (and_iff_right hnone.2)

theorem addresses_faithful_iff_field :
    AllFaithful (objNodes (build 8 .DBUG [.object] [.gep 4 0, .symbol .value, .gep 4 0]).given) ↔
      BuildBelow 8 .DBUG [.object] [.gep 4 0, .symbol .value, .gep 4 0] := by
  refine addresses_faithful_iff ⟨⟨⟨by decide, fun base offset h => absurd h List.not_mem_nil⟩, trivial⟩,
    ?_, ⟨by decide, fun base offset h hbase => ?_⟩, ?_, trivial⟩
  · exact ⟨by decide, by decide +kernel, by decide +kernel, by decide +kernel⟩
  · have hcases : Call.gep base offset ∈ [Call.gep 4 0, Call.symbol .object] := h
    simp only [List.mem_cons, Call.gep.injEq, List.not_mem_nil, or_false, reduceCtorEq] at hcases
    obtain ⟨rfl, -⟩ := hcases
    exact absurd hbase (by decide +kernel)
  · exact ⟨by decide, by decide +kernel, by decide +kernel, by decide +kernel⟩

/-- The first object from above. -/
theorem address_not_virtual : ¬ ∀ (maxFieldLimit : ℕ) (strategy : Strategy) (symbols : List Symbol)
    (later : List Call), AllFaithful (objNodes (build maxFieldLimit strategy symbols later).given) := by
  intro h
  have hfirst := (h 8 .REVERSE_DENSE [.object] []).1 (.allocated (.symbol .object), BitVec.ofNat 32 4294967291)
    (List.mem_cons_self ..)
  obtain ⟨addr, haddr, hvirtual, -⟩ := hfirst
  obtain rfl : AddressMask + BitVec.ofNat 32 4294967291 = addr := Option.some.inj haddr
  exact absurd hvirtual (by decide)

end

end SVF.AE.Addresses
