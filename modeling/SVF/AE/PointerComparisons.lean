import SVF.AE.Branch
import SVF.AE.IntervalComparisons

namespace SVF.AE.PointerComparisons

open NumericValue NumericValue.BoundedInt Intervals States AddressValue AbstractState Util.DefaultMaps
open Branch Branch.Predicate
open IntervalComparisons (mem_ofInt toInt_mem_both)

def inVarToValTable (as : AbstractState) (id : NodeID) : Bool :=
  id ∈ as.varToAbsVal.keys && (as.varToAbsVal.get id).isInterval

def hasIntersect (addrs other : AddressValue) : Bool := !(AddressValue.meet_with addrs other).isEmpty

def assign (as : AbstractState) (id : NodeID) (interval : IntervalValue) : AbstractState :=
  { as with varToAbsVal := as.varToAbsVal.set id ⟨interval, []⟩ }

def both : IntervalValue := ⟨num 0, num 1⟩

def compareAddrs (addrOp0 addrOp1 : AddressValue) : IntervalValue :=
  if AddressValue.equals addrOp0 addrOp1 then .ofInt 1
  else if hasIntersect addrOp0 addrOp1 then both
  else .ofInt 0

def compareIntervals (predicate : Predicate) (lhs rhs : IntervalValue) : Option IntervalValue :=
  match predicate with
  | ICMP_EQ | FCMP_OEQ | FCMP_UEQ => some (IntervalComparisons.eq lhs rhs)
  | ICMP_NE | FCMP_ONE | FCMP_UNE => some (IntervalComparisons.ne lhs rhs)
  | ICMP_UGT | ICMP_SGT | FCMP_OGT | FCMP_UGT => some (IntervalComparisons.gt lhs rhs)
  | ICMP_UGE | ICMP_SGE | FCMP_OGE | FCMP_UGE => some (IntervalComparisons.ge lhs rhs)
  | ICMP_ULT | ICMP_SLT | FCMP_OLT | FCMP_ULT => some (IntervalComparisons.lt lhs rhs)
  | ICMP_ULE | ICMP_SLE | FCMP_OLE | FCMP_ULE => some (IntervalComparisons.le lhs rhs)
  | FCMP_FALSE => some (.ofInt 0)
  | FCMP_TRUE => some (.ofInt 1)
  | FCMP_ORD | FCMP_UNO => none

def orderAddrs (r : NodeID → NodeID → Bool) : AddressValue → AddressValue → IntervalValue
  | [a], [b] => .ofInt (r a b).toInt
  | _, _ => both

def switchAddrs (predicate : Predicate) (lhs rhs : AddressValue) : Option IntervalValue :=
  match predicate with
  | ICMP_EQ | FCMP_OEQ | FCMP_UEQ =>
      some (if hasIntersect lhs rhs then both else if lhs.isEmpty && rhs.isEmpty then .ofInt 1 else .ofInt 0)
  | ICMP_NE | FCMP_ONE | FCMP_UNE =>
      some (if hasIntersect lhs rhs then both else if lhs.isEmpty && rhs.isEmpty then .ofInt 0 else .ofInt 1)
  | ICMP_UGT | ICMP_SGT | FCMP_OGT | FCMP_UGT => some (orderAddrs (fun a b => a > b) lhs rhs)
  | ICMP_UGE | ICMP_SGE | FCMP_OGE | FCMP_UGE => some (orderAddrs (fun a b => a ≥ b) lhs rhs)
  | ICMP_ULT | ICMP_SLT | FCMP_OLT | FCMP_ULT => some (orderAddrs (fun a b => a < b) lhs rhs)
  | ICMP_ULE | ICMP_SLE | FCMP_OLE | FCMP_ULE => some (orderAddrs (fun a b => a ≤ b) lhs rhs)
  | FCMP_FALSE => some (.ofInt 0)
  | FCMP_TRUE => some (.ofInt 1)
  | FCMP_ORD | FCMP_UNO => none

def updateStateOnCmp (cmp : CmpStmt) (as : AbstractState) : Option AbstractState :=
  if as.inVarToAddrsTable cmp.op0 && as.inVarToAddrsTable cmp.op1 then
    some (assign as cmp.res (compareAddrs (as.varToAbsVal.get cmp.op0).addrs (as.varToAbsVal.get cmp.op1).addrs))
  else
    let as := if !inVarToValTable as cmp.op0 then assign as cmp.op0 .top else as
    let as := if !inVarToValTable as cmp.op1 then assign as cmp.op1 .top else as
    if inVarToValTable as cmp.op0 && inVarToValTable as cmp.op1 then
      let lhs := as.varToAbsVal.get cmp.op0
      let rhs := as.varToAbsVal.get cmp.op1
      if lhs.isInterval && rhs.isInterval then
        (compareIntervals cmp.predicate lhs.interval rhs.interval).map (assign as cmp.res)
      else if lhs.isAddr && rhs.isAddr then
        (switchAddrs cmp.predicate lhs.addrs rhs.addrs).map (assign as cmp.res)
      else some as
    else some as

/-- The comparison of two addresses, which are not negative and never NaN. -/
def outcome (predicate : Predicate) (a b : NodeID) : Bool :=
  match predicate with
  | ICMP_EQ | FCMP_OEQ | FCMP_UEQ => a = b
  | ICMP_NE | FCMP_ONE | FCMP_UNE => a ≠ b
  | ICMP_UGT | ICMP_SGT | FCMP_OGT | FCMP_UGT => a > b
  | ICMP_UGE | ICMP_SGE | FCMP_OGE | FCMP_UGE => a ≥ b
  | ICMP_ULT | ICMP_SLT | FCMP_OLT | FCMP_ULT => a < b
  | ICMP_ULE | ICMP_SLE | FCMP_OLE | FCMP_ULE => a ≤ b
  | FCMP_FALSE | FCMP_UNO => false
  | FCMP_TRUE | FCMP_ORD => true

def Correct (cmp : CmpStmt) (as : AbstractState) : Prop :=
  ∀ a ∈ (as.varToAbsVal.get cmp.op0).addrs, ∀ b ∈ (as.varToAbsVal.get cmp.op1).addrs,
    ∃ as', updateStateOnCmp cmp as = some as' ∧
      (outcome cmp.predicate a b).toInt ∈ (as'.varToAbsVal.get cmp.res).interval.concretize

def Single (addrs : AddressValue) : Prop := ∀ a ∈ addrs, ∀ b ∈ addrs, a = b

def Below (addrs other : AddressValue) : Prop := ∀ a ∈ addrs, ∀ b ∈ other, a < b

def Fits (predicate : Predicate) (A B : AddressValue) : Prop :=
  match predicate with
  | ICMP_EQ | FCMP_OEQ | FCMP_UEQ => AddressValue.equals A B = true → Single A
  | ICMP_NE | FCMP_ONE | FCMP_UNE => AddressValue.equals A B = false ∧ hasIntersect A B = true
  | ICMP_UGT | ICMP_SGT | FCMP_OGT | FCMP_UGT =>
      AddressValue.equals A B = false ∧ (hasIntersect A B = true ∨ Below A B)
  | ICMP_ULT | ICMP_SLT | FCMP_OLT | FCMP_ULT =>
      AddressValue.equals A B = false ∧ (hasIntersect A B = true ∨ Below B A)
  | ICMP_UGE | ICMP_SGE | FCMP_OGE | FCMP_UGE =>
      (AddressValue.equals A B = true → Single A) ∧ (hasIntersect A B = true ∨ Below A B)
  | ICMP_ULE | ICMP_SLE | FCMP_OLE | FCMP_ULE =>
      (AddressValue.equals A B = true → Single A) ∧ (hasIntersect A B = true ∨ Below B A)
  | FCMP_FALSE | FCMP_UNO => AddressValue.equals A B = false
  | FCMP_TRUE | FCMP_ORD => hasIntersect A B = true

variable {A B : AddressValue} {a b : NodeID} {r : NodeID → NodeID → Bool}

theorem hasIntersect_iff : hasIntersect A B = true ↔ ∃ a ∈ A, a ∈ B := by
  rw [hasIntersect, Bool.not_eq_true', List.isEmpty_eq_false_iff_exists_mem]
  constructor
  · rintro ⟨a, ha⟩
    rw [AddressValue.meet_with, List.mem_filter, decide_eq_true_iff] at ha
    exact ⟨a, ha.2, ha.1⟩
  · rintro ⟨a, ha, hb⟩
    refine ⟨a, ?_⟩
    rw [AddressValue.meet_with, List.mem_filter, decide_eq_true_iff]
    exact ⟨hb, ha⟩

theorem equals_iff : AddressValue.equals A B = true ↔ ∀ a, a ∈ A ↔ a ∈ B := by
  rw [AddressValue.equals, Bool.and_eq_true, List.all_eq_true, List.all_eq_true]
  simp only [decide_eq_true_iff]
  constructor
  · intro h a
    exact ⟨h.1 a, h.2 a⟩
  · intro h
    exact ⟨fun a => (h a).mp, fun a => (h a).mpr⟩

def Has (v : IntervalValue) (r : NodeID → NodeID → Bool) (A B : AddressValue) : Prop :=
  ∀ a ∈ A, ∀ b ∈ B, (r a b).toInt ∈ v.concretize

theorem has_one_iff : Has (.ofInt 1) r A B ↔ ∀ a ∈ A, ∀ b ∈ B, r a b = true := by
  refine forall₂_congr fun a _ => forall₂_congr fun b _ => ?_
  rw [concretize_ofInt, Set.mem_singleton_iff]
  cases r a b <;> simp

theorem has_zero_iff : Has (.ofInt 0) r A B ↔ ∀ a ∈ A, ∀ b ∈ B, r a b = false := by
  refine forall₂_congr fun a _ => forall₂_congr fun b _ => ?_
  rw [concretize_ofInt, Set.mem_singleton_iff]
  cases r a b <;> simp

/-- The three results: all outcomes true for equal sets, and all false for disjoint ones. -/
theorem has_compareAddrs_iff : Has (compareAddrs A B) r A B ↔
    (AddressValue.equals A B = true → ∀ a ∈ A, ∀ b ∈ A, r a b = true) ∧
      (AddressValue.equals A B = true ∨ hasIntersect A B = true ∨ ∀ a ∈ A, ∀ b ∈ B, r a b = false) := by
  rw [compareAddrs]
  cases heq : AddressValue.equals A B with
  | true =>
      have hsame := equals_iff.mp heq
      rw [if_pos rfl, has_one_iff]
      constructor
      · intro h
        exact ⟨fun _ a ha b hb => h a ha b ((hsame b).mp hb), .inl rfl⟩
      · rintro ⟨h, -⟩ a ha b hb
        exact h rfl a ha b ((hsame b).mpr hb)
  | false =>
      rw [if_neg Bool.false_ne_true]
      cases hmeet : hasIntersect A B with
      | true =>
          rw [if_pos rfl]
          refine iff_of_true (fun a _ b _ => toInt_mem_both _) ⟨?_, .inr (.inl rfl)⟩
          intro h
          contradiction
      | false =>
          rw [if_neg Bool.false_ne_true, has_zero_iff]
          simp

section

theorem hasIntersect_of_equals (hA : ∃ a, a ∈ A) (h : AddressValue.equals A B = true) : hasIntersect A B = true := by
  obtain ⟨a, ha⟩ := hA
  exact hasIntersect_iff.mpr ⟨a, ha, (equals_iff.mp h a).mp ha⟩

theorem ne_of_disjoint (h : ¬ hasIntersect A B = true) (ha : a ∈ A) (hb : b ∈ B) : a ≠ b := by
  rintro rfl
  exact h (hasIntersect_iff.mpr ⟨a, ha, hb⟩)

theorem equals_eq_false_iff : AddressValue.equals A B = false ↔ ¬ AddressValue.equals A B = true := by
  rw [Bool.not_eq_true]

theorem irreflexive_iff (hA : ∃ a, a ∈ A) (hr : ∀ a, r a a = false) :
    Has (compareAddrs A B) r A B ↔ AddressValue.equals A B = false ∧
      (hasIntersect A B = true ∨ ∀ a ∈ A, ∀ b ∈ B, r a b = false) := by
  obtain ⟨a, ha⟩ := hA
  rw [has_compareAddrs_iff, equals_eq_false_iff]
  constructor
  · rintro ⟨hall, hrest⟩
    have hne : ¬ AddressValue.equals A B = true := by
      intro heq
      have htrue := hall heq a ha a ha
      rw [hr] at htrue
      contradiction
    exact ⟨hne, hrest.resolve_left hne⟩
  · rintro ⟨hne, hrest⟩
    exact ⟨fun heq => absurd heq hne, .inr hrest⟩

theorem reflexive_iff (hA : ∃ a, a ∈ A) (hr : ∀ a, r a a = true) (hanti : ∀ a b, r a b = true → r b a = true → a = b) :
    Has (compareAddrs A B) r A B ↔ (AddressValue.equals A B = true → Single A) ∧
      (hasIntersect A B = true ∨ ∀ a ∈ A, ∀ b ∈ B, r a b = false) := by
  rw [has_compareAddrs_iff]
  refine and_congr (forall_congr' fun _ => ?_) ?_
  · constructor
    · intro h a ha b hb
      exact hanti a b (h a ha b hb) (h b hb a ha)
    · intro h a ha b hb
      rw [h a ha b hb]
      exact hr b
  · constructor
    · rintro (heq | h)
      · exact .inl (hasIntersect_of_equals hA heq)
      · exact h
    · exact .inr

/-- Between disjoint sets, an order is strict. -/
theorem or_below_iff (h : ∀ a ∈ A, ∀ b ∈ B, a ≠ b → (r a b = false ↔ a < b)) :
    (hasIntersect A B = true ∨ ∀ a ∈ A, ∀ b ∈ B, r a b = false) ↔ (hasIntersect A B = true ∨ Below A B) := by
  by_cases hmeet : hasIntersect A B = true
  · simp [hmeet]
  · rw [or_iff_right hmeet, or_iff_right hmeet]
    exact forall₂_congr fun a ha => forall₂_congr fun b hb => h a ha b hb (ne_of_disjoint hmeet ha hb)

theorem or_above_iff (h : ∀ a ∈ A, ∀ b ∈ B, a ≠ b → (r a b = false ↔ b < a)) :
    (hasIntersect A B = true ∨ ∀ a ∈ A, ∀ b ∈ B, r a b = false) ↔ (hasIntersect A B = true ∨ Below B A) := by
  by_cases hmeet : hasIntersect A B = true
  · simp [hmeet]
  · rw [or_iff_right hmeet, or_iff_right hmeet]
    constructor
    · intro hall b hb a ha
      exact (h a ha b hb (ne_of_disjoint hmeet ha hb)).mp (hall a ha b hb)
    · intro hall a ha b hb
      exact (h a ha b hb (ne_of_disjoint hmeet ha hb)).mpr (hall b hb a ha)

variable (hA : ∃ a, a ∈ A) (hB : ∃ b, b ∈ B)

include hA

theorem has_eq_iff : Has (compareAddrs A B) (fun a b => a = b) A B ↔
    (AddressValue.equals A B = true → Single A) := by
  rw [reflexive_iff hA (by simp) (by simp)]
  apply and_iff_left
  by_cases hmeet : hasIntersect A B = true
  · exact .inl hmeet
  · right
    intro a ha b hb
    simpa using ne_of_disjoint hmeet ha hb

include hB in
theorem has_ne_iff : Has (compareAddrs A B) (fun a b => a ≠ b) A B ↔
    AddressValue.equals A B = false ∧ hasIntersect A B = true := by
  rw [irreflexive_iff hA (by simp)]
  refine and_congr_right fun _ => or_iff_left_of_imp fun hall => ?_
  obtain ⟨a, ha⟩ := hA
  obtain ⟨b, hb⟩ := hB
  have heq : a = b := by simpa using hall a ha b hb
  exact hasIntersect_iff.mpr ⟨a, ha, heq ▸ hb⟩

theorem has_gt_iff : Has (compareAddrs A B) (fun a b => a > b) A B ↔
    AddressValue.equals A B = false ∧ (hasIntersect A B = true ∨ Below A B) := by
  rw [irreflexive_iff hA (by simp)]
  refine and_congr_right fun _ => or_below_iff fun a _ b _ hne => ?_
  rw [decide_eq_false_iff_not, gt_iff_lt, BitVec.lt_def, BitVec.lt_def]
  have hval := BitVec.toNat_ne.mp hne
  omega

theorem has_lt_iff : Has (compareAddrs A B) (fun a b => a < b) A B ↔
    AddressValue.equals A B = false ∧ (hasIntersect A B = true ∨ Below B A) := by
  rw [irreflexive_iff hA (by simp)]
  refine and_congr_right fun _ => or_above_iff fun a _ b _ hne => ?_
  rw [decide_eq_false_iff_not, BitVec.lt_def, BitVec.lt_def]
  have hval := BitVec.toNat_ne.mp hne
  omega

theorem has_ge_iff : Has (compareAddrs A B) (fun a b => a ≥ b) A B ↔
    (AddressValue.equals A B = true → Single A) ∧ (hasIntersect A B = true ∨ Below A B) := by
  rw [reflexive_iff hA (by simp) (fun a b h h' => BitVec.le_antisymm (of_decide_eq_true h') (of_decide_eq_true h))]
  refine and_congr_right fun _ => or_below_iff fun a _ b _ _ => ?_
  rw [decide_eq_false_iff_not, BitVec.le_def, BitVec.lt_def]
  omega

theorem has_le_iff : Has (compareAddrs A B) (fun a b => a ≤ b) A B ↔
    (AddressValue.equals A B = true → Single A) ∧ (hasIntersect A B = true ∨ Below B A) := by
  rw [reflexive_iff hA (by simp) (fun a b h h' => BitVec.le_antisymm (of_decide_eq_true h) (of_decide_eq_true h'))]
  refine and_congr_right fun _ => or_above_iff fun a _ b _ _ => ?_
  rw [decide_eq_false_iff_not, BitVec.le_def, BitVec.lt_def]
  omega

theorem has_false_iff : Has (compareAddrs A B) (fun _ _ => false) A B ↔ AddressValue.equals A B = false := by
  rw [irreflexive_iff hA (fun _ => rfl)]
  simp

include hB in
theorem has_true_iff : Has (compareAddrs A B) (fun _ _ => true) A B ↔ hasIntersect A B = true := by
  rw [has_compareAddrs_iff]
  simp only [implies_true, true_and]
  constructor
  · rintro (heq | hmeet | hall)
    · exact hasIntersect_of_equals hA heq
    · exact hmeet
    · obtain ⟨a, ha⟩ := hA
      obtain ⟨b, hb⟩ := hB
      exact absurd (hall a ha b hb).symm Bool.false_ne_true
  · exact fun h => .inr (.inl h)

include hB in
theorem has_outcome_iff (predicate : Predicate) :
    Has (compareAddrs A B) (outcome predicate) A B ↔ Fits predicate A B := by
  cases predicate with
  | ICMP_EQ | FCMP_OEQ | FCMP_UEQ => exact has_eq_iff hA
  | ICMP_NE | FCMP_ONE | FCMP_UNE => exact has_ne_iff hA hB
  | ICMP_UGT | ICMP_SGT | FCMP_OGT | FCMP_UGT => exact has_gt_iff hA
  | ICMP_ULT | ICMP_SLT | FCMP_OLT | FCMP_ULT => exact has_lt_iff hA
  | ICMP_UGE | ICMP_SGE | FCMP_OGE | FCMP_UGE => exact has_ge_iff hA
  | ICMP_ULE | ICMP_SLE | FCMP_OLE | FCMP_ULE => exact has_le_iff hA
  | FCMP_FALSE | FCMP_UNO => exact has_false_iff hA
  | FCMP_TRUE | FCMP_ORD => exact has_true_iff hA hB

end

section

variable {cmp : CmpStmt} {as : AbstractState}

theorem inVarToAddrsTable_of_mem {id : NodeID} (h : a ∈ (as.varToAbsVal.get id).addrs) :
    as.inVarToAddrsTable id = true := by
  rw [inVarToAddrsTable, Bool.and_eq_true, decide_eq_true_iff]
  constructor
  · by_contra hkey
    rw [as.varToAbsVal.get_absent id hkey] at h
    exact List.not_mem_nil h
  · rw [AbstractValue.isAddr, Bool.not_eq_true']
    exact List.isEmpty_eq_false_iff_exists_mem.mpr ⟨a, h⟩

theorem updateStateOnCmp_addrs (ha : a ∈ (as.varToAbsVal.get cmp.op0).addrs)
    (hb : b ∈ (as.varToAbsVal.get cmp.op1).addrs) : updateStateOnCmp cmp as =
      some (assign as cmp.res (compareAddrs (as.varToAbsVal.get cmp.op0).addrs (as.varToAbsVal.get cmp.op1).addrs)) := by
  rw [updateStateOnCmp, inVarToAddrsTable_of_mem ha, inVarToAddrsTable_of_mem hb]
  rfl

theorem correct_iff (cmp : CmpStmt) (as : AbstractState) : Correct cmp as ↔
    (as.varToAbsVal.get cmp.op0).addrs = [] ∨ (as.varToAbsVal.get cmp.op1).addrs = [] ∨
      Fits cmp.predicate (as.varToAbsVal.get cmp.op0).addrs (as.varToAbsVal.get cmp.op1).addrs := by
  by_cases hA : ∃ a, a ∈ (as.varToAbsVal.get cmp.op0).addrs
  · by_cases hB : ∃ b, b ∈ (as.varToAbsVal.get cmp.op1).addrs
    · have hA' : (as.varToAbsVal.get cmp.op0).addrs ≠ [] := List.ne_nil_of_mem hA.choose_spec
      have hB' : (as.varToAbsVal.get cmp.op1).addrs ≠ [] := List.ne_nil_of_mem hB.choose_spec
      rw [or_iff_right hA', or_iff_right hB', ← has_outcome_iff hA hB]
      refine forall₂_congr fun a ha => forall₂_congr fun b hb => ?_
      rw [updateStateOnCmp_addrs ha hb]
      constructor
      · rintro ⟨as', heq, hmem⟩
        cases heq
        rwa [assign, get_set_self] at hmem
      · intro hmem
        refine ⟨_, rfl, ?_⟩
        rwa [assign, get_set_self]
    · refine iff_of_true (fun a _ b hb => absurd ⟨b, hb⟩ hB) (.inr (.inl ?_))
      exact List.eq_nil_iff_forall_not_mem.mpr fun b hb => hB ⟨b, hb⟩
  · refine iff_of_true (fun a ha => absurd ⟨a, ha⟩ hA) (.inl ?_)
    exact List.eq_nil_iff_forall_not_mem.mpr fun a ha => hA ⟨a, ha⟩

/-- Two operands that may be the same two objects, or are two different objects. -/
theorem not_correct : ¬ Correct ⟨1, 2, 3, ICMP_EQ⟩
      ⟨(DefaultMap.empty.set 1 ⟨.bottom, [5, 6]⟩).set 2 ⟨.bottom, [5, 6]⟩, .empty⟩ ∧
    ¬ Correct ⟨1, 2, 3, ICMP_NE⟩ ⟨(DefaultMap.empty.set 1 ⟨.bottom, [5]⟩).set 2 ⟨.bottom, [6]⟩, .empty⟩ := by
  constructor
  · intro h
    obtain ⟨as', heq, hmem⟩ := h 5 List.mem_cons_self 6 (List.mem_cons_of_mem _ List.mem_cons_self)
    cases heq
    have hcontains : (IntervalValue.ofInt 1).contains 0 = true := hmem
    contradiction
  · intro h
    obtain ⟨as', heq, hmem⟩ := h 5 List.mem_cons_self 6 List.mem_cons_self
    cases heq
    have hcontains : (IntervalValue.ofInt 0).contains 1 = true := hmem
    contradiction

end

end SVF.AE.PointerComparisons
