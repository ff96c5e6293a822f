import SVF.AE.States

namespace SVF.AE.Branch

open NumericValue Intervals States AddressValue AbstractState Util.DefaultMaps

inductive Predicate
  | FCMP_FALSE | FCMP_OEQ | FCMP_OGT | FCMP_OGE | FCMP_OLT | FCMP_OLE | FCMP_ONE | FCMP_ORD
  | FCMP_UNO | FCMP_UEQ | FCMP_UGT | FCMP_UGE | FCMP_ULT | FCMP_ULE | FCMP_UNE | FCMP_TRUE
  | ICMP_EQ | ICMP_NE | ICMP_UGT | ICMP_UGE | ICMP_ULT | ICMP_ULE | ICMP_SGT | ICMP_SGE
  | ICMP_SLT | ICMP_SLE
  deriving DecidableEq

open Predicate

/-- A predicate without an entry reads as `0`, which is `FCMP_FALSE`. -/
def reverse_predicate : Predicate → Predicate
  | FCMP_OEQ => FCMP_ONE
  | FCMP_UEQ => FCMP_UNE
  | FCMP_OGT => FCMP_OLE
  | FCMP_OGE => FCMP_OLT
  | FCMP_OLT => FCMP_OGE
  | FCMP_OLE => FCMP_OGT
  | FCMP_ONE => FCMP_OEQ
  | FCMP_UNE => FCMP_UEQ
  | ICMP_EQ => ICMP_NE
  | ICMP_NE => ICMP_EQ
  | ICMP_UGT => ICMP_ULE
  | ICMP_ULT => ICMP_UGE
  | ICMP_UGE => ICMP_ULT
  | ICMP_SGT => ICMP_SLE
  | ICMP_SLT => ICMP_SGE
  | ICMP_SGE => ICMP_SLT
  | _ => FCMP_FALSE

def switch_lhsrhs_predicate : Predicate → Predicate
  | FCMP_OEQ => FCMP_OEQ
  | FCMP_UEQ => FCMP_UEQ
  | FCMP_OGT => FCMP_OLT
  | FCMP_OGE => FCMP_OLE
  | FCMP_OLT => FCMP_OGT
  | FCMP_OLE => FCMP_OGE
  | FCMP_ONE => FCMP_ONE
  | FCMP_UNE => FCMP_UNE
  | ICMP_EQ => ICMP_EQ
  | ICMP_NE => ICMP_NE
  | ICMP_UGT => ICMP_ULT
  | ICMP_ULT => ICMP_UGT
  | ICMP_UGE => ICMP_ULE
  | ICMP_SGT => ICMP_SLT
  | ICMP_SLT => ICMP_SGT
  | ICMP_SGE => ICMP_SLE
  | _ => FCMP_FALSE

/-- The statements that define a variable, as far as the operand lookup tells
them apart. -/
inductive InStmt
  | load (rhs : NodeID)
  | copy (rhs : NodeID)
  | other

structure CmpStmt where
  op0 : NodeID
  op1 : NodeID
  res : NodeID
  predicate : Predicate

/-- The pointer of the load an operand comes from, directly or through a copy. -/
def loadRHS (getInEdges : NodeID → List InStmt) (op : NodeID) : Option NodeID :=
  match (getInEdges op).head? with
  | some (.load rhs) => some rhs
  | some (.copy rhs) =>
      match (getInEdges rhs).head? with
      | some (.load rhs) => some rhs
      | _ => none
  | _ => none

/-- What the switch over the predicates meets the operand with: the outer
`none` is `abort`, the inner one a case that changes nothing. -/
def refinedRange (predicate : Predicate) (rhs : IntervalValue) : Option (Option IntervalValue) :=
  match predicate with
  | ICMP_EQ | FCMP_OEQ | FCMP_UEQ => some (some rhs)
  | ICMP_NE | FCMP_ONE | FCMP_UNE => some none
  | ICMP_UGT | ICMP_SGT | FCMP_OGT | FCMP_UGT =>
      some (some ⟨rhs.lb.safeAdd (.num 1), .plus_infinity⟩)
  | ICMP_UGE | ICMP_SGE | FCMP_OGE | FCMP_UGE => some (some ⟨rhs.lb, .plus_infinity⟩)
  | ICMP_ULT | ICMP_SLT | FCMP_OLT | FCMP_ULT =>
      some (some ⟨.minus_infinity, rhs.ub.safeAdd (BoundedInt.neg (.num 1))⟩)
  | ICMP_ULE | ICMP_SLE | FCMP_OLE | FCMP_ULE => some (some ⟨.minus_infinity, rhs.ub⟩)
  | FCMP_FALSE | FCMP_TRUE => some none
  | FCMP_ORD | FCMP_UNO => none

/-- The interval is converted to an abstract value without addresses before the
objects are met with it. -/
def refineTargets (addrs : AddressValue) (range : IntervalValue) (as : AbstractState) : AbstractState :=
  addrs.foldl (fun as addr =>
    let objId := getInternalID addr
    if as.inAddrToValTable objId then
      { as with addrToAbsVal := as.addrToAbsVal.modify objId (·.meet_with ⟨range, []⟩) }
    else as) as

def loadAddrs (getInEdges : NodeID → List InStmt) (as : AbstractState) (op : NodeID) : AddressValue :=
  match loadRHS getInEdges op with
  | some ptr => if as.inVarToAddrsTable ptr then (as.varToAbsVal.get ptr).addrs else []
  | none => []

def refineOperand (op0 : NodeID) (predicate : Predicate) (rhs : IntervalValue) (addrs : AddressValue)
    (new_es : AbstractState) : Option (Bool × AbstractState) :=
  match refinedRange predicate rhs with
  | none => none
  | some none => some (true, new_es)
  | some (some range) =>
      some (true, refineTargets addrs range
        { new_es with
          varToAbsVal := new_es.varToAbsVal.modify op0
            fun v => { v with interval := v.interval.meet_with range } })

/-- A returned state replaces the one passed in; it is left alone when the
branch is infeasible. -/
def isCmpBranchFeasible (getInEdges : NodeID → List InStmt) (cmpStmt : CmpStmt) (succ : ℤ)
    (as : AbstractState) : Option (Bool × AbstractState) :=
  if as.inVarToAddrsTable cmpStmt.op0 || as.inVarToAddrsTable cmpStmt.op1 then some (true, as)
  else
    let (res, new_es) := as.getVar cmpStmt.res
    if (res.interval.meet_with (.ofInt succ)).isBottom then some (false, as)
    else
      let (v0, new_es) := new_es.getVar cmpStmt.op0
      let (v1, new_es) := new_es.getVar cmpStmt.op1
      let b0 := v0.interval.is_numeral
      let b1 := v1.interval.is_numeral
      if b0 == b1 then some (true, new_es)
      else
        let (op0, rhs, predicate) :=
          if b0 then (cmpStmt.op1, v0.interval, switch_lhsrhs_predicate cmpStmt.predicate)
          else (cmpStmt.op0, v1.interval, cmpStmt.predicate)
        let predicate := if succ = 0 then reverse_predicate predicate else predicate
        refineOperand op0 predicate rhs (loadAddrs getInEdges new_es op0) new_es

/-- The comparison of two 64-bit values; it says nothing about the
floating-point predicates. -/
def evalCmp : Predicate → BitVec 64 → BitVec 64 → Option Bool
  | ICMP_EQ, x, y => some (x == y)
  | ICMP_NE, x, y => some (x != y)
  | ICMP_UGT, x, y => some (y.ult x)
  | ICMP_UGE, x, y => some (y.ule x)
  | ICMP_ULT, x, y => some (x.ult y)
  | ICMP_ULE, x, y => some (x.ule y)
  | ICMP_SGT, x, y => some (y.slt x)
  | ICMP_SGE, x, y => some (y.sle x)
  | ICMP_SLT, x, y => some (x.slt y)
  | ICMP_SLE, x, y => some (x.sle y)
  | _, _, _ => none

def ofBool (b : Bool) : BitVec 64 := if b then 1 else 0

/-- In the run-time state `c` the operands hold `x` and `y`, and their
comparison, held by the result variable, takes the branch `succ`. -/
structure Takes (cmpStmt : CmpStmt) (succ : ℤ) (c : ConcreteState) (x y : BitVec 64) (b : Bool) :
    Prop where
  op0 : c.vars cmpStmt.op0 = some (.int x)
  op1 : c.vars cmpStmt.op1 = some (.int y)
  eval : evalCmp cmpStmt.predicate x y = some b
  res : c.vars cmpStmt.res = some (.int (ofBool b))
  succ : succ = (ofBool b).toInt

def BranchSound (getInEdges : NodeID → List InStmt) (cmpStmt : CmpStmt) (succ : ℤ)
    (as : AbstractState) : Prop :=
  ∀ c x y b, Describes as c → Takes cmpStmt succ c x y b →
    ∃ as', isCmpBranchFeasible getInEdges cmpStmt succ as = some (true, as') ∧ Describes as' c

/-- The refinement a comparison leads to, if any: of a variable and of the
objects at some addresses, with a range. -/
structure Refinement where
  var : NodeID
  range : IntervalValue
  targets : AddressValue

def refinement (getInEdges : NodeID → List InStmt) (cmpStmt : CmpStmt) (succ : ℤ)
    (as : AbstractState) : Option Refinement :=
  let v0 := (as.varToAbsVal.get cmpStmt.op0).interval
  let v1 := (as.varToAbsVal.get cmpStmt.op1).interval
  if as.inVarToAddrsTable cmpStmt.op0 || as.inVarToAddrsTable cmpStmt.op1 then none
  else if v0.is_numeral == v1.is_numeral then none
  else
    let (var, rhs, predicate) :=
      if v0.is_numeral then (cmpStmt.op1, v0, switch_lhsrhs_predicate cmpStmt.predicate)
      else (cmpStmt.op0, v1, cmpStmt.predicate)
    let predicate := if succ = 0 then reverse_predicate predicate else predicate
    (refinedRange predicate rhs).join.map fun range => ⟨var, range, loadAddrs getInEdges as var⟩

theorem describes_meet (v other : AbstractValue) (w : Value) :
    (v.meet_with other).Describes w ↔ v.Describes w ∧ other.Describes w := by
  cases w with
  | int n =>
      change n.toInt ∈ (v.interval.meet_with other.interval).concretize ↔ _
      rw [concretize_meet]
      exact Iff.rfl
  | addr a =>
      change a ∈ other.addrs.filter (· ∈ v.addrs) ↔ _
      rw [List.mem_filter, decide_eq_true_eq, and_comm]
      exact Iff.rfl

/-- An object among the targets that holds an interval describes afterwards
what it described before and the range allows. -/
theorem refineTargets_describes (addrs : AddressValue) (range : IntervalValue) (as : AbstractState)
    (k : NodeID) (w : Value) :
    ((refineTargets addrs range as).addrToAbsVal.get k).Describes w ↔
      (as.addrToAbsVal.get k).Describes w ∧
        ((∃ a ∈ addrs, k = getInternalID a ∧ as.inAddrToValTable k = true) →
          (⟨range, []⟩ : AbstractValue).Describes w) := by
  induction addrs generalizing as with
  | nil => simp [refineTargets]
  | cons a addrs ih =>
      rw [refineTargets, List.foldl_cons]
      change ((refineTargets addrs range _).addrToAbsVal.get k).Describes w ↔ _
      rw [ih]
      by_cases hin : as.inAddrToValTable (getInternalID a) = true
      · simp only [hin, if_true]
        by_cases hk : k = getInternalID a
        · subst hk
          rw [get_modify, if_pos rfl, describes_meet]
          constructor
          · rintro ⟨⟨hw, hr⟩, _⟩
            exact ⟨hw, fun _ => hr⟩
          · rintro ⟨hw, hr⟩
            have hrange := hr ⟨a, List.mem_cons_self, rfl, hin⟩
            exact ⟨⟨hw, hrange⟩, fun _ => hrange⟩
        · rw [get_modify, if_neg hk]
          have htable : ∀ m : AbsValMap, m = as.addrToAbsVal.modify (getInternalID a)
              (·.meet_with ⟨range, []⟩) →
              (⟨as.varToAbsVal, m⟩ : AbstractState).inAddrToValTable k = as.inAddrToValTable k := by
            rintro m rfl
            simp [inAddrToValTable, get_modify, hk]
          rw [htable _ rfl]
          simp [hk]
      · simp only [hin, Bool.false_eq_true, if_false]
        refine and_congr_right fun _ => imp_congr_left ?_
        constructor
        · rintro ⟨b, hb, hkb, hkt⟩
          exact ⟨b, List.mem_cons_of_mem _ hb, hkb, hkt⟩
        · rintro ⟨b, hb, hkb, hkt⟩
          rcases List.mem_cons.mp hb with rfl | hb
          · exact absurd (hkb ▸ hkt) hin
          · exact ⟨b, hb, hkb, hkt⟩

theorem refineTargets_vars (addrs : AddressValue) (range : IntervalValue) (as : AbstractState) :
    (refineTargets addrs range as).varToAbsVal = as.varToAbsVal := by
  induction addrs generalizing as with
  | nil => rfl
  | cons a addrs ih =>
      rw [refineTargets, List.foldl_cons]
      change (refineTargets addrs range _).varToAbsVal = _
      rw [ih]
      dsimp only
      split <;> rfl

def SameValues (as as' : AbstractState) : Prop :=
  as'.varToAbsVal.get = as.varToAbsVal.get ∧ as'.addrToAbsVal = as.addrToAbsVal

theorem sameValues_getVar {as as' : AbstractState} (h : SameValues as as') (k : NodeID) :
    SameValues as (as'.getVar k).2 := by
  refine ⟨?_, h.2⟩
  rw [← h.1]
  exact get_touch _ _

theorem SameValues.describes {as as' : AbstractState} (h : SameValues as as') (c : ConcreteState) :
    Describes as' c ↔ Describes as c := by
  obtain ⟨hvar, haddr⟩ := h
  constructor
  · rintro ⟨hv, hm⟩
    exact ⟨fun k w hw => hvar ▸ hv k w hw, haddr ▸ hm⟩
  · rintro ⟨hv, hm⟩
    exact ⟨fun k w hw => hvar ▸ hv k w hw, haddr ▸ hm⟩

theorem addrs_of_table (as : AbstractState) (ptr : NodeID) :
    (if as.inVarToAddrsTable ptr then (as.varToAbsVal.get ptr).addrs else []) =
      (as.varToAbsVal.get ptr).addrs := by
  by_cases hkey : ptr ∈ as.varToAbsVal.keys
  · by_cases haddr : (as.varToAbsVal.get ptr).addrs = []
    · simp [haddr]
    · simp [inVarToAddrsTable, hkey, AbstractValue.isAddr, haddr]
  · simp [as.varToAbsVal.get_absent ptr hkey, default]

theorem sameValues_loadAddrs {as as' : AbstractState} (h : SameValues as as')
    (getInEdges : NodeID → List InStmt) (op : NodeID) :
    loadAddrs getInEdges as' op = loadAddrs getInEdges as op := by
  rw [loadAddrs, loadAddrs]
  cases loadRHS getInEdges op with
  | none => rfl
  | some ptr =>
      have hptr := addrs_of_table as' ptr
      rw [h.1] at hptr
      show (if as'.inVarToAddrsTable ptr then (as'.varToAbsVal.get ptr).addrs else []) = _
      rw [h.1]
      exact hptr.trans (addrs_of_table as ptr).symm

def Refinement.Allows (r : Refinement) (as : AbstractState) (c : ConcreteState) : Prop :=
  (∀ n, c.vars r.var = some (.int n) → n.toInt ∈ r.range.concretize) ∧
    ∀ a ∈ r.targets, as.inAddrToValTable (getInternalID a) = true → ∀ w,
      c.mem (getInternalID a) = some w → (⟨r.range, []⟩ : AbstractValue).Describes w

theorem describes_refined {as new_es : AbstractState} (h : SameValues as new_es) (r : Refinement)
    (c : ConcreteState) :
    Describes (refineTargets r.targets r.range { new_es with
      varToAbsVal := new_es.varToAbsVal.modify r.var
        (fun v => { v with interval := v.interval.meet_with r.range }) }) c ↔
      Describes as c ∧ r.Allows as c := by
  have hvars : ∀ k w, ((new_es.varToAbsVal.modify r.var
      (fun v => { v with interval := v.interval.meet_with r.range })).get k).Describes w ↔
      (as.varToAbsVal.get k).Describes w ∧
        ∀ n, k = r.var → w = .int n → n.toInt ∈ r.range.concretize := by
    intro k w
    rw [get_modify, h.1]
    by_cases hk : k = r.var
    · subst hk
      rw [if_pos rfl]
      cases w with
      | int n =>
          change n.toInt ∈ (IntervalValue.meet_with _ _).concretize ↔ _
          rw [concretize_meet]
          simp [AbstractValue.Describes]
      | addr a => simp [AbstractValue.Describes]
    · simp [hk]
  constructor
  · rintro ⟨hv, hm⟩
    rw [DescribesAll, refineTargets_vars] at hv
    refine ⟨⟨fun k w hw => ((hvars k w).mp (hv k w hw)).1, fun k w hw => ?_⟩, fun n hn => ?_, ?_⟩
    · have hmw := ((refineTargets_describes _ _ _ k w).mp (hm k w hw)).1
      rwa [h.2] at hmw
    · exact ((hvars _ _).mp (hv _ _ hn)).2 n rfl rfl
    · intro a ha htable w hw
      refine ((refineTargets_describes _ _ _ _ w).mp (hm _ w hw)).2 ⟨a, ha, rfl, ?_⟩
      rwa [inAddrToValTable, h.2]
  · rintro ⟨⟨hv, hm⟩, hvar, htargets⟩
    refine ⟨fun k w hw => ?_, fun k w hw => (refineTargets_describes _ _ _ k w).mpr ⟨?_, ?_⟩⟩
    · rw [refineTargets_vars]
      refine (hvars k w).mpr ⟨hv k w hw, ?_⟩
      rintro n rfl rfl
      exact hvar n hw
    · rw [h.2]
      exact hm k w hw
    · rintro ⟨a, ha, rfl, htable⟩
      rw [inAddrToValTable, h.2] at htable
      exact htargets a ha htable w hw

def IsInteger (predicate : Predicate) : Prop := ∃ x y b, evalCmp predicate x y = some b

/-- The tables lead no integer predicate to `abort`. -/
theorem refinedRange_ne_none {predicate : Predicate} (h : IsInteger predicate) (rhs : IntervalValue)
    (swap negate : Bool) :
    let predicate := if swap then switch_lhsrhs_predicate predicate else predicate
    refinedRange (if negate then reverse_predicate predicate else predicate) rhs ≠ none := by
  obtain ⟨x, y, b, h⟩ := h
  cases predicate <;> cases swap <;> cases negate <;>
    simp_all [evalCmp, switch_lhsrhs_predicate, reverse_predicate, refinedRange]

theorem refineOperand_refines {as new_es : AbstractState} (h : SameValues as new_es) (op0 : NodeID)
    {predicate : Predicate} {rhs : IntervalValue} (addrs : AddressValue)
    (hrange : refinedRange predicate rhs ≠ none) :
    ∃ as', refineOperand op0 predicate rhs addrs new_es = some (true, as') ∧
      ∀ c, Describes as' c ↔ Describes as c ∧
        ∀ r, (refinedRange predicate rhs).join.map (fun range => ⟨op0, range, addrs⟩) = some r →
          Refinement.Allows r as c := by
  cases hr : refinedRange predicate rhs with
  | none => exact absurd hr hrange
  | some outcome =>
      cases outcome with
      | none => exact ⟨new_es, by rw [refineOperand, hr], fun c => by simp [h.describes c]⟩
      | some range =>
          refine ⟨_, by rw [refineOperand, hr], fun c => ?_⟩
          refine (describes_refined h ⟨op0, range, addrs⟩ c).trans ?_
          simp

/-- On an integer comparison whose result may be `succ` the branch is feasible,
and the new state describes what the old one and the refinement allow. -/
theorem isCmpBranchFeasible_refines (getInEdges : NodeID → List InStmt) {cmpStmt : CmpStmt} {succ : ℤ}
    {as : AbstractState} (hint : IsInteger cmpStmt.predicate)
    (hres : succ ∈ (as.varToAbsVal.get cmpStmt.res).interval.concretize) :
    ∃ as', isCmpBranchFeasible getInEdges cmpStmt succ as = some (true, as') ∧
      ∀ c, Describes as' c ↔
        Describes as c ∧ ∀ r, refinement getInEdges cmpStmt succ as = some r → r.Allows as c := by
  unfold isCmpBranchFeasible refinement
  by_cases hskip : (as.inVarToAddrsTable cmpStmt.op0 || as.inVarToAddrsTable cmpStmt.op1) = true
  · simp [hskip]
  have hmeet : ((as.varToAbsVal.get cmpStmt.res).interval.meet_with (.ofInt succ)).isBottom = false := by
    refine isBottom_eq_false (n := succ) ?_
    rw [concretize_meet, concretize_ofInt]
    exact ⟨hres, rfl⟩
  have hsame : SameValues as (((as.getVar cmpStmt.res).2.getVar cmpStmt.op0).2.getVar cmpStmt.op1).2 :=
    sameValues_getVar (sameValues_getVar (sameValues_getVar ⟨rfl, rfl⟩ _) _) _
  have hres' : (as.getVar cmpStmt.res).1 = as.varToAbsVal.get cmpStmt.res := rfl
  have hv0 : ((as.getVar cmpStmt.res).2.getVar cmpStmt.op0).1 = as.varToAbsVal.get cmpStmt.op0 := by
    simp [getVar]
  have hv1 : (((as.getVar cmpStmt.res).2.getVar cmpStmt.op0).2.getVar cmpStmt.op1).1 =
      as.varToAbsVal.get cmpStmt.op1 := by
    simp [getVar]
  simp only [hskip, hres', hmeet, hv0, hv1, sameValues_loadAddrs hsame, Bool.false_eq_true, if_false]
  by_cases hnum : ((as.varToAbsVal.get cmpStmt.op0).interval.is_numeral ==
      (as.varToAbsVal.get cmpStmt.op1).interval.is_numeral) = true
  · simp only [hnum, if_true]
    exact ⟨_, rfl, fun c => by simp [hsame.describes c]⟩
  · simp only [hnum, Bool.false_eq_true, if_false]
    cases hb : (as.varToAbsVal.get cmpStmt.op0).interval.is_numeral with
    | true =>
        have hrange := refinedRange_ne_none hint (as.varToAbsVal.get cmpStmt.op0).interval true
          (decide (succ = 0))
        simp only [if_true, decide_eq_true_eq] at hrange ⊢
        exact refineOperand_refines hsame _ _ hrange
    | false =>
        have hrange := refinedRange_ne_none hint (as.varToAbsVal.get cmpStmt.op1).interval false
          (decide (succ = 0))
        simp only [Bool.false_eq_true, if_false, decide_eq_true_eq] at hrange ⊢
        exact refineOperand_refines hsame _ _ hrange

theorem takes_integer {cmpStmt : CmpStmt} {succ : ℤ} {as : AbstractState} {c : ConcreteState}
    {x y : BitVec 64} {b : Bool} (hc : Describes as c) (ht : Takes cmpStmt succ c x y b) :
    IsInteger cmpStmt.predicate ∧ succ ∈ (as.varToAbsVal.get cmpStmt.res).interval.concretize :=
  ⟨⟨x, y, b, ht.eval⟩, ht.succ ▸ hc.vars _ _ ht.res⟩

/-- The values `x` and `y` of the operands, and the value of the result, that
the abstract state describes and that belong to one run-time state. -/
structure Possible (cmpStmt : CmpStmt) (succ : ℤ) (as : AbstractState) (x y : BitVec 64) (b : Bool) :
    Prop where
  op0 : (as.varToAbsVal.get cmpStmt.op0).Describes (.int x)
  op1 : (as.varToAbsVal.get cmpStmt.op1).Describes (.int y)
  res : (as.varToAbsVal.get cmpStmt.res).Describes (.int (ofBool b))
  eval : evalCmp cmpStmt.predicate x y = some b
  succ : succ = (ofBool b).toInt
  operands : cmpStmt.op0 = cmpStmt.op1 → x = y
  left : cmpStmt.res = cmpStmt.op0 → ofBool b = x
  right : cmpStmt.res = cmpStmt.op1 → ofBool b = y

/-- The refined operand keeps its value, and each object with an interval that
is refined along with it holds only integers of the range. -/
def Refinement.Keeps (r : Refinement) (as : AbstractState) (n : BitVec 64) : Prop :=
  n.toInt ∈ r.range.concretize ∧
    ∀ a ∈ r.targets, as.inAddrToValTable (getInternalID a) = true → ∀ w,
      (as.addrToAbsVal.get (getInternalID a)).Describes w → (⟨r.range, []⟩ : AbstractValue).Describes w

def Refinement.value (r : Refinement) (cmpStmt : CmpStmt) (x y : BitVec 64) : BitVec 64 :=
  if r.var = cmpStmt.op0 then x else y

theorem refinement_var {getInEdges : NodeID → List InStmt} {cmpStmt : CmpStmt} {succ : ℤ}
    {as : AbstractState} {r : Refinement} (h : refinement getInEdges cmpStmt succ as = some r) :
    cmpStmt.op0 ≠ cmpStmt.op1 ∧ (r.var = cmpStmt.op0 ∨ r.var = cmpStmt.op1) := by
  unfold refinement at h
  dsimp only at h
  split at h
  · contradiction
  · split at h
    · contradiction
    · rename_i hnum
      refine ⟨fun heq => hnum (by rw [heq]; exact beq_self_eq_true _), ?_⟩
      split at h <;> obtain ⟨_, _, rfl⟩ := Option.map_eq_some_iff.mp h
      · exact .inr rfl
      · exact .inl rfl

theorem takes_possible {cmpStmt : CmpStmt} {succ : ℤ} {as : AbstractState} {c : ConcreteState}
    {x y : BitVec 64} {b : Bool} (hc : Describes as c) (ht : Takes cmpStmt succ c x y b) :
    Possible cmpStmt succ as x y b := by
  obtain ⟨hop0, hop1, heval, hres, hsucc⟩ := ht
  refine ⟨hc.vars _ _ hop0, hc.vars _ _ hop1, hc.vars _ _ hres, heval, hsucc, ?_, ?_, ?_⟩
  · intro h
    rw [h, hop1] at hop0
    cases hop0
    rfl
  · intro h
    rw [h, hop0] at hres
    cases hres
    rfl
  · intro h
    rw [h, hop1] at hres
    cases hres
    rfl

theorem takes_value {getInEdges : NodeID → List InStmt} {cmpStmt : CmpStmt} {succ taken : ℤ}
    {as : AbstractState} {r : Refinement} {c : ConcreteState} {x y : BitVec 64} {b : Bool}
    (h : refinement getInEdges cmpStmt succ as = some r) (ht : Takes cmpStmt taken c x y b) :
    c.vars r.var = some (.int (r.value cmpStmt x y)) := by
  obtain ⟨hne, hvar | hvar⟩ := refinement_var h
  · rw [Refinement.value, if_pos hvar, hvar, ht.op0]
  · rw [Refinement.value, if_neg (fun heq => hne (heq.symm.trans hvar)), hvar, ht.op1]

/-- Possible values belong to a run-time state with any described memory. -/
theorem exists_takes {cmpStmt : CmpStmt} {succ : ℤ} {as : AbstractState} {x y : BitVec 64} {b : Bool}
    (h : Possible cmpStmt succ as x y b) {mem : NodeID → Option Value}
    (hmem : DescribesAll as.addrToAbsVal mem) :
    ∃ c, c.mem = mem ∧ Describes as c ∧ Takes cmpStmt succ c x y b := by
  obtain ⟨hop0, hop1, hres, heval, hsucc, hoperands, hleft, hright⟩ := h
  let vars : NodeID → Option Value := fun k =>
    if k = cmpStmt.op0 then some (.int x) else if k = cmpStmt.op1 then some (.int y)
    else if k = cmpStmt.res then some (.int (ofBool b)) else none
  refine ⟨⟨vars, mem⟩, rfl, ⟨fun k w hw => ?_, hmem⟩, ?_, ?_, heval, ?_, hsucc⟩
  · simp only [vars] at hw
    split at hw
    · rename_i hk
      cases hw
      exact hk ▸ hop0
    · split at hw
      · rename_i hk
        cases hw
        exact hk ▸ hop1
      · split at hw
        · rename_i hk
          cases hw
          exact hk ▸ hres
        · contradiction
  · simp [vars]
  · by_cases heq : cmpStmt.op1 = cmpStmt.op0
    · simp [vars, heq, hoperands heq.symm]
    · simp [vars, heq]
  · by_cases h0 : cmpStmt.res = cmpStmt.op0
    · have hres : vars cmpStmt.res = some (.int x) := if_pos h0
      exact hleft h0 ▸ hres
    · by_cases h1 : cmpStmt.res = cmpStmt.op1
      · have hres : vars cmpStmt.res = some (.int y) := (if_neg h0).trans (if_pos h1)
        exact hright h1 ▸ hres
      · simp [vars, h0, h1]

theorem keeps_of_sound {getInEdges : NodeID → List InStmt} {cmpStmt : CmpStmt} {succ : ℤ}
    {as : AbstractState} (hsound : BranchSound getInEdges cmpStmt succ as) {r : Refinement}
    (hr : refinement getInEdges cmpStmt succ as = some r) {x y : BitVec 64} {b : Bool}
    (hxy : Possible cmpStmt succ as x y b) : r.Keeps as (r.value cmpStmt x y) := by
  have hallows : ∀ mem, DescribesAll as.addrToAbsVal mem → ∃ c, c.mem = mem ∧
      Takes cmpStmt succ c x y b ∧ r.Allows as c := by
    intro mem hmem
    obtain ⟨c, hcmem, hc, ht⟩ := exists_takes hxy hmem
    obtain ⟨as', hfeasible, hdesc⟩ := hsound c x y b hc ht
    obtain ⟨hint, hres⟩ := takes_integer hc ht
    obtain ⟨as'', hfeasible', hiff⟩ := isCmpBranchFeasible_refines getInEdges hint hres
    rw [hfeasible'] at hfeasible
    cases hfeasible
    exact ⟨c, hcmem, ht, ((hiff c).mp hdesc).2 r hr⟩
  constructor
  · obtain ⟨c, _, ht, hvar, _⟩ := hallows (fun _ => none) (fun _ _ h => by contradiction)
    exact hvar _ (takes_value hr ht)
  · intro a ha htable w hw
    obtain ⟨c, hmem, _, _, htargets⟩ := hallows (fun k => if k = getInternalID a then some w else none) (by
      intro k u hu
      obtain ⟨rfl, rfl⟩ : k = getInternalID a ∧ w = u := by simpa using hu
      exact hw)
    exact htargets a ha htable w (by simp [hmem])

def smallOperand : AbstractState :=
  ⟨((DefaultMap.empty.set 0#32 ⟨⟨.num (-5), .num 5⟩, []⟩).set 1#32 ⟨.ofInt 10, []⟩).set 2#32
    ⟨⟨.num 0, .num 1⟩, []⟩, .empty⟩

end SVF.AE.Branch
