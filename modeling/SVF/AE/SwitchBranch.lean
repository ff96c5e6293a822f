import SVF.AE.Branch

namespace SVF.AE.SwitchBranch

open NumericValue Intervals States AddressValue AbstractState Util.DefaultMaps Branch

abbrev BasicBlock := ℕ

structure SwitchInst (w : ℕ) where
  cond : NodeID
  defaultDest : BasicBlock
  cases : List (BitVec w × BasicBlock)
  distinct : (cases.map Prod.fst).Nodup

variable {w : ℕ}

/-- What the compiler's library documents of its lookup: the unique case value
of a successor, and null if the successor is not found, not unique or the
default. -/
def Documented (findCaseDest : SwitchInst w → BasicBlock → Option (BitVec w)) : Prop :=
  ∀ si bb c, findCaseDest si bb = some c ↔
    bb ≠ si.defaultDest ∧ (c, bb) ∈ si.cases ∧ ∀ p ∈ si.cases, p.2 = bb → p.1 = c

/-- The successors, the default first, and a block once for each of its cases. -/
def getNextInsts (si : SwitchInst w) : List BasicBlock := si.defaultDest :: si.cases.map Prod.snd

def getIntegerValue (intValue : BitVec w) : ℤ × ℕ :=
  if w ≤ 64 ∧ 1 ≤ w then (intValue.toInt, intValue.toNat) else (0, 0)

structure IntraCFGEdge where
  dst : BasicBlock
  conditionVar : Option NodeID
  branchCondVal : ℤ
  deriving DecidableEq

def addConditionalIntraEdge (outEdges : List IntraCFGEdge) (dst : BasicBlock) (branchCondVal : ℤ) :
    List IntraCFGEdge :=
  if outEdges.any (·.dst == dst) then outEdges else outEdges ++ [⟨dst, none, branchCondVal⟩]

section

variable (findCaseDest : SwitchInst w → BasicBlock → Option (BitVec w)) (si : SwitchInst w)

/-- The value computed for a successor: `-1` for the default, and for numbers
that are too wide. -/
def caseVal (succ : BasicBlock) : ℤ :=
  match findCaseDest si succ with
  | some condVal => if w ≤ 64 then (getIntegerValue condVal).1 else -1
  | none => -1

def processFunBody : List IntraCFGEdge :=
  (getNextInsts si).foldl
    (fun outEdges succ => addConditionalIntraEdge outEdges succ (caseVal findCaseDest si succ)) []

def branchSuccessors : List (BasicBlock × ℤ) :=
  (getNextInsts si).map fun succ =>
    (succ, match findCaseDest si succ with
      | some condVal => if w ≤ 64 then (getIntegerValue condVal).1 % 2 ^ 32 else -1
      | none => -1)

/-- The branch statement's successors, and the edges with their condition. -/
def visitSwitchInst : List (BasicBlock × ℤ) × List IntraCFGEdge :=
  (branchSuccessors findCaseDest si,
    (processFunBody findCaseDest si).map fun edge => { edge with conditionVar := some si.cond })

end

inductive SVFStmt
  | cmp (op0 op1 : NodeID) (predicate : Predicate)
  | load (rhs : NodeID)
  | copy (rhs : NodeID)
  | other

def SVFStmt.toInStmt : SVFStmt → InStmt
  | .load rhs => .load rhs
  | .copy rhs => .copy rhs
  | _ => .other

section

variable (getInEdges : NodeID → List SVFStmt)

def handleInStmt (var : NodeID) (value : ℤ) (new_es : AbstractState) : SVFStmt → AbstractState
  | .copy _ =>
      { new_es with
        varToAbsVal := new_es.varToAbsVal.modify var
          fun v => { v with interval := v.interval.meet_with (.ofInt value) } }
  | .load rhs =>
      if new_es.inVarToAddrsTable rhs then
        refineTargets (new_es.varToAbsVal.get rhs).addrs (new_es.varToAbsVal.get var).interval new_es
      else new_es
  | _ => new_es

/-- A returned state replaces the one passed in; it is left alone when the
branch is infeasible. -/
def isSwitchBranchFeasible (var : NodeID) (succ : ℤ) (as : AbstractState) : Bool × AbstractState :=
  let new_es : AbstractState := { as with
    varToAbsVal := as.varToAbsVal.modify var
      fun v => { v with interval := v.interval.meet_with (.ofInt succ) } }
  if (new_es.varToAbsVal.get var).interval.isBottom then (false, as)
  else (true, (getInEdges var).foldl (handleInStmt var succ) new_es)

/-- `none` is `abort`. -/
def isBranchFeasible (cmpVar : NodeID) (succ : ℤ) (as : AbstractState) : Option (Bool × AbstractState) :=
  match getInEdges cmpVar with
  | [] => some (isSwitchBranchFeasible getInEdges cmpVar succ as)
  | .cmp op0 op1 predicate :: _ =>
      isCmpBranchFeasible (fun var => (getInEdges var).map SVFStmt.toInStmt) ⟨op0, op1, cmpVar, predicate⟩
        succ as
  | _ => some (isSwitchBranchFeasible getInEdges cmpVar succ as)

/-- An edge without a condition passes the state on. -/
def edgeState (edge : IntraCFGEdge) (as : AbstractState) : Option (Bool × AbstractState) :=
  match edge.conditionVar with
  | some cmpVar => isBranchFeasible getInEdges cmpVar edge.branchCondVal as
  | none => some (true, as)

end

def SwitchInst.target (si : SwitchInst w) (v : BitVec w) : BasicBlock :=
  match si.cases.find? (·.1 == v) with
  | some p => p.2
  | none => si.defaultDest

/-- The 64-bit integer of a run-time state that an operand is held as: its
signed value, or for a truth value also `0` and `1`, as comparisons have it. -/
def Encodes (n : BitVec 64) (v : BitVec w) : Prop := n.toInt = v.toInt ∨ w = 1 ∧ n.toNat = v.toNat

instance (n : BitVec 64) (v : BitVec w) : Decidable (Encodes n v) :=
  inferInstanceAs (Decidable (_ ∨ _))

/-- In the run-time state `c` the operand's value `n` selects the destination.
An operand that a comparison defines has the comparison's result. -/
structure Selects (getInEdges : NodeID → List SVFStmt) (si : SwitchInst w) (c : ConcreteState)
    (n : BitVec 64) (dst : BasicBlock) : Prop where
  operand : c.vars si.cond = some (.int n)
  target : ∃ v, Encodes n v ∧ si.target v = dst
  cmp : ∀ op0 op1 predicate stmts, getInEdges si.cond = .cmp op0 op1 predicate :: stmts →
    ∃ x y b, Takes ⟨op0, op1, si.cond, predicate⟩ (ofBool b).toInt c x y b

def SwitchSound (findCaseDest : SwitchInst w → BasicBlock → Option (BitVec w))
    (getInEdges : NodeID → List SVFStmt) (si : SwitchInst w) (as : AbstractState) : Prop :=
  ∀ c n dst, Describes as c → Selects getInEdges si c n dst →
    ∃ edge ∈ (visitSwitchInst findCaseDest si).2, edge.dst = dst ∧
      ∃ as', edgeState getInEdges edge as = some (true, as') ∧ Describes as' c

/-- No other case and not the default goes to `dst`. -/
def SwitchInst.Alone (si : SwitchInst w) (v : BitVec w) (dst : BasicBlock) : Prop :=
  dst ≠ si.defaultDest ∧ ∀ p ∈ si.cases, p.2 = dst → p.1 = v

instance (si : SwitchInst w) (v : BitVec w) (dst : BasicBlock) : Decidable (si.Alone v dst) :=
  inferInstanceAs (Decidable (_ ∧ _))

def SwitchInst.sentinel (si : SwitchInst w) (v : BitVec w) (dst : BasicBlock) : ℤ :=
  if w ≤ 64 ∧ si.Alone v dst then v.toInt else -1

theorem mem_cases_of_target {si : SwitchInst w} {v : BitVec w} (h : si.target v ≠ si.defaultDest) :
    (v, si.target v) ∈ si.cases := by
  unfold SwitchInst.target at h ⊢
  cases hf : si.cases.find? (·.1 == v) with
  | none =>
      rw [hf] at h
      exact absurd rfl h
  | some p =>
      have hp : p.1 = v := by simpa using List.find?_some hf
      rw [← hp]
      exact List.mem_of_find?_eq_some hf

theorem target_mem_nextInsts (si : SwitchInst w) (v : BitVec w) : si.target v ∈ getNextInsts si := by
  by_cases h : si.target v = si.defaultDest
  · rw [h]
    exact List.mem_cons_self
  · exact List.mem_cons_of_mem _ (List.mem_map.mpr ⟨_, mem_cases_of_target h, rfl⟩)

theorem getIntegerValue_fst (h : w ≤ 64) (v : BitVec w) : (getIntegerValue v).1 = v.toInt := by
  unfold getIntegerValue
  split
  · rfl
  · have hw : w = 0 := by omega
    subst hw
    simp [BitVec.eq_nil v]

theorem caseVal_target {findCaseDest : SwitchInst w → BasicBlock → Option (BitVec w)}
    (hfind : Documented findCaseDest) (si : SwitchInst w) (v : BitVec w) :
    caseVal findCaseDest si (si.target v) = si.sentinel v (si.target v) := by
  unfold caseVal SwitchInst.sentinel
  by_cases halone : si.Alone v (si.target v)
  · have hf : findCaseDest si (si.target v) = some v :=
      (hfind si _ v).mpr ⟨halone.1, mem_cases_of_target halone.1, halone.2⟩
    rw [hf]
    by_cases hw : w ≤ 64
    · simp [hw, halone, getIntegerValue_fst hw]
    · simp [hw]
  · rw [if_neg (fun h => halone h.2)]
    cases hf : findCaseDest si (si.target v) with
    | none => rfl
    | some c =>
        obtain ⟨hne, -, hall⟩ := (hfind si _ c).mp hf
        have hv : v = c := hall _ (mem_cases_of_target hne) rfl
        exact absurd ⟨hne, hv ▸ hall⟩ halone

theorem mem_addConditionalIntraEdge {outEdges : List IntraCFGEdge} {dst : BasicBlock} {val : ℤ}
    {edge : IntraCFGEdge} (h : edge ∈ addConditionalIntraEdge outEdges dst val) :
    edge ∈ outEdges ∨ edge = ⟨dst, none, val⟩ := by
  unfold addConditionalIntraEdge at h
  split at h
  · exact .inl h
  · simpa using h

theorem exists_dst_addConditionalIntraEdge (outEdges : List IntraCFGEdge) (dst bb : BasicBlock) (val : ℤ) :
    (∃ edge ∈ addConditionalIntraEdge outEdges dst val, edge.dst = bb) ↔
      (∃ edge ∈ outEdges, edge.dst = bb) ∨ dst = bb := by
  unfold addConditionalIntraEdge
  split
  · rename_i hany
    refine ⟨.inl, ?_⟩
    rintro (h | rfl)
    · exact h
    · simpa using hany
  · simp [or_and_right, exists_or]

/-- Every edge holds the value computed for its destination, and every
successor has an edge. -/
theorem mem_processFunBody (findCaseDest : SwitchInst w → BasicBlock → Option (BitVec w))
    (si : SwitchInst w) (edge : IntraCFGEdge) :
    edge ∈ processFunBody findCaseDest si ↔
      edge.dst ∈ getNextInsts si ∧ edge = ⟨edge.dst, none, caseVal findCaseDest si edge.dst⟩ := by
  have hvalue : ∀ edge ∈ processFunBody findCaseDest si,
      edge = ⟨edge.dst, none, caseVal findCaseDest si edge.dst⟩ := by
    refine Util.Folds.foldl_invariant (I := fun outEdges : List IntraCFGEdge => ∀ edge ∈ outEdges,
      edge = ⟨edge.dst, none, caseVal findCaseDest si edge.dst⟩) ?_ (by simp)
    intro succ _ outEdges h edge hedge
    obtain hmem | rfl := mem_addConditionalIntraEdge hedge
    · exact h edge hmem
    · rfl
  have hdst : ∀ bb, (∃ edge ∈ processFunBody findCaseDest si, edge.dst = bb) ↔ bb ∈ getNextInsts si := by
    intro bb
    let HasEdge (bb : BasicBlock) (outEdges : List IntraCFGEdge) : Prop :=
      ∃ edge ∈ outEdges, edge.dst = bb
    have hround : ∀ succ ∈ getNextInsts si, ∀ outEdges bb,
        HasEdge bb (addConditionalIntraEdge outEdges succ (caseVal findCaseDest si succ)) ↔
          HasEdge bb outEdges ∨ succ = bb :=
      fun succ _ outEdges bb => exists_dst_addConditionalIntraEdge outEdges succ bb _
    have h : HasEdge bb (processFunBody findCaseDest si) ↔ _ := Util.Folds.foldl_collects hround [] bb
    simpa [HasEdge] using h
  constructor
  · intro hedge
    exact ⟨(hdst _).mp ⟨edge, hedge, rfl⟩, hvalue edge hedge⟩
  · rintro ⟨hnext, heq⟩
    obtain ⟨other, hother, hd⟩ := (hdst _).mpr hnext
    have hsame : other = edge := by
      rw [hvalue other hother, heq, hd]
    exact hsame ▸ hother

theorem mem_visitSwitchInst (findCaseDest : SwitchInst w → BasicBlock → Option (BitVec w))
    (si : SwitchInst w) (edge : IntraCFGEdge) :
    edge ∈ (visitSwitchInst findCaseDest si).2 ↔
      edge.dst ∈ getNextInsts si ∧ edge = ⟨edge.dst, some si.cond, caseVal findCaseDest si edge.dst⟩ := by
  rw [visitSwitchInst, List.mem_map]
  constructor
  · rintro ⟨edge, hedge, rfl⟩
    obtain ⟨hnext, heq⟩ := (mem_processFunBody findCaseDest si edge).mp hedge
    exact ⟨hnext, by rw [heq]⟩
  · rintro ⟨hnext, heq⟩
    exact ⟨⟨edge.dst, none, caseVal findCaseDest si edge.dst⟩,
      (mem_processFunBody findCaseDest si _).mpr ⟨hnext, rfl⟩, heq.symm⟩

theorem meet_ofInt {v : IntervalValue} {n : ℤ} (h : (v.meet_with (.ofInt n)).isBottom = false) :
    v.meet_with (.ofInt n) = .ofInt n := by
  unfold IntervalValue.meet_with at h ⊢
  split at h
  · contradiction
  · split at h
    · contradiction
    · rename_i hbot hle
      rw [if_neg hbot, if_neg hle]
      rw [Bool.not_eq_true', Bool.not_eq_false, BoundedInt.leq_iff] at hle
      rw [BoundedInt.max_eq_sup, BoundedInt.min_eq_inf] at hle ⊢
      have hlb : BoundedInt.num n ≤ v.lb ⊔ (IntervalValue.ofInt n).lb := le_sup_right
      have hub : v.ub ⊓ (IntervalValue.ofInt n).ub ≤ BoundedInt.num n := inf_le_right
      rw [le_antisymm (hle.trans hub) hlb, le_antisymm hub (hlb.trans hle)]
      rfl

theorem meet_ofInt_isBottom (v : IntervalValue) (n : ℤ) :
    (v.meet_with (.ofInt n)).isBottom = false ↔ n ∈ v.concretize := by
  have hmem : n ∈ (v.meet_with (.ofInt n)).concretize ↔ n ∈ v.concretize := by
    rw [concretize_meet, concretize_ofInt]
    simp
  constructor
  · intro h
    rw [← hmem, meet_ofInt h, concretize_ofInt]
    rfl
  · intro h
    exact isBottom_eq_false (hmem.mpr h)

theorem ofInt_meet_self (n : ℤ) : (IntervalValue.ofInt n).meet_with (.ofInt n) = .ofInt n := by
  refine meet_ofInt ((meet_ofInt_isBottom _ n).mpr ?_)
  rw [concretize_ofInt]
  rfl

def targets (stmts : List SVFStmt) (as : AbstractState) : AddressValue :=
  stmts.flatMap fun
    | .load rhs => (as.varToAbsVal.get rhs).addrs
    | _ => []

theorem refineTargets_congr (addrs : AddressValue) (range : IntervalValue) {as as' : AbstractState}
    (h : as.addrToAbsVal = as'.addrToAbsVal) :
    (refineTargets addrs range as).addrToAbsVal = (refineTargets addrs range as').addrToAbsVal := by
  refine Util.Folds.foldl_simulates (R := fun s s' : AbstractState => s.addrToAbsVal = s'.addrToAbsVal) ?_ h
  intro addr _ s s' hs
  have htable : s.inAddrToValTable (getInternalID addr) = s'.inAddrToValTable (getInternalID addr) := by
    rw [inAddrToValTable, inAddrToValTable, hs]
  dsimp only
  rw [htable]
  split
  · simp only [hs]
  · exact hs

theorem refineTargets_append (addrs addrs' : AddressValue) (range : IntervalValue) (as : AbstractState) :
    refineTargets (addrs ++ addrs') range as = refineTargets addrs' range (refineTargets addrs range as) :=
  List.foldl_append

/-- One statement: no variable changes its value, and the objects are those of
its own addresses. -/
theorem handleInStmt_values {var : NodeID} {value : ℤ} {new_es : AbstractState}
    (hvar : (new_es.varToAbsVal.get var).interval = .ofInt value) (stmt : SVFStmt) :
    SameValues (refineTargets (targets [stmt] new_es) (.ofInt value) new_es)
      (handleInStmt var value new_es stmt) := by
  rw [SameValues, refineTargets_vars]
  cases stmt with
  | copy rhs =>
      refine ⟨?_, rfl⟩
      funext k
      rw [handleInStmt, get_modify]
      split
      · rename_i hk
        rw [hk, hvar, ofInt_meet_self, ← hvar]
      · rfl
  | load rhs =>
      have haddrs : targets [.load rhs] new_es = (new_es.varToAbsVal.get rhs).addrs := List.append_nil _
      rw [haddrs, handleInStmt, hvar]
      by_cases htable : new_es.inVarToAddrsTable rhs = true
      · rw [if_pos htable, refineTargets_vars]
        exact ⟨rfl, rfl⟩
      · have hnil := addrs_of_table new_es rhs
        rw [if_neg htable] at hnil ⊢
        rw [← hnil]
        exact ⟨rfl, rfl⟩
  | cmp op0 op1 predicate => exact ⟨rfl, rfl⟩
  | other => exact ⟨rfl, rfl⟩

theorem targets_congr (stmts : List SVFStmt) {as as' : AbstractState}
    (h : as'.varToAbsVal.get = as.varToAbsVal.get) : targets stmts as' = targets stmts as := by
  simp only [targets, h]

theorem foldl_handleInStmt {var : NodeID} {value : ℤ} (stmts : List SVFStmt) {new_es : AbstractState}
    (hvar : (new_es.varToAbsVal.get var).interval = .ofInt value) :
    SameValues (refineTargets (targets stmts new_es) (.ofInt value) new_es)
      (stmts.foldl (handleInStmt var value) new_es) := by
  induction stmts generalizing new_es with
  | nil => exact ⟨rfl, rfl⟩
  | cons stmt stmts ih =>
      obtain ⟨hvars, hmem⟩ := handleInStmt_values hvar stmt
      rw [refineTargets_vars] at hvars
      have hvar' : ((handleInStmt var value new_es stmt).varToAbsVal.get var).interval = .ofInt value := by
        rw [hvars, hvar]
      obtain ⟨hvars', hmem'⟩ := ih hvar'
      have hsplit : targets (stmt :: stmts) new_es = targets [stmt] new_es ++ targets stmts new_es := by
        simp [targets]
      rw [refineTargets_vars] at hvars'
      rw [targets_congr stmts hvars] at hmem'
      rw [SameValues, refineTargets_vars, hsplit, refineTargets_append, List.foldl_cons]
      exact ⟨hvars'.trans hvars, hmem'.trans (refineTargets_congr _ _ hmem)⟩

/-- The refinement of a switch: of the operand, and of the objects at the
addresses it is loaded from. -/
def switchRefinement (getInEdges : NodeID → List SVFStmt) (var : NodeID) (succ : ℤ) (as : AbstractState) :
    Refinement :=
  ⟨var, .ofInt succ, targets (getInEdges var) as⟩

theorem isSwitchBranchFeasible_infeasible (getInEdges : NodeID → List SVFStmt) {var : NodeID} {succ : ℤ}
    {as : AbstractState} (h : succ ∉ (as.varToAbsVal.get var).interval.concretize) :
    isSwitchBranchFeasible getInEdges var succ as = (false, as) := by
  have hbot := mt (meet_ofInt_isBottom (as.varToAbsVal.get var).interval succ).mp h
  rw [Bool.not_eq_false] at hbot
  simp [isSwitchBranchFeasible, get_modify, hbot]

/-- On a value of the operand's interval the branch is feasible, and the new
state describes what the old one and the refinement allow. -/
theorem isSwitchBranchFeasible_refines (getInEdges : NodeID → List SVFStmt) {var : NodeID} {succ : ℤ}
    {as : AbstractState} (h : succ ∈ (as.varToAbsVal.get var).interval.concretize) :
    ∃ as', isSwitchBranchFeasible getInEdges var succ as = (true, as') ∧
      ∀ c, Describes as' c ↔
        Describes as c ∧ (switchRefinement getInEdges var succ as).Allows as c := by
  have hbot := (meet_ofInt_isBottom _ _).mpr h
  let new_es : AbstractState := { as with
    varToAbsVal := as.varToAbsVal.modify var
      fun v => { v with interval := v.interval.meet_with (.ofInt succ) } }
  have hget : new_es.varToAbsVal.get var =
      { as.varToAbsVal.get var with interval := (as.varToAbsVal.get var).interval.meet_with (.ofInt succ) } := by
    simp [new_es, get_modify]
  have hvar : (new_es.varToAbsVal.get var).interval = .ofInt succ := by
    rw [hget]
    exact meet_ofInt hbot
  have htargets : targets (getInEdges var) new_es = targets (getInEdges var) as := by
    have haddrs : ∀ rhs, (new_es.varToAbsVal.get rhs).addrs = (as.varToAbsVal.get rhs).addrs := by
      intro rhs
      simp only [new_es, get_modify]
      split
      · rename_i hk
        rw [hk]
      · rfl
    simp only [targets, haddrs]
  refine ⟨(getInEdges var).foldl (handleInStmt var succ) new_es, ?_, fun c => ?_⟩
  · have hfeasible : (new_es.varToAbsVal.get var).interval.isBottom = false := by
      rw [hget]
      exact hbot
    change (if (new_es.varToAbsVal.get var).interval.isBottom = true then _ else _) = _
    rw [hfeasible]
    rfl
  · have hsame := foldl_handleInStmt (getInEdges var) hvar
    rw [hsame.describes, htargets]
    have has : SameValues as as := ⟨rfl, rfl⟩
    exact describes_refined has (switchRefinement getInEdges var succ as) c

def definingCmp (getInEdges : NodeID → List SVFStmt) (cond : NodeID) : Option CmpStmt :=
  match getInEdges cond with
  | .cmp op0 op1 predicate :: _ => some ⟨op0, op1, cond, predicate⟩
  | _ => none

def CmpKeeps (getInEdges : NodeID → List SVFStmt) (si : SwitchInst w) (as : AbstractState)
    (cmpStmt : CmpStmt) : Prop :=
  ∀ x y b v, Possible cmpStmt (ofBool b).toInt as x y b → Encodes (ofBool b) v →
    as.inVarToAddrsTable cmpStmt.op0 = true ∨ as.inVarToAddrsTable cmpStmt.op1 = true ∨
      si.sentinel v (si.target v) ∈ (as.varToAbsVal.get cmpStmt.res).interval.concretize ∧
        ∀ r, refinement (fun var => (getInEdges var).map SVFStmt.toInStmt) cmpStmt
          (si.sentinel v (si.target v)) as = some r → r.Keeps as (r.value cmpStmt x y)

/-- The condition for any other operand: the number that stands for the
destination is its value, and no object it may be loaded from holds another. -/
def OperandKeeps (getInEdges : NodeID → List SVFStmt) (si : SwitchInst w) (as : AbstractState) : Prop :=
  ∀ n v, (as.varToAbsVal.get si.cond).Describes (.int n) → Encodes n v →
    n.toInt = si.sentinel v (si.target v) ∧
      ∀ a ∈ targets (getInEdges si.cond) as, as.inAddrToValTable (getInternalID a) = true → ∀ u,
        (as.addrToAbsVal.get (getInternalID a)).Describes u → u = .int n

def SwitchKeeps (getInEdges : NodeID → List SVFStmt) (si : SwitchInst w) (as : AbstractState) : Prop :=
  match definingCmp getInEdges si.cond with
  | some cmpStmt => CmpKeeps getInEdges si as cmpStmt
  | none => OperandKeeps getInEdges si as

theorem sound_iff_edge {findCaseDest : SwitchInst w → BasicBlock → Option (BitVec w)}
    (hfind : Documented findCaseDest) (getInEdges : NodeID → List SVFStmt) (si : SwitchInst w)
    (as : AbstractState) :
    SwitchSound findCaseDest getInEdges si as ↔
      ∀ c n v, Describes as c → Encodes n v → Selects getInEdges si c n (si.target v) →
        ∃ as', isBranchFeasible getInEdges si.cond (si.sentinel v (si.target v)) as = some (true, as') ∧
          Describes as' c := by
  have hedge : ∀ v edge, edge ∈ (visitSwitchInst findCaseDest si).2 → edge.dst = si.target v →
      edgeState getInEdges edge as =
        isBranchFeasible getInEdges si.cond (si.sentinel v (si.target v)) as := by
    intro v edge hmem hdst
    obtain ⟨-, heq⟩ := (mem_visitSwitchInst findCaseDest si edge).mp hmem
    rw [heq, hdst, caseVal_target hfind]
    rfl
  constructor
  · intro hsound c n v hc hn hsel
    obtain ⟨edge, hmem, hdst, as', hfeasible, hdesc⟩ := hsound c n _ hc hsel
    exact ⟨as', hedge v edge hmem hdst ▸ hfeasible, hdesc⟩
  · intro h c n dst hc hsel
    obtain ⟨v, hn, rfl⟩ := hsel.target
    obtain ⟨as', hfeasible, hdesc⟩ := h c n v hc hn hsel
    have hmem : (⟨si.target v, some si.cond, caseVal findCaseDest si (si.target v)⟩ : IntraCFGEdge) ∈
        (visitSwitchInst findCaseDest si).2 :=
      (mem_visitSwitchInst findCaseDest si _).mpr ⟨target_mem_nextInsts si v, rfl⟩
    exact ⟨_, hmem, rfl, as', (hedge v _ hmem rfl).trans hfeasible, hdesc⟩

theorem isBranchFeasible_cmp {getInEdges : NodeID → List SVFStmt} {cond : NodeID} {cmpStmt : CmpStmt}
    (h : definingCmp getInEdges cond = some cmpStmt) (succ : ℤ) (as : AbstractState) :
    cmpStmt.res = cond ∧ isBranchFeasible getInEdges cond succ as =
      isCmpBranchFeasible (fun var => (getInEdges var).map SVFStmt.toInStmt) cmpStmt succ as := by
  unfold definingCmp at h
  unfold isBranchFeasible
  split at h
  · rename_i heq
    cases h
    rw [heq]
    exact ⟨rfl, rfl⟩
  · contradiction

theorem isBranchFeasible_other {getInEdges : NodeID → List SVFStmt} {cond : NodeID}
    (h : definingCmp getInEdges cond = none) (succ : ℤ) (as : AbstractState) :
    isBranchFeasible getInEdges cond succ as =
      some (isSwitchBranchFeasible getInEdges cond succ as) := by
  unfold definingCmp at h
  unfold isBranchFeasible
  split at h
  · contradiction
  · rename_i hne
    split
    · rfl
    · rename_i heq
      exact absurd heq (hne _ _ _ _)
    · rfl

theorem selects_cmp_iff {getInEdges : NodeID → List SVFStmt} {si : SwitchInst w} {cmpStmt : CmpStmt}
    (h : definingCmp getInEdges si.cond = some cmpStmt) (c : ConcreteState) (n : BitVec 64)
    (dst : BasicBlock) :
    Selects getInEdges si c n dst ↔ (∃ v, Encodes n v ∧ si.target v = dst) ∧
      ∃ x y b, n = ofBool b ∧ Takes cmpStmt (ofBool b).toInt c x y b := by
  unfold definingCmp at h
  split at h
  · rename_i op0 op1 predicate stmts heq
    cases h
    constructor
    · rintro ⟨hop, htarget, hcmp⟩
      obtain ⟨x, y, b, ht⟩ := hcmp op0 op1 predicate stmts heq
      have hres := ht.res
      rw [hop] at hres
      cases hres
      exact ⟨htarget, x, y, b, rfl, ht⟩
    · rintro ⟨htarget, x, y, b, rfl, ht⟩
      refine ⟨ht.res, htarget, fun op0' op1' predicate' stmts' heq' => ?_⟩
      cases heq.symm.trans heq'
      exact ⟨x, y, b, ht⟩
  · contradiction

theorem selects_other_iff {getInEdges : NodeID → List SVFStmt} {si : SwitchInst w}
    (h : definingCmp getInEdges si.cond = none) (c : ConcreteState) (n : BitVec 64) (dst : BasicBlock) :
    Selects getInEdges si c n dst ↔
      c.vars si.cond = some (.int n) ∧ ∃ v, Encodes n v ∧ si.target v = dst := by
  constructor
  · rintro ⟨hop, htarget, -⟩
    exact ⟨hop, htarget⟩
  · rintro ⟨hop, htarget⟩
    refine ⟨hop, htarget, fun op0 op1 predicate stmts heq => ?_⟩
    rw [definingCmp, heq] at h
    contradiction

/-- The branch of a comparison, also on a number its result is never. -/
theorem isCmpBranchFeasible_true {getInEdges : NodeID → List InStmt} {cmpStmt : CmpStmt} {succ : ℤ}
    {as as' : AbstractState} (h : isCmpBranchFeasible getInEdges cmpStmt succ as = some (true, as')) :
    as.inVarToAddrsTable cmpStmt.op0 = true ∨ as.inVarToAddrsTable cmpStmt.op1 = true ∨
      succ ∈ (as.varToAbsVal.get cmpStmt.res).interval.concretize := by
  by_contra hne
  rw [not_or, not_or] at hne
  obtain ⟨h0, h1, hres⟩ := hne
  rw [Bool.not_eq_true] at h0 h1
  have hbot := mt (meet_ofInt_isBottom (as.varToAbsVal.get cmpStmt.res).interval succ).mp hres
  rw [Bool.not_eq_false] at hbot
  simp [isCmpBranchFeasible, h0, h1, getVar, hbot] at h

theorem isCmpBranchFeasible_skip {getInEdges : NodeID → List InStmt} {cmpStmt : CmpStmt} {succ : ℤ}
    {as : AbstractState}
    (h : as.inVarToAddrsTable cmpStmt.op0 = true ∨ as.inVarToAddrsTable cmpStmt.op1 = true) :
    isCmpBranchFeasible getInEdges cmpStmt succ as = some (true, as) := by
  rw [← Bool.or_eq_true] at h
  simp [isCmpBranchFeasible, h]

theorem describes_ofInt_iff (n : BitVec 64) (u : Value) :
    (⟨.ofInt n.toInt, []⟩ : AbstractValue).Describes u ↔ u = .int n := by
  cases u with
  | int m =>
      change m.toInt ∈ (IntervalValue.ofInt n.toInt).concretize ↔ _
      rw [concretize_ofInt, Set.mem_singleton_iff, BitVec.toInt_inj, Value.int.injEq]
  | addr a => simp [AbstractValue.Describes]

theorem describes_single {as : AbstractState} {var : NodeID} {n : BitVec 64}
    (hn : (as.varToAbsVal.get var).Describes (.int n)) {mem : NodeID → Option Value}
    (hmem : DescribesAll as.addrToAbsVal mem) :
    Describes as ⟨fun k => if k = var then some (.int n) else none, mem⟩ := by
  refine ⟨fun k u hu => ?_, hmem⟩
  obtain ⟨rfl, rfl⟩ : k = var ∧ Value.int n = u := by simpa using hu
  exact hn

theorem describesAll_single {m : AbsValMap} {k : NodeID} {u : Value} (h : (m.get k).Describes u) :
    DescribesAll m (fun j => if j = k then some u else none) := by
  intro j v hv
  obtain ⟨rfl, rfl⟩ : j = k ∧ u = v := by simpa using hv
  exact h

theorem operandKeeps_of_sound {findCaseDest : SwitchInst w → BasicBlock → Option (BitVec w)}
    (hfind : Documented findCaseDest) {getInEdges : NodeID → List SVFStmt} {si : SwitchInst w}
    {as : AbstractState} (hcmp : definingCmp getInEdges si.cond = none)
    (hsound : SwitchSound findCaseDest getInEdges si as) : OperandKeeps getInEdges si as := by
  rw [sound_iff_edge hfind] at hsound
  intro n v hn henc
  have hallows : ∀ mem, DescribesAll as.addrToAbsVal mem →
      (switchRefinement getInEdges si.cond (si.sentinel v (si.target v)) as).Allows as
        ⟨fun k => if k = si.cond then some (.int n) else none, mem⟩ := by
    intro mem hmem
    have hc := describes_single hn hmem
    obtain ⟨as', hfeasible, hdesc⟩ := hsound _ n v hc henc
      ((selects_other_iff hcmp _ _ _).mpr ⟨if_pos rfl, v, henc, rfl⟩)
    rw [isBranchFeasible_other hcmp, Option.some_inj] at hfeasible
    by_cases hval : si.sentinel v (si.target v) ∈ (as.varToAbsVal.get si.cond).interval.concretize
    · obtain ⟨as'', hfeasible', hiff⟩ := isSwitchBranchFeasible_refines getInEdges hval
      cases hfeasible'.symm.trans hfeasible
      exact ((hiff _).mp hdesc).2
    · rw [isSwitchBranchFeasible_infeasible getInEdges hval] at hfeasible
      cases hfeasible
  have hvalue : n.toInt = si.sentinel v (si.target v) := by
    have hmem := (hallows (fun _ => none) (fun _ _ h => by contradiction)).1 n (if_pos rfl)
    rwa [switchRefinement, concretize_ofInt] at hmem
  refine ⟨hvalue, fun a ha htable u hu => ?_⟩
  have hobj := (hallows _ (describesAll_single hu)).2 a ha htable u (if_pos rfl)
  rwa [switchRefinement, ← hvalue, describes_ofInt_iff] at hobj

theorem sound_of_operandKeeps {findCaseDest : SwitchInst w → BasicBlock → Option (BitVec w)}
    (hfind : Documented findCaseDest) {getInEdges : NodeID → List SVFStmt} {si : SwitchInst w}
    {as : AbstractState} (hcmp : definingCmp getInEdges si.cond = none)
    (hkeeps : OperandKeeps getInEdges si as) : SwitchSound findCaseDest getInEdges si as := by
  rw [sound_iff_edge hfind]
  intro c n v hc henc hsel
  have hop := ((selects_other_iff hcmp c n _).mp hsel).1
  have hn := hc.vars _ _ hop
  obtain ⟨hvalue, htargets⟩ := hkeeps n v hn henc
  have hval : si.sentinel v (si.target v) ∈ (as.varToAbsVal.get si.cond).interval.concretize :=
    hvalue ▸ hn
  obtain ⟨as', hfeasible, hiff⟩ := isSwitchBranchFeasible_refines getInEdges hval
  refine ⟨as', by rw [isBranchFeasible_other hcmp, hfeasible], (hiff c).mpr ⟨hc, fun m hm => ?_, ?_⟩⟩
  · change c.vars si.cond = _ at hm
    cases hop.symm.trans hm
    rw [switchRefinement, concretize_ofInt]
    exact hvalue
  · intro a ha htable u hu
    rw [switchRefinement, ← hvalue, describes_ofInt_iff]
    exact htargets a ha htable u (hc.mem _ u hu)

theorem cmpKeeps_of_sound {findCaseDest : SwitchInst w → BasicBlock → Option (BitVec w)}
    (hfind : Documented findCaseDest) {getInEdges : NodeID → List SVFStmt} {si : SwitchInst w}
    {as : AbstractState} {cmpStmt : CmpStmt} (hcmp : definingCmp getInEdges si.cond = some cmpStmt)
    (hsound : SwitchSound findCaseDest getInEdges si as) : CmpKeeps getInEdges si as cmpStmt := by
  rw [sound_iff_edge hfind] at hsound
  intro x y b v hpossible henc
  have hstate : ∀ mem, DescribesAll as.addrToAbsVal mem → ∃ c as', c.mem = mem ∧
      Takes cmpStmt (ofBool b).toInt c x y b ∧ Describes as' c ∧
      isCmpBranchFeasible (fun var => (getInEdges var).map SVFStmt.toInStmt) cmpStmt
        (si.sentinel v (si.target v)) as = some (true, as') := by
    intro mem hmem
    obtain ⟨c, hcmem, hc, ht⟩ := exists_takes hpossible hmem
    obtain ⟨as', hfeasible, hdesc⟩ := hsound c _ v hc henc
      ((selects_cmp_iff hcmp _ _ _).mpr ⟨⟨v, henc, rfl⟩, x, y, b, rfl, ht⟩)
    rw [(isBranchFeasible_cmp hcmp _ _).2] at hfeasible
    exact ⟨c, as', hcmem, ht, hdesc, hfeasible⟩
  obtain ⟨c, as', -, ht, hdesc, hfeasible⟩ := hstate (fun _ => none) (fun _ _ h => by contradiction)
  rcases isCmpBranchFeasible_true hfeasible with h0 | h1 | hres
  · exact .inl h0
  · exact .inr (.inl h1)
  refine .inr (.inr ⟨hres, fun r hr => ?_⟩)
  obtain ⟨as'', hfeasible', hiff⟩ :=
    isCmpBranchFeasible_refines (fun var => (getInEdges var).map SVFStmt.toInStmt) ⟨x, y, b, ht.eval⟩ hres
  have hallows : ∀ c as', Describes as' c →
      isCmpBranchFeasible (fun var => (getInEdges var).map SVFStmt.toInStmt) cmpStmt
        (si.sentinel v (si.target v)) as = some (true, as') → r.Allows as c := by
    intro c as' hdesc hfeasible
    cases hfeasible'.symm.trans hfeasible
    exact ((hiff c).mp hdesc).2 r hr
  refine ⟨(hallows c as' hdesc hfeasible).1 _ (takes_value hr ht), fun a ha htable u hu => ?_⟩
  obtain ⟨c, as', hcmem, -, hdesc, hfeasible⟩ := hstate _ (describesAll_single hu)
  exact (hallows c as' hdesc hfeasible).2 a ha htable u (by rw [hcmem]; exact if_pos rfl)

theorem sound_of_cmpKeeps {findCaseDest : SwitchInst w → BasicBlock → Option (BitVec w)}
    (hfind : Documented findCaseDest) {getInEdges : NodeID → List SVFStmt} {si : SwitchInst w}
    {as : AbstractState} {cmpStmt : CmpStmt} (hcmp : definingCmp getInEdges si.cond = some cmpStmt)
    (hkeeps : CmpKeeps getInEdges si as cmpStmt) : SwitchSound findCaseDest getInEdges si as := by
  rw [sound_iff_edge hfind]
  intro c n v hc henc hsel
  obtain ⟨-, x, y, b, rfl, ht⟩ := (selects_cmp_iff hcmp c n _).mp hsel
  rw [(isBranchFeasible_cmp hcmp _ _).2]
  have hskip : as.inVarToAddrsTable cmpStmt.op0 = true ∨ as.inVarToAddrsTable cmpStmt.op1 = true →
      ∃ as', isCmpBranchFeasible (fun var => (getInEdges var).map SVFStmt.toInStmt) cmpStmt
        (si.sentinel v (si.target v)) as = some (true, as') ∧ Describes as' c :=
    fun h => ⟨as, isCmpBranchFeasible_skip h, hc⟩
  rcases hkeeps x y b v (takes_possible hc ht) henc with h0 | h1 | ⟨hres, hkeep⟩
  · exact hskip (.inl h0)
  · exact hskip (.inr h1)
  obtain ⟨as', hfeasible, hiff⟩ :=
    isCmpBranchFeasible_refines (fun var => (getInEdges var).map SVFStmt.toInStmt) ⟨x, y, b, ht.eval⟩ hres
  refine ⟨as', hfeasible, (hiff c).mpr ⟨hc, fun r hr => ?_⟩⟩
  obtain ⟨hvalue, htargets⟩ := hkeep r hr
  refine ⟨fun m hm => ?_, fun a ha htable u hu => htargets a ha htable u (hc.mem _ u hu)⟩
  cases (takes_value hr ht).symm.trans hm
  exact hvalue

/-- The edges of a switch and the interpreter keep every run-time state exactly
when the number that stands for each destination that can be selected is the
operand's value, and nothing that is refined along with it holds another. -/
theorem switchSound_iff {findCaseDest : SwitchInst w → BasicBlock → Option (BitVec w)}
    (hfind : Documented findCaseDest) (getInEdges : NodeID → List SVFStmt) (si : SwitchInst w)
    (as : AbstractState) :
    SwitchSound findCaseDest getInEdges si as ↔ SwitchKeeps getInEdges si as := by
  unfold SwitchKeeps
  cases hcmp : definingCmp getInEdges si.cond with
  | none => exact ⟨operandKeeps_of_sound hfind hcmp, sound_of_operandKeeps hfind hcmp⟩
  | some cmpStmt => exact ⟨cmpKeeps_of_sound hfind hcmp, sound_of_cmpKeeps hfind hcmp⟩

def scanCases (si : SwitchInst w) (bb : BasicBlock) : Option (BitVec w) :=
  if bb = si.defaultDest then none
  else match si.cases.filter (·.2 == bb) with
    | [p] => some p.1
    | _ => none

theorem scanCases_documented : Documented (scanCases (w := w)) := by
  intro si bb c
  have hcases : ∀ l : List (BitVec w × BasicBlock), (l.map Prod.fst).Nodup →
      (l.filter (·.2 == bb) = [(c, bb)] ↔ (c, bb) ∈ l ∧ ∀ p ∈ l, p.2 = bb → p.1 = c) := by
    intro l hl
    constructor
    · intro heq
      have hmem : ∀ p, p ∈ l ∧ p.2 = bb ↔ p = (c, bb) := by
        intro p
        have hp : p ∈ l.filter (·.2 == bb) ↔ p = (c, bb) := by rw [heq, List.mem_singleton]
        rwa [List.mem_filter, beq_iff_eq] at hp
      exact ⟨((hmem _).mpr rfl).1, fun p hp hbb => congrArg Prod.fst ((hmem p).mp ⟨hp, hbb⟩)⟩
    · rintro ⟨hc, hall⟩
      refine (List.perm_singleton.mp ?_)
      refine (List.perm_ext_iff_of_nodup ((List.Nodup.of_map _ hl).filter _) (List.nodup_singleton _)).mpr ?_
      intro p
      rw [List.mem_filter, beq_iff_eq, List.mem_singleton]
      constructor
      · rintro ⟨hp, hbb⟩
        exact Prod.ext (hall p hp hbb) hbb
      · rintro rfl
        exact ⟨hc, rfl⟩
  unfold scanCases
  split
  · rename_i hdefault
    simp [hdefault]
  · rename_i hdefault
    rw [and_iff_right hdefault, ← hcases si.cases si.distinct]
    split
    · rename_i p heq
      have hbb : p.2 = bb := by
        have hp : p ∈ si.cases.filter (·.2 == bb) := heq ▸ List.mem_singleton_self p
        simpa using (List.mem_filter.mp hp).2
      rw [heq, Option.some_inj, List.singleton_inj]
      constructor
      · rintro rfl
        exact Prod.ext rfl hbb
      · rintro rfl
        rfl
    · rename_i hne
      constructor
      · intro h
        contradiction
      · intro h
        exact absurd h (hne _)

def oneCase : SwitchInst 32 := ⟨0#32, 0, [(1#32, 1)], by simp⟩

def smallRange : AbstractState := ⟨DefaultMap.empty.set 0#32 ⟨⟨.num 0, .num 5⟩, []⟩, .empty⟩

theorem switchSound_iff_small : SwitchSound scanCases (fun _ => []) oneCase smallRange ↔
    SwitchKeeps (fun _ => []) oneCase smallRange :=
  switchSound_iff scanCases_documented _ _ _

/-- The value `5` goes to the default, whose edge is infeasible. -/
theorem default_infeasible : ¬ ∀ (findCaseDest : SwitchInst 32 → BasicBlock → Option (BitVec 32))
    (getInEdges : NodeID → List SVFStmt) (si : SwitchInst 32) (as : AbstractState),
    Documented findCaseDest → SwitchSound findCaseDest getInEdges si as := by
  intro h
  have hsound := h scanCases (fun _ => []) oneCase smallRange scanCases_documented
  have hkeeps := operandKeeps_of_sound scanCases_documented rfl hsound 5 5 (by decide) (by decide)
  exact absurd hkeeps.1 (by decide)

end SVF.AE.SwitchBranch
