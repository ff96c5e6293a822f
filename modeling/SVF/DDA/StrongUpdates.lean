import SVF.Util.ContextConds

namespace SVF.DDA.StrongUpdates

open Util.ContextConds

section

inductive ObjKind
  | stack
  | global
  | heap
  | function
  | constant
  | dummy

structure BaseObjVar where
  kind : ObjKind
  icfgNode : Option NodeID
  isArray : Bool
  maxFieldOffsetLimit : ℕ

inductive SVFVar
  | baseObj (obj : BaseObjVar)
  | gepObj (base : NodeID)
  | dummyVal
  | val

/-- `anderInCycle` is what Andersen's analysis finds of the call graph. -/
structure Program where
  getGNode : NodeID → SVFVar
  getFun : NodeID → Option NodeID
  isInLoop : NodeID → Bool
  isInCycle : NodeID → Bool
  anderInCycle : NodeID → Bool

structure CxtVar where
  cond : ContextCond
  id : NodeID

abbrev CxtPtSet := List CxtVar

variable (P : Program)

def BaseObjVar.isFieldInsensitive (obj : BaseObjVar) : Bool := obj.maxFieldOffsetLimit == 0

def asBaseObj : SVFVar → Option BaseObjVar
  | .baseObj obj => some obj
  | .gepObj _ => none
  | .dummyVal => none
  | .val => none

def getBaseObject (id : NodeID) : Option BaseObjVar :=
  match P.getGNode id with
  | .gepObj base => asBaseObj (P.getGNode base)
  | node => asBaseObj node

def isHeap : ObjKind → Bool
  | .heap => true
  | .stack | .global | .function | .constant | .dummy => false

def isDummy : ObjKind → Bool
  | .dummy => true
  | .stack | .global | .heap | .function | .constant => false

def isStack : ObjKind → Bool
  | .stack => true
  | .global | .heap | .function | .constant | .dummy => false

def isDummyNode : SVFVar → Bool
  | .baseObj obj => isDummy obj.kind
  | .gepObj _ => false
  | .dummyVal => true
  | .val => false

def isDummyObj : SVFVar → Bool
  | .baseObj obj => isDummy obj.kind
  | .gepObj _ => false
  | .dummyVal => false
  | .val => false

/-- `none` where an assertion fails. -/
def isHeapCondMemObj (var : CxtVar) : Option Bool :=
  (getBaseObject P var.id).bind fun obj =>
    if isHeap obj.kind || isDummy obj.kind then
      if !isDummy obj.kind then
        match P.getGNode var.id with
        | .gepObj base => if isDummyObj (P.getGNode base) then some true else none
        | pnode => if isDummyNode pnode then some true else none
      else
        match obj.icfgNode with
        | none => some false
        | some node => (P.getFun node).map fun svfFun =>
            P.anderInCycle svfFun || !var.cond.concreteCxt || P.isInLoop node
    else some false

def isArrayCondMemObj (var : CxtVar) : Option Bool := (getBaseObject P var.id).map BaseObjVar.isArray

def isFieldInsenCondMemObj (var : CxtVar) : Option Bool :=
  (getBaseObject P var.id).map BaseObjVar.isFieldInsensitive

def isLocalCVarInRecursion (var : CxtVar) : Option Bool :=
  (getBaseObject P var.id).map fun baseObj =>
    isStack baseObj.kind && (baseObj.icfgNode.bind P.getFun).any P.isInCycle

def isStrongUpdate : CxtPtSet → Option Bool
  | [var] => do
      if ← isHeapCondMemObj P var then return false
      if ← isArrayCondMemObj P var then return false
      if ← isFieldInsenCondMemObj P var then return false
      if ← isLocalCVarInRecursion P var then return false
      return true
  | _ => some false

/-- What `handleOutOfBudgetDpm` caches: the flow-sensitive points-to set in the empty context. -/
def outOfBudgetPts (flowPts : List NodeID) : CxtPtSet := flowPts.map fun id => ⟨ContextCond.new, id⟩

end

section

variable (P : Program)

/-- No object is made there again while an earlier one is in use. -/
def OneAtATime (obj : BaseObjVar) : Prop :=
  ∀ node, obj.icfgNode = some node → P.isInLoop node = false ∧
    ∀ svfFun, P.getFun node = some svfFun → P.isInCycle svfFun = false

/-- A dummy object stands for memory that is not known. -/
def SingleLocation (var : CxtVar) : Prop :=
  ∃ obj, getBaseObject P var.id = some obj ∧ obj.isArray = false ∧ obj.isFieldInsensitive = false ∧
    match obj.kind with
    | .stack => OneAtATime P obj
    | .heap => OneAtATime P obj ∧ var.cond.concreteCxt = true
    | .global => True
    | .function => True
    | .constant => True
    | .dummy => False

/-- The decision is made, and it is for a set with a single location only. -/
def Safe (dstCPSet : CxtPtSet) : Prop :=
  ∃ decision, isStrongUpdate P dstCPSet = some decision ∧
    (decision = true → ∃ var, dstCPSet = [var] ∧ SingleLocation P var)

end

section

variable {P : Program} {var : CxtVar} {obj : BaseObjVar}

def Made (obj : BaseObjVar) : Prop := isDummy obj.kind = true → obj.icfgNode = none

def InRecursion (P : Program) (obj : BaseObjVar) : Bool := (obj.icfgNode.bind P.getFun).any P.isInCycle

theorem getBaseObject_gepObj {base : NodeID} (hnode : P.getGNode var.id = .gepObj base)
    (h : getBaseObject P var.id = some obj) : P.getGNode base = .baseObj obj := by
  rw [getBaseObject, hnode] at h
  dsimp only at h
  cases hbase : P.getGNode base with
  | baseObj o =>
      rw [hbase] at h
      rw [Option.some.inj h]
  | gepObj b | dummyVal | val =>
      rw [hbase] at h
      exact absurd h.symm (Option.some_ne_none obj)

theorem getBaseObject_baseObj {o : BaseObjVar} (hnode : P.getGNode var.id = .baseObj o)
    (h : getBaseObject P var.id = some obj) : o = obj := by
  rw [getBaseObject, hnode] at h
  exact Option.some.inj h

/-- The assertions want a dummy object where the object is none. -/
theorem isHeapCondMemObj_heap (h : getBaseObject P var.id = some obj) (hheap : isHeap obj.kind = true) :
    isHeapCondMemObj P var = none := by
  have hdummy : isDummy obj.kind = false := by
    cases hkind : obj.kind with
    | heap => rfl
    | stack | global | function | constant | dummy =>
        rw [hkind] at hheap
        exact absurd hheap Bool.false_ne_true
  rw [isHeapCondMemObj, h, Option.bind_some, hheap, hdummy, if_pos (by decide), if_pos (by decide)]
  cases hnode : P.getGNode var.id with
  | gepObj base =>
      dsimp only
      rw [getBaseObject_gepObj hnode h, isDummyObj, hdummy]
      rfl
  | baseObj o =>
      dsimp only
      rw [getBaseObject_baseObj hnode h, isDummyNode, hdummy]
      rfl
  | dummyVal | val =>
      rw [getBaseObject, hnode] at h
      exact absurd h.symm (Option.some_ne_none obj)

theorem isHeapCondMemObj_other (h : getBaseObject P var.id = some obj) (hheap : isHeap obj.kind = false)
    (hmade : Made obj) : isHeapCondMemObj P var = some false := by
  rw [isHeapCondMemObj, h, Option.bind_some, hheap, Bool.false_or]
  cases hdummy : isDummy obj.kind with
  | false => rfl
  | true =>
      rw [if_pos rfl, if_neg (by decide), hmade hdummy]

theorem isStrongUpdate_heap (h : getBaseObject P var.id = some obj) (hheap : isHeap obj.kind = true) :
    isStrongUpdate P [var] = none := by
  rw [isStrongUpdate, isHeapCondMemObj_heap h hheap]
  rfl

theorem isStrongUpdate_other (h : getBaseObject P var.id = some obj) (hheap : isHeap obj.kind = false)
    (hmade : Made obj) : isStrongUpdate P [var] =
      some (!obj.isArray && !obj.isFieldInsensitive && !(isStack obj.kind && InRecursion P obj)) := by
  rw [isStrongUpdate, isHeapCondMemObj_other h hheap hmade, isArrayCondMemObj, isFieldInsenCondMemObj,
    isLocalCVarInRecursion, h]
  cases harray : obj.isArray with
  | true => simp [harray]
  | false =>
      cases hinsensitive : obj.isFieldInsensitive with
      | true => simp [harray, hinsensitive]
      | false =>
          cases hlocal : isStack obj.kind && InRecursion P obj with
          | true =>
              rw [InRecursion] at hlocal
              simp [harray, hinsensitive, hlocal]
          | false =>
              rw [InRecursion] at hlocal
              simp [harray, hinsensitive, hlocal]

theorem isStrongUpdate_not_singleton {dstCPSet : CxtPtSet} (h : ∀ var, dstCPSet ≠ [var]) :
    isStrongUpdate P dstCPSet = some false := by
  match dstCPSet with
  | [] => rfl
  | [var] => exact absurd rfl (h var)
  | _ :: _ :: _ => rfl

end

section

variable {P : Program}

/-- The objects for which the decision is right: dummy objects that other checks turn down, and
objects of the stack that these turn down or that are made in no loop. -/
def RightFor (P : Program) (obj : BaseObjVar) : Prop :=
  match obj.kind with
  | .heap => False
  | .dummy => obj.isArray = true ∨ obj.isFieldInsensitive = true
  | .stack => obj.isArray = true ∨ obj.isFieldInsensitive = true ∨ InRecursion P obj = true ∨
      ∀ node, obj.icfgNode = some node → P.isInLoop node = false
  | .global => True
  | .function => True
  | .constant => True

theorem oneAtATime_iff (obj : BaseObjVar) : OneAtATime P obj ↔
    (∀ node, obj.icfgNode = some node → P.isInLoop node = false) ∧ InRecursion P obj = false := by
  rw [OneAtATime, InRecursion]
  cases obj.icfgNode with
  | none =>
      refine iff_of_true (fun node h => absurd h.symm (Option.some_ne_none node)) ⟨fun node h => ?_, rfl⟩
      exact absurd h.symm (Option.some_ne_none node)
  | some node =>
      rw [Option.bind_some]
      refine ⟨fun h => ⟨fun node' h' => (h node' h').1, ?_⟩, fun ⟨hloop, hcycle⟩ node' h' => ⟨hloop node' h', ?_⟩⟩
      · cases hfun : P.getFun node with
        | none => rfl
        | some svfFun => exact (h node rfl).2 svfFun hfun
      · intro svfFun hfun
        rw [Option.some.inj h', hfun] at hcycle
        exact hcycle

theorem safe_heap {var : CxtVar} {obj : BaseObjVar} (h : getBaseObject P var.id = some obj)
    (hheap : isHeap obj.kind = true) : ¬Safe P [var] := by
  rintro ⟨decision, hdecision, -⟩
  rw [isStrongUpdate_heap h hheap] at hdecision
  exact absurd hdecision.symm (Option.some_ne_none decision)

theorem safe_other_iff {var : CxtVar} {obj : BaseObjVar} (h : getBaseObject P var.id = some obj)
    (hheap : isHeap obj.kind = false) (hmade : Made obj) :
    Safe P [var] ↔ (obj.isArray = false → obj.isFieldInsensitive = false →
      (isStack obj.kind && InRecursion P obj) = false → SingleLocation P var) := by
  have hupdate := isStrongUpdate_other h hheap hmade
  refine ⟨fun ⟨decision, hdecision, hsingle⟩ harray hinsensitive hlocal => ?_, fun hsingle => ?_⟩
  · rw [hupdate, harray, hinsensitive, hlocal] at hdecision
    obtain ⟨var', hvar, hsingle⟩ := hsingle (Option.some.inj hdecision).symm
    rwa [(List.cons.inj hvar).1]
  · refine ⟨_, hupdate, fun hdecision => ⟨var, rfl, ?_⟩⟩
    rw [Bool.and_eq_true, Bool.and_eq_true, Bool.not_eq_true', Bool.not_eq_true', Bool.not_eq_true'] at hdecision
    exact hsingle hdecision.1.1 hdecision.1.2 hdecision.2

theorem singleLocation_iff {var : CxtVar} {obj : BaseObjVar} (h : getBaseObject P var.id = some obj) :
    SingleLocation P var ↔ obj.isArray = false ∧ obj.isFieldInsensitive = false ∧
      match obj.kind with
      | .stack => OneAtATime P obj
      | .heap => OneAtATime P obj ∧ var.cond.concreteCxt = true
      | .global => True
      | .function => True
      | .constant => True
      | .dummy => False := by
  refine ⟨fun ⟨obj', hobj, hsingle⟩ => ?_, fun hsingle => ⟨obj, h, hsingle⟩⟩
  rw [Option.some.inj (h.symm.trans hobj)]
  exact hsingle

theorem safe_singleton_iff {var : CxtVar} {obj : BaseObjVar} (h : getBaseObject P var.id = some obj) (hmade : Made obj) :
    Safe P [var] ↔ RightFor P obj := by
  cases hkind : obj.kind with
  | heap =>
      rw [RightFor, hkind]
      exact iff_of_false (safe_heap h (by rw [hkind]; rfl)) not_false
  | dummy =>
      rw [safe_other_iff h (by rw [hkind]; rfl) hmade, singleLocation_iff h, RightFor, hkind]
      cases obj.isArray with
      | true => exact iff_of_true (fun hfalse => absurd hfalse.symm Bool.false_ne_true) (Or.inl rfl)
      | false =>
          cases obj.isFieldInsensitive with
          | true => exact iff_of_true (fun _ hfalse => absurd hfalse.symm Bool.false_ne_true) (Or.inr rfl)
          | false => exact iff_of_false (fun hsingle => (hsingle rfl rfl rfl).2.2) fun hor => hor.elim Bool.false_ne_true Bool.false_ne_true
  | stack =>
      rw [safe_other_iff h (by rw [hkind]; rfl) hmade, singleLocation_iff h, RightFor, hkind]
      dsimp only
      rw [oneAtATime_iff]
      cases obj.isArray with
      | true => exact iff_of_true (fun hfalse => absurd hfalse.symm Bool.false_ne_true) (Or.inl rfl)
      | false =>
          cases obj.isFieldInsensitive with
          | true => exact iff_of_true (fun _ hfalse => absurd hfalse.symm Bool.false_ne_true) (Or.inr (Or.inl rfl))
          | false =>
              cases InRecursion P obj with
              | true =>
                  refine iff_of_true (fun _ _ hlocal => ?_) (Or.inr (Or.inr (Or.inl rfl)))
                  exact absurd hlocal.symm Bool.false_ne_true
              | false =>
                  refine ⟨fun hsingle => Or.inr (Or.inr (Or.inr (hsingle rfl rfl rfl).2.2.1)), fun hright _ _ _ => ?_⟩
                  refine ⟨rfl, rfl, ?_, rfl⟩
                  rcases hright with hfalse | hfalse | hfalse | hloop
                  · exact absurd hfalse Bool.false_ne_true
                  · exact absurd hfalse Bool.false_ne_true
                  · exact absurd hfalse Bool.false_ne_true
                  · exact hloop
  | global | function | constant =>
      rw [safe_other_iff h (by rw [hkind]; rfl) hmade, singleLocation_iff h, RightFor, hkind]
      exact iff_of_true (fun harray hinsensitive _ => ⟨harray, hinsensitive, trivial⟩) trivial

theorem isStrongUpdate_safe_iff {dstCPSet : CxtPtSet}
    (hobj : ∀ var ∈ dstCPSet, ∃ obj, getBaseObject P var.id = some obj ∧ Made obj) :
    Safe P dstCPSet ↔ ∀ var obj, dstCPSet = [var] → getBaseObject P var.id = some obj → RightFor P obj := by
  by_cases hsingleton : ∃ var, dstCPSet = [var]
  · obtain ⟨var, rfl⟩ := hsingleton
    obtain ⟨obj, h, hmade⟩ := hobj var (List.mem_singleton_self var)
    rw [safe_singleton_iff h hmade]
    refine ⟨fun hright var' obj' hvar h' => ?_, fun hright => hright var obj rfl h⟩
    rw [← (List.cons.inj hvar).1, h] at h'
    rwa [← Option.some.inj h']
  · refine iff_of_true ?_ fun var _ hvar => absurd ⟨var, hvar⟩ hsingleton
    have hupdate := isStrongUpdate_not_singleton (P := P) fun var hvar => hsingleton ⟨var, hvar⟩
    exact ⟨false, hupdate, fun hfalse => absurd hfalse Bool.false_ne_true⟩

/-- The empty context that a downgrade gives an object does not matter. -/
theorem outOfBudgetPts_safe_iff {flowPts : List NodeID}
    (hobj : ∀ id ∈ flowPts, ∃ obj, getBaseObject P id = some obj ∧ Made obj) :
    Safe P (outOfBudgetPts flowPts) ↔ ∀ id obj, flowPts = [id] → getBaseObject P id = some obj → RightFor P obj := by
  have hobjects : ∀ var ∈ outOfBudgetPts flowPts, ∃ obj, getBaseObject P var.id = some obj ∧ Made obj := by
    intro var hvar
    obtain ⟨id, hid, rfl⟩ := List.mem_map.mp hvar
    exact hobj id hid
  rw [isStrongUpdate_safe_iff hobjects]
  refine ⟨fun h id obj hflow => h ⟨ContextCond.new, id⟩ obj (by rw [hflow]; rfl), fun h var obj hvar => ?_⟩
  obtain ⟨id, hflow, rfl⟩ := List.map_eq_singleton_iff.mp hvar
  exact h id obj hflow

/-- A heap object, a dummy object, an object of the stack that is made in a loop, and a global
object with a field. -/
def objects : Program where
  getGNode id :=
    if id = 0 then .baseObj ⟨.heap, some 0, false, 8⟩
    else if id = 1 then .baseObj ⟨.dummy, none, false, 8⟩
    else if id = 2 then .baseObj ⟨.stack, some 0, false, 8⟩
    else if id = 3 then .baseObj ⟨.global, none, false, 8⟩
    else .gepObj 3
  getFun _ := some 0
  isInLoop _ := true
  isInCycle _ := false
  anderInCycle _ := false

theorem isStrongUpdate_safe_field : Safe objects [⟨ContextCond.new, 4⟩] := by
  refine (isStrongUpdate_safe_iff fun var hvar => ?_).mpr fun var obj hvar hobj => ?_
  · rw [List.mem_singleton.mp hvar]
    exact ⟨_, rfl, fun h => absurd h Bool.false_ne_true⟩
  · rw [← (List.cons.inj hvar).1] at hobj
    rw [← Option.some.inj hobj]
    exact trivial

def UnsafeAt (id : NodeID) : Prop :=
  ∃ obj, getBaseObject objects id = some obj ∧ Made obj ∧ ¬Safe objects [⟨ContextCond.new, id⟩]

/-- An assertion fails, or the decision is for a set without a single location. -/
theorem isStrongUpdate_unsafe : UnsafeAt 0 ∧ UnsafeAt 1 ∧ UnsafeAt 2 := by
  refine ⟨?_, ?_, ?_⟩
  · refine ⟨_, rfl, fun h => absurd h Bool.false_ne_true, ?_⟩
    rintro ⟨decision, hdecision, -⟩
    exact absurd hdecision.symm (Option.some_ne_none decision)
  · refine ⟨_, rfl, fun _ => rfl, ?_⟩
    rintro ⟨decision, hdecision, hsingle⟩
    obtain ⟨var, hvar, obj, hobj, -, -, hkind⟩ := hsingle (Option.some.inj hdecision).symm
    rw [← (List.cons.inj hvar).1] at hobj
    rw [← Option.some.inj hobj] at hkind
    exact hkind
  · refine ⟨_, rfl, fun h => absurd h Bool.false_ne_true, ?_⟩
    rintro ⟨decision, hdecision, hsingle⟩
    obtain ⟨var, hvar, obj, hobj, -, -, hkind⟩ := hsingle (Option.some.inj hdecision).symm
    rw [← (List.cons.inj hvar).1] at hobj
    rw [← Option.some.inj hobj] at hkind
    exact absurd (hkind 0 rfl).1.symm Bool.false_ne_true

end

end SVF.DDA.StrongUpdates
