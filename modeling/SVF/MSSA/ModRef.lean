import Mathlib.Data.Finset.Filter
import Mathlib.Data.Finset.Lattice.Lemmas

namespace SVF.MSSA.ModRef

abbrev NodeID := ℕ

abbrev CallICFGNode := ℕ

structure CallGraphEdge where
  srcID : NodeID
  directCalls : List CallICFGNode
  indirectCalls : List CallICFGNode

structure CallGraph where
  nodes : List NodeID
  inEdges : NodeID → List CallGraphEdge
  getCaller : CallICFGNode → NodeID
  caller_eq : ∀ n, ∀ e ∈ inEdges n, ∀ cs ∈ e.directCalls ++ e.indirectCalls,
    getCaller cs = e.srcID
  src_mem : ∀ n, ∀ e ∈ inEdges n, e.srcID ∈ nodes

/-- What `find` leaves: a representative stands for its component, and the sub-nodes
of the other members have been cleared. -/
structure SCCDetection (g : CallGraph) where
  repNode : NodeID → NodeID
  subNodes : NodeID → List NodeID
  revTopoNodeStack : List NodeID
  mem_subNodes : ∀ n ∈ g.nodes, n ∈ subNodes (repNode n)
  subNodes_cleared : ∀ n ∈ g.nodes, repNode n ≠ n → subNodes n = []
  rep_listed : ∀ n ∈ g.nodes, repNode n ∈ revTopoNodeStack

def SCCDetection.isInCycle {g : CallGraph} (scc : SCCDetection g) (n : NodeID) : Bool :=
  let rep := scc.repNode n
  1 < (scc.subNodes rep).length || (g.inEdges rep).any fun e => e.srcID == rep

inductive ObjVarKind
  | heap
  | dummy
  | stack (function : Option NodeID)
  | other

structure BaseObjVar where
  isGlobalObj : Bool
  kind : ObjVarKind

/-- The program, and what the generator has collected of it before the calls. -/
structure MRGenerator where
  callGraph : CallGraph
  callGraphSCC : SCCDetection callGraph
  getBaseObject : NodeID → BaseObjVar
  allGlobals : Finset NodeID
  getCallSiteArgsPts : CallICFGNode → Finset NodeID
  getCallSiteRetPts : CallICFGNode → Finset NodeID
  isHeapAllocExtCall : CallICFGNode → Bool
  /-- The right-hand sides of the `AddrStmt`s of a call site. -/
  addrObjs : CallICFGNode → List NodeID

/-- `funToRefsMap` with `csToRefsMap`, or `funToModsMap` with `csToModsMap`. -/
@[ext] structure SideEffects where
  ofFunction : NodeID → Finset NodeID
  ofCallSite : CallICFGNode → Finset NodeID

namespace MRGenerator

variable (mr : MRGenerator)

def isNonLocalObject (id curFun : NodeID) : Bool :=
  let obj := mr.getBaseObject id
  obj.isGlobalObj ||
    match obj.kind with
    | .heap | .dummy => true
    | .stack (some svffun) => svffun != curFun || mr.callGraphSCC.isInCycle svffun
    | .stack none | .other => false

def getEscapObjviaGlobals (globs calleeModRef : Finset NodeID) : Finset NodeID :=
  globs ∪ calleeModRef.filter fun o => o ∈ mr.allGlobals

def addSideEffectOfFunction (s : SideEffects) (f : NodeID) (objs : Finset NodeID) : SideEffects :=
  { s with
    ofFunction := Function.update s.ofFunction f
      (s.ofFunction f ∪ objs.filter fun o => mr.isNonLocalObject o f) }

/-- The objects of a callee that a call site sees, when `escaping` are passed by it. -/
def passed (escaping objs : Finset NodeID) : Finset NodeID :=
  mr.getEscapObjviaGlobals (objs ∩ escaping) objs

def addSideEffectOfCallSite (s : SideEffects) (cs : CallICFGNode) (escaping objs : Finset NodeID) :
    SideEffects × Bool :=
  if objs = ∅ then (s, false)
  else
    let set := mr.passed escaping objs
    let s := mr.addSideEffectOfFunction s (mr.callGraph.getCaller cs) set
    ({ s with ofCallSite := Function.update s.ofCallSite cs (s.ofCallSite cs ∪ set) },
      s.ofCallSite cs ≠ s.ofCallSite cs ∪ set)

end MRGenerator

/-- A call site still to be handled, with the edge's source and the callee. -/
structure Call where
  callee : NodeID
  srcID : NodeID
  cs : CallICFGNode
  deriving DecidableEq

/-- The state inside the nested loops: what is left of each of them. -/
structure ModRefState where
  refs : SideEffects
  mods : SideEffects
  worklist : List NodeID
  subNodes : List NodeID
  calls : List Call

namespace MRGenerator

variable (mr : MRGenerator)

def addRefSideEffectOfCallSite (s : SideEffects) (cs : CallICFGNode) (refs : Finset NodeID) :
    SideEffects × Bool :=
  mr.addSideEffectOfCallSite s cs (mr.getCallSiteArgsPts cs) refs

def addModSideEffectOfCallSite (s : SideEffects) (cs : CallICFGNode) (mods : Finset NodeID) :
    SideEffects × Bool :=
  mr.addSideEffectOfCallSite s cs (mr.getCallSiteArgsPts cs ∪ mr.getCallSiteRetPts cs) mods

def calleeMod (s : ModRefState) (cs : CallICFGNode) (callee : NodeID) : Finset NodeID :=
  if mr.isHeapAllocExtCall cs then (mr.addrObjs cs).toFinset else s.mods.ofFunction callee

def calleeRef (s : ModRefState) (cs : CallICFGNode) (callee : NodeID) : Finset NodeID :=
  if mr.isHeapAllocExtCall cs then ∅ else s.refs.ofFunction callee

def handleCallsiteModRef (s : ModRefState) (cs : CallICFGNode) (callee : NodeID) :
    ModRefState × Bool :=
  let mod := mr.calleeMod s cs callee
  let ref := mr.calleeRef s cs callee
  let refs := mr.addRefSideEffectOfCallSite s.refs cs ref
  let mods := mr.addModSideEffectOfCallSite s.mods cs mod
  ({ s with refs := refs.1, mods := mods.1 }, refs.2 || mods.2)

def callsTo (callee : NodeID) : List Call :=
  (mr.callGraph.inEdges callee).flatMap fun edge =>
    (edge.directCalls ++ edge.indirectCalls).map fun cs => ⟨callee, edge.srcID, cs⟩

def push (worklist : List NodeID) (n : NodeID) : List NodeID :=
  if n ∈ worklist then worklist else worklist ++ [n]

def handleCall (s : ModRefState) (c : Call) : ModRefState :=
  let (s, modrefchanged) := mr.handleCallsiteModRef s c.cs c.callee
  if modrefchanged then { s with worklist := push s.worklist c.srcID } else s

/-- The loops of `collectModRefForCall` and `modRefAnalysis`, one iteration at a time. -/
def step (s : ModRefState) : Option ModRefState :=
  match s.calls with
  | c :: rest => some (mr.handleCall { s with calls := rest } c)
  | [] =>
    match s.subNodes with
    | n :: rest => some { s with subNodes := rest, calls := mr.callsTo n }
    | [] =>
      match s.worklist with
      | callGraphNodeID :: rest =>
        some { s with worklist := rest, subNodes := mr.callGraphSCC.subNodes callGraphNodeID }
      | [] => none

/-- The maps of the functions are those that the loads and stores have left. -/
def start (funToRefsMap funToModsMap : NodeID → Finset NodeID) : ModRefState where
  refs := ⟨funToRefsMap, fun _ => ∅⟩
  mods := ⟨funToModsMap, fun _ => ∅⟩
  worklist := mr.callGraphSCC.revTopoNodeStack
  subNodes := []
  calls := []

/-- The steps of `collectModRefForCall`, as many as there is fuel for. -/
def run (fuel : ℕ) (s : ModRefState) : ModRefState :=
  match fuel with
  | 0 => s
  | fuel + 1 => (mr.step s).elim s (run fuel)

end MRGenerator

section

variable {mr : MRGenerator} {s : SideEffects} {cs : CallICFGNode} {escaping objs : Finset NodeID}
  {o : NodeID}

theorem mem_passed :
    o ∈ mr.passed escaping objs ↔ o ∈ objs ∧ (o ∈ escaping ∨ o ∈ mr.allGlobals) := by
  simp only [MRGenerator.passed, MRGenerator.getEscapObjviaGlobals, Finset.mem_union,
    Finset.mem_inter, Finset.mem_filter]
  tauto

theorem passed_empty : mr.passed escaping ∅ = ∅ := by
  ext o
  simp [mem_passed]

variable (mr s cs escaping objs)

theorem ofCallSite_add : (mr.addSideEffectOfCallSite s cs escaping objs).1.ofCallSite =
    Function.update s.ofCallSite cs (s.ofCallSite cs ∪ mr.passed escaping objs) := by
  rw [MRGenerator.addSideEffectOfCallSite]
  split
  · rename_i h
    rw [h, passed_empty, Finset.union_empty, Function.update_eq_self]
  · rfl

theorem ofFunction_add : (mr.addSideEffectOfCallSite s cs escaping objs).1.ofFunction =
    Function.update s.ofFunction (mr.callGraph.getCaller cs)
      (s.ofFunction (mr.callGraph.getCaller cs) ∪ (mr.passed escaping objs).filter
        fun o => mr.isNonLocalObject o (mr.callGraph.getCaller cs)) := by
  rw [MRGenerator.addSideEffectOfCallSite]
  split
  · rename_i h
    rw [h, passed_empty, Finset.filter_empty, Finset.union_empty, Function.update_eq_self]
  · rfl

theorem changed_add : (mr.addSideEffectOfCallSite s cs escaping objs).2 = true ↔
    ¬ mr.passed escaping objs ⊆ s.ofCallSite cs := by
  rw [MRGenerator.addSideEffectOfCallSite]
  split
  · rename_i h
    simp [h, passed_empty]
  · rw [← Finset.union_eq_left, decide_eq_true_iff, ne_eq, eq_comm]
    rfl

variable {s cs escaping objs}

theorem mem_ofCallSite_add {cs' : CallICFGNode} :
    o ∈ (mr.addSideEffectOfCallSite s cs escaping objs).1.ofCallSite cs' ↔
      o ∈ s.ofCallSite cs' ∨ cs' = cs ∧ o ∈ mr.passed escaping objs := by
  rw [ofCallSite_add]
  by_cases h : cs' = cs
  · subst h
    simp
  · simp [h]

theorem mem_ofFunction_add {f : NodeID} :
    o ∈ (mr.addSideEffectOfCallSite s cs escaping objs).1.ofFunction f ↔
      o ∈ s.ofFunction f ∨ f = mr.callGraph.getCaller cs ∧ o ∈ mr.passed escaping objs ∧
        mr.isNonLocalObject o f = true := by
  rw [ofFunction_add]
  by_cases h : f = mr.callGraph.getCaller cs
  · subst h
    simp
  · simp [h]

end

end SVF.MSSA.ModRef
