import SVF.CFL.POCRHybrid
import SVF.MemoryModel.PointsToSets

namespace SVF.CFL.OnTheFly

open Relation Grammar EdgeGraph Util.Loops
open MemoryModel.PointsToSets (PointsTo)
open Solver (isWorklistEmpty popFromWorklist pushIntoWorklist)

abbrev CallICFGNode := ℕ

abbrev FunObjVar := ℕ

abbrev CallEdge := CallICFGNode × FunObjVar

structure Labels (Sym : Type) where
  addr : Sym
  copy : Sym
  copybar : Sym
  F : Sym
  startKind : Sym

/-- What the analysis reads of the program and its options. -/
structure Program where
  getIndirectCallsites : List (CallICFGNode × NodeID)
  isVirtualCall : CallICFGNode → Bool
  getVtablePtr : CallICFGNode → NodeID
  getCallSiteArgsList : CallICFGNode → Option (List NodeID)
  getFunArgsList : FunObjVar → Option (List NodeID)
  getCallSiteRet : CallICFGNode → Option NodeID
  getFunRet : FunObjVar → Option NodeID
  isPointer : NodeID → Bool
  callArgSize : CallICFGNode → ℕ
  callIsVarArg : CallICFGNode → Bool
  isTDFork : CallICFGNode → Bool
  argSize : FunObjVar → ℕ
  isVarArg : FunObjVar → Bool
  getVarargNode : FunObjVar → NodeID
  isHeapAllocExtFunViaRet : FunObjVar → Bool
  getFunction : NodeID → Option FunObjVar
  getDefFunForMultipleModule : FunObjVar → FunObjVar
  getVFns : CallICFGNode → PointsTo → List FunObjVar
  gepSource : NodeID → Option NodeID
  addrSources : NodeID → List NodeID
  indirectCallLimit : ℕ
  nodeIds : List NodeID
  allocateValueId : List NodeID → NodeID
  allocateObjectId : List NodeID → NodeID
  freshValue : ∀ used, allocateValueId used ∉ used
  freshObject : ∀ used, allocateObjectId used ∉ used
  iterate : List CallEdge → List CallEdge
  perm : ∀ newEdges, (iterate newEdges).Perm newEdges

def Program.matchArgs (prog : Program) (cs : CallICFGNode) (callee : FunObjVar) : Bool :=
  if prog.isVarArg callee || prog.isTDFork cs then prog.argSize callee ≤ prog.callArgSize cs
  else prog.callArgSize cs = prog.argSize callee

section

variable {Sym : Type} [DecidableEq Sym]

inductive SolverKind
  | CFLSolver
  | POCRSolver
  | POCRHybridSolver
  deriving DecidableEq

/-- The solvers inherit from each other; `CFLSolver` uses the graph and the worklist only. -/
abbrev SolverState (Sym : Type) [DecidableEq Sym] := POCRHybrid.State Sym

namespace SolverKind

def new (kind : SolverKind) (graph : CFLGraph Sym) : SolverState Sym :=
  ⟨⟨⟨graph, []⟩, match kind with
    | CFLSolver => .empty
    | POCRSolver | POCRHybridSolver => POCR.buildCFLData graph⟩, .empty⟩

def pushAll (edges : List (CFLEdge Sym)) (s : Solver.State Sym) : Solver.State Sym :=
  edges.foldl (fun s edge => pushIntoWorklist (some edge) s) s

def initializeWorklist (kind : SolverKind) (grammar : CFGrammar Sym) (s : SolverState Sym) : SolverState Sym :=
  match kind with
  | CFLSolver =>
      let edges := s.graph.nodes.flatMap s.graph.getOutEdges
      { s with toState := Closure.addEpsilons grammar s.graph.nodes (pushAll edges s.toState) }
  | POCRSolver =>
      { s with toPOCR := POCR.addEpsilons grammar
                ⟨pushAll s.graph.cflEdgeSet s.toState, s.data⟩ }
  | POCRHybridSolver =>
      { toPOCR := POCR.addEpsilons grammar ⟨pushAll s.graph.cflEdgeSet s.toState, s.data⟩
        forest := s.graph.nodes.foldl (fun forest nId => (forest.addInd_h nId nId).1) s.forest }

def processCFLEdge (kind : SolverKind) (grammar : CFGrammar Sym) (F : Sym) (Y_edge : CFLEdge Sym)
    (s : SolverState Sym) : SolverState Sym :=
  match kind with
  | CFLSolver => { s with toState := Solver.processCFLEdge grammar Y_edge s.toState }
  | POCRSolver => { s with toPOCR := POCR.processCFLEdge grammar Y_edge s.toPOCR }
  | POCRHybridSolver => POCRHybrid.processCFLEdge grammar F Y_edge s

def take (e : CFLEdge Sym) (s : SolverState Sym) : SolverState Sym :=
  { s with toState := Solver.take e s.toState }

def Step (kind : SolverKind) (grammar : CFGrammar Sym) (F : Sym) (s t : SolverState Sym) : Prop :=
  ∃ e, some e ∈ s.worklist ∧ t = kind.processCFLEdge grammar F e (take e s)

def processNext (kind : SolverKind) (grammar : CFGrammar Sym) (F : Sym) (s : SolverState Sym) :
    Option (SolverState Sym) :=
  (popFromWorklist s.toState).map fun (Y_edge, t) =>
    kind.processCFLEdge grammar F Y_edge { s with toState := t }

def solve (kind : SolverKind) (grammar : CFGrammar Sym) (F : Sym) (fuel : ℕ) (s : SolverState Sym) :
    Option (SolverState Sym) :=
  whileLoop (fun s => !isWorklistEmpty s.toState) (kind.processNext grammar F) fuel
    (kind.initializeWorklist grammar s)

end SolverKind

end

section

variable {Sym : Type} [DecidableEq Sym]

structure CFLAlias (Sym : Type) [DecidableEq Sym] where
  solver : SolverState Sym
  ptD : NodeID → PointsTo
  indCallMap : List CallEdge
  numOfResolvedIndCallEdge : ℕ
  callsite2DummyValPN : List (CallICFGNode × NodeID)
  nodeIds : List NodeID

namespace CFLAlias

variable (labels : Labels Sym) (prog : Program)

def graph (s : CFLAlias Sym) : CFLGraph Sym := s.solver.graph

def edges (s : CFLAlias Sym) : Set (CFLEdge Sym) := {e | e ∈ s.graph.cflEdgeSet}

def pointees (dst : NodeID) : List NodeID := (prog.gepSource dst).getD dst :: prog.addrSources dst

def getCFLPts (ptr : NodeID) (s : CFLAlias Sym) : CFLAlias Sym × PointsTo :=
  let startEdges := (s.graph.getOutEdges ptr).filter (·.kind = labels.startKind)
  let pts := startEdges.foldl (fun pts e => (pointees prog e.dst).foldl PointsTo.set pts) (s.ptD ptr)
  ({ s with ptD := Function.update s.ptD ptr pts }, pts)

/-- The edge is new unless the call graph has it. -/
def addIndirectCallEdge (cs : CallICFGNode) (callee : FunObjVar) (r : CFLAlias Sym × List CallEdge) :
    CFLAlias Sym × List CallEdge :=
  if (cs, callee) ∈ r.1.indCallMap then r
  else ({ r.1 with
    indCallMap := r.1.indCallMap ++ [(cs, callee)]
    numOfResolvedIndCallEdge := r.1.numOfResolvedIndCallEdge + 1 }, r.2 ++ [(cs, callee)])

def resolveIndCalls (cs : CallICFGNode) :
    List NodeID → CFLAlias Sym × List CallEdge → CFLAlias Sym × List CallEdge
  | [], r => r
  | o :: target, r =>
      if prog.indirectCallLimit ≤ r.1.numOfResolvedIndCallEdge then r
      else resolveIndCalls cs target <|
        match prog.getFunction o with
        | none => r
        | some calleefun =>
            let callee := prog.getDefFunForMultipleModule calleefun
            if prog.matchArgs cs callee then addIndirectCallEdge cs callee r else r

def connectVCallToVFns (cs : CallICFGNode) (vfns : List FunObjVar)
    (r : CFLAlias Sym × List CallEdge) : CFLAlias Sym × List CallEdge :=
  vfns.foldl (fun r callee =>
    let callee := prog.getDefFunForMultipleModule callee
    if prog.callArgSize cs = prog.argSize callee || (prog.callIsVarArg cs && prog.isVarArg callee) then
      addIndirectCallEdge cs callee r
    else r) r

def onTheFlyCallGraphSolve (s : CFLAlias Sym) : CFLAlias Sym × List CallEdge :=
  prog.getIndirectCallsites.foldl (fun r call =>
    if prog.isVirtualCall call.1 then
      let (s, target) := r.1.getCFLPts labels prog (prog.getVtablePtr call.1)
      connectVCallToVFns prog call.1 (prog.getVFns call.1 target) (s, r.2)
    else
      let (s, target) := r.1.getCFLPts labels prog call.2
      resolveIndCalls prog call.1 target.elems (s, r.2)) (s, [])

def addCopyEdge (src dst : NodeID) (s : CFLAlias Sym) : CFLAlias Sym :=
  if ⟨src, dst, labels.copy⟩ ∈ s.graph.cflEdgeSet then s
  else { s with solver := { s.solver with
    toState := POCR.pushNewEdge dst src labels.copybar
      (POCR.pushNewEdge src dst labels.copy s.solver.toState) } }

def addCFLNode (id : NodeID) (s : SolverState Sym) : SolverState Sym :=
  { s with graph := { s.graph with nodes := s.graph.nodes.orderedInsert (· ≤ ·) id } }

/-- The first call for a call site makes a dummy pointer and a dummy object. -/
def heapAllocatorViaIndCall (cs : CallICFGNode) (cs_return : NodeID) (s : CFLAlias Sym) :
    CFLAlias Sym :=
  match s.callsite2DummyValPN.lookup cs with
  | some srcret => s.addCopyEdge labels srcret cs_return
  | none =>
      let valNode := prog.allocateValueId s.nodeIds
      let objNode := prog.allocateObjectId (valNode :: s.nodeIds)
      let s := { s with
        solver := addCFLNode objNode (addCFLNode valNode s.solver)
        callsite2DummyValPN := (cs, valNode) :: s.callsite2DummyValPN
        nodeIds := objNode :: valNode :: s.nodeIds }
      s.addCopyEdge labels valNode cs_return

def connectHeap (cs : CallICFGNode) (F : FunObjVar) (s : CFLAlias Sym) : CFLAlias Sym :=
  match prog.getCallSiteRet cs with
  | some cs_return =>
      if prog.isHeapAllocExtFunViaRet F then s.heapAllocatorViaIndCall labels prog cs cs_return else s
  | none => s

def copyPointer (src dst : NodeID) (s : CFLAlias Sym) : CFLAlias Sym :=
  if prog.isPointer src && prog.isPointer dst then s.addCopyEdge labels src dst else s

def connectRet (cs : CallICFGNode) (F : FunObjVar) (s : CFLAlias Sym) : CFLAlias Sym :=
  match prog.getFunRet F, prog.getCallSiteRet cs with
  | some fun_return, some cs_return => s.copyPointer labels prog fun_return cs_return
  | _, _ => s

def connectArgs (cs : CallICFGNode) (F : FunObjVar) (s : CFLAlias Sym) : CFLAlias Sym :=
  match prog.getCallSiteArgsList cs, prog.getFunArgsList F with
  | some csArgList, some funArgList =>
      let s := (csArgList.zip funArgList).foldl (fun s arg => s.copyPointer labels prog arg.1 arg.2) s
      if prog.isVarArg F then
        (csArgList.drop funArgList.length).foldl (fun s cs_arg =>
          if prog.isPointer cs_arg then s.addCopyEdge labels cs_arg (prog.getVarargNode F) else s) s
      else s
  | _, _ => s

def connectCaller2CalleeParams (cs : CallICFGNode) (F : FunObjVar) (s : CFLAlias Sym) : CFLAlias Sym :=
  ((s.connectHeap labels prog cs F).connectRet labels prog cs F).connectArgs labels prog cs F

end CFLAlias

end

section

variable {Sym : Type} [DecidableEq Sym]

/-- Where `solve` stands: in a call of the solver, in the loop over the new call edges, or at its
end. -/
inductive Phase
  | solving
  | connecting (newEdges : List CallEdge)
  | ended
  deriving DecidableEq

structure State (Sym : Type) [DecidableEq Sym] extends CFLAlias Sym where
  phase : Phase

variable (kind : SolverKind) (labels : Labels Sym) (prog : Program) (grammar : CFGrammar Sym)

def start (graph : CFLGraph Sym) : State Sym :=
  ⟨⟨kind.initializeWorklist grammar (kind.new graph), fun _ => ∅, [], 0, [], prog.nodeIds⟩, .solving⟩

inductive Action (Sym : Type)
  | process (Y_edge : CFLEdge Sym)
  | update
  | connect (cs : CallICFGNode) (F : FunObjVar)
  | again
  | stop

inductive Step : Action Sym → State Sym → State Sym → Prop
  | process {s : CFLAlias Sym} {Y_edge : CFLEdge Sym} (h : some Y_edge ∈ s.solver.worklist) :
      Step (.process Y_edge) ⟨s, .solving⟩ ⟨{ s with
        solver := kind.processCFLEdge grammar labels.F Y_edge (SolverKind.take Y_edge s.solver) },
        .solving⟩
  | update {s : CFLAlias Sym} (h : isWorklistEmpty s.solver.toState = true) :
      Step .update ⟨s, .solving⟩ ⟨(s.onTheFlyCallGraphSolve labels prog).1,
        .connecting (prog.iterate (s.onTheFlyCallGraphSolve labels prog).2)⟩
  | connect {s : CFLAlias Sym} {cs : CallICFGNode} {F : FunObjVar} {newEdges : List CallEdge} :
      Step (.connect cs F) ⟨s, .connecting ((cs, F) :: newEdges)⟩
        ⟨s.connectCaller2CalleeParams labels prog cs F, .connecting newEdges⟩
  | again {s : CFLAlias Sym} (h : isWorklistEmpty s.solver.toState = false) :
      Step .again ⟨s, .connecting []⟩
        ⟨{ s with solver := kind.initializeWorklist grammar s.solver }, .solving⟩
  | stop {s : CFLAlias Sym} (h : isWorklistEmpty s.solver.toState = true) :
      Step .stop ⟨s, .connecting []⟩ ⟨s, .ended⟩

/-- The action of `solve` whose worklist is a queue; `none` at the end, or where a null pointer is
popped. -/
def next (s : State Sym) : Option (Action Sym × State Sym) :=
  match s.phase with
  | .solving =>
      if isWorklistEmpty s.solver.toState then
        let (t, newEdges) := s.onTheFlyCallGraphSolve labels prog
        some (.update, ⟨t, .connecting (prog.iterate newEdges)⟩)
      else (popFromWorklist s.solver.toState).map fun (Y_edge, t) =>
        (.process Y_edge, ⟨{ s.toCFLAlias with
          solver := kind.processCFLEdge grammar labels.F Y_edge { s.solver with toState := t } }, .solving⟩)
  | .connecting ((cs, F) :: newEdges) =>
      some (.connect cs F, ⟨s.connectCaller2CalleeParams labels prog cs F, .connecting newEdges⟩)
  | .connecting [] =>
      if isWorklistEmpty s.solver.toState then some (.stop, ⟨s.toCFLAlias, .ended⟩)
      else some (.again, ⟨{ s.toCFLAlias with
        solver := kind.initializeWorklist grammar s.solver }, .solving⟩)
  | .ended => none

/-- The state after a number of actions, and the states before them with the actions. -/
def run : ℕ → State Sym → List (State Sym × Action Sym) × State Sym
  | 0, s => ([], s)
  | n + 1, s =>
    match next kind labels prog grammar s with
    | none => ([], s)
    | some (a, t) => let (trace, u) := run n t
                     ((s, a) :: trace, u)

end

end SVF.CFL.OnTheFly
