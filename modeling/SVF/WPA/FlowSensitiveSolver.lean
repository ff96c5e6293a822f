import SVF.Graphs.ValueFlowGraph
import SVF.MemoryModel.DataFlowPTData

namespace SVF.WPA.FlowSensitiveSolver

open Graphs.ConsG Graphs.FieldObjects Graphs.ValueFlowGraph MemoryModel.DataFlowPTData
open MemoryModel.PointsToSets (PointsTo)

/-- What the solver reads; the last three predicates are about base objects. -/
structure Input where
  opts : Options
  alloc : NodeIDAllocator
  svfg : SVFG
  isHeapMemObj : NodeID → Bool
  isArrayMemObj : NodeID → Bool
  isLocalVarInRecursiveFun : NodeID → Bool

structure FlowSensitive (D : Type) where
  pag : SVFIR
  ptD : D
  worklist : List NodeID

def unionEach {D : Type} (update : D → NodeID → D × Bool) (vars : List NodeID) (ptD : D) :
    D × Bool :=
  vars.foldl (fun r var =>
    let (ptD, changed) := update r.1 var
    (ptD, r.2 || changed)) (ptD, false)

def objAndFields (pag : SVFIR) (ptd : NodeID) : List NodeID :=
  ptd :: if pag.isFieldInsensitive ptd then pag.getAllFieldsObjVars ptd else []

def variantGepObj : SVFIR × PointsTo → NodeID → SVFIR × PointsTo
  | (pag, tmpDstPts), o =>
      if pag.isBlkObjOrConstantObj o then (pag, tmpDstPts.set o)
      else
        let pag := pag.setObjFieldInsensitive o
        (pag, tmpDstPts.set (pag.getFIObjVar o))

def normalGepObj (opts : Options) (alloc : NodeIDAllocator) (offset : APOffset) :
    SVFIR × PointsTo → NodeID → SVFIR × PointsTo
  | (pag, tmpDstPts), o =>
      if pag.isBlkObjOrConstantObj o || pag.isFieldInsensitive o then (pag, tmpDstPts.set o)
      else
        let (pag, fieldSrcPtdNode) := pag.getGepObjVar opts alloc o offset
        (pag, tmpDstPts.set fieldSrcPtdNode)

def gepObj (opts : Options) (alloc : NodeIDAllocator) :
    Option APOffset → SVFIR × PointsTo → NodeID → SVFIR × PointsTo
  | none => variantGepObj
  | some offset => normalGepObj opts alloc offset

namespace FlowSensitive

variable {D : Type} [DFPTData D] (inp : Input) (s : FlowSensitive D)

def getPts (id : NodeID) : PointsTo := DFSets.getPts s.ptD id

def pushIntoWorklist (id : NodeID) : FlowSensitive D :=
  if id ∈ s.worklist then s else { s with worklist := s.worklist ++ [id] }

def pushIfChanged (r : FlowSensitive D × Bool) (id : NodeID) : FlowSensitive D :=
  if r.2 then r.1.pushIntoWorklist id else r.1

def popFromWorklist (id : NodeID) : FlowSensitive D :=
  { s with worklist := s.worklist.filter (· ≠ id) }

def update (r : D × Bool) : FlowSensitive D × Bool := ({ s with ptD := r.1 }, r.2)

def processAddr (dst src : NodeID) : FlowSensitive D × Bool :=
  let srcID := if s.pag.isFieldInsensitive src then s.pag.getFIObjVar src else src
  s.update (DFPTData.addPts s.ptD dst srcID)

def processCopy (dst src : NodeID) : FlowSensitive D × Bool :=
  s.update (DFPTData.unionPts s.ptD dst (s.getPts src))

def processPhi (res : NodeID) (opVers : List NodeID) : FlowSensitive D × Bool :=
  s.update (unionEach (fun ptD src => DFPTData.unionPts ptD res (DFSets.getPts ptD src)) opVers
    s.ptD)

def processGep (dst src : NodeID) (constantFieldIdx : Option APOffset) : FlowSensitive D × Bool :=
  let (pag, tmpDstPts) := (s.getPts src).elems.foldl (gepObj inp.opts inp.alloc constantFieldIdx)
    (s.pag, ∅)
  update { s with pag := pag } (DFPTData.unionPts s.ptD dst tmpDstPts)

def processLoad (load dst src : NodeID) : FlowSensitive D × Bool :=
  if s.pag.isPointer dst then
    s.update (unionEach (fun ptD var => DFPTData.updateTLVPts ptD load var dst)
      (((s.getPts src).elems.filter (!s.pag.isConstantObj ·)).flatMap (objAndFields s.pag)) s.ptD)
  else (s, false)

def isStrongUpdate (dst : NodeID) : Option NodeID :=
  match (s.getPts dst).elems with
  | [singleton] =>
      let baseObj := s.pag.getBaseObjVar singleton
      if !inp.isHeapMemObj baseObj && !inp.isArrayMemObj baseObj
          && !s.pag.isFieldInsensitive singleton && !inp.isLocalVarInRecursiveFun baseObj then
        some singleton
      else none
  | _ => none

def storePts (store dst src : NodeID) : FlowSensitive D × Bool :=
  if (s.getPts src).elems ≠ [] ∧ s.pag.isPointer src then
    s.update (unionEach (fun ptD ptd => DFPTData.updateATVPts ptD src store ptd)
      ((s.getPts dst).elems.filter (!s.pag.isConstantObj ·)) s.ptD)
  else (s, false)

/-- The part of `processStore` that merges the IN sets into the OUT sets. -/
def mergeInToOut (store dst : NodeID) : FlowSensitive D × Bool :=
  match s.isStrongUpdate inp dst with
  | some singleton => s.update (DFPTData.updateAllDFOutFromIn s.ptD store singleton true)
  | none => s.update (DFPTData.updateAllDFOutFromIn s.ptD store 0 false)

def processStore (store dst src : NodeID) : FlowSensitive D × Bool :=
  if (s.getPts dst).elems = [] then (s, false)
  else
    let (s, changed) := s.storePts store dst src
    let (s, updated) := s.mergeInToOut inp store dst
    (s, changed || updated)

def processSVFGNode (id : NodeID) : FlowSensitive D × Bool :=
  match inp.svfg.node id with
  | .addr dst src => s.processAddr dst src
  | .copy dst src => s.processCopy dst src
  | .gep dst src constantFieldIdx => s.processGep inp dst src constantFieldIdx
  | .load dst src => s.processLoad id dst src
  | .store dst src => s.processStore inp id dst src
  | .phi res opVers => s.processPhi res opVers
  | .mssaPhi | .formalIN | .formalOUT | .actualIN | .actualOUT => (s, true)
  | .actualParm _ | .formalParm _ | .actualRet _ | .formalRet _ | .nullPtr => (s, true)
  | .other => (s, false)

/-- An edge from an actual parameter that does not go into a formal parameter,
where the source fails an assertion, propagates nothing; the same for returns. -/
def propAlongDirectEdge (e : SVFGEdge) : FlowSensitive D × Bool :=
  match inp.svfg.node e.src with
  | .actualParm ap =>
      match inp.svfg.node e.dst with
      | .formalParm fp => s.update (DFPTData.unionPts s.ptD fp (s.getPts ap))
      | _ => (s, false)
  | .formalRet fr =>
      match inp.svfg.node e.dst with
      | .actualRet ar => s.update (DFPTData.unionPts s.ptD ar (s.getPts fr))
      | _ => (s, false)
  | _ => (s, true)

def propVarPtsFromSrcToDst (src dst : NodeID) (ptD : D) (var : NodeID) : D × Bool :=
  if (inp.svfg.node src).isStore then DFPTData.updateDFInFromOut ptD src var dst var
  else DFPTData.updateDFInFromIn ptD src var dst var

def propAlongIndirectEdge (e : SVFGEdge) (pts : PointsTo) : FlowSensitive D × Bool :=
  s.update (unionEach (propVarPtsFromSrcToDst inp e.src e.dst)
    (pts.elems.flatMap (objAndFields s.pag)) s.ptD)

def propFromSrcToDst (e : SVFGEdge) : FlowSensitive D × Bool :=
  match e.kind with
  | .direct => s.propAlongDirectEdge inp e
  | .indirect pts => s.propAlongIndirectEdge inp e pts

def propagateEdge (e : SVFGEdge) : FlowSensitive D :=
  pushIfChanged (s.propFromSrcToDst inp e) e.dst

def propagate (id : NodeID) : FlowSensitive D :=
  (inp.svfg.outEdges id).foldl (fun s e => s.propagateEdge inp e) s

def clearAllDFOutVarFlag (id : NodeID) : FlowSensitive D :=
  { s with ptD := DFPTData.clearAllDFOutUpdatedVar s.ptD id }

def processNode (id : NodeID) : FlowSensitive D :=
  let (s, changed) := s.processSVFGNode inp id
  let s := if changed then s.propagate inp id else s
  s.clearAllDFOutVarFlag id

def initWorklist : FlowSensitive D := inp.svfg.nodes.foldl (fun s id => s.pushIntoWorklist id) s

def propVarPtsAfterCGUpdated (src dst : NodeID) (ptD : D) (var : NodeID) : D × Bool :=
  if (inp.svfg.node src).isStore then DFPTData.updateAllDFInFromOut ptD src var dst var
  else DFPTData.updateAllDFInFromIn ptD src var dst var

def updateConnectedNode (e : SVFGEdge) : FlowSensitive D :=
  match inp.svfg.node e.dst, e.kind with
  | .phi _ _, _ => s.pushIntoWorklist e.dst
  | .formalIN, .indirect pts | .actualOUT, .indirect pts =>
      pushIfChanged (s.update (unionEach (propVarPtsAfterCGUpdated inp e.src e.dst)
        (pts.elems.flatMap (objAndFields s.pag)) s.ptD)) e.dst
  | _, _ => s

def updateConnectedNodes (edges : List SVFGEdge) : FlowSensitive D :=
  edges.foldl (fun s e => s.updateConnectedNode inp e) s

end FlowSensitive

section

variable {D : Type} [DFPTData D]

open FlowSensitive

def initial (inp : Input) (pag : SVFIR) : FlowSensitive D :=
  initWorklist inp ⟨pag, DFPTData.empty, []⟩

structure Input.Extends (inp inp' : Input) : Prop where
  opts : inp'.opts = inp.opts
  alloc : inp'.alloc = inp.alloc
  svfg : Graphs.ValueFlowGraph.Extends inp.svfg inp'.svfg
  heap : inp'.isHeapMemObj = inp.isHeapMemObj
  array : inp'.isArrayMemObj = inp.isArrayMemObj
  recursive : ∀ id, inp.isLocalVarInRecursiveFun id = true → inp'.isLocalVarInRecursiveFun id = true

inductive Step (inp : Input) : FlowSensitive D → FlowSensitive D → Prop
  | node {s : FlowSensitive D} {id : NodeID} (hid : id ∈ s.worklist) :
      Step inp s ((s.popFromWorklist id).processNode inp id)

/-- The loop of `solveConstraints`: when the worklist is empty, the call graph
may be updated. -/
inductive Run (inp : Input) (pag : SVFIR) : Input → FlowSensitive D → Prop
  | start : Run inp pag inp (initial inp pag)
  | step {inp' : Input} {s t : FlowSensitive D} (h : Run inp pag inp' s) (hst : Step inp' s t) :
      Run inp pag inp' t
  | update {inp' inp'' : Input} {s : FlowSensitive D} (h : Run inp pag inp' s)
      (hempty : s.worklist = []) (hext : inp'.Extends inp'') (hwf : WellFormed inp''.svfg pag) :
      Run inp pag inp'' (initWorklist inp'' (s.updateConnectedNodes inp''
        (inp''.svfg.edges.filter (· ∉ inp'.svfg.edges))))

end

end SVF.WPA.FlowSensitiveSolver
