import SVF.Graphs.FieldObjects
import SVF.MemoryModel.MutablePointsToDS

namespace SVF.WPA.AndersenSolver

open Graphs.ConsG Graphs.FieldObjects MemoryModel.MutablePointsToDS

structure Andersen where
  pag : SVFIR
  consCG : ConstraintGraph
  ptD : MutableDiffPTData NodeID NodeID
  worklist : List NodeID
  reanalyze : Bool
  redundantGepNodes : List NodeID

namespace Andersen

variable (opts : Options) (alloc : NodeIDAllocator) (s : Andersen)

def sccRepNode (id : NodeID) : NodeID := s.consCG.sccRepNode id

/-- Points-to sets are read and joined at the representatives; `addPts`,
`clearPts` and `getRevPts` take the node as it is. -/
def getPts (id : NodeID) : List NodeID := s.ptD.getPts (s.sccRepNode id)

def unionPts (id : NodeID) (target : List NodeID) : Andersen × Bool :=
  let (ptD, changed) := s.ptD.unionPts (s.sccRepNode id) target
  ({ s with ptD := ptD }, changed)

def addPts (id ptd : NodeID) : Andersen × Bool :=
  let (ptD, changed) := s.ptD.addPts id ptd
  ({ s with ptD := ptD }, changed)

def clearPts (id element : NodeID) : Andersen := { s with ptD := s.ptD.clearPts id element }

def getRevPts (id : NodeID) : List NodeID := s.ptD.getRevPts id

def pushIntoWorklist (id : NodeID) : Andersen :=
  let rep := s.sccRepNode id
  if rep ∈ s.worklist then s else { s with worklist := s.worklist ++ [rep] }

def computeDiffPts (id : NodeID) : Andersen :=
  let rep := s.sccRepNode id
  { s with ptD := (s.ptD.computeDiffPts rep (s.ptD.getPts rep)).1 }

def getDiffPts (id : NodeID) : List NodeID := s.ptD.getDiffPts (s.sccRepNode id)

def updatePropaPts (dstId srcId : NodeID) : Andersen :=
  { s with ptD := s.ptD.updatePropaPtsMap (s.sccRepNode srcId) (s.sccRepNode dstId) }

def addCopyEdge (src dst : NodeID) : Andersen × Bool :=
  match s.consCG.addCopyCGEdge src dst with
  | some consCG => (updatePropaPts { s with consCG := consCG } src dst, true)
  | none => (s, false)

def processAddr (addr : ConstraintEdge) : Andersen :=
  match s.addPts addr.dst addr.src with
  | (s, true) => s.pushIntoWorklist addr.dst
  | (s, false) => s

def processAllAddr : Andersen :=
  s.consCG.IDToNodeMap.entries.foldl
    (fun s node => (node.2.inEdges .address).elems.foldl processAddr s) s

/-- For a pointed-to object `node` of the source of `load`: `node --copy--> dst`. -/
def processLoad (node : NodeID) (load : ConstraintEdge) : Andersen × Bool :=
  if s.pag.isConstantObj node || !s.pag.isPointer load.dst then (s, false)
  else s.addCopyEdge node load.dst

/-- For a pointed-to object `node` of the destination of `store`: `src --copy--> node`. -/
def processStore (node : NodeID) (store : ConstraintEdge) : Andersen × Bool :=
  if s.pag.isConstantObj node || !s.pag.isPointer store.src then (s, false)
  else s.addCopyEdge store.src node

def unionAndPush (dst : NodeID) (pts : List NodeID) : Andersen :=
  match s.unionPts dst pts with
  | (s, true) => s.pushIntoWorklist dst
  | (s, false) => s

def processCopy (node : NodeID) (edge : ConstraintEdge) : Andersen :=
  s.unionAndPush edge.dst (s.getDiffPts node)

def getGepObjVar (id : NodeID) (apOffset : APOffset) : Andersen × NodeID :=
  let (pag, gep) := s.pag.getGepObjVar opts alloc id apOffset
  if s.consCG.sccRepNode gep = gep ∧ s.consCG.hasConstraintNode gep = false then
    ({ s with pag := pag, consCG := s.consCG.addConstraintNode gep }, gep)
  else ({ s with pag := pag }, gep)

def variantGepObj : Andersen × List NodeID → NodeID → Andersen × List NodeID
  | (s, tmpDstPts), o =>
      if s.pag.isBlkObjOrConstantObj o then (s, tmpDstPts.insert o)
      else
        let s := if s.pag.isFieldInsensitive o then s
          else { s with
            pag := s.pag.setObjFieldInsensitive o
            consCG := s.consCG.addNodeToBeCollapsed (s.pag.getBaseObjVar o) }
        (s, tmpDstPts.insert (s.pag.getFIObjVar o))

def normalGepObj (ap : AccessPath) : Andersen × List NodeID → NodeID → Andersen × List NodeID
  | (s, tmpDstPts), o =>
      if s.pag.isBlkObjOrConstantObj o || s.pag.isFieldInsensitive o then (s, tmpDstPts.insert o)
      else
        let (s, fieldSrcPtdNode) := s.getGepObjVar opts alloc o ap.fldIdx
        (s, tmpDstPts.insert fieldSrcPtdNode)

def processGepPts (pts : List NodeID) (edge : ConstraintEdge) : Andersen :=
  match edge.cls with
  | .VariantGepCGEdge =>
      let (s, tmpDstPts) := pts.foldl variantGepObj (s, [])
      s.unionAndPush edge.dst tmpDstPts
  | .NormalGepCGEdge ap =>
      let (s, tmpDstPts) := pts.foldl (normalGepObj opts alloc ap) (s, [])
      s.unionAndPush edge.dst tmpDstPts
  | _ => s

def processGep (edge : ConstraintEdge) : Andersen :=
  s.processGepPts opts alloc (s.getDiffPts edge.src) edge

def handleCopyGep (nodeId : NodeID) : Andersen :=
  let node := (s.consCG.IDToNodeMap.lookup nodeId).getD .new
  let s := s.computeDiffPts nodeId
  if (s.getDiffPts nodeId).isEmpty then s
  else
    let s := (node.outEdges .copy).elems.foldl (fun s edge => s.processCopy nodeId edge) s
    (node.outEdges .gep).elems.foldl (fun s edge => s.processGep opts alloc edge) s

/-- A missing node, where the source fails an assertion, is not merged. -/
def mergeSrcToTgt (nodeId newRepId : NodeID) : Andersen × Bool :=
  if nodeId = newRepId ∨ s.consCG.hasConstraintNode nodeId = false ∨
      s.consCG.hasConstraintNode newRepId = false then (s, false)
  else
    let s := s.updatePropaPts newRepId nodeId
    let s := (s.unionPts newRepId (s.getPts nodeId)).1
    let node := s.sccRepNode nodeId
    let (consCG, pwc) := s.consCG.moveEdgesToRepNode node (s.sccRepNode newRepId)
    let pwc := pwc || consCG.isPWCNode nodeId
    ({ s with consCG := (consCG.updateNodeRepAndSubs node newRepId).removeConstraintNode node }, pwc)

def mergeNodeToRep (nodeId newRepId : NodeID) : Andersen :=
  match s.mergeSrcToTgt nodeId newRepId with
  | (s, true) => { s with consCG := s.consCG.setPWCNode newRepId }
  | (s, false) => s

def replaceField (fieldId baseId : NodeID) : Andersen × Bool :=
  let revPts := s.getRevPts fieldId
  (revPts.foldl (fun s o => (((s.clearPts o fieldId).addPts o baseId).1).pushIntoWorklist o) s,
    !revPts.isEmpty)

def collapseOneField (baseId baseRepNodeId : NodeID) : Andersen × Bool → NodeID → Andersen × Bool
  | (s, changed), fieldId =>
      if fieldId = baseId then (s, changed)
      else
        let (s, replaced) := s.replaceField fieldId baseId
        let s := s.mergeNodeToRep (s.sccRepNode fieldId) baseRepNodeId
        ({ s with redundantGepNodes :=
            if fieldId = baseRepNodeId then s.redundantGepNodes
            else s.redundantGepNodes.insert fieldId },
          changed || replaced)

def collapsePts (collapseField : Andersen → NodeID → Option (Andersen × Bool)) (nodeId : NodeID) :
    Option (Andersen × Bool) :=
  (s.getPts nodeId).foldlM (fun (s, changed) o =>
    if s.pag.isFieldInsensitive o then some (s, changed)
    else (collapseField s o).map fun (s, collapsed) => (s, changed || collapsed)) (s, false)

/-- `none` means that the fuel, a bound on the depth of the recursion, has run out. -/
def collapseField : ℕ → Andersen → NodeID → Option (Andersen × Bool)
  | 0, _, _ => none
  | fuel + 1, s, nodeId =>
      if s.pag.isBlkObjOrConstantObj nodeId then some (s, false)
      else
        let s := { s with pag := s.pag.setObjFieldInsensitive nodeId }
        let baseId := s.pag.getFIObjVar nodeId
        let baseRepNodeId := s.sccRepNode baseId
        let (s, changed) := (s.pag.getAllFieldsObjVars baseId).foldl
          (collapseOneField baseId baseRepNodeId) (s, false)
        if s.consCG.isPWCNode baseRepNodeId then
          (collapsePts s (collapseField fuel) baseRepNodeId).map
            fun (s, collapsed) => (s, changed || collapsed)
        else some (s, changed)

def collapseNodePts (fuel : ℕ) (nodeId : NodeID) : Option (Andersen × Bool) :=
  collapsePts s (collapseField fuel) nodeId

def setReanalyze : Andersen × Bool → Andersen
  | (s, true) => { s with reanalyze := true }
  | (s, false) => s

def collapsePWCNode (fuel : ℕ) (nodeId : NodeID) : Option Andersen :=
  if s.consCG.isPWCNode nodeId then (s.collapseNodePts fuel nodeId).map setReanalyze else some s

def collapseNextField (fuel : ℕ) : Option Andersen :=
  match s.consCG.nodesToBeCollapsed with
  | [] => some s
  | node :: rest =>
      (collapseField fuel { s with consCG := { s.consCG with nodesToBeCollapsed := rest } } node).map
        setReanalyze

def mergeSccNodes (repNodeId : NodeID) (subNodes : List NodeID) : Andersen :=
  subNodes.foldl (fun s subNodeId =>
    if subNodeId = repNodeId then s else s.mergeNodeToRep subNodeId repNodeId) s

def processNode (nodeId : NodeID) : Andersen :=
  if s.sccRepNode nodeId = nodeId then s.handleCopyGep opts alloc nodeId else s

def handleLoad (nodeId : NodeID) (edge : ConstraintEdge) : Andersen × Bool :=
  (s.getPts nodeId).foldl (fun (s, changed) o =>
    let (s, added) := s.processLoad o edge
    (s, changed || added)) (s, false)

def handleStore (nodeId : NodeID) (edge : ConstraintEdge) : Andersen × Bool :=
  (s.getPts nodeId).foldl (fun (s, changed) o =>
    let (s, added) := s.processStore o edge
    (s, changed || added)) (s, false)

def postProcessNode (nodeId : NodeID) : Andersen :=
  let node := (s.consCG.getConstraintNode nodeId).getD .new
  let s := (node.outEdges .load).elems.foldl (fun s edge => setReanalyze (s.handleLoad nodeId edge)) s
  (node.inEdges .store).elems.foldl (fun s edge => setReanalyze (s.handleStore nodeId edge)) s

def popFromWorklist : Option (NodeID × Andersen) :=
  match s.worklist with
  | [] => none
  | id :: rest => some (s.sccRepNode id, { s with worklist := rest })

/-- What `heapAllocatorViaIndCall` does before it adds a copy edge: the two new
nodes of a call that allocates. -/
def addHeapDummyNodes (valNode objNode : NodeID) : Andersen :=
  let s := { s with pag := { s.pag with nodes := objNode :: valNode :: s.pag.nodes } }
  let s := (s.addPts valNode objNode).1
  { s with consCG := (s.consCG.addConstraintNode valNode).addConstraintNode objNode }

end Andersen

end SVF.WPA.AndersenSolver
