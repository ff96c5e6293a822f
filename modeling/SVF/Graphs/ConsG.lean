import Mathlib.Data.List.AList
import SVF.Util.OrderedSets

namespace SVF.Graphs.ConsG

open Util.OrderedSets

abbrev NodeID := ℕ

abbrev APOffset := ℤ

structure AccessPath where
  fldIdx : APOffset
  deriving DecidableEq

inductive ConstraintEdgeK
  | Addr | Copy | Store | Load | NormalGep | VariantGep
  deriving DecidableEq

def ConstraintEdgeK.flag : ConstraintEdgeK → ℕ
  | .Addr => 0
  | .Copy => 1
  | .Store => 2
  | .Load => 3
  | .NormalGep => 4
  | .VariantGep => 5

inductive EdgeClass
  | AddrCGEdge
  | CopyCGEdge
  | StoreCGEdge (svfgid : NodeID)
  | LoadCGEdge (svfgid : NodeID)
  | NormalGepCGEdge (ap : AccessPath)
  | VariantGepCGEdge
  deriving DecidableEq

structure ConstraintEdge where
  src : NodeID
  dst : NodeID
  cls : EdgeClass
  deriving DecidableEq

def EdgeClass.getEdgeKind : EdgeClass → ConstraintEdgeK
  | .AddrCGEdge => .Addr
  | .CopyCGEdge => .Copy
  | .StoreCGEdge _ => .Store
  | .LoadCGEdge _ => .Load
  | .NormalGepCGEdge _ => .NormalGep
  | .VariantGepCGEdge => .VariantGep

def edgeKey (kind : ConstraintEdgeK) (src dst : NodeID) : ℕ ×ₗ ℕ ×ₗ ℕ :=
  toLex (kind.flag, toLex (src, dst))

def ConstraintEdge.key (e : ConstraintEdge) : ℕ ×ₗ ℕ ×ₗ ℕ :=
  edgeKey e.cls.getEdgeKind e.src e.dst

abbrev ConstraintEdgeSetTy := OrderedSet ConstraintEdge.key

/-- The edge sets a node keeps for one direction: `InEdges`, `directInEdges` and
so on, or `OutEdges`, `directOutEdges` and so on. -/
inductive NodeEdgeSet
  | edges | direct | copy | gep | load | store | address
  deriving DecidableEq

structure ConstraintNode where
  inEdges : NodeEdgeSet → ConstraintEdgeSetTy
  outEdges : NodeEdgeSet → ConstraintEdgeSetTy
  isPWCNode : Bool

namespace ConstraintNode

def new : ConstraintNode := ⟨fun _ => .empty, fun _ => .empty, false⟩

def addIncoming (sets : List NodeEdgeSet) (node : ConstraintNode) (inEdge : ConstraintEdge) :
    ConstraintNode :=
  { node with inEdges := fun k =>
      if k ∈ sets then (node.inEdges k).insert inEdge else node.inEdges k }

def addOutgoing (sets : List NodeEdgeSet) (node : ConstraintNode) (outEdge : ConstraintEdge) :
    ConstraintNode :=
  { node with outEdges := fun k =>
      if k ∈ sets then (node.outEdges k).insert outEdge else node.outEdges k }

def removeIncoming (sets : List NodeEdgeSet) (node : ConstraintNode) (inEdge : ConstraintEdge) :
    ConstraintNode :=
  { node with inEdges := fun k =>
      if k ∈ sets then (node.inEdges k).erase inEdge else node.inEdges k }

def removeOutgoing (sets : List NodeEdgeSet) (node : ConstraintNode) (outEdge : ConstraintEdge) :
    ConstraintNode :=
  { node with outEdges := fun k =>
      if k ∈ sets then (node.outEdges k).erase outEdge else node.outEdges k }

def addIncomingCopyEdge := addIncoming [.direct, .edges, .copy]

def addIncomingGepEdge := addIncoming [.direct, .edges, .gep]

def addOutgoingCopyEdge := addOutgoing [.direct, .edges, .copy]

def addOutgoingGepEdge := addOutgoing [.direct, .edges, .gep]

def addIncomingAddrEdge := addIncoming [.address, .edges]

def addIncomingLoadEdge := addIncoming [.load, .edges]

def addIncomingStoreEdge := addIncoming [.store, .edges]

def addOutgoingAddrEdge := addOutgoing [.address, .edges]

def addOutgoingLoadEdge := addOutgoing [.load, .edges]

def addOutgoingStoreEdge := addOutgoing [.store, .edges]

def removeOutgoingAddrEdge := removeOutgoing [.address, .edges]

def removeIncomingAddrEdge := removeIncoming [.address, .edges]

def removeOutgoingDirectEdge (node : ConstraintNode) (outEdge : ConstraintEdge) : ConstraintNode :=
  match outEdge.cls with
  | .NormalGepCGEdge _ | .VariantGepCGEdge => node.removeOutgoing [.gep, .direct, .edges] outEdge
  | _ => node.removeOutgoing [.copy, .direct, .edges] outEdge

def removeIncomingDirectEdge (node : ConstraintNode) (inEdge : ConstraintEdge) : ConstraintNode :=
  match inEdge.cls with
  | .NormalGepCGEdge _ | .VariantGepCGEdge => node.removeIncoming [.gep, .direct, .edges] inEdge
  | _ => node.removeIncoming [.copy, .direct, .edges] inEdge

def removeOutgoingLoadEdge := removeOutgoing [.load, .edges]

def removeIncomingLoadEdge := removeIncoming [.load, .edges]

def removeOutgoingStoreEdge := removeOutgoing [.store, .edges]

def removeIncomingStoreEdge := removeIncoming [.store, .edges]

end ConstraintNode

inductive GraphEdgeSet
  | AddrCGEdgeSet | directEdgeSet | LoadCGEdgeSet | StoreCGEdgeSet
  deriving DecidableEq

def ConstraintEdgeK.edgeSet : ConstraintEdgeK → GraphEdgeSet
  | .Copy | .NormalGep | .VariantGep => .directEdgeSet
  | .Addr => .AddrCGEdgeSet
  | .Store => .StoreCGEdgeSet
  | .Load => .LoadCGEdgeSet

structure ConstraintGraph where
  IDToNodeMap : AList (fun _ : NodeID => ConstraintNode)
  edgeSets : GraphEdgeSet → ConstraintEdgeSetTy
  nodeToRepMap : NodeID → Option NodeID
  nodeToSubsMap : NodeID → List NodeID
  nodesToBeCollapsed : List NodeID

namespace ConstraintGraph

def empty : ConstraintGraph := ⟨∅, fun _ => .empty, fun _ => none, fun _ => [], []⟩

variable (g : ConstraintGraph)

def sccRepNode (id : NodeID) : NodeID := (g.nodeToRepMap id).getD id

def hasGNode (id : NodeID) : Bool := (g.IDToNodeMap.lookup id).isSome

def getConstraintNode (id : NodeID) : Option ConstraintNode :=
  g.IDToNodeMap.lookup (g.sccRepNode id)

def hasConstraintNode (id : NodeID) : Bool := g.hasGNode (g.sccRepNode id)

def addConstraintNode (id : NodeID) : ConstraintGraph :=
  { g with IDToNodeMap := g.IDToNodeMap.insert id .new }

def removeConstraintNode (id : NodeID) : ConstraintGraph :=
  { g with IDToNodeMap := g.IDToNodeMap.erase id }

def modifyNode (id : NodeID) (f : ConstraintNode → ConstraintNode) : ConstraintGraph :=
  match g.IDToNodeMap.lookup id with
  | some node => { g with IDToNodeMap := g.IDToNodeMap.insert id (f node) }
  | none => g

def modifyEdgeSet (set : GraphEdgeSet) (f : ConstraintEdgeSetTy → ConstraintEdgeSetTy) :
    ConstraintGraph :=
  { g with edgeSets := Function.update g.edgeSets set (f (g.edgeSets set)) }

def hasEdge (src dst : NodeID) (kind : ConstraintEdgeK) : Bool :=
  (g.edgeSets kind.edgeSet).contains (edgeKey kind src dst)

/-- The part that the `add*CGEdge` share. `none` means that no edge is added. A
missing end, where the source fails an assertion, adds none either. -/
def addCGEdge (addOut addIn : ConstraintNode → ConstraintEdge → ConstraintNode)
    (cls : EdgeClass) (src dst : NodeID) : Option ConstraintGraph :=
  let srcNode := g.sccRepNode src
  let dstNode := g.sccRepNode dst
  if g.hasGNode srcNode && g.hasGNode dstNode && !g.hasEdge srcNode dstNode cls.getEdgeKind then
    let edge : ConstraintEdge := ⟨srcNode, dstNode, cls⟩
    some (((g.modifyEdgeSet cls.getEdgeKind.edgeSet (·.insert edge)).modifyNode srcNode
      (addOut · edge)).modifyNode dstNode (addIn · edge))
  else none

def addAddrCGEdge : NodeID → NodeID → Option ConstraintGraph :=
  g.addCGEdge .addOutgoingAddrEdge .addIncomingAddrEdge .AddrCGEdge

def addCopyCGEdge (src dst : NodeID) : Option ConstraintGraph :=
  if g.sccRepNode src = g.sccRepNode dst then none
  else g.addCGEdge .addOutgoingCopyEdge .addIncomingCopyEdge .CopyCGEdge src dst

def addNormalGepCGEdge (src dst : NodeID) (ap : AccessPath) : Option ConstraintGraph :=
  g.addCGEdge .addOutgoingGepEdge .addIncomingGepEdge (.NormalGepCGEdge ap) src dst

def addVariantGepCGEdge : NodeID → NodeID → Option ConstraintGraph :=
  g.addCGEdge .addOutgoingGepEdge .addIncomingGepEdge .VariantGepCGEdge

def addLoadCGEdge (src dst fsID : NodeID) : Option ConstraintGraph :=
  g.addCGEdge .addOutgoingLoadEdge .addIncomingLoadEdge (.LoadCGEdge fsID) src dst

def addStoreCGEdge (src dst fsID : NodeID) : Option ConstraintGraph :=
  g.addCGEdge .addOutgoingStoreEdge .addIncomingStoreEdge (.StoreCGEdge fsID) src dst

def removeCGEdge (removeOut removeIn : ConstraintNode → ConstraintEdge → ConstraintNode)
    (set : GraphEdgeSet) (edge : ConstraintEdge) : ConstraintGraph :=
  ((g.modifyNode (g.sccRepNode edge.src) (removeOut · edge)).modifyNode (g.sccRepNode edge.dst)
    (removeIn · edge)).modifyEdgeSet set (·.erase edge)

def removeAddrEdge : ConstraintEdge → ConstraintGraph :=
  g.removeCGEdge .removeOutgoingAddrEdge .removeIncomingAddrEdge .AddrCGEdgeSet

def removeLoadEdge : ConstraintEdge → ConstraintGraph :=
  g.removeCGEdge .removeOutgoingLoadEdge .removeIncomingLoadEdge .LoadCGEdgeSet

def removeStoreEdge : ConstraintEdge → ConstraintGraph :=
  g.removeCGEdge .removeOutgoingStoreEdge .removeIncomingStoreEdge .StoreCGEdgeSet

def removeDirectEdge : ConstraintEdge → ConstraintGraph :=
  g.removeCGEdge .removeOutgoingDirectEdge .removeIncomingDirectEdge .directEdgeSet

def reTargetDstOfEdge (edge : ConstraintEdge) (newDstNodeID : NodeID) : ConstraintGraph :=
  match edge.cls with
  | .LoadCGEdge svfgid =>
      let g := g.removeLoadEdge edge
      (g.addLoadCGEdge edge.src newDstNodeID svfgid).getD g
  | .StoreCGEdge svfgid =>
      let g := g.removeStoreEdge edge
      (g.addStoreCGEdge edge.src newDstNodeID svfgid).getD g
  | .CopyCGEdge =>
      let g := g.removeDirectEdge edge
      (g.addCopyCGEdge edge.src newDstNodeID).getD g
  | .NormalGepCGEdge ap =>
      let g := g.removeDirectEdge edge
      (g.addNormalGepCGEdge edge.src newDstNodeID ap).getD g
  | .VariantGepCGEdge =>
      let g := g.removeDirectEdge edge
      (g.addVariantGepCGEdge edge.src newDstNodeID).getD g
  | .AddrCGEdge => g.removeAddrEdge edge

def reTargetSrcOfEdge (edge : ConstraintEdge) (newSrcNodeID : NodeID) : ConstraintGraph :=
  match edge.cls with
  | .LoadCGEdge svfgid =>
      let g := g.removeLoadEdge edge
      (g.addLoadCGEdge newSrcNodeID edge.dst svfgid).getD g
  | .StoreCGEdge svfgid =>
      let g := g.removeStoreEdge edge
      (g.addStoreCGEdge newSrcNodeID edge.dst svfgid).getD g
  | .CopyCGEdge =>
      let g := g.removeDirectEdge edge
      (g.addCopyCGEdge newSrcNodeID edge.dst).getD g
  | .NormalGepCGEdge ap =>
      let g := g.removeDirectEdge edge
      (g.addNormalGepCGEdge newSrcNodeID edge.dst ap).getD g
  | .VariantGepCGEdge =>
      let g := g.removeDirectEdge edge
      (g.addVariantGepCGEdge newSrcNodeID edge.dst).getD g
  | .AddrCGEdge => g.removeAddrEdge edge

end ConstraintGraph

def isZeroOffsettedGepCGEdge (edge : ConstraintEdge) : Bool :=
  match edge.cls with
  | .NormalGepCGEdge ap => ap.fldIdx = 0
  | _ => false

namespace ConstraintGraph

variable (g : ConstraintGraph)

/-- What `moveInEdgesToRepNode` and `moveOutEdgesToRepNode` do with an edge
inside the SCC; they differ in the end that loads and stores are retargeted at. -/
def moveSccEdge (reTarget : ConstraintGraph → ConstraintEdge → NodeID → ConstraintGraph)
    (rep : NodeID) : ConstraintGraph × Bool → ConstraintEdge → ConstraintGraph × Bool
  | (g, criticalGepInsideSCC), edge =>
      match edge.cls with
      | .CopyCGEdge => (g.removeDirectEdge edge, criticalGepInsideSCC)
      | .NormalGepCGEdge _ | .VariantGepCGEdge =>
          (g.removeDirectEdge edge, criticalGepInsideSCC || !isZeroOffsettedGepCGEdge edge)
      | .LoadCGEdge _ | .StoreCGEdge _ => (reTarget g edge rep, criticalGepInsideSCC)
      | .AddrCGEdge => (g.removeAddrEdge edge, criticalGepInsideSCC)

def moveInEdgesToRepNode (node rep : NodeID) : ConstraintGraph × Bool :=
  let inEdges := ((g.IDToNodeMap.lookup node).getD .new).inEdges .edges
  let nonSccEdges := inEdges.elems.filter (fun e => g.sccRepNode e.src ≠ rep)
  let sccEdges := inEdges.elems.filter (fun e => g.sccRepNode e.src = rep)
  let g := nonSccEdges.reverse.foldl (fun g e => g.reTargetDstOfEdge e rep) g
  sccEdges.reverse.foldl (moveSccEdge reTargetDstOfEdge rep) (g, false)

def moveOutEdgesToRepNode (node rep : NodeID) : ConstraintGraph × Bool :=
  let outEdges := ((g.IDToNodeMap.lookup node).getD .new).outEdges .edges
  let nonSccEdges := outEdges.elems.filter (fun e => g.sccRepNode e.dst ≠ rep)
  let sccEdges := outEdges.elems.filter (fun e => g.sccRepNode e.dst = rep)
  let g := nonSccEdges.reverse.foldl (fun g e => g.reTargetSrcOfEdge e rep) g
  sccEdges.reverse.foldl (moveSccEdge reTargetSrcOfEdge rep) (g, false)

def moveEdgesToRepNode (node rep : NodeID) : ConstraintGraph × Bool :=
  let (g, gepIn) := g.moveInEdgesToRepNode node rep
  let (g, gepOut) := g.moveOutEdgesToRepNode node rep
  (g, gepIn || gepOut)

def sccSubNodes (id : NodeID) : List NodeID := (g.nodeToSubsMap id).insert id

def updateNodeRepAndSubs (nodeId newRepId : NodeID) : ConstraintGraph :=
  let nodeSubs := g.sccSubNodes nodeId
  { g with
    nodeToRepMap := fun id => if id ∈ nodeSubs then some newRepId else g.nodeToRepMap id
    nodeToSubsMap := Function.update (Function.update g.nodeToSubsMap newRepId
      (g.nodeToSubsMap newRepId ∪ nodeSubs)) nodeId [] }

def resetSubs (node : NodeID) : ConstraintGraph :=
  { g with nodeToSubsMap := Function.update g.nodeToSubsMap node [] }

def getSubs (node : NodeID) : List NodeID := g.nodeToSubsMap node

def getRep (node : NodeID) : NodeID × ConstraintGraph :=
  let rep := (g.nodeToRepMap node).getD 0
  (rep, { g with nodeToRepMap := Function.update g.nodeToRepMap node (some rep) })

def resetRep (node : NodeID) : ConstraintGraph :=
  { g with nodeToRepMap := Function.update g.nodeToRepMap node none }

def addNodeToBeCollapsed (id : NodeID) : ConstraintGraph :=
  if id ∈ g.nodesToBeCollapsed then g
  else { g with nodesToBeCollapsed := g.nodesToBeCollapsed ++ [id] }

def isPWCNode (id : NodeID) : Bool := ((g.getConstraintNode id).getD .new).isPWCNode

def setPWCNode (id : NodeID) : ConstraintGraph :=
  g.modifyNode (g.sccRepNode id) (fun node => { node with isPWCNode := true })

end ConstraintGraph

end SVF.Graphs.ConsG
