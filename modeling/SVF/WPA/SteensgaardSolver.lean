import SVF.Graphs.ReachableGraphs
import SVF.MemoryModel.PointsToSets
import SVF.Util.Representatives

namespace SVF.WPA.SteensgaardSolver

open Graphs.ConsG Util.Representatives
open MemoryModel.PointsToSets (PointsTo)

/-- The state of the solver. The calls of `ecUnion` that the iteration under way
has still to make are part of it. -/
structure Steensgaard where
  ptD : NodeID → PointsTo
  nodeToECMap : NodeID → Option NodeID
  nodeToSubsMap : NodeID → List NodeID
  worklist : List NodeID
  calls : List (NodeID × NodeID)

namespace Steensgaard

variable (s : Steensgaard)

def getEC (id : NodeID) : NodeID := (s.nodeToECMap id).getD id

def getPts (id : NodeID) : PointsTo := s.ptD (s.getEC id)

def getSubNodes (id : NodeID) : List NodeID := (s.nodeToSubsMap id).insert id

def unionPts (id ptd : NodeID) : Steensgaard × Bool :=
  let id := s.getEC id
  let ptd := s.getEC ptd
  let pts := s.ptD id ∪ s.ptD ptd
  ({ s with ptD := Function.update s.ptD id pts }, s.ptD id ≠ pts)

def addPts (id ptd : NodeID) : Steensgaard × Bool :=
  let pts := (s.ptD id).set ptd
  ({ s with ptD := Function.update s.ptD id pts }, s.ptD id ≠ pts)

def pushIntoWorklist (id : NodeID) : Steensgaard :=
  { s with worklist := s.worklist.insert (s.getEC id) }

def setEC (node rep : NodeID) : Steensgaard :=
  let rep := s.getEC rep
  let subNodes := s.getSubNodes node
  { s with
    nodeToECMap := fun id => if id ∈ subNodes then some rep else s.nodeToECMap id
    nodeToSubsMap := Function.update (Function.update s.nodeToSubsMap rep
      (s.nodeToSubsMap rep ∪ subNodes)) node [] }

/-- Merge `node` into the class of `ec` and its points-to set into that of `ec`. -/
def ecUnion (node ec : NodeID) : Steensgaard :=
  let s := match s.unionPts ec node with
    | (s, true) => s.pushIntoWorklist ec
    | (s, false) => s
  s.setEC node ec

def processAddr (addr : ConstraintEdge) : Steensgaard :=
  match s.addPts addr.dst addr.src with
  | (s, true) => s.pushIntoWorklist addr.dst
  | (s, false) => s

def processAllAddr (consCG : ConstraintGraph) : Steensgaard :=
  consCG.IDToNodeMap.entries.foldl
    (fun s node => (node.2.inEdges .address).elems.foldl processAddr s) s

end Steensgaard

open Steensgaard

def nodeCalls (consCG : ConstraintGraph) (nodeId : NodeID) (pts : PointsTo) :
    List (NodeID × NodeID) :=
  let node := (consCG.getConstraintNode nodeId).getD .new
  pts.elems.flatMap (fun o =>
    (node.inEdges .store).elems.map (fun edge => (edge.src, o)) ++
    (node.outEdges .load).elems.map (fun edge => (o, edge.dst))) ++
  (node.outEdges .copy).elems.map (fun edge => (edge.src, edge.dst)) ++
  (node.outEdges .gep).elems.map (fun edge => (edge.src, edge.dst))

/-- The points-to set is read once, when the iteration begins: the reference that
`getPts` returns is to a set that the cache of points-to sets never changes. -/
def Steensgaard.popNode (s : Steensgaard) (consCG : ConstraintGraph) (n : NodeID) : Steensgaard :=
  let nodeId := s.getEC n
  { s with
    worklist := s.worklist.erase n
    calls := nodeCalls consCG nodeId (s.getPts nodeId) }

inductive Step (consCG : ConstraintGraph) : Steensgaard → Steensgaard → Prop
  | pop (s : Steensgaard) (n : NodeID) (hn : n ∈ s.worklist) (hcalls : s.calls = []) :
      Step consCG s (s.popNode consCG n)
  | union (s : Steensgaard) (node ec : NodeID) (rest : List (NodeID × NodeID))
      (hcalls : s.calls = (node, ec) :: rest) :
      Step consCG s ({ s with calls := rest }.ecUnion node ec)

/-- The state in which the loop begins, with what `initWorklist` has pushed. -/
def start (consCG : ConstraintGraph) (worklist : List NodeID) : Steensgaard :=
  processAllAddr ⟨fun _ => ∅, fun _ => none, fun _ => [], worklist, []⟩ consCG

def Finished (s : Steensgaard) : Prop := s.worklist = [] ∧ s.calls = []

end SVF.WPA.SteensgaardSolver
