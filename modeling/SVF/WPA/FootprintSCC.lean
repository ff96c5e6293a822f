import SVF.Graphs.ValueFlowGraph

namespace SVF.WPA.FootprintSCC

open Graphs.ConsG Graphs.ValueFlowGraph
open MemoryModel.PointsToSets (PointsTo)

/-- What versioning reads: the graph, the delta maps, the points-to sets of the
auxiliary analysis, and the points-to sets of the memory region nodes. -/
structure Versioning where
  svfg : SVFG
  delta : NodeID → Bool
  deltaSource : NodeID → Bool
  ander : NodeID → PointsTo
  mrPointsTo : NodeID → PointsTo

namespace Versioning

variable (vfs : Versioning)

def isStore (l : NodeID) : Bool := (vfs.svfg.node l).isStore

def isLoad (l : NodeID) : Bool :=
  match vfs.svfg.node l with
  | .load _ _ => true
  | _ => false

def isPrelabeled (l : NodeID) : Bool :=
  vfs.isStore l || (vfs.delta l && (vfs.svfg.node l).isMSSA)

def prelabeledNodes : List NodeID := vfs.svfg.nodes.filter vfs.isPrelabeled

def prelabeledPts (l : NodeID) : PointsTo :=
  match vfs.svfg.node l with
  | .store dst _ => vfs.ander dst
  | _ => vfs.mrPointsTo l

def prelabeledObjects : PointsTo :=
  vfs.prelabeledNodes.foldl (fun pts l => pts ∪ vfs.prelabeledPts l) ∅

def osStartingNodes (o : NodeID) : List NodeID :=
  vfs.prelabeledNodes.filter (fun l => o ∈ vfs.prelabeledPts l)

def nodesWhichNeedVersions : List NodeID :=
  vfs.svfg.nodes.filter fun n =>
    vfs.delta n || vfs.deltaSource n || vfs.isStore n || vfs.isLoad n

end Versioning

def carries (object : NodeID) (e : SVFGEdge) : Bool :=
  match e.kind with
  | .direct => false
  | .indirect pts => object ∈ pts

structure NodeData where
  index : ℕ
  lowlink : ℕ
  onStack : Bool

/-- The variables of `SCC::detectSCCs`. A node without data has the index `-1`. -/
structure SCC where
  partOf : NodeID → Option ℕ
  footprint : List SVFGEdge
  nodeData : NodeID → Option NodeData
  stack : List NodeID
  index : ℕ
  currentSCC : ℕ

namespace SCC

variable (vfs : Versioning) (object : NodeID)

def new : SCC := ⟨fun _ => none, [], fun _ => none, [], 0, 0⟩

def push (s : SCC) (v : NodeID) : SCC :=
  { s with
    nodeData := Function.update s.nodeData v (some ⟨s.index, s.index, true⟩)
    index := s.index + 1
    stack := v :: s.stack }

def lower (s : SCC) (v low : ℕ) : SCC :=
  let data := (s.nodeData v).map fun d => { d with lowlink := min d.lowlink low }
  { s with nodeData := Function.update s.nodeData v data }

def popSCC (s : SCC) (v : NodeID) : SCC :=
  let component := (s.stack.takeWhile (· ≠ v)).concat v
  { s with
    partOf := fun w => if w ∈ component then some s.currentSCC else s.partOf w
    nodeData := fun w =>
      if w ∈ component then (s.nodeData w).map fun d => { d with onStack := false }
      else s.nodeData w
    stack := (s.stack.dropWhile (· ≠ v)).tail
    currentSCC := s.currentSCC + 1 }

/-- One outgoing edge of `v`. Edges to delta nodes and stores belong to the
footprint, but components do not extend over them. -/
def visitEdge (visit : SCC → NodeID → SCC) (v : NodeID) (s : SCC) (e : SVFGEdge) : SCC :=
  if carries object e then
    let s := { s with footprint := s.footprint ++ [e] }
    let w := e.dst
    if vfs.delta w || vfs.isStore w then s
    else
      match s.nodeData w with
      | none =>
          let s := visit s w
          s.lower v (((s.nodeData w).map (·.lowlink)).getD 0)
      | some d => if d.onStack then s.lower v d.index else s
  else s

def visit : ℕ → SCC → NodeID → SCC
  | 0, s, _ => s
  | fuel + 1, s, v =>
      let s := (vfs.svfg.outEdges v).foldl (visitEdge vfs object (visit fuel) v) (s.push v)
      match s.nodeData v with
      | some d => if d.lowlink = d.index then s.popSCC v else s
      | none => s

end SCC

/-- Each call of `visit` on the way down is for a node that has no index yet, so
that the number of nodes bounds the depth. The edges of the footprint are in the
order of the graph, where the source sorts them by their addresses. -/
def detectSCCs (vfs : Versioning) (object : NodeID) : SCC :=
  let s := (vfs.osStartingNodes object).foldl (fun s v =>
    if (s.nodeData v).isNone then SCC.visit vfs object vfs.svfg.nodes.length s v else s) .new
  { s with footprint := vfs.svfg.edges.filter (· ∈ s.footprint) }

end SVF.WPA.FootprintSCC
