import SVF.MemoryModel.PointsToSets

namespace SVF.Graphs.SVFGOPT

open MemoryModel.PointsToSets (NodeID PointsTo)

abbrev CallSiteID := ℕ

inductive SVFGNodeK
  | actualIN
  | actualOUT
  | formalIN
  | formalOUT
  | mssaPhi
  | other
  deriving DecidableEq

def SVFGNodeK.isAInFOut : SVFGNodeK → Bool
  | .actualIN | .formalOUT => true
  | _ => false

def SVFGNodeK.isAOutFIn : SVFGNodeK → Bool
  | .actualOUT | .formalIN => true
  | _ => false

inductive IndirectEdgeK
  | intra
  | call (csid : CallSiteID)
  | ret (csid : CallSiteID)
  deriving DecidableEq

def IndirectEdgeK.isInter : IndirectEdgeK → Bool
  | .intra => false
  | .call _ | .ret _ => true

structure IndirectSVFGEdge where
  src : NodeID
  dst : NodeID
  kind : IndirectEdgeK
  cpts : PointsTo
  deriving DecidableEq

/-- What does not change: the kinds of the nodes, and where they reside. -/
structure SVFGNodes where
  kind : NodeID → SVFGNodeK
  isIndirectCallSites : NodeID → Bool
  hasAddressTaken : NodeID → Bool

structure SVFG where
  nodes : List NodeID
  edges : List IndirectSVFGEdge

namespace SVFG

def inEdges (svfg : SVFG) (n : NodeID) : List IndirectSVFGEdge := svfg.edges.filter (·.dst = n)

def outEdges (svfg : SVFG) (n : NodeID) : List IndirectSVFGEdge := svfg.edges.filter (·.src = n)

def hasIncomingEdge (svfg : SVFG) (n : NodeID) : Bool := !(svfg.inEdges n).isEmpty

def hasOutgoingEdge (svfg : SVFG) (n : NodeID) : Bool := !(svfg.outEdges n).isEmpty

/-- `hasIntraVFGEdge` and `hasInterVFGEdge` look for an edge with these ends, kind and id. -/
def sameEdge (e new : IndirectSVFGEdge) : Bool :=
  e.src = new.src && e.dst = new.dst && e.kind = new.kind

/-- `addIntraIndirectVFEdge`, `addCallIndirectVFEdge` and `addRetIndirectVFEdge`. The flag
says whether the source returns an edge: a new one, or one whose set has grown. -/
def addIndirectVFEdge (svfg : SVFG) (new : IndirectSVFGEdge) : SVFG × Bool :=
  match svfg.edges.find? (sameEdge · new) with
  | some edge =>
      ({ svfg with edges := svfg.edges.map fun e =>
          if sameEdge e new then { e with cpts := e.cpts ∪ new.cpts } else e },
        edge.cpts ∪ new.cpts ≠ edge.cpts)
  | none => ({ svfg with edges := svfg.edges ++ [new] }, true)

def removeSVFGEdge (svfg : SVFG) (edge : IndirectSVFGEdge) : SVFG :=
  { svfg with edges := svfg.edges.filter (· ≠ edge) }

def removeInEdges (svfg : SVFG) (n : NodeID) : SVFG :=
  { svfg with edges := svfg.edges.filter (·.dst ≠ n) }

def removeOutEdges (svfg : SVFG) (n : NodeID) : SVFG :=
  { svfg with edges := svfg.edges.filter (·.src ≠ n) }

def removeAllEdges (svfg : SVFG) (n : NodeID) : SVFG := (svfg.removeInEdges n).removeOutEdges n

def removeSVFGNode (svfg : SVFG) (n : NodeID) : SVFG := { svfg with nodes := svfg.nodes.erase n }

def isConnectingTwoCallSites (svfg : SVFG) (n : NodeID) : Bool :=
  (svfg.inEdges n).any (·.kind.isInter) && (svfg.outEdges n).any (·.kind.isInter)

end SVFG

/-- What the builder of the graph guarantees: calls are entered from actual-in to
formal-in and left from formal-out to actual-out, and an actual-in or formal-out, which
has no other edges to its uses, has the one edge from its definition. -/
structure WellFormed (nodes : SVFGNodes) (svfg : SVFG) : Prop where
  nodup : svfg.nodes.Nodup
  src : ∀ e ∈ svfg.edges, e.src ∈ svfg.nodes
  dst : ∀ e ∈ svfg.edges, e.dst ∈ svfg.nodes
  call : ∀ e ∈ svfg.edges, ∀ csid, e.kind = .call csid →
    nodes.kind e.src = .actualIN ∧ nodes.kind e.dst = .formalIN
  ret : ∀ e ∈ svfg.edges, ∀ csid, e.kind = .ret csid →
    nodes.kind e.src = .formalOUT ∧ nodes.kind e.dst = .actualOUT
  intra : ∀ e ∈ svfg.edges, e.kind = .intra → (nodes.kind e.src).isAInFOut = false
  defEdge : ∀ n ∈ svfg.nodes, (nodes.kind n).isAInFOut = true → ∃ e, svfg.inEdges n = [e]

section

structure Options where
  contextInsensitive : Bool
  keepActualOutFormalIn : Bool
  selfCycle : String

structure State where
  svfg : SVFG
  actualInToDefMap : NodeID → Option NodeID
  formalOutToDefMap : NodeID → Option NodeID
  defNodes : PointsTo
  worklist : List NodeID

def State.isDefOfAInFOut (s : State) (n : NodeID) : Bool := n ∈ s.defNodes

variable (opt : Options) (nodes : SVFGNodes)

/-- `addCallIndirectSVFGEdge` and `addRetIndirectSVFGEdge` drop the call-site id
when the graph is to be context-insensitive. -/
def interKind (kind : IndirectEdgeK) : IndirectEdgeK :=
  if opt.contextInsensitive then .intra else kind

namespace State

def setDef (s : State) (node defNode : NodeID) : State :=
  match nodes.kind node with
  | .actualIN => { s with
      actualInToDefMap := Function.update s.actualInToDefMap node (some defNode)
      defNodes := s.defNodes.set defNode }
  | .formalOUT => { s with
      formalOutToDefMap := Function.update s.formalOutToDefMap node (some defNode)
      defNodes := s.defNodes.set defNode }
  | _ => s

/-- An assertion that fails gives `none`. -/
def retargetEdgesOfAInFOut (s : State) (node : NodeID) : Option State :=
  match s.svfg.inEdges node with
  | [inEdge] => do
      let svfg ← (s.svfg.outEdges node).foldlM (fun svfg outEdge =>
        let intersection := inEdge.cpts.inter outEdge.cpts
        if intersection = ∅ then
          some svfg
        else if outEdge.kind.isInter then
          some (svfg.addIndirectVFEdge
            ⟨inEdge.src, outEdge.dst, interKind opt outEdge.kind, intersection⟩).1
        else
          none) s.svfg
      some { s.setDef nodes node inEdge.src with svfg := svfg.removeAllEdges node }
  | _ => none

def retargetEdgesOfAOutFIn (s : State) (node : NodeID) : State :=
  let svfg := (s.svfg.inEdges node).foldl (fun svfg inEdge =>
    (s.svfg.outEdges node).foldl (fun svfg outEdge =>
      let intersection := inEdge.cpts.inter outEdge.cpts
      if intersection = ∅ then
        svfg
      else
        (svfg.addIndirectVFEdge
          ⟨inEdge.src, outEdge.dst, interKind opt inEdge.kind, intersection⟩).1) svfg) s.svfg
  { s with svfg := svfg.removeAllEdges node }

def canBeRemoved (s : State) (node : NodeID) : Bool :=
  match nodes.kind node with
  | .actualIN => !s.svfg.isConnectingTwoCallSites node && !nodes.isIndirectCallSites node
  | .actualOUT => !s.svfg.isConnectingTwoCallSites node && !nodes.isIndirectCallSites node &&
      !s.isDefOfAInFOut node
  | .formalIN => !s.svfg.isConnectingTwoCallSites node && !nodes.hasAddressTaken node &&
      !s.isDefOfAInFOut node
  | .formalOUT => !s.svfg.isConnectingTwoCallSites node && !nodes.hasAddressTaken node
  | .mssaPhi | .other => false

def handleCandidate (s : State) (node : NodeID) : Option State :=
  if (nodes.kind node).isAInFOut then s.retargetEdgesOfAInFOut opt nodes node else some s

def deleteNode (s : State) (node : NodeID) : State :=
  if s.canBeRemoved nodes node then
    let s := if (nodes.kind node).isAOutFIn then s.retargetEdgesOfAOutFIn opt node else s
    { s with svfg := (s.svfg.removeAllEdges node).removeSVFGNode node }
  else s

end State

/-- Parameters and returns of top-level pointers have direct edges only, and are left out. -/
def candidates (svfg : SVFG) : List NodeID :=
  svfg.nodes.filter fun n => (nodes.kind n).isAInFOut || (nodes.kind n).isAOutFIn

def nodesToBeDeleted (candidates : List NodeID) : List NodeID :=
  candidates.filter fun n => (nodes.kind n).isAInFOut || !opt.keepActualOutFormalIn

def handleInterValueFlow (candidates nodesToBeDeleted : List NodeID) (s : State) : Option State := do
  let s ← candidates.foldlM (fun s node => s.handleCandidate opt nodes node) s
  some (nodesToBeDeleted.foldl (fun s node => s.deleteNode opt nodes node) s)

structure SelfCycles where
  keepAllSelfCycle : Bool
  keepContextSelfCycle : Bool

def parseSelfCycleHandleOption (choice : String) : SelfCycles :=
  if choice = "" || choice = "all" then ⟨true, false⟩
  else if choice = "context" then ⟨false, true⟩
  else if choice = "none" then ⟨false, false⟩
  else ⟨true, false⟩

namespace State

def addIntoWorklist (s : State) (n : NodeID) : State :=
  if nodes.kind n = .mssaPhi && !s.svfg.isConnectingTwoCallSites n && !s.isDefOfAInFOut n &&
      !(n ∈ s.worklist) then
    { s with worklist := s.worklist ++ [n] }
  else s

def initialWorkList (s : State) : State := s.svfg.nodes.foldl (fun s n => s.addIntoWorklist nodes n) s

end State

def checkSelfCycleEdges (keep : SelfCycles) :
    List IndirectSVFGEdge → SVFG → Bool → SVFG × Bool
  | [], svfg, hasSelfCycle => (svfg, hasSelfCycle)
  | preEdge :: inEdges, svfg, hasSelfCycle =>
      if preEdge.src = preEdge.dst then
        if keep.keepAllSelfCycle then
          (svfg, true)
        else if keep.keepContextSelfCycle && preEdge.kind.isInter then
          checkSelfCycleEdges keep inEdges svfg true
        else
          checkSelfCycleEdges keep inEdges (svfg.removeSVFGEdge preEdge) hasSelfCycle
      else checkSelfCycleEdges keep inEdges svfg hasSelfCycle

def bothInterEdges (edge1 edge2 : IndirectSVFGEdge) : Bool :=
  edge1.kind.isInter && edge2.kind.isInter

/-- Call edges go before return edges, and each time the predecessor's before the successor's. -/
def newEdgeKind (pre succ : IndirectEdgeK) : IndirectEdgeK :=
  match pre, succ with
  | .call csid, _ => interKind opt (.call csid)
  | _, .call csid => interKind opt (.call csid)
  | .ret csid, _ => interKind opt (.ret csid)
  | _, .ret csid => interKind opt (.ret csid)
  | .intra, .intra => .intra

/-- The assertion that fails on two call or return edges gives `none`. -/
def addNewSVFGEdge (svfg : SVFG) (preEdge succEdge : IndirectSVFGEdge) : Option (SVFG × Bool) :=
  let intersection := preEdge.cpts.inter succEdge.cpts
  if intersection = ∅ then
    some (svfg, false)
  else if bothInterEdges preEdge succEdge then
    none
  else
    some (svfg.addIndirectVFEdge
      ⟨preEdge.src, succEdge.dst, newEdgeKind opt preEdge.kind succEdge.kind, intersection⟩)

namespace State

def bypassEdge (preEdge : IndirectSVFGEdge) (r : State × Bool) (succEdge : IndirectSVFGEdge) :
    Option (State × Bool) :=
  if preEdge.src ≠ succEdge.dst then do
    let (svfg, isNew) ← addNewSVFGEdge opt r.1.svfg preEdge succEdge
    let s := { r.1 with svfg := svfg }
    some (if isNew then (s, true) else (s.addIntoWorklist nodes succEdge.dst, r.2))
  else
    some (r.1.addIntoWorklist nodes succEdge.dst, r.2)

def bypassMSSAPHINode (s : State) (node : NodeID) : Option State := do
  let s ← (s.svfg.inEdges node).foldlM (fun t preEdge => do
    let (t, added) ← (s.svfg.outEdges node).foldlM (bypassEdge opt nodes preEdge) (t, false)
    some (if added then t else t.addIntoWorklist nodes preEdge.src)) s
  some { s with svfg := s.svfg.removeAllEdges node }

/-- The edges of a node that has only incoming or only outgoing ones. -/
def removeDeadEdges (s : State) (node : NodeID) : State :=
  if s.svfg.hasIncomingEdge node && !s.svfg.hasOutgoingEdge node then
    let s := (s.svfg.inEdges node).foldl (fun s e => s.addIntoWorklist nodes e.src) s
    { s with svfg := s.svfg.removeInEdges node }
  else if s.svfg.hasOutgoingEdge node && !s.svfg.hasIncomingEdge node then
    let s := (s.svfg.outEdges node).foldl (fun s e => s.addIntoWorklist nodes e.dst) s
    { s with svfg := s.svfg.removeOutEdges node }
  else s

/-- One iteration of the loop of `handleIntraValueFlow`, for the node that is popped. -/
def handleMSSAPHINode (s : State) (node : NodeID) : Option State :=
  let (svfg, hasSelfCycle) := checkSelfCycleEdges (parseSelfCycleHandleOption opt.selfCycle)
    (s.svfg.inEdges node) s.svfg false
  let s := { s with svfg := svfg, worklist := s.worklist.erase node }
  if hasSelfCycle then
    some s
  else
    let bypassed := if s.svfg.hasOutgoingEdge node && s.svfg.hasIncomingEdge node then
        s.bypassMSSAPHINode opt nodes node else some s
    bypassed.map fun s =>
      let s := s.removeDeadEdges nodes node
      if !s.svfg.hasIncomingEdge node && !s.svfg.hasOutgoingEdge node then
        { s with svfg := s.svfg.removeSVFGNode node }
      else s

end State

inductive Step : State → State → Prop
  | pop {s t : State} {node : NodeID} (mem : node ∈ s.worklist)
      (handled : s.handleMSSAPHINode opt nodes node = some t) : Step s t

end

end SVF.Graphs.SVFGOPT
