import SVF.Graphs.FieldObjects
import SVF.MemoryModel.PointsToSets

namespace SVF.Graphs.ValueFlowGraph

open ConsG FieldObjects
open MemoryModel.PointsToSets (PointsTo)

/-- The nodes of the sparse value-flow graph. A variant gep has no offset. -/
inductive SVFGNode
  | addr (dst src : NodeID)
  | copy (dst src : NodeID)
  | gep (dst src : NodeID) (constantFieldIdx : Option APOffset)
  | load (dst src : NodeID)
  | store (dst src : NodeID)
  | phi (res : NodeID) (opVers : List NodeID)
  | mssaPhi
  | formalIN
  | formalOUT
  | actualIN
  | actualOUT
  | actualParm (param : NodeID)
  | formalParm (param : NodeID)
  | actualRet (rev : NodeID)
  | formalRet (ret : NodeID)
  | nullPtr
  | other

namespace SVFGNode

def def? : SVFGNode → Option NodeID
  | .addr dst _ => some dst
  | .copy dst _ => some dst
  | .gep dst _ _ => some dst
  | .load dst _ => some dst
  | .phi res _ => some res
  | .formalParm param => some param
  | .actualRet rev => some rev
  | _ => none

def uses : SVFGNode → List NodeID
  | .copy _ src => [src]
  | .gep _ src _ => [src]
  | .load _ src => [src]
  | .store dst src => [dst, src]
  | .phi _ opVers => opVers
  | .actualParm param => [param]
  | .formalRet ret => [ret]
  | _ => []

def isStore : SVFGNode → Bool
  | .store _ _ => true
  | _ => false

def isMSSA : SVFGNode → Bool
  | .mssaPhi | .formalIN | .formalOUT | .actualIN | .actualOUT => true
  | _ => false

/-- Formal parameters and actual returns are defined by their predecessors. -/
def isInterprocedural : SVFGNode → Bool
  | .formalParm _ | .actualRet _ => true
  | _ => false

inductive Grows : SVFGNode → SVFGNode → Prop
  | same (node : SVFGNode) : Grows node node
  | phi (res : NodeID) {opVers opVers' : List NodeID} (h : opVers ⊆ opVers') :
      Grows (.phi res opVers) (.phi res opVers')

end SVFGNode

inductive EdgeKind
  | direct
  | indirect (pointsTo : PointsTo)
  deriving DecidableEq

structure SVFGEdge where
  src : NodeID
  dst : NodeID
  kind : EdgeKind
  deriving DecidableEq

structure SVFG where
  nodes : List NodeID
  node : NodeID → SVFGNode
  edges : List SVFGEdge

def SVFG.outEdges (svfg : SVFG) (id : NodeID) : List SVFGEdge := svfg.edges.filter (·.src = id)

@[simp] theorem mem_outEdges {svfg : SVFG} {id : NodeID} {e : SVFGEdge} :
    e ∈ svfg.outEdges id ↔ e ∈ svfg.edges ∧ e.src = id := by
  simp [SVFG.outEdges]

/-- What the builder of the graph for pointers guarantees: a definition is
connected to its uses, memory flows from stores and memory SSA nodes, and only
pointers are loaded and stored. -/
structure WellFormed (svfg : SVFG) (pag : SVFIR) : Prop where
  src : ∀ e ∈ svfg.edges, e.src ∈ svfg.nodes
  dst : ∀ e ∈ svfg.edges, e.dst ∈ svfg.nodes
  defUse : ∀ d ∈ svfg.nodes, ∀ n ∈ svfg.nodes, ∀ v, (svfg.node d).def? = some v →
    v ∈ (svfg.node n).uses → ⟨d, n, .direct⟩ ∈ svfg.edges
  indirect : ∀ e ∈ svfg.edges, ∀ pts, e.kind = .indirect pts →
    (svfg.node e.src).isStore = true ∨ (svfg.node e.src).isMSSA = true
  loaded : ∀ n ∈ svfg.nodes, ∀ dst src, svfg.node n = .load dst src → pag.isPointer dst = true
  stored : ∀ n ∈ svfg.nodes, ∀ dst src, svfg.node n = .store dst src → pag.isPointer src = true
  object : ∀ n ∈ svfg.nodes, ∀ dst src, svfg.node n = .addr dst src → src ∈ pag.nodes
  label : ∀ e ∈ svfg.edges, ∀ pts, e.kind = .indirect pts → ∀ c ∈ pts, c ∈ pag.nodes

/-- A graph with the value flows of more call edges. New memory flows go into
the nodes that stand for a function's entry and for the return to a call site. -/
structure Extends (svfg svfg' : SVFG) : Prop where
  nodes : svfg'.nodes = svfg.nodes
  node : ∀ n, (svfg.node n).Grows (svfg'.node n)
  edges : svfg.edges ⊆ svfg'.edges
  indirect : ∀ e ∈ svfg'.edges, e ∉ svfg.edges → ∀ pts, e.kind = .indirect pts →
    svfg'.node e.dst = .formalIN ∨ svfg'.node e.dst = .actualOUT

end SVF.Graphs.ValueFlowGraph
