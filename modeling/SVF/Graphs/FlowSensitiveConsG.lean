import Mathlib.Algebra.GroupWithZero.Nat
import Mathlib.Data.Nat.Log
import SVF.Graphs.Retargeting
import SVF.Util.Numberings

namespace SVF.Graphs.FlowSensitiveConsG

open ConsG Retargeting Util.Numberings

abbrev NodePair := NodeID × NodeID

inductive CopyKind
  | COPYVAL | ZEXT | SEXT | BITCAST | TRUNC | FPTRUNC | FPTOUI | FPTOSI | UITOFP | SITOFP
  | INTTOPTR | PTRTOINT
  deriving DecidableEq

inductive PEDGEK
  | Addr | Copy | Store | Load | Call | Ret | Gep | Phi | Select | ThreadFork | ThreadJoin
  deriving DecidableEq

/-- The statements of `getPTASVFStmtSet` that the constraint graph reads. -/
inductive SVFStmt
  | AddrStmt (rhs lhs : NodeID)
  | CopyStmt (copyKind : CopyKind) (rhs lhs : NodeID)
  | StoreStmt (rhs lhs : NodeID)
  | LoadStmt (rhs lhs : NodeID)
  | CallPE (rhs lhs : NodeID)
  | RetPE (rhs lhs : NodeID)
  | GepStmt (rhs lhs : NodeID) (ap : AccessPath) (variantField : Bool)
  | PhiStmt (opnds : List NodeID) (res : NodeID)
  | SelectStmt (opnds : List NodeID) (res : NodeID)
  | TDForkPE (rhs lhs : NodeID)
  | TDJoinPE (rhs lhs : NodeID)
  deriving DecidableEq

namespace SVFStmt

def getEdgeKind : SVFStmt → PEDGEK
  | AddrStmt .. => .Addr
  | CopyStmt .. => .Copy
  | StoreStmt .. => .Store
  | LoadStmt .. => .Load
  | CallPE .. => .Call
  | RetPE .. => .Ret
  | GepStmt .. => .Gep
  | PhiStmt .. => .Phi
  | SelectStmt .. => .Select
  | TDForkPE .. => .ThreadFork
  | TDJoinPE .. => .ThreadJoin

def gepEdge (src dst : NodeID) (ap : AccessPath) (variantField : Bool) : ConstraintEdge :=
  ⟨src, dst, if variantField then .VariantGepCGEdge else .NormalGepCGEdge ap⟩

def constraintEdges : SVFStmt → List ConstraintEdge
  | AddrStmt rhs lhs => [⟨rhs, lhs, .AddrCGEdge⟩]
  | CopyStmt copyKind rhs lhs =>
      if copyKind = .BITCAST ∨ copyKind = .COPYVAL then [⟨rhs, lhs, .CopyCGEdge⟩] else []
  | StoreStmt rhs lhs => [⟨rhs, lhs, .StoreCGEdge 0⟩]
  | LoadStmt rhs lhs => [⟨rhs, lhs, .LoadCGEdge 0⟩]
  | CallPE rhs lhs => [⟨rhs, lhs, .CopyCGEdge⟩]
  | RetPE rhs lhs => [⟨rhs, lhs, .CopyCGEdge⟩]
  | GepStmt rhs lhs ap variantField => [gepEdge rhs lhs ap variantField]
  | PhiStmt opnds res => opnds.map fun op => ⟨op, res, .CopyCGEdge⟩
  | SelectStmt opnds res => opnds.map fun op => ⟨op, res, .CopyCGEdge⟩
  | TDForkPE rhs lhs => [⟨rhs, lhs, .CopyCGEdge⟩]
  | TDJoinPE rhs lhs => [⟨rhs, lhs, .CopyCGEdge⟩]

end SVFStmt

structure SVFVar where
  id : NodeID
  isPointer : Bool

structure SVFIR where
  vars : List SVFVar
  stmts : List SVFStmt
  /-- The results of the indirect callsites that have one. -/
  retFromIndCalls : List NodeID

namespace SVFIR

variable (pag : SVFIR)

def ids : List NodeID := pag.vars.map (·.id)

def getTotalNodeNum : ℕ := pag.vars.length

def getPTASVFStmtSet (kind : PEDGEK) : List SVFStmt :=
  pag.stmts.filter (·.getEdgeKind = kind)

def isPointer (id : NodeID) : Bool := pag.vars.any (fun v => v.id = id && v.isPointer)

end SVFIR

/-- `add*CGEdge`, whose result only tells whether the edge is new. -/
def addCGEdge (g : ConstraintGraph) (edge : ConstraintEdge) : ConstraintGraph :=
  (addEdge g edge.cls edge.src edge.dst).getD g

def ConstraintNode.isSolitary (node : ConstraintNode) : Bool :=
  (node.inEdges .edges).elems.isEmpty && (node.outEdges .edges).elems.isEmpty

def clearSolitaries (pag : SVFIR) (g : ConstraintGraph) : ConstraintGraph :=
  let nodesToRemove := g.IDToNodeMap.entries.filter fun entry =>
    ConstraintNode.isSolitary entry.2 && !pag.isPointer entry.1 &&
      decide (entry.1 ∉ pag.retFromIndCalls)
  nodesToRemove.foldl (fun g entry => g.removeConstraintNode entry.1) g

def buildKinds : List PEDGEK :=
  [.Addr, .Copy, .Phi, .Select, .Call, .Ret, .ThreadFork, .ThreadJoin, .Gep, .Load, .Store]

def buildCG (pag : SVFIR) : ConstraintGraph :=
  let g := pag.ids.foldl (fun g id => g.addConstraintNode id) .empty
  let stmts := buildKinds.flatMap pag.getPTASVFStmtSet
  clearSolitaries pag ((stmts.flatMap (·.constraintEdges)).foldl addCGEdge g)

inductive Strategy
  | DENSE | REVERSE_DENSE | SEQ | DBUG
  deriving DecidableEq

structure NodeIDAllocator where
  numObjects : ℕ
  numSymbols : ℕ
  numNodes : ℕ
  strategy : Strategy

namespace NodeIDAllocator

def wrap (n : ℕ) : NodeID := n % 2 ^ 32

def increaseNumOfObjAndNodes (a : NodeIDAllocator) : NodeIDAllocator :=
  { a with numObjects := a.numObjects + 1, numNodes := a.numNodes + 1 }

def allocateGepObjectId (a : NodeIDAllocator) (base offset maxFieldLimit : ℕ) :
    NodeID × NodeIDAllocator :=
  let id := match a.strategy with
    | .DENSE => a.numObjects
    | .REVERSE_DENSE => 2 ^ 32 - 1 - a.numObjects
    | .SEQ => a.numNodes
    | .DBUG => wrap (wrap (offset + 1) * 10 ^ Nat.clog 10 (max a.numSymbols maxFieldLimit) + base)
  (id, a.increaseNumOfObjAndNodes)

def allocateGepObjectIds (a : NodeIDAllocator) (maxFieldLimit : ℕ) : List (ℕ × ℕ) → List NodeID
  | [] => []
  | (base, offset) :: requests =>
      let (id, a') := a.allocateGepObjectId base offset maxFieldLimit
      id :: a'.allocateGepObjectIds maxFieldLimit requests

end NodeIDAllocator

/-- The nodes of an SVFG. The kinds that the translation passes over are `Other`. -/
inductive SVFGNode
  | Addr (src dst : NodeID)
  | Copy (src dst : NodeID)
  | Load (src dst : NodeID)
  | Store (src dst : NodeID)
  | Gep (src dst : NodeID) (ap : AccessPath) (variantField : Bool)
  | IntraPHI (res : NodeID) (opVers : List NodeID)
  | ActualParm (param : NodeID)
  | ActualRet (rev : NodeID)
  /-- `retPEs` lists the actual return at the call site of each. -/
  | FormalRet (ret : NodeID) (retPEs : List NodeID)
  | NullPtr (node : NodeID)
  /-- `opVers` lists the positions of the operands. -/
  | MSSAPHI (resVer : NodeID) (opVers : List NodeID)
  | Other
  deriving DecidableEq

inductive SVFGEdgeK
  | IntraIndirectVF | CallIndVF | RetIndVF | TheadMHPIndirectVF
  deriving DecidableEq

structure IndirectSVFGEdge where
  kind : SVFGEdgeK
  src : NodeID
  dst : NodeID
  pointsTo : List NodeID

structure SVFG where
  nodes : List (NodeID × SVFGNode)
  indirectEdges : List IndirectSVFGEdge

/-- Only `addIntraIndirectVFEdge` records its edge. -/
def SVFG.indirectEdgeSet (svfg : SVFG) : List IndirectSVFGEdge :=
  svfg.indirectEdges.filter (·.kind = .IntraIndirectVF)

structure FSConsG where
  consG : ConstraintGraph
  totalCGNode : NodeID
  maps : Numbering NodeID NodePair

namespace FSConsG

variable (fs : FSConsG)

def hasConstraintNodePair (pagid svfgid : NodeID) : Bool := (fs.maps.number (pagid, svfgid)).isSome

def insertConstraintMapping (pagid svfgid fsconsgid : NodeID) : FSConsG :=
  { fs with maps := fs.maps.insert fsconsgid (pagid, svfgid) }

def addConstraintNode (id : NodeID) : FSConsG := { fs with consG := fs.consG.addConstraintNode id }

def addCGEdge (edge : ConstraintEdge) : FSConsG := 
  { fs with consG := FlowSensitiveConsG.addCGEdge fs.consG edge }

end FSConsG

/-- The steps of the branches for top-level nodes: a node that is mapped and
added unless it exists, and an edge. -/
inductive Action
  | node (v : NodeID)
  | edge (e : ConstraintEdge)

def SVFGNode.actions (svfgID : NodeID) : SVFGNode → List Action
  | Addr src dst => [.node src, .node dst, .edge ⟨src, dst, .AddrCGEdge⟩]
  | Copy src dst => [.node src, .node dst, .edge ⟨src, dst, .CopyCGEdge⟩]
  | Load src dst => [.node src, .node dst, .edge ⟨src, dst, .LoadCGEdge svfgID⟩]
  | Store src dst => [.node src, .node dst, .edge ⟨src, dst, .StoreCGEdge svfgID⟩]
  | Gep src dst ap variantField =>
      [.node src, .node dst, .edge (SVFStmt.gepEdge src dst ap variantField)]
  | IntraPHI res opVers =>
      .node res :: opVers.flatMap fun src => [.node src, .edge ⟨src, res, .CopyCGEdge⟩]
  | ActualParm param => [.node param]
  | ActualRet rev => [.node rev]
  | FormalRet ret retPEs => .node ret :: retPEs.map fun id => .edge ⟨id, ret, .CopyCGEdge⟩
  | NullPtr node => [.node node]
  | MSSAPHI .. | Other => []

def getEdge (g : ConstraintGraph) (src dst : NodeID) (kind : ConstraintEdgeK) :
    Option ConstraintEdge :=
  (g.edgeSets kind.edgeSet).elems.find? (·.key = edgeKey kind (g.sccRepNode src) (g.sccRepNode dst))

def setSVFGID (g : ConstraintGraph) (existingEdge : ConstraintEdge) (cls : EdgeClass) :
    ConstraintGraph :=
  replaceEdge g existingEdge ⟨existingEdge.src, existingEdge.dst, cls⟩

/-- Loads and stores pass the id of their SVFG node to the edge that exists. The
source reads `*end()` where none does; every statement has one. -/
def addOrUpdateCGEdge (g : ConstraintGraph) (edge : ConstraintEdge) : ConstraintGraph :=
  match edge.cls with
  | .LoadCGEdge _ | .StoreCGEdge _ =>
      match getEdge g edge.src edge.dst edge.cls.getEdgeKind with
      | some existingEdge => setSVFGID g existingEdge edge.cls
      | none => addCGEdge g edge
  | _ => addCGEdge g edge

namespace FSConsG

variable (fs : FSConsG)

def runAction (svfgID : NodeID) (fs : FSConsG) : Action → FSConsG
  | .node v =>
      if fs.consG.hasConstraintNode v then fs
      else (fs.insertConstraintMapping v svfgID v).addConstraintNode v
  | .edge e => { fs with consG := addOrUpdateCGEdge fs.consG e }

def addPHIVersion (pagid svfgID : NodeID) : FSConsG :=
  let id := fs.totalCGNode + 1
  let fs := { fs with totalCGNode := id }
  if fs.consG.hasConstraintNode id then fs
  else (fs.insertConstraintMapping pagid svfgID id).addConstraintNode id

def addPHIOperand (svfgID dst : NodeID) (fs : FSConsG) (pos : NodeID) : FSConsG :=
  let fs := fs.addPHIVersion pos svfgID
  fs.addCGEdge ⟨fs.totalCGNode, dst, .CopyCGEdge⟩

def buildSVFGNode (fs : FSConsG) (entry : NodeID × SVFGNode) : FSConsG :=
  let fs := (entry.2.actions entry.1).foldl (runAction entry.1) fs
  match entry.2 with
  | .MSSAPHI resVer opVers =>
      let fs := fs.addPHIVersion resVer entry.1
      opVers.foldl (addPHIOperand entry.1 fs.totalCGNode) fs
  | _ => fs

/-- Unlike the PHI versions, no test that the id is free. -/
def addPairNode (i svfgid : NodeID) : FSConsG :=
  if fs.hasConstraintNodePair i svfgid then fs
  else
    let id := fs.totalCGNode + 1
    ({ fs with totalCGNode := id }.insertConstraintMapping i svfgid id).addConstraintNode id

def connectObject (edge : IndirectSVFGEdge) (fs : FSConsG) (i : NodeID) : FSConsG :=
  let fs := (fs.addPairNode i edge.src).addPairNode i edge.dst
  fs.addCGEdge ⟨(fs.maps.number (i, edge.src)).getD 0, (fs.maps.number (i, edge.dst)).getD 0,
    .CopyCGEdge⟩

def connectEdge (fs : FSConsG) (edge : IndirectSVFGEdge) : FSConsG :=
  edge.pointsTo.foldl (connectObject edge) fs

def new (pag : SVFIR) : FSConsG := ⟨buildCG pag, pag.getTotalNodeNum, .empty⟩

def buildSVFG2CG (svfg : SVFG) : FSConsG :=
  svfg.indirectEdgeSet.foldl connectEdge (svfg.nodes.foldl buildSVFGNode fs)

end FSConsG

end SVF.Graphs.FlowSensitiveConsG
