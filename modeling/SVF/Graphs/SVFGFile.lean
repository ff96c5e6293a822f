import SVF.Graphs.SVFGOPT
import SVF.MSSA.MRVerText

namespace SVF.Graphs.SVFGFile

open MemoryModel.PointsToSets MemoryModel.PtsLines MSSA.MRVerText Util.TextFiles
open SVFGOPT (CallSiteID IndirectSVFGEdge)

abbrev FunObjVar := ℕ

/-- The pairs of a `Map<u32_t, const MRVer*>` in the order of its iteration. -/
abbrev OPVers := List (ℕ × MRVer)

/-- `std::unordered_map`, with the order in which it is iterated after some insertions. -/
structure UnorderedMap where
  iterate : OPVers → OPVers
  perm : ∀ ops : OPVers, (ops.map Prod.fst).Nodup → (iterate ops).Perm ops

/-- The nodes of the statements, with the operands and results of the operators at them. -/
inductive StmtNode
  | LoadSVFGNode (muSet : List MRVer)
  | StoreSVFGNode (chiSet : List (MRVer × MRVer))
  | other

structure PHI where
  bb : NodeID
  opVers : OPVers
  resVer : MRVer

/-- The program with its call graph and memory SSA form. The nodes of the statements have the
first identifiers. -/
structure Program where
  stmts : List StmtNode
  stmtFun : NodeID → Option FunObjVar
  phis : List PHI
  entryChis : List (FunObjVar × MRVer)
  returnMus : List (FunObjVar × MRVer)
  callMus : List (NodeID × MRVer)
  callChis : List (NodeID × MRVer)
  totalVERNum : ℕ
  hasMU : NodeID → Bool
  hasCHI : NodeID → Bool
  getDirCallSitesInvokingCallee : FunObjVar → List NodeID
  getCallSiteID : NodeID → FunObjVar → CallSiteID
  hasICFGNode : NodeID → Bool
  getFunEntryICFGNode : FunObjVar → NodeID
  getFunExitICFGNode : FunObjVar → NodeID
  getRetICFGNode : NodeID → NodeID
  isFunEntryICFGNode : NodeID → Bool
  isFunExitICFGNode : NodeID → Bool
  isCallICFGNode : NodeID → Bool
  getFun : NodeID → Option FunObjVar
  front : NodeID → NodeID
  progEntryFunction : FunObjVar
  globalStores : List (NodeID × PointsTo)

inductive MSSANode
  | FormalINSVFGNode (funEntry : NodeID) (ver : MRVer)
  | FormalOUTSVFGNode (funExit : NodeID) (ver : MRVer)
  | ActualINSVFGNode (cs : NodeID) (ver : MRVer)
  | ActualOUTSVFGNode (cs : NodeID) (ver : MRVer)
  | MSSAPHISVFGNode (icfgNode : NodeID) (ver : MRVer) (opVers : OPVers)

namespace MSSANode

def getMRVer : MSSANode → MRVer
  | FormalINSVFGNode _ ver | FormalOUTSVFGNode _ ver | ActualINSVFGNode _ ver
  | ActualOUTSVFGNode _ ver | MSSAPHISVFGNode _ ver _ => ver

def getPointsTo (node : MSSANode) : PointsTo := node.getMRVer.mr

def defines : MSSANode → Bool
  | FormalINSVFGNode .. | ActualOUTSVFGNode .. | MSSAPHISVFGNode .. => true
  | FormalOUTSVFGNode .. | ActualINSVFGNode .. => false

def getICFGNode (prog : Program) : MSSANode → NodeID
  | FormalINSVFGNode icfgNode _ | FormalOUTSVFGNode icfgNode _ | ActualINSVFGNode icfgNode _
  | MSSAPHISVFGNode icfgNode _ _ => icfgNode
  | ActualOUTSVFGNode cs _ => prog.getRetICFGNode cs

end MSSANode

/-- The nodes of memory SSA in the order of their identifiers, and the indirect edges. -/
structure SVFG where
  totalVFGNode : ℕ
  nodes : List (NodeID × MSSANode)
  edges : List IndirectSVFGEdge
  MSSAVarToDefMap : ℕ → Option NodeID
  totalVERNum : ℕ

namespace SVFG

variable (um : UnorderedMap) (prog : Program) (g : SVFG)

def addGNode (id : NodeID) (node : MSSANode) : SVFG :=
  { g with nodes :=
      g.nodes.takeWhile (·.1 < id) ++ (id, node) :: g.nodes.dropWhile (·.1 ≤ id) }

/-- `none` where the version has another definition. -/
def setDef (mvar : MRVer) (id : NodeID) : Option SVFG :=
  match g.MSSAVarToDefMap mvar.vid with
  | none => some { g with MSSAVarToDefMap := Function.update g.MSSAVarToDefMap mvar.vid (some id) }
  | some d => if d = id then some g else none

def getDef (mvar : MRVer) : Option NodeID := g.MSSAVarToDefMap mvar.vid

def addMSSANode (id : NodeID) (node : MSSANode) : Option SVFG :=
  if node.defines then (g.addGNode id node).setDef node.getMRVer id
  else some (g.addGNode id node)

def addFormalINSVFGNode (funEntry : NodeID) (resVer : MRVer) (nodeId : NodeID) : Option SVFG :=
  g.addMSSANode nodeId (.FormalINSVFGNode funEntry resVer)

def addFormalOUTSVFGNode (funExit : NodeID) (ver : MRVer) (nodeId : NodeID) : Option SVFG :=
  g.addMSSANode nodeId (.FormalOUTSVFGNode funExit ver)

def addActualINSVFGNode (callsite : NodeID) (ver : MRVer) (nodeId : NodeID) : Option SVFG :=
  g.addMSSANode nodeId (.ActualINSVFGNode callsite ver)

def addActualOUTSVFGNode (callsite : NodeID) (resVer : MRVer) (nodeId : NodeID) : Option SVFG :=
  g.addMSSANode nodeId (.ActualOUTSVFGNode callsite resVer)

def addIntraMSSAPHISVFGNode (BlockICFGNode : NodeID) (opVers : OPVers) (resVer : MRVer)
    (nodeId : NodeID) : Option SVFG :=
  g.addMSSANode nodeId (.MSSAPHISVFGNode BlockICFGNode resVer (um.iterate opVers))

def getSVFGNode (id : NodeID) : Option MSSANode := g.nodes.lookup id

def getFun (id : NodeID) : Option (Option FunObjVar) :=
  if id < prog.stmts.length then some (prog.stmtFun id)
  else (g.getSVFGNode id).map fun node => prog.getFun (node.getICFGNode prog)

def addIndirectSVFGEdge (edge : IndirectSVFGEdge) : SVFG :=
  { g with edges := (SVFGOPT.SVFG.addIndirectVFEdge ⟨[], g.edges⟩ edge).1.edges }

/-- `none` where an assertion fails: the nodes exist, and are in one function. -/
def addIntraIndirectVFEdge (src dst : NodeID) (cpts : PointsTo) : Option SVFG := do
  let srcfun ← g.getFun prog src
  let dstfun ← g.getFun prog dst
  if srcfun ≠ none ∧ dstfun ≠ none ∧ srcfun ≠ dstfun then none
  else some (g.addIndirectSVFGEdge ⟨src, dst, .intra, cpts⟩)

def addInterIndirectVFCallEdge (src dst : NodeID × MSSANode) (csId : CallSiteID) : SVFG :=
  if src.2.getPointsTo.intersects dst.2.getPointsTo then
    g.addIndirectSVFGEdge ⟨src.1, dst.1, .call csId, src.2.getPointsTo.inter dst.2.getPointsTo⟩
  else g

def addInterIndirectVFRetEdge (src dst : NodeID × MSSANode) (csId : CallSiteID) : SVFG :=
  if src.2.getPointsTo.intersects dst.2.getPointsTo then
    g.addIndirectSVFGEdge ⟨src.1, dst.1, .ret csId, src.2.getPointsTo.inter dst.2.getPointsTo⟩
  else g

def getActualINSVFGNodes (cs : NodeID) : List (NodeID × MSSANode) :=
  g.nodes.filter fun node => match node.2 with
    | .ActualINSVFGNode cs' _ => cs' = cs
    | _ => false

def getActualOUTSVFGNodes (cs : NodeID) : List (NodeID × MSSANode) :=
  g.nodes.filter fun node => match node.2 with
    | .ActualOUTSVFGNode cs' _ => cs' = cs
    | _ => false

def getFormalINSVFGNodes (func : FunObjVar) : List (NodeID × MSSANode) :=
  g.nodes.filter fun node => match node.2 with
    | .FormalINSVFGNode funEntry _ => prog.getFun funEntry = some func
    | _ => false

end SVFG

section

variable (um : UnorderedMap) (prog : Program)

def vfg : SVFG := ⟨prog.stmts.length, [], [], fun _ => none, prog.totalVERNum⟩

def setStoreDefs (g : SVFG) : Option SVFG :=
  prog.stmts.zipIdx.foldlM (fun g stmt =>
    match stmt.1 with
    | .StoreSVFGNode chiSet => chiSet.foldlM (fun g chi => g.setDef chi.2 stmt.2) g
    | _ => some g) g

def withNewID (add : SVFG → NodeID → Option SVFG) (g : SVFG) : Option SVFG :=
  add { g with totalVFGNode := g.totalVFGNode + 1 } g.totalVFGNode

def addSVFGNodesForAddrTakenVars (g : SVFG) : Option SVFG := do
  let g ← setStoreDefs prog g
  let g ← prog.phis.foldlM (fun g phi => withNewID (fun g =>
    g.addIntraMSSAPHISVFGNode um (prog.front phi.bb) phi.opVers phi.resVer) g) g
  let g ← prog.entryChis.foldlM (fun g chi => withNewID (fun g =>
    g.addFormalINSVFGNode (prog.getFunEntryICFGNode chi.1) chi.2) g) g
  let g ← prog.returnMus.foldlM (fun g mu => withNewID (fun g =>
    g.addFormalOUTSVFGNode (prog.getFunExitICFGNode mu.1) mu.2) g) g
  let g ← prog.callMus.foldlM (fun g mu => withNewID (fun g =>
    g.addActualINSVFGNode mu.1 mu.2) g) g
  prog.callChis.foldlM (fun g chi => withNewID (fun g =>
    g.addActualOUTSVFGNode chi.1 chi.2) g) g

/-- What the loops over the nodes connect: a use with the definition of its version, a node of
a callee with a node of a call site. -/
inductive Connection
  | use (type : String) (node : NodeID) (ver : MRVer)
  | actualIn (node : NodeID) (ver : MRVer)
  | formalOut (node : NodeID) (ver : MRVer)
  | call (formalIn : NodeID × MSSANode) (func : FunObjVar) (cs : NodeID)
      (actualIn : NodeID × MSSANode)
  | ret (formalOut : NodeID × MSSANode) (func : FunObjVar) (cs : NodeID)
      (actualOut : NodeID × MSSANode)

def stmtConnections (stmt : StmtNode × NodeID) : List Connection :=
  match stmt.1 with
  | .LoadSVFGNode muSet => muSet.map (.use "LoadNode" stmt.2)
  | .StoreSVFGNode chiSet => chiSet.map fun chi => .use "StoreNode" stmt.2 chi.1
  | .other => []

def nodeConnections (g : SVFG) (node : NodeID × MSSANode) : List Connection :=
  match node.2 with
  | .FormalINSVFGNode funEntry _ => (prog.getFun funEntry).toList.flatMap fun func =>
      ((prog.getDirCallSitesInvokingCallee func).filter (prog.hasMU ·)).flatMap fun cs =>
        (g.getActualINSVFGNodes cs).map (.call node func cs)
  | .FormalOUTSVFGNode funExit ver => ((prog.getFun funExit).toList.flatMap fun func =>
      ((prog.getDirCallSitesInvokingCallee func).filter (prog.hasCHI ·)).flatMap fun cs =>
        (g.getActualOUTSVFGNodes cs).map (.ret node func cs)) ++ [.formalOut node.1 ver]
  | .ActualINSVFGNode _ ver => [.actualIn node.1 ver]
  | .ActualOUTSVFGNode _ _ => []
  | .MSSAPHISVFGNode _ _ opVers => opVers.map fun op => .use "PHISVFGNode" node.1 op.2

def connections (g : SVFG) : List Connection :=
  prog.stmts.zipIdx.flatMap stmtConnections ++ g.nodes.flatMap (nodeConnections prog g)

def connect (g : SVFG) : Connection → Option SVFG
  | .use _ node ver | .actualIn node ver | .formalOut node ver =>
      (g.getDef ver).bind fun srcId => g.addIntraIndirectVFEdge prog srcId node ver.mr
  | .call formalIn func cs actualIn =>
      some (g.addInterIndirectVFCallEdge actualIn formalIn (prog.getCallSiteID cs func))
  | .ret formalOut func cs actualOut =>
      some (g.addInterIndirectVFRetEdge formalOut actualOut (prog.getCallSiteID cs func))

def connectFromGlobalToProgEntry (g : SVFG) : Option SVFG :=
  prog.globalStores.foldlM (fun g store =>
    (g.getFormalINSVFGNodes prog prog.progEntryFunction).foldlM (fun g formalIn =>
      let formalInPts := formalIn.2.getPointsTo.inter store.2
      if formalInPts = ∅ then some g
      else g.addIntraIndirectVFEdge prog store.1 formalIn.1 formalInPts) g) g

/-- The loops change the edges only, so that what they connect is known before. -/
def connectIndirectSVFGEdges (g : SVFG) : Option SVFG :=
  ((connections prog g).foldlM (connect prog) g).bind (connectFromGlobalToProgEntry prog)

def buildSVFG : Option SVFG :=
  (addSVFGNodesForAddrTakenVars um prog (vfg prog)).bind (connectIndirectSVFGEdges prog)

end

section

variable (um : UnorderedMap) (prog : Program) (g : SVFG)

def nodeText (nodeId : NodeID) (type : String) (ver : MRVer) (icfgNode : NodeID) : Text :=
  "SVFGNodeID: ".toList ++ number nodeId ++ " >= ".toList ++ type.toList ++
    " >= MVER: \x7b".toList ++ ver.text ++ "\x7d >= ICFGNodeID: ".toList ++ number icfgNode

def opVersText (opvers : OPVers) : Text :=
  " >= OPVers: \x7b".toList ++
    opvers.flatMap (fun x => "\x7b".toList ++ x.2.text ++ "\x7d,".toList) ++ "\x7d".toList

/-- The operands of a phi are copied into another map, which is iterated. -/
def nodeLine (node : NodeID × MSSANode) : Text :=
  match node.2 with
  | .FormalINSVFGNode funEntry ver => nodeText node.1 "FormalINSVFGNode" ver funEntry
  | .FormalOUTSVFGNode funExit ver => nodeText node.1 "FormalOUTSVFGNode" ver funExit
  | .ActualINSVFGNode cs ver => nodeText node.1 "ActualINSVFGNode" ver cs
  | .ActualOUTSVFGNode cs ver => nodeText node.1 "ActualOUTSVFGNode" ver cs
  | .MSSAPHISVFGNode icfgNode ver opVers =>
      nodeText node.1 "PHISVFGNode" ver (prog.front icfgNode) ++ opVersText (um.iterate opVers)

def edgeText (src dst : NodeID) (attributes : Text) : Text :=
  "srcSVFGNodeID: ".toList ++ number src ++ " => dstSVFGNodeID: ".toList ++ number dst ++
    " >= ".toList ++ attributes

def edgeLine : Connection → Option Text
  | .use type node ver => (g.getDef ver).map fun srcId =>
      edgeText node srcId (type.toList ++ " | MVER: \x7b".toList ++ ver.text ++ "\x7d".toList)
  | .actualIn node ver => (g.getDef ver).map fun srcId =>
      edgeText node srcId "ActualINSVFGNode".toList
  | .formalOut node ver => (g.getDef ver).map fun srcId =>
      edgeText node srcId "FormalOUTSVFGNode | intra".toList
  | .call formalIn _ _ actualIn => some (edgeText formalIn.1 actualIn.1 "FormalINSVFGNode".toList)
  | .ret formalOut _ _ actualOut =>
      some (edgeText formalOut.1 actualOut.1 "FormalOUTSVFGNode".toList)

def writeToFile : Option Text :=
  ((connections prog g).mapM (edgeLine g)).map fun edgeLines =>
    unlines ("__Nodes__".toList :: g.nodes.map (nodeLine um prog) ++
      [[], [], "__Edges__".toList] ++ edgeLines)

end

section

variable (um : UnorderedMap) (prog : Program)

/-- `(int) strtol(…)` with a `long` of 64 bits, converted to an identifier. -/
def atoi (s : Text) : ℕ :=
  let n := (extractInt s).getD 0
  (max (-2 ^ 63) (min n (2 ^ 63 - 1)) % 2 ^ 32).toNat

/-- The parts of a line before its delimiters, and what comes after the last one. -/
def splitLine (delimiter : Text) : ℕ → Text → List Text × Text
  | 0, s => ([], s)
  | fuel + 1, s =>
    match find delimiter s with
    | none => ([], s)
    | some next =>
      let (parts, rest) := splitLine delimiter fuel (s.drop (next + delimiter.length))
      (s.take next :: parts, rest)

/-- The number after a key, in a text that may not have it. -/
def numberAfter (key s : Text) : Option ℕ := (between s (after (find key s) key.length) none).map atoi

/-- The loop over the operands of a phi, which does not end where none is found. -/
def readOPVers : ℕ → ℕ → ℕ → Text → Option OPVers
  | 0, _, _, _ => none
  | fuel + 1, totalVERNum, index, temp =>
    if temp = ",\x7d".toList then some []
    else do
      let last := find "\x7d,".toList temp
      let temp1 ← between temp (after (find "\x7b".toList temp) 1) last
      let tempOPVer ← getMRVERFromString totalVERNum temp1
      let opVers ← readOPVers fuel (totalVERNum + 1) (index + 1) (temp.drop (after last 1))
      some ((index, tempOPVer) :: opVers)

def opVersOf (totalVERNum : ℕ) (opVer : Text) : Option OPVers :=
  let temp := substr opVer (after (find "\x7b".toList opVer) 1) (find ",\x7d".toList opVer)
  readOPVers (temp.length + 1) totalVERNum 0 temp

def addReadNode (g : SVFG) (s : Text) (type basicBlock opVer : Text) (id : NodeID) (ver : MRVer) :
    Option SVFG :=
  if type = "FormalINSVFGNode".toList then
    (numberAfter "ICFGNodeID: ".toList s).bind fun FunID =>
      if prog.isFunEntryICFGNode FunID then g.addFormalINSVFGNode FunID ver id else none
  else if type = "FormalOUTSVFGNode".toList then
    (numberAfter "ICFGNodeID: ".toList s).bind fun FunID =>
      if prog.isFunExitICFGNode FunID then g.addFormalOUTSVFGNode FunID ver id else none
  else if type = "ActualINSVFGNode".toList then
    (numberAfter "ICFGNodeID: ".toList s).bind fun CallSiteID =>
      if prog.isCallICFGNode CallSiteID then g.addActualINSVFGNode CallSiteID ver id else none
  else if type = "ActualOUTSVFGNode".toList then
    (numberAfter "ICFGNodeID: ".toList s).bind fun CallSiteID =>
      if prog.isCallICFGNode CallSiteID then g.addActualOUTSVFGNode CallSiteID ver id else none
  else if type = "PHISVFGNode".toList then do
    let OPVers ← opVersOf g.totalVERNum opVer
    let node ← numberAfter "ICFGNodeID: ".toList basicBlock
    if prog.hasICFGNode node then
      SVFG.addIntraMSSAPHISVFGNode um { g with totalVERNum := g.totalVERNum + OPVers.length } node
        (um.iterate OPVers) ver id
    else none
  else some g

def isNodeType (type : Text) : Bool :=
  type ∈ ["FormalINSVFGNode", "FormalOUTSVFGNode", "ActualINSVFGNode", "ActualOUTSVFGNode",
    "PHISVFGNode"].map String.toList

/-- The body of the loop over the nodes; a node without a version cannot be made. -/
def readNode (g : SVFG) (s : Text) : Option SVFG := do
  let (parts, rest) := splitLine " >= ".toList s.length s
  let id ← match parts with
    | [] => some 0
    | temp :: _ => numberAfter "SVFGNodeID: ".toList temp
  let type := parts.getD 1 []
  let MR := parts.getD 2 []
  let g ← if MR = [] then (if isNodeType type then none else some g)
    else (getMRVERFromString g.totalVERNum MR).bind fun ver =>
      addReadNode um prog { g with totalVERNum := g.totalVERNum + 1 } s type (parts.getD 3 []) rest id ver
  some (if g.totalVFGNode < id then { g with totalVFGNode := id + 1 } else g)

def readNodes : List Text → SVFG → Option (SVFG × List Text)
  | [], g => some (g, [])
  | line :: F, g =>
    if line = [] then readNodes F g
    else if (find "__Edges__".toList line).isSome then some (g, F)
    else (readNode um prog g line).bind (readNodes F)

/-- The edge of a line with two nodes; `none` where a cast fails. -/
def addReadEdge (g : SVFG) (src dst : NodeID) (type attr : Text) : Option SVFG :=
  if type = "FormalINSVFGNode".toList then
    match g.getSVFGNode src, g.getSVFGNode dst with
    | some (.FormalINSVFGNode funEntry ver), some (.ActualINSVFGNode cs ver') =>
        (prog.getFun funEntry).map fun func => g.addInterIndirectVFCallEdge
          (dst, .ActualINSVFGNode cs ver') (src, .FormalINSVFGNode funEntry ver)
          (prog.getCallSiteID cs func)
    | _, _ => none
  else if type = "FormalOUTSVFGNode".toList then
    match g.getSVFGNode src with
    | some (.FormalOUTSVFGNode funExit ver) =>
        if (find "intra".toList attr).isSome then g.addIntraIndirectVFEdge prog dst src ver.mr
        else
          match g.getSVFGNode dst with
          | some (.ActualOUTSVFGNode cs ver') =>
              (prog.getFun funExit).map fun func => g.addInterIndirectVFRetEdge
                (src, .FormalOUTSVFGNode funExit ver) (dst, .ActualOUTSVFGNode cs ver')
                (prog.getCallSiteID cs func)
          | _ => none
    | _ => none
  else if type = "ActualINSVFGNode".toList then
    match g.getSVFGNode src with
    | some (.ActualINSVFGNode _ ver) => g.addIntraIndirectVFEdge prog dst src ver.mr
    | _ => none
  else if type ∈ ["StoreNode", "LoadNode", "PHISVFGNode"].map String.toList then
    (getMRVERFromString g.totalVERNum attr).bind fun ver =>
      SVFG.addIntraIndirectVFEdge prog { g with totalVERNum := g.totalVERNum + 1 } dst src ver.mr
  else some g

def readEdge (g : SVFG) (s : Text) : Option SVFG := do
  let next := find " >= ".toList s
  let edge := substr s 0 next
  let attributes ← between s (after next 4) none
  let src ← (between edge (after (find "srcSVFGNodeID: ".toList edge) 15)
    (find " => ".toList edge)).map atoi
  let dst ← numberAfter "dstSVFGNodeID: ".toList edge
  match find " | ".toList attributes with
  | none => addReadEdge prog g src dst attributes []
  | some next => addReadEdge prog g src dst (attributes.take next) (attributes.drop (next + 3))

def readFile (file : Text) : Option SVFG := do
  let g ← setStoreDefs prog (vfg prog)
  let (g, F) ← readNodes um prog (lines file) g
  let g ← (F.filter (· ≠ [])).foldlM (readEdge prog) g
  connectFromGlobalToProgEntry prog g

end

end SVF.Graphs.SVFGFile
