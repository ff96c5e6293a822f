import SVF.Util.Loops

namespace SVF.MSSA.MemorySSA

open Util.Loops

abbrev BasicBlock := ℕ

abbrev MemRegion := ℕ

inductive Stmt
  | load (id : ℕ)
  | store (id : ℕ)
  | other
  deriving DecidableEq

inductive NodeKind
  | callSite (id : ℕ)
  | retInst
  | other
  deriving DecidableEq

structure ICFGNode where
  stmts : List Stmt
  kind : NodeKind
  deriving DecidableEq

structure MRGenerator where
  loadMRSet : ℕ → List MemRegion
  storeMRSet : ℕ → List MemRegion
  callSiteRefMRSet : ℕ → Option (List MemRegion)
  callSiteModMRSet : ℕ → Option (List MemRegion)

structure FunObjVar where
  entryBlock : BasicBlock
  reachableBBs : List BasicBlock
  icfgNodeList : BasicBlock → List ICFGNode
  successors : BasicBlock → List BasicBlock
  predecessors : BasicBlock → List BasicBlock
  domFrontierMap : BasicBlock → Option (List BasicBlock)
  domTreeMap : BasicBlock → Option (List BasicBlock)
  hasReturn : Bool

inductive MSSAMU
  | loadMu (load : ℕ) (mr : MemRegion)
  | callMu (cs : ℕ) (mr : MemRegion)
  | retMu (mr : MemRegion)
  deriving DecidableEq

inductive MSSADEF
  | storeChi (store : ℕ) (mr : MemRegion)
  | callChi (cs : ℕ) (mr : MemRegion)
  | entryChi (mr : MemRegion)
  | phi (bb : BasicBlock) (mr : MemRegion)
  deriving DecidableEq

def MSSAMU.mr : MSSAMU → MemRegion
  | .loadMu _ mr | .callMu _ mr | .retMu mr => mr

def MSSADEF.mr : MSSADEF → MemRegion
  | .storeChi _ mr | .callChi _ mr | .entryChi mr | .phi _ mr => mr

structure MRVer where
  mr : MemRegion
  version : ℕ
  ssaDef : MSSADEF
  deriving DecidableEq

/-- Memory SSA of one function. A set of mus, chis or phis at one place is the
list of their regions; the back of a vector is the head of its list. -/
structure MemSSA where
  load2MuSetMap : ℕ → List MemRegion
  store2ChiSetMap : ℕ → List MemRegion
  callsiteToMuSetMap : ℕ → List MemRegion
  callsiteToChiSetMap : ℕ → List MemRegion
  bb2PhiSetMap : BasicBlock → List MemRegion
  entryChiSet : List MemRegion
  returnMuSet : List MemRegion
  mr2VerStackMap : MemRegion → List MRVer
  mr2CounterMap : MemRegion → ℕ
  usedRegs : List MemRegion
  reg2BBMap : MemRegion → List BasicBlock
  varKills : List MemRegion
  muVer : MSSAMU → Option MRVer
  opVer : MSSADEF → Option MRVer
  resVer : MSSADEF → Option MRVer
  phiOpVer : BasicBlock → MemRegion → ℕ → Option MRVer

open Function (update)

namespace MemSSA

/-- The stacks and counters may still hold what an earlier function left. -/
def init (mr2VerStackMap : MemRegion → List MRVer) (mr2CounterMap : MemRegion → ℕ) : MemSSA where
  load2MuSetMap _ := []
  store2ChiSetMap _ := []
  callsiteToMuSetMap _ := []
  callsiteToChiSetMap _ := []
  bb2PhiSetMap _ := []
  entryChiSet := []
  returnMuSet := []
  mr2VerStackMap
  mr2CounterMap
  usedRegs := []
  reg2BBMap _ := []
  varKills := []
  muVer _ := none
  opVer _ := none
  resVer _ := none
  phiOpVer _ _ _ := none

variable (s : MemSSA)

def getTopStackVer (mr : MemRegion) : Option MRVer := (s.mr2VerStackMap mr).head?

def newSSAName (mr : MemRegion) (ssaDef : MSSADEF) : MemSSA × MRVer :=
  let ver := ⟨mr, s.mr2CounterMap mr, ssaDef⟩
  ({ s with
      mr2CounterMap := update s.mr2CounterMap mr (s.mr2CounterMap mr + 1)
      mr2VerStackMap := update s.mr2VerStackMap mr (ver :: s.mr2VerStackMap mr) }, ver)

def setVer (mu : MSSAMU) (ver : Option MRVer) : MemSSA := { s with muVer := update s.muVer mu ver }

def setOpVer (ssaDef : MSSADEF) (ver : Option MRVer) : MemSSA :=
  { s with opVer := update s.opVer ssaDef ver }

def setResVer (ssaDef : MSSADEF) (ver : MRVer) : MemSSA :=
  { s with resVer := update s.resVer ssaDef (some ver) }

def setPhiOpVer (bb : BasicBlock) (mr : MemRegion) (pos : ℕ) (ver : Option MRVer) : MemSSA :=
  { s with phiOpVer := update s.phiOpVer bb (update (s.phiOpVer bb) mr
      (update (s.phiOpVer bb mr) pos ver)) }

section

def collectRegUses (mr : MemRegion) : MemSSA :=
  if mr ∈ s.varKills then s else { s with usedRegs := s.usedRegs.insert mr }

def collectRegDefs (bb : BasicBlock) (mr : MemRegion) : MemSSA :=
  { s with
    varKills := s.varKills.insert mr
    reg2BBMap := update s.reg2BBMap mr (bb :: s.reg2BBMap mr) }

def AddLoadMU (load : ℕ) (mr : MemRegion) : MemSSA :=
  collectRegUses { s with
    load2MuSetMap := update s.load2MuSetMap load ((s.load2MuSetMap load).insert mr) } mr

def AddStoreCHI (bb : BasicBlock) (store : ℕ) (mr : MemRegion) : MemSSA :=
  collectRegDefs (collectRegUses { s with
    store2ChiSetMap := update s.store2ChiSetMap store ((s.store2ChiSetMap store).insert mr) } mr)
    bb mr

def AddCallSiteMU (cs : ℕ) (mr : MemRegion) : MemSSA :=
  collectRegUses { s with
    callsiteToMuSetMap := update s.callsiteToMuSetMap cs ((s.callsiteToMuSetMap cs).insert mr) } mr

def AddCallSiteCHI (bb : BasicBlock) (cs : ℕ) (mr : MemRegion) : MemSSA :=
  collectRegDefs (collectRegUses { s with
    callsiteToChiSetMap :=
      update s.callsiteToChiSetMap cs ((s.callsiteToChiSetMap cs).insert mr) } mr) bb mr

def AddMSSAPHI (bb : BasicBlock) (mr : MemRegion) : MemSSA :=
  { s with bb2PhiSetMap := update s.bb2PhiSetMap bb ((s.bb2PhiSetMap bb).insert mr) }

variable (mrGen : MRGenerator)

def createStmt (bb : BasicBlock) (s : MemSSA) : Stmt → MemSSA
  | .load load => (mrGen.loadMRSet load).foldl (·.AddLoadMU load ·) s
  | .store store => (mrGen.storeMRSet store).foldl (·.AddStoreCHI bb store ·) s
  | .other => s

def createNode (bb : BasicBlock) (s : MemSSA) (inst : ICFGNode) : MemSSA :=
  let s := inst.stmts.foldl (createStmt mrGen bb) s
  match inst.kind with
  | .callSite cs =>
      let s := ((mrGen.callSiteRefMRSet cs).getD []).foldl (·.AddCallSiteMU cs ·) s
      ((mrGen.callSiteModMRSet cs).getD []).foldl (·.AddCallSiteCHI bb cs ·) s
  | _ => s

def createBlock (nodes : BasicBlock → List ICFGNode) (s : MemSSA) (bb : BasicBlock) : MemSSA :=
  (nodes bb).foldl (createNode mrGen bb) { s with varKills := [] }

/-- The entry chi of `mr` and, when the function returns, the mu at its exit. -/
def createEntryChi (hasReturn : Bool) (s : MemSSA) (mr : MemRegion) : MemSSA :=
  let s := { s with
    mr2CounterMap := update s.mr2CounterMap mr 0
    mr2VerStackMap := update s.mr2VerStackMap mr [] }
  let (s, opVer) := s.newSSAName mr (.entryChi mr)
  let s := s.setOpVer (.entryChi mr) (some opVer)
  let (s, resVer) := s.newSSAName mr (.entryChi mr)
  let s := s.setResVer (.entryChi mr) resVer
  let s := { s with entryChiSet := s.entryChiSet.insert mr }
  if hasReturn then { s with returnMuSet := s.returnMuSet.insert mr } else s

def createMUCHI (fn : FunObjVar) : MemSSA :=
  let s := fn.reachableBBs.foldl (createBlock mrGen fn.icfgNodeList)
    { s with usedRegs := [], reg2BBMap := fun _ => [] }
  s.usedRegs.foldl (createEntryChi fn.hasReturn) s

end

/-- `bb2MRSetMap`: where a phi has already been inserted. -/
structure PhiState where
  bbs : List BasicBlock
  bb2MRSetMap : BasicBlock → List MemRegion
  mssa : MemSSA

def insertPhiAt (mr : MemRegion) (t : PhiState) (pbb : BasicBlock) : PhiState :=
  if mr ∈ t.bb2MRSetMap pbb then t
  else
    { bbs := pbb :: t.bbs
      bb2MRSetMap := update t.bb2MRSetMap pbb ((t.bb2MRSetMap pbb).insert mr)
      mssa := t.mssa.AddMSSAPHI pbb mr }

def insertPhiStep (df : BasicBlock → Option (List BasicBlock)) (mr : MemRegion) (t : PhiState) :
    Option PhiState :=
  match t.bbs with
  | [] => none
  | bb :: bbs =>
      match df bb with
      | none => some { t with bbs }
      | some domSet => some (domSet.foldl (insertPhiAt mr) { t with bbs })

def insertPhiOf (fuel : ℕ) (df : BasicBlock → Option (List BasicBlock)) (t : PhiState)
    (mr : MemRegion) : Option PhiState :=
  whileLoop (fun t => !t.bbs.isEmpty) (insertPhiStep df mr) fuel
    { t with bbs := t.mssa.reg2BBMap mr }

def insertPHI (fuel : ℕ) (fn : FunObjVar) : Option MemSSA :=
  (s.usedRegs.foldlM (insertPhiOf fuel fn.domFrontierMap) ⟨[], fun _ => [], s⟩).map (·.mssa)

section

def RenameMuSet (mu : MemRegion → MSSAMU) (s : MemSSA) (muSet : List MemRegion) : MemSSA :=
  muSet.foldl (fun s mr => s.setVer (mu mr) (s.getTopStackVer mr)) s

/-- The second component are the regions whose stacks are popped at the end of the block. -/
def RenameChiSet (chi : MemRegion → MSSADEF) (s : MemSSA × List MemRegion)
    (chiSet : List MemRegion) : MemSSA × List MemRegion :=
  chiSet.foldl (fun (s, memRegs) mr =>
    let s := s.setOpVer (chi mr) (s.getTopStackVer mr)
    let (s, ver) := s.newSSAName mr (chi mr)
    (s.setResVer (chi mr) ver, mr :: memRegs)) s

def RenamePhiRes (bb : BasicBlock) (s : MemSSA × List MemRegion) (phiSet : List MemRegion) :
    MemSSA × List MemRegion :=
  phiSet.foldl (fun (s, memRegs) mr =>
    let (s, ver) := s.newSSAName mr (.phi bb mr)
    (s.setResVer (.phi bb mr) ver, mr :: memRegs)) s

def RenamePhiOps (bb : BasicBlock) (pos : ℕ) (s : MemSSA) (phiSet : List MemRegion) : MemSSA :=
  phiSet.foldl (fun s mr => s.setPhiOpVer bb mr pos (s.getTopStackVer mr)) s

variable (mrGen : MRGenerator)

def renameStmt (s : MemSSA × List MemRegion) : Stmt → MemSSA × List MemRegion
  | .load load => (RenameMuSet (.loadMu load) s.1 (s.1.load2MuSetMap load), s.2)
  | .store store => RenameChiSet (.storeChi store) s (s.1.store2ChiSetMap store)
  | .other => s

def renameNode (s : MemSSA × List MemRegion) (pNode : ICFGNode) : MemSSA × List MemRegion :=
  let s := pNode.stmts.foldl renameStmt s
  match pNode.kind with
  | .callSite cs =>
      let s := if (mrGen.callSiteRefMRSet cs).isSome then
        (RenameMuSet (.callMu cs) s.1 (s.1.callsiteToMuSetMap cs), s.2) else s
      if (mrGen.callSiteModMRSet cs).isSome then
        RenameChiSet (.callChi cs) s (s.1.callsiteToChiSetMap cs) else s
  | .retInst => (RenameMuSet .retMu s.1 s.1.returnMuSet, s.2)
  | .other => s

def getBBPredecessorPos (fn : FunObjVar) (bb succ : BasicBlock) : ℕ :=
  (fn.predecessors succ).idxOf bb

/-- The part of `SSARenameBB` before the recursion into the dominator tree. -/
def renameBlock (fn : FunObjVar) (s : MemSSA) (bb : BasicBlock) : MemSSA × List MemRegion :=
  let s := RenamePhiRes bb (s, []) (s.bb2PhiSetMap bb)
  let s := (fn.icfgNodeList bb).foldl (renameNode mrGen) s
  ((fn.successors bb).foldl (fun s succ =>
    RenamePhiOps succ (getBBPredecessorPos fn bb succ) s (s.bb2PhiSetMap succ)) s.1, s.2)

def popStack (s : MemSSA) (mr : MemRegion) : MemSSA :=
  { s with mr2VerStackMap := update s.mr2VerStackMap mr (s.mr2VerStackMap mr).tail }

/-- `none`: the dominator tree is deeper than `fuel`. -/
def SSARenameBB (fn : FunObjVar) : ℕ → MemSSA → BasicBlock → Option MemSSA
  | 0, _, _ => none
  | fuel + 1, s, bb => do
      let (s, memRegs) := renameBlock mrGen fn s bb
      let s ← ((fn.domTreeMap bb).getD []).foldlM (SSARenameBB fn fuel) s
      return memRegs.foldl popStack s

end

end MemSSA

/-- Memory SSA for one function, after the stacks and counters of earlier ones. -/
def buildMemSSA (fuel : ℕ) (mrGen : MRGenerator) (fn : FunObjVar)
    (mr2VerStackMap : MemRegion → List MRVer) (mr2CounterMap : MemRegion → ℕ) : Option MemSSA := do
  let s := (MemSSA.init mr2VerStackMap mr2CounterMap).createMUCHI mrGen fn
  let s ← s.insertPHI fuel fn
  s.SSARenameBB mrGen fn fuel fn.entryBlock

end SVF.MSSA.MemorySSA
