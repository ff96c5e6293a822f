import SVF.SABER.SaberCondAllocator
import SVF.Util.Z3Expr

namespace SVF.SABER.ProgSlice

open SaberCondAllocator Util.Z3Expr

variable {BB Node K : Type} {n : ℕ} [DecidableEq BB] [DecidableEq Node] [DecidableEq K]

section

variable (z : Z3 n) (s : Solver n)

def isEquivalentBranchCond (lhs rhs : Expr n) : Bool × Solver n :=
  let (res, s) := checkExpr z s (binary .distinct lhs rhs)
  (res = .unsat, s)

/-- No scope is opened for the condition. -/
def isSatisfiable (condition : Expr n) : Bool × Solver n :=
  let s := s.add condition
  let result := s.check z
  let s := s.pop
  (result = .sat || result = .unknown, s)

def isAllPathReachable (condition : Expr n) : Bool × Solver n :=
  isEquivalentBranchCond z s condition getTrueCond

end

section

variable (a : Allocator BB (Expr n))

def getBranchCond (bb succ : BB) : Expr n :=
  if (a.getSuccessors bb).length = 1 then getTrueCond
  else a.bbConds bb ((a.getSuccessors bb).idxOf succ)

/-- `none` is the null expression. -/
def evaluateLoopExitBranch (bb dst : BB) : Option (Expr n) :=
  if a.isLoopHeader bb then
    let filteredbbs := (a.getExitBlocksOfLoop bb).filter fun eb => !a.isBBCallsProgExit eb
    if filteredbbs.all fun filteredbb => a.postDominate dst filteredbb then some getTrueCond
    else none
  else none

def evaluateProgExit (branch : BranchStmt BB) (succ : BB) : Option (Expr n) :=
  let branch1 := a.isBBCallsProgExit branch.succ1
  let branch2 := a.isBBCallsProgExit branch.succ2
  if branch1 && !branch2 then some (if branch.succ1 = succ then getFalseCond else getTrueCond)
  else if !branch1 && branch2 then some (if branch.succ2 = succ then getFalseCond else getTrueCond)
  else if branch1 && branch2 then some getFalseCond
  else none

def evaluateTestNullLikeExpr (branch : BranchStmt BB) (succ : BB) : Option (Expr n) :=
  match branch.condition with
  | .constData => none
  | .testNull => some (if branch.succ1 = succ then getFalseCond else getTrueCond)
  | .testNotNull => some (if branch.succ1 = succ then getTrueCond else getFalseCond)
  | .other => none

def evaluateBranchCond (bb succ : BB) : Expr n :=
  if (a.getSuccessors bb).length = 1 then getTrueCond
  else
    match a.branchStmt bb with
    | some branch =>
      (evaluateLoopExitBranch a bb succ <|> evaluateProgExit a branch succ <|>
        evaluateTestNullLikeExpr branch succ).getD (getBranchCond a bb succ)
    | none => getBranchCond a bb succ

def getEvalBrCond (bb succ : BB) : Expr n :=
  if a.hasCurEvalValue then evaluateBranchCond a bb succ else getBranchCond a bb succ

def brCond (bb succ : BB) : Expr n :=
  if a.postDominate succ bb then getTrueCond else getEvalBrCond a bb succ

end

/-- `bbToCondMap` or `svfgNodeToCondMap`, with the worklist of its loop and the shared solver. -/
structure CondState (K : Type) (n : ℕ) where
  conds : K → Option (Expr n)
  worklist : List K
  solver : Solver n

namespace CondState

variable (z : Z3 n) (maxZ3Size : ℕ) (s : CondState K n)

def clear (solver : Solver n) : CondState K n := ⟨fun _ => none, [], solver⟩

def getCond (k : K) : Expr n := (s.conds k).getD getFalseCond

def setCond (k : K) (cond : Expr n) : Bool × CondState K n :=
  match s.conds k with
  | some old =>
    let (same, solver) := isEquivalentBranchCond z s.solver old cond
    if same then (false, { s with solver := solver })
    else (true, { s with conds := Function.update s.conds k (some cond), solver := solver })
  | none => (true, { s with conds := Function.update s.conds k (some cond) })

def push (k : K) : CondState K n :=
  { s with worklist := if k ∈ s.worklist then s.worklist else s.worklist ++ [k] }

/-- What both loops do with a successor: its condition is joined with the path
condition, and it is pushed if that changes it. -/
def relax (cond guard : Expr n) (s : CondState K n) (succ : K) : CondState K n :=
  let (succPathCond, solver) := AND z maxZ3Size s.solver cond guard
  let (newCond, solver) := OR z maxZ3Size solver (s.getCond succ) succPathCond
  let (changed, s) := { s with solver := solver }.setCond z succ newCond
  if changed then s.push succ else s

end CondState

section

variable (z : Z3 n) (maxZ3Size : ℕ) (a : Allocator BB (Expr n))

def visitSuccessors (bb : BB) (cond : Expr n) (s : CondState BB n) : CondState BB n :=
  (a.getSuccessors bb).foldl (fun s succ => s.relax z maxZ3Size cond (brCond a bb succ) succ) s

/-- The worklist loop of `ComputeIntraVFGGuard`; `none` when the fuel is used up. -/
def guardLoop (dst : BB) : ℕ → CondState BB n → Option (Expr n × CondState BB n)
  | 0, _ => none
  | fuel + 1, s =>
    match s.worklist with
    | [] => some (s.getCond dst, s)
    | bb :: rest =>
      let s := { s with worklist := rest }
      let cond := s.getCond bb
      match evaluateLoopExitBranch a bb dst with
      | some loopExitCond =>
        let (guard, solver) := AND z maxZ3Size s.solver cond loopExitCond
        some (guard, { s with solver := solver })
      | none => guardLoop dst fuel (visitSuccessors z maxZ3Size a bb cond s)

def ComputeIntraVFGGuard (fuel : ℕ) (s : CondState BB n) (src dst : BB) :
    Option (Expr n × CondState BB n) :=
  if a.postDominate dst src then some (getTrueCond, s)
  else guardLoop z maxZ3Size a dst fuel { (s.setCond z src getTrueCond).2 with worklist := [src] }

/-- The guard of a path from `src` over `mid1` and `mid2`, which follows it
across the functions, to `dst`. -/
def computeInterVFGGuard (fuel : ℕ) (s : CondState BB n) (src mid1 mid2 dst : BB) :
    Option (Expr n × CondState BB n) :=
  (ComputeIntraVFGGuard z maxZ3Size a fuel s src mid1).bind fun r1 =>
    let s := r1.2
    let (cond, solver) := OR z maxZ3Size s.solver (s.getCond mid2) (s.getCond mid1)
    let s := ({ s with solver := solver }.setCond z mid2 cond).2
    (ComputeIntraVFGGuard z maxZ3Size a fuel s mid2 dst).map fun r2 =>
      let (guard, solver) := AND z maxZ3Size r2.2.solver r1.1 r2.1
      (guard, { r2.2 with solver := solver })

end

inductive VFGEdgeKind (BB : Type)
  | intra
  | call (callBB : BB)
  | ret (retBB : BB)

structure SVFGEdge (BB Node : Type) where
  dst : Node
  kind : VFGEdgeKind BB

structure Slice (BB Node : Type) (n : ℕ) where
  root : Node
  inBackwardSlice : Node → Bool
  outEdges : Node → List (SVFGEdge BB Node)
  sinks : List Node
  getSVFGNodeBB : Node → BB
  removedSUVFEdges : Node → List Node
  allocator : Node → Allocator BB (Expr n)
  /-- The entry and the exit block of the function of a block. -/
  getEntryBlock : BB → BB
  getExitBB : BB → BB

namespace Slice

variable (z : Z3 n) (maxZ3Size : ℕ) (sl : Slice BB Node n)

def ComputeInterCallVFGGuard (node : Node) (fuel : ℕ) (s : CondState BB n)
    (srcBB dstBB callBB : BB) : Option (Expr n × CondState BB n) :=
  computeInterVFGGuard z maxZ3Size (sl.allocator node) fuel s srcBB callBB (sl.getEntryBlock dstBB)
    dstBB

def ComputeInterRetVFGGuard (node : Node) (fuel : ℕ) (s : CondState BB n)
    (srcBB dstBB retBB : BB) : Option (Expr n × CondState BB n) :=
  computeInterVFGGuard z maxZ3Size (sl.allocator node) fuel s srcBB (sl.getExitBB srcBB) retBB dstBB

/-- The guard of an edge, with the conditions of the blocks cleared before. -/
def edgeGuard (fuel : ℕ) (solver : Solver n) (node : Node) (edge : SVFGEdge BB Node) :
    Option (Expr n × Solver n) :=
  let nodeBB := sl.getSVFGNodeBB node
  let succBB := sl.getSVFGNodeBB edge.dst
  let s := CondState.clear solver
  (match edge.kind with
    | .call callBB => sl.ComputeInterCallVFGGuard z maxZ3Size node fuel s nodeBB succBB callBB
    | .ret retBB => sl.ComputeInterRetVFGGuard z maxZ3Size node fuel s nodeBB succBB retBB
    | .intra => ComputeIntraVFGGuard z maxZ3Size (sl.allocator node) fuel s nodeBB succBB).map
      fun r : Expr n × CondState BB n => (r.1, r.2.solver)

def validOutBBs (cur : Node) : List BB :=
  ((sl.outEdges cur).filter fun edge => sl.inBackwardSlice edge.dst).map fun edge =>
    sl.getSVFGNodeBB edge.dst

/-- The body of the loop over the removed strong-update edges. -/
def addInvalid (fuel : ℕ) (cur : Node) (r : Expr n × Solver n) (succ : Node) :
    Option (Expr n × Solver n) :=
  if sl.getSVFGNodeBB succ ∈ sl.validOutBBs cur then some r
  else
    (ComputeIntraVFGGuard z maxZ3Size (sl.allocator cur) fuel (.clear r.2) (sl.getSVFGNodeBB cur)
      (sl.getSVFGNodeBB succ)).map fun g => OR z maxZ3Size g.2.solver r.1 g.1

def computeInvalidCondFromRemovedSUVFEdge (fuel : ℕ) (solver : Solver n) (cur : Node) :
    Option (Expr n × Solver n) :=
  (sl.removedSUVFEdges cur).foldlM (sl.addInvalid z maxZ3Size fuel cur) (getFalseCond, solver)

def visitEdge (fuel : ℕ) (node : Node) (invalidCond cond : Expr n) (s : CondState Node n)
    (edge : SVFGEdge BB Node) : Option (CondState Node n) :=
  if sl.inBackwardSlice edge.dst then
    (sl.edgeGuard z maxZ3Size fuel s.solver node edge).map fun g =>
      let (vfCond, solver) := AND z maxZ3Size g.2 g.1 (NEG z invalidCond)
      { s with solver := solver }.relax z maxZ3Size cond vfCond edge.dst
  else some s

def visitNode (fuel : ℕ) (s : CondState Node n) (node : Node) : Option (CondState Node n) :=
  (sl.computeInvalidCondFromRemovedSUVFEdge z maxZ3Size fuel s.solver node).bind fun r =>
    let s := { s with solver := r.2 }
    (sl.outEdges node).foldlM (sl.visitEdge z maxZ3Size fuel node r.1 (s.getCond node)) s

def solveLoop (guardFuel : ℕ) : ℕ → CondState Node n → Option (CondState Node n)
  | 0, _ => none
  | fuel + 1, s =>
    match s.worklist with
    | [] => some s
    | node :: rest =>
      (sl.visitNode z maxZ3Size guardFuel { s with worklist := rest } node).bind
        (solveLoop guardFuel fuel)

def isSatisfiableForAll (s : CondState Node n) : Expr n × Bool × CondState Node n :=
  let (guard, solver) := sl.sinks.foldl
    (fun r sink => OR z maxZ3Size r.2 r.1 (s.getCond sink)) (getFalseCond, s.solver)
  let (reachable, solver) := isAllPathReachable z solver guard
  (guard, reachable, { s with solver := solver })

/-- The final condition, the answer, and the conditions of the nodes. -/
def AllPathReachableSolve (fuel : ℕ) (solver : Solver n) :
    Option (Expr n × Bool × CondState Node n) :=
  let s : CondState Node n := { (CondState.clear solver) with worklist := [sl.root] }
  (sl.solveLoop z maxZ3Size fuel fuel (s.setCond z sl.root getTrueCond).2).map
    (sl.isSatisfiableForAll z maxZ3Size)

end Slice

end SVF.SABER.ProgSlice
