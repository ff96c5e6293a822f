import Mathlib.Order.BooleanAlgebra.Basic

namespace SVF.SABER.SaberCondAllocator

variable {BB C : Type*}

/-- What `evaluateTestNullLikeExpr` asks of the condition of a branch. -/
inductive TestKind
  | constData
  | testNull
  | testNotNull
  | other

structure BranchStmt (BB : Type*) where
  succ1 : BB
  succ2 : BB
  condition : TestKind

/-- The blocks of a function with their conditions, which are taken up to equivalence. -/
structure Allocator (BB C : Type*) where
  blocks : List BB
  getSuccessors : BB → List BB
  postDominate : BB → BB → Bool
  isLoopHeader : BB → Bool
  getExitBlocksOfLoop : BB → List BB
  /-- `funToExitBBsMap` of the function. -/
  exitBBs : List BB
  branchStmt : BB → Option (BranchStmt BB)
  bbConds : BB → ℕ → C
  /-- Whether there is a current SVFG node, with a value. -/
  hasCurEvalValue : Bool
  successors_mem : ∀ bb ∈ blocks, ∀ succ ∈ getSuccessors bb, succ ∈ blocks

/-- `bbToCondMap` with the worklist of `ComputeIntraVFGGuard`. -/
structure GuardState (BB C : Type*) where
  bbToCondMap : BB → Option C
  worklist : List BB

section

variable [BooleanAlgebra C]

def GuardState.getCFCond (s : GuardState BB C) (bb : BB) : C := (s.bbToCondMap bb).getD ⊥

variable [DecidableEq BB]

namespace Allocator

variable (a : Allocator BB C)

def getBranchCond (bb succ : BB) : C :=
  if (a.getSuccessors bb).length = 1 then ⊤ else a.bbConds bb ((a.getSuccessors bb).idxOf succ)

def isBBCallsProgExit (bb : BB) : Bool := a.exitBBs.any fun exit => a.postDominate exit bb

/-- `none` is the null expression. -/
def evaluateLoopExitBranch (bb dst : BB) : Option C :=
  if a.isLoopHeader bb then
    let filteredbbs := (a.getExitBlocksOfLoop bb).filter fun eb => !a.isBBCallsProgExit eb
    if filteredbbs.all fun filteredbb => a.postDominate dst filteredbb then some ⊤ else none
  else none

def evaluateProgExit (branch : BranchStmt BB) (succ : BB) : Option C :=
  let branch1 := a.isBBCallsProgExit branch.succ1
  let branch2 := a.isBBCallsProgExit branch.succ2
  if branch1 && !branch2 then some (if branch.succ1 = succ then ⊥ else ⊤)
  else if !branch1 && branch2 then some (if branch.succ2 = succ then ⊥ else ⊤)
  else if branch1 && branch2 then some ⊥
  else none

def evaluateTestNullLikeExpr (branch : BranchStmt BB) (succ : BB) : Option C :=
  match branch.condition with
  | .constData => none
  | .testNull => some (if branch.succ1 = succ then ⊥ else ⊤)
  | .testNotNull => some (if branch.succ1 = succ then ⊤ else ⊥)
  | .other => none

def evaluateBranchCond (bb succ : BB) : C :=
  if (a.getSuccessors bb).length = 1 then ⊤
  else
    match a.branchStmt bb with
    | some branch =>
      (a.evaluateLoopExitBranch bb succ <|> a.evaluateProgExit branch succ <|>
        evaluateTestNullLikeExpr branch succ).getD (a.getBranchCond bb succ)
    | none => a.getBranchCond bb succ

def getEvalBrCond (bb succ : BB) : C :=
  if a.hasCurEvalValue then a.evaluateBranchCond bb succ else a.getBranchCond bb succ

def brCond (bb succ : BB) : C :=
  if a.postDominate succ bb then ⊤ else a.getEvalBrCond bb succ

end Allocator

def GuardState.start (src : BB) : GuardState BB C :=
  ⟨Function.update (fun _ => none) src (some ⊤), [src]⟩

variable [DecidableEq C]

namespace GuardState

def setCFCond (s : GuardState BB C) (bb : BB) (cond : C) : GuardState BB C :=
  if s.bbToCondMap bb = some cond then s
  else
    let bbToCondMap := Function.update s.bbToCondMap bb (some cond)
    let worklist := if bb ∈ s.worklist then s.worklist else s.worklist ++ [bb]
    ⟨bbToCondMap, worklist⟩

def visitSuccessors (s : GuardState BB C) (a : Allocator BB C) (bb : BB) (cond : C) :
    GuardState BB C :=
  (a.getSuccessors bb).foldl (fun s succ =>
    let succPathCond := cond ⊓ a.brCond bb succ
    s.setCFCond succ (s.getCFCond succ ⊔ succPathCond)) s

end GuardState

namespace Allocator

variable (a : Allocator BB C)

/-- The worklist loop of `ComputeIntraVFGGuard`; `none` when the fuel is used up. -/
def guardLoop (dst : BB) : ℕ → GuardState BB C → Option C
  | 0, _ => none
  | fuel + 1, s =>
    match s.worklist with
    | [] => some (s.getCFCond dst)
    | bb :: rest =>
      let cond := s.getCFCond bb
      match a.evaluateLoopExitBranch bb dst with
      | some loopExitCond => some (cond ⊓ loopExitCond)
      | none => guardLoop dst fuel ({ s with worklist := rest }.visitSuccessors a bb cond)

def ComputeIntraVFGGuard (fuel : ℕ) (src dst : BB) : Option C :=
  if a.postDominate dst src then some ⊤ else a.guardLoop dst fuel (.start src)

end Allocator

end

end SVF.SABER.SaberCondAllocator
