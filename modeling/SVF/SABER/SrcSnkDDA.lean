import SVF.Util.ContextConds
import SVF.Util.Loops
import SVF.Util.Traversals

namespace SVF.SABER.SrcSnkDDA

open Relation Util.ContextConds Util.Loops Util.Traversals

/-- Direct and indirect edges, with the call site of those between functions. -/
inductive EdgeKind
  | intra
  | call (csId : NodeID)
  | ret (csId : NodeID)

structure SVFGEdge (Node : Type) where
  src : Node
  dst : Node
  kind : EdgeKind

structure SVFG (Node : Type) where
  nodes : Finset Node
  outEdges : Node → List (SVFGEdge Node)
  inEdges : Node → List (SVFGEdge Node)
  src_eq : ∀ n, ∀ edge ∈ outEdges n, edge.src = n
  mem_inEdges : ∀ n edge, edge ∈ inEdges n ↔ edge ∈ outEdges edge.src ∧ edge.dst = n
  ends : ∀ n, ∀ edge ∈ outEdges n, n ∈ nodes ∧ edge.dst ∈ nodes

/-- `order` is the order in which a set of nodes is iterated over. -/
structure Checker (Node : Type) where
  isGlobalSVFGNode : Node → Bool
  isSink : Node → Bool
  order : List Node → List Node
  mem_order : ∀ l n, n ∈ order l ↔ n ∈ l

structure CxtDPItem (Node : Type) where
  cur : Node
  context : ContextCond

structure ProgSlice (Node : Type) where
  forwardSlice : List Node
  backwardSlice : List Node
  sinks : List Node
  partialReachable : Bool
  reachGlobal : Bool

structure State (Node : Type) where
  worklist : List (CxtDPItem Node)
  nodeToDPItemsMap : List (Node × List NodeID)
  visitedSet : List Node
  curSlice : ProgSlice Node

variable {Node : Type} [DecidableEq Node]

namespace CxtDPItem

def key (item : CxtDPItem Node) : Node × List NodeID := (item.cur, item.context.context)

def same (item other : CxtDPItem Node) : Bool := item.key == other.key

end CxtDPItem

def ProgSlice.new : ProgSlice Node := ⟨[], [], [], false, false⟩

namespace State

variable (g : SVFG Node) (C : Checker Node) (maximumCxtLen : ℕ) (s : State Node)

def new : State Node := ⟨[], [], [], .new⟩

def pushIntoWorklist (item : CxtDPItem Node) : State Node :=
  { s with worklist := push CxtDPItem.same s.worklist item }

def setCurSlice : State Node :=
  { s with nodeToDPItemsMap := [], visitedSet := [], curSlice := .new }

def FWProcessCurNode (item : CxtDPItem Node) : State Node :=
  let slice : ProgSlice Node := { s.curSlice with forwardSlice := s.curSlice.forwardSlice.insert item.cur }
  if C.isSink item.cur then
    { s with curSlice := { slice with sinks := slice.sinks.insert item.cur, partialReachable := true } }
  else { s with curSlice := slice }

/-- The contexts of the new item; `none` when the call site of a return does not match. -/
def nextContexts (contexts : ContextCond) : EdgeKind → Option ContextCond
  | .intra => some contexts.copy
  | .call csId => some (contexts.copy.pushContext maximumCxtLen csId).1
  | .ret csId =>
      let (newContexts, matched) := contexts.copy.matchContext csId
      if matched then some newContexts else none

def FWProcessOutgoingEdge (item : CxtDPItem Node) (s : State Node) (edge : SVFGEdge Node) : State Node :=
  if C.isGlobalSVFGNode edge.dst || s.curSlice.reachGlobal then
    { s with curSlice := { s.curSlice with reachGlobal := true } }
  else
    match nextContexts maximumCxtLen item.context edge.kind with
    | some contexts =>
        let newItem : CxtDPItem Node := ⟨edge.dst, contexts⟩
        if newItem.key ∈ s.nodeToDPItemsMap then s
        else { s with nodeToDPItemsMap := newItem.key :: s.nodeToDPItemsMap }.pushIntoWorklist newItem
    | none => s

def BWProcessCurNode (item : CxtDPItem Node) : State Node :=
  if item.cur ∈ s.curSlice.forwardSlice then
    { s with curSlice := { s.curSlice with backwardSlice := s.curSlice.backwardSlice.insert item.cur } }
  else s

def BWProcessIncomingEdge (s : State Node) (edge : SVFGEdge Node) : State Node :=
  if edge.src ∈ s.visitedSet then s
  else { s with visitedSet := edge.src :: s.visitedSet }.pushIntoWorklist ⟨edge.src, .new⟩

def hasWork : Bool := !s.worklist.isEmpty

def forwardStep : Option (State Node) :=
  match s.worklist with
  | [] => none
  | item :: rest =>
      let s := FWProcessCurNode C { s with worklist := rest } item
      some ((g.outEdges item.cur).foldl (FWProcessOutgoingEdge C maximumCxtLen item) s)

def forwardTraverse (fuel : ℕ) (it : CxtDPItem Node) : Option (State Node) :=
  whileLoop hasWork (forwardStep g C maximumCxtLen) fuel (s.pushIntoWorklist it)

def backwardStep : Option (State Node) :=
  match s.worklist with
  | [] => none
  | item :: rest =>
      let s := BWProcessCurNode { s with worklist := rest } item
      some ((g.inEdges item.cur).foldl BWProcessIncomingEdge s)

def backwardTraverse (fuel : ℕ) (it : CxtDPItem Node) : Option (State Node) :=
  whileLoop hasWork (backwardStep g) fuel (s.pushIntoWorklist it)

def analyzeSource (fuel : ℕ) (src : Node) : Option (State Node) :=
  (forwardTraverse g C maximumCxtLen s.setCurSlice fuel ⟨src, .new⟩).bind fun s =>
    if s.curSlice.reachGlobal then some s
    else (C.order s.curSlice.sinks).foldlM (fun s sink => backwardTraverse g s fuel ⟨sink, .new⟩) s

def analyze (fuel : ℕ) : List Node → State Node → Option (List (Node × ProgSlice Node))
  | [], _ => some []
  | src :: sources, s =>
      (analyzeSource g C maximumCxtLen s fuel src).bind fun s =>
        (analyze fuel sources s).map fun slices => (src, s.curSlice) :: slices

end State

section

variable (g : SVFG Node)

omit [DecidableEq Node]

def SVFG.Edge (n m : Node) : Prop := ∃ edge ∈ g.outEdges n, edge.dst = m

/-- The call string before and after an edge, whose calls and returns match; a return on an empty call
string is allowed. -/
inductive Matches : EdgeKind → List NodeID → List NodeID → Prop
  | intra (calls : List NodeID) : Matches .intra calls calls
  | call (csId : NodeID) (calls : List NodeID) : Matches (.call csId) calls (calls ++ [csId])
  | ret (csId : NodeID) (calls : List NodeID) : Matches (.ret csId) (calls ++ [csId]) calls
  | retUnbalanced (csId : NodeID) : Matches (.ret csId) [] []

def MatchedEdge (p q : Node × List NodeID) : Prop :=
  ∃ edge ∈ g.outEdges p.1, edge.dst = q.1 ∧ Matches edge.kind p.2 q.2

def Reachable (src n : Node) : Prop := ∃ calls, ReflTransGen (MatchedEdge g) (src, []) (n, calls)

def ReachableAgain (src n : Node) : Prop := ∃ calls, TransGen (MatchedEdge g) (src, []) (n, calls)

variable (C : Checker Node)

structure Complete (src : Node) (slice : ProgSlice Node) : Prop where
  forward : (∀ n, C.isGlobalSVFGNode n = true → ¬ TransGen g.Edge src n) → ∀ n, Reachable g src n →
    n ∈ slice.forwardSlice ∧ (C.isSink n = true → n ∈ slice.sinks)
  global : (∃ n, C.isGlobalSVFGNode n = true ∧ ReachableAgain g src n) → slice.reachGlobal = true
  backward : slice.reachGlobal = false → ∀ n, n ∈ slice.backwardSlice ↔
    n ∈ slice.forwardSlice ∧ ∃ sink ∈ slice.sinks, ReflTransGen g.Edge n sink

end

end SVF.SABER.SrcSnkDDA
