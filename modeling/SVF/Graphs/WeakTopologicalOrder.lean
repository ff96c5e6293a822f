import Mathlib.Data.List.Nodup
import SVF.Util.NodeIDs

namespace SVF.Graphs.WeakTopologicalOrder

open Relation
open Util.NodeIDs (UINT_MAX)

variable {Node : Type} [DecidableEq Node]

inductive WTOComponent (Node : Type)
  | node (n : Node)
  | cycle (head : Node) (components : List (WTOComponent Node))

/-- A finite directed graph. Of its successors `forEachSuccessor` goes through `succs`. -/
structure Graph (Node : Type) where
  nodes : List Node
  succs : Node → List Node
  closed : ∀ n ∈ nodes, ∀ m ∈ succs n, m ∈ nodes

/-- The top of the stack comes first. -/
structure WTOState (Node : Type) where
  headRefToCycle : Node → Option (WTOComponent Node) := fun _ => none
  nodeToCDN : Node → ℕ := fun _ => 0
  num : ℕ := 0
  stack : List Node := []

namespace WTOState

variable (s : WTOState Node)

def getCDN (n : Node) : ℕ := s.nodeToCDN n

def setCDN (n : Node) (dfn : ℕ) : WTOState Node :=
  { s with nodeToCDN := Function.update s.nodeToCDN n dfn }

def push (n : Node) : WTOState Node :=
  { s with stack := n :: s.stack, num := (s.num + 1) % 2 ^ 32 }.setCDN n ((s.num + 1) % 2 ^ 32)

/-- Pops up to `node`. The numbers of the nodes above it are reset; an empty stack is a failed
assertion. -/
def popTo (node : Node) : List Node → WTOState Node → Option (WTOState Node)
  | [], _ => none
  | element :: stack, s =>
      if element = node then some { s with stack := stack }
      else popTo node stack (s.setCDN element 0)

def pop : Option (WTOState Node) :=
  match s.stack with
  | [] => none
  | _ :: stack => some { s with stack := stack }

def emplaceHead (node : Node) (c : WTOComponent Node) : WTOState Node :=
  match s.headRefToCycle node with
  | some _ => s
  | none => { s with headRefToCycle := Function.update s.headRefToCycle node (some c) }

end WTOState

abbrev Partition (Node : Type) := List (WTOComponent Node)

/-- The type of `visit`, which extends a partition and returns a number. -/
abbrev Visit (Node : Type) :=
  Node → WTOState Node → Partition Node → Option (WTOState Node × Partition Node × ℕ)

structure Frame (Node : Type) where
  state : WTOState Node
  partition : Partition Node
  head : ℕ
  loop : Bool

def Frame.successor (visit : Visit Node) (f : Frame Node) (succ : Node) : Option (Frame Node) :=
  (if f.state.getCDN succ = 0 then visit succ f.state f.partition
    else some (f.state, f.partition, f.state.getCDN succ)).map fun r =>
      let min := r.2.2
      if min ≤ f.head then ⟨r.1, r.2.1, min, true⟩ else ⟨r.1, r.2.1, f.head, f.loop⟩

def componentSuccessor (visit : Visit Node) (r : WTOState Node × Partition Node) (succ : Node) :
    Option (WTOState Node × Partition Node) :=
  if r.1.getCDN succ = 0 then (visit succ r.1 r.2).map fun r => (r.1, r.2.1) else some r

def component (visit : Visit Node) (G : Graph Node) (node : Node) (s : WTOState Node) :
    Option (WTOState Node × WTOComponent Node) :=
  ((G.succs node).foldlM (componentSuccessor visit) (s, [])).map fun r =>
    (r.1.emplaceHead node (.cycle node r.2), .cycle node r.2)

def visit (G : Graph Node) : ℕ → Visit Node
  | 0, _, _, _ => none
  | depth + 1, node, s, partition =>
      let s := s.push node
      ((G.succs node).foldlM (Frame.successor (visit G depth)) ⟨s, partition, s.num, false⟩).bind
        fun f =>
          if f.head = f.state.getCDN node then
            let s := f.state.setCDN node UINT_MAX
            if f.loop then
              (WTOState.popTo node s.stack s).bind fun s =>
                (component (visit G depth) G node s).map fun r =>
                  (r.1, r.2 :: f.partition, f.head)
            else s.pop.map fun s => (s, .node node :: f.partition, f.head)
          else some (f.state, f.partition, f.head)

structure WTOCycleDepthBuilder (Node : Type) where
  wtoCycleDepth : List Node := []
  nodeToWTOCycleDepth : Node → Option (List Node) := fun _ => none

namespace WTOCycleDepthBuilder

def insert (b : WTOCycleDepthBuilder Node) (n : Node) : WTOCycleDepthBuilder Node :=
  match b.nodeToWTOCycleDepth n with
  | some _ => b
  | none =>
      { b with nodeToWTOCycleDepth :=
          Function.update b.nodeToWTOCycleDepth n (some b.wtoCycleDepth) }

mutual

def visit (b : WTOCycleDepthBuilder Node) : WTOComponent Node → WTOCycleDepthBuilder Node
  | .node n => b.insert n
  | .cycle head components =>
      let previous_cycleDepth := b.wtoCycleDepth
      let b := b.insert head
      let b := { b with wtoCycleDepth := b.wtoCycleDepth ++ [head] }
      { accept b components with wtoCycleDepth := previous_cycleDepth }

def accept (b : WTOCycleDepthBuilder Node) :
    List (WTOComponent Node) → WTOCycleDepthBuilder Node
  | [] => b
  | c :: cs => accept (visit b c) cs

end

end WTOCycleDepthBuilder

structure WTO (Node : Type) where
  components : Partition Node
  headRefToCycle : Node → Option (WTOComponent Node)
  nodeToDepth : Node → Option (List Node)

def init (G : Graph Node) (depth : ℕ) (entry : Node) : Option (WTO Node) :=
  (visit G depth entry {} []).map fun r =>
    ⟨r.2.1, r.1.headRefToCycle, (WTOCycleDepthBuilder.accept {} r.2.1).nodeToWTOCycleDepth⟩

def Reach (G : Graph Node) : Node → Node → Prop := ReflTransGen fun n m => m ∈ G.succs n

structure ICFGNode (Node Fun : Type) where
  function : Fun
  /-- The return node of a call node. -/
  retNode : Option Node
  /-- The targets of the edges out of the node, and whether they are intraprocedural. -/
  outEdges : List (Node × Bool)

def forEachSuccessor {Fun : Type} [DecidableEq Fun] (node : Node → ICFGNode Node Fun) (n : Node) :
    List Node :=
  match (node n).retNode with
  | some succ => [succ]
  | none => ((node n).outEdges.filter fun e =>
      e.2 && decide ((node n).function = (node e.1).function)).map Prod.fst

/-- The graph that `ICFGWTO` orders, on nodes with which their successors are. -/
def icfgGraph {Fun : Type} [DecidableEq Fun] (node : Node → ICFGNode Node Fun) (nodes : List Node)
    (closed : ∀ n ∈ nodes, ∀ m ∈ forEachSuccessor node n, m ∈ nodes) : Graph Node :=
  ⟨nodes, forEachSuccessor node, closed⟩

end SVF.Graphs.WeakTopologicalOrder
