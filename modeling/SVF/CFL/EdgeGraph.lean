import Mathlib.Data.Set.Finite.List
import SVF.CFL.Grammar
import SVF.Util.Saturation

namespace SVF.CFL.EdgeGraph

open Grammar Util.Saturation

variable {Sym : Type}

abbrev NodeID := ℕ

structure CFLEdge (Sym : Type) where
  src : NodeID
  dst : NodeID
  kind : Sym
  deriving DecidableEq

instance {Sym : Type} [DecidableEq Sym] : LawfulBEq (CFLEdge Sym) := instLawfulBEq

/-- `nodes` lists the node identifiers in the ascending order of the node map.
The adjacency sets of a node are read off `cflEdgeSet`, the edge set in some
order, which every insertion updates together with them. -/
structure CFLGraph (Sym : Type) where
  nodes : List NodeID
  cflEdgeSet : List (CFLEdge Sym)
  deriving DecidableEq

def CFLGraph.addCFLEdge [DecidableEq Sym] (graph : CFLGraph Sym) (src dst : NodeID) (label : Sym) :
    CFLGraph Sym × Option (CFLEdge Sym) :=
  if ⟨src, dst, label⟩ ∈ graph.cflEdgeSet then (graph, none)
  else ({ graph with cflEdgeSet := graph.cflEdgeSet ++ [⟨src, dst, label⟩] },
    some ⟨src, dst, label⟩)

def CFLGraph.getOutEdges (graph : CFLGraph Sym) (i : NodeID) : List (CFLEdge Sym) :=
  graph.cflEdgeSet.filter (fun e => e.src = i)

def CFLGraph.WellFormed (graph : CFLGraph Sym) : Prop :=
  ∀ e ∈ graph.cflEdgeSet, e.src ∈ graph.nodes ∧ e.dst ∈ graph.nodes

instance (graph : CFLGraph Sym) : Decidable graph.WellFormed :=
  inferInstanceAs (Decidable (∀ e ∈ graph.cflEdgeSet, e.src ∈ graph.nodes ∧ e.dst ∈ graph.nodes))

theorem CFLGraph.WellFormed.mem_outEdges {graph : CFLGraph Sym} (h : graph.WellFormed)
    (e : CFLEdge Sym) : e ∈ graph.nodes.flatMap graph.getOutEdges ↔ e ∈ graph.cflEdgeSet := by
  simp only [CFLGraph.getOutEdges, List.mem_flatMap, List.mem_filter, decide_eq_true_eq]
  constructor
  · rintro ⟨_, _, he, _⟩
    exact he
  · intro he
    exact ⟨e.src, (h e he).1, he, rfl⟩

def rules (prods : List (Production Sym)) : Rules (CFLEdge Sym) where
  one y x := x.src = y.src ∧ x.dst = y.dst ∧ .single x.kind y.kind ∈ prods
  two y z x := y.dst = z.src ∧ x.src = y.src ∧ x.dst = z.dst ∧
    .binary x.kind y.kind z.kind ∈ prods

/-- The input edges and a self-edge at every node of `nodes` for every
epsilon production. -/
def seeds (prods : List (Production Sym)) (edges : List (CFLEdge Sym)) (nodes : Set NodeID) :
    Set (CFLEdge Sym) :=
  {e | e ∈ edges ∨ e.src ∈ nodes ∧ e.dst = e.src ∧ .epsilon e.kind ∈ prods}

def labels (prods : List (Production Sym)) (edges : List (CFLEdge Sym)) : Set Sym :=
  {X | ∃ e ∈ edges, e.kind = X} ∪
    {X | .epsilon X ∈ prods ∨ (∃ Y, .single X Y ∈ prods) ∨ ∃ Y Z, .binary X Y Z ∈ prods}

def edgeDomain (prods : List (Production Sym)) (graph : CFLGraph Sym) : Set (CFLEdge Sym) :=
  {e | e.src ∈ graph.nodes ∧ e.dst ∈ graph.nodes ∧ e.kind ∈ labels prods graph.cflEdgeSet}

theorem labels_finite (prods : List (Production Sym)) (edges : List (CFLEdge Sym)) :
    (labels prods edges).Finite := by
  classical
  apply Set.Finite.union
  · exact (edges.finite_toSet.image CFLEdge.kind).subset (by rintro X ⟨e, he, rfl⟩; exact ⟨e, he, rfl⟩)
  · refine (prods.finite_toSet.image Production.lhs).subset ?_
    rintro X (h | ⟨Y, h⟩ | ⟨Y, Z, h⟩)
    · exact ⟨_, h, rfl⟩
    · exact ⟨_, h, rfl⟩
    · exact ⟨_, h, rfl⟩

theorem edgeDomain_finite (prods : List (Production Sym)) (graph : CFLGraph Sym) :
    (edgeDomain prods graph).Finite := by
  have hnodes : {n | n ∈ graph.nodes}.Finite := graph.nodes.finite_toSet
  refine ((hnodes.prod (hnodes.prod (labels_finite prods graph.cflEdgeSet))).image
    (fun p => (⟨p.1, p.2.1, p.2.2⟩ : CFLEdge Sym))).subset ?_
  rintro ⟨i, j, X⟩ ⟨hi, hj, hX⟩
  exact ⟨(i, j, X), ⟨hi, hj, hX⟩, rfl⟩

theorem closedUnder_edgeDomain (prods : List (Production Sym)) (graph : CFLGraph Sym) :
    ClosedUnder (rules prods) (edgeDomain prods graph) where
  one := by
    rintro y x ⟨hs, hd, _⟩ ⟨hsrc, hdst, hp⟩
    exact ⟨hsrc ▸ hs, hdst ▸ hd, .inr (.inr (.inl ⟨_, hp⟩))⟩
  two := by
    rintro y z x ⟨hs, _, _⟩ ⟨_, hd, _⟩ ⟨_, hsrc, hdst, hp⟩
    exact ⟨hsrc ▸ hs, hdst ▸ hd, .inr (.inr (.inr ⟨_, _, hp⟩))⟩

theorem seeds_subset_edgeDomain (prods : List (Production Sym)) {graph : CFLGraph Sym}
    (hgraph : graph.WellFormed) {nodes : Set NodeID} (hn : ∀ n ∈ nodes, n ∈ graph.nodes) :
    seeds prods graph.cflEdgeSet nodes ⊆ edgeDomain prods graph := by
  rintro e (he | ⟨hs, hd, hp⟩)
  · exact ⟨(hgraph e he).1, (hgraph e he).2, .inl ⟨e, he, rfl⟩⟩
  · exact ⟨hn _ hs, hd ▸ hn _ hs, .inr (.inl hp)⟩

end SVF.CFL.EdgeGraph
