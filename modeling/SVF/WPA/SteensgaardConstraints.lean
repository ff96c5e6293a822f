import Mathlib.Data.Set.Finite.Lattice
import SVF.WPA.SteensgaardClasses

namespace SVF.WPA.SteensgaardConstraints

open Graphs.ConsG Graphs.Registration Graphs.Retargeting Util.OrderedSets SteensgaardSolver
open SteensgaardSolver.Steensgaard
open MemoryModel.PointsToSets (PointsTo)

variable {g : ConstraintGraph} {s : Steensgaard} {e : ConstraintEdge} {n : NodeID} {pts : PointsTo}

def ConstraintHolds (s : Steensgaard) (e : ConstraintEdge) : Prop :=
  match e.cls.getEdgeKind with
  | .Addr => e.src ∈ s.getPts e.dst
  | .Copy | .NormalGep | .VariantGep => ∀ x ∈ s.getPts e.src, x ∈ s.getPts e.dst
  | .Load => ∀ o ∈ s.getPts e.src, ∀ x ∈ s.getPts o, x ∈ s.getPts e.dst
  | .Store => ∀ o ∈ s.getPts e.dst, ∀ x ∈ s.getPts e.src, x ∈ s.getPts o

/-- The inclusion-based solution. `field` is the object that a gep makes of an
object its source points to. -/
inductive Andersen (g : ConstraintGraph) (field : ConstraintEdge → NodeID → NodeID) :
    NodeID → NodeID → Prop
  | addr {e : ConstraintEdge} (he : e ∈ edges g) (hkind : e.cls.getEdgeKind = .Addr) :
      Andersen g field e.dst e.src
  | copy {e : ConstraintEdge} {x : NodeID} (he : e ∈ edges g) (hkind : e.cls.getEdgeKind = .Copy)
      (hx : Andersen g field e.src x) : Andersen g field e.dst x
  | gep {e : ConstraintEdge} {x : NodeID} (he : e ∈ edges g)
      (hkind : holds .gep e.cls.getEdgeKind = true) (hx : Andersen g field e.src x) :
      Andersen g field e.dst (field e x)
  | load {e : ConstraintEdge} {o x : NodeID} (he : e ∈ edges g)
      (hkind : e.cls.getEdgeKind = .Load) (ho : Andersen g field e.src o)
      (hx : Andersen g field o x) : Andersen g field e.dst x
  | store {e : ConstraintEdge} {o x : NodeID} (he : e ∈ edges g)
      (hkind : e.cls.getEdgeKind = .Store) (ho : Andersen g field e.dst o)
      (hx : Andersen g field e.src x) : Andersen g field o x

/-- Fields stay with their base object, and the constraints are between objects
that are no fields and pointers. -/
structure FieldsOf (g : ConstraintGraph) (field : ConstraintEdge → NodeID → NodeID)
    (base : NodeID → NodeID) : Prop where
  field : ∀ e x, base (field e x) = base x
  src : ∀ e ∈ edges g, base e.src = e.src
  dst : ∀ e ∈ edges g, base e.dst = e.dst

theorem andersen_covered (h : ∀ e ∈ edges g, ConstraintHolds s e)
    {field : ConstraintEdge → NodeID → NodeID} {base : NodeID → NodeID} (hf : FieldsOf g field base)
    {n x : NodeID} (hx : Andersen g field n x) : base x ∈ s.getPts (base n) := by
  induction hx with
  | addr he hkind =>
      have hhold := h _ he
      rw [ConstraintHolds, hkind] at hhold
      rw [hf.src _ he, hf.dst _ he]
      exact hhold
  | copy he hkind _ ih =>
      have hhold := h _ he
      rw [ConstraintHolds, hkind] at hhold
      rw [hf.src _ he] at ih
      rw [hf.dst _ he]
      exact hhold _ ih
  | @gep e x he hkind _ ih =>
      have hhold := h _ he
      rw [hf.src _ he] at ih
      rw [hf.dst _ he, hf.field]
      rw [ConstraintHolds] at hhold
      cases hk : e.cls.getEdgeKind with
      | NormalGep | VariantGep =>
          rw [hk] at hhold
          exact hhold _ ih
      | Addr | Copy | Store | Load =>
          rw [hk] at hkind
          contradiction
  | load he hkind _ _ iho ihx =>
      have hhold := h _ he
      rw [ConstraintHolds, hkind] at hhold
      rw [hf.src _ he] at iho
      rw [hf.dst _ he]
      exact hhold _ iho _ ihx
  | store he hkind _ _ iho ihx =>
      have hhold := h _ he
      rw [ConstraintHolds, hkind] at hhold
      rw [hf.dst _ he] at iho
      rw [hf.src _ he] at ihx
      exact hhold _ iho _ ihx

section

def ends (g : ConstraintGraph) : Set NodeID := {n | ∃ e ∈ edges g, n = e.src ∨ n = e.dst}

theorem src_mem_ends (he : e ∈ edges g) : e.src ∈ ends g := ⟨e, he, .inl rfl⟩

theorem dst_mem_ends (he : e ∈ edges g) : e.dst ∈ ends g := ⟨e, he, .inr rfl⟩

theorem edges_finite (g : ConstraintGraph) : (edges g).Finite := by
  apply Set.Finite.subset (s := ⋃ k : GraphEdgeSet, {e | e ∈ (g.edgeSets k).elems})
  · have hkinds : (Set.univ : Set GraphEdgeSet).Finite := by
      apply Set.Finite.subset
        (List.finite_toSet [.AddrCGEdgeSet, .directEdgeSet, .LoadCGEdgeSet, .StoreCGEdgeSet])
      intro k _
      cases k <;> simp
    rw [← Set.biUnion_univ]
    exact hkinds.biUnion fun k _ => List.finite_toSet (g.edgeSets k).elems
  · intro e he
    rw [mem_edges] at he
    exact Set.mem_iUnion.mpr ⟨e.cls.getEdgeKind.edgeSet, he⟩

theorem ends_finite (g : ConstraintGraph) : (ends g).Finite := by
  apply Set.Finite.subset (((edges_finite g).image (·.src)).union ((edges_finite g).image (·.dst)))
  rintro n ⟨e, he, rfl | rfl⟩
  · exact .inl ⟨e, he, rfl⟩
  · exact .inr ⟨e, he, rfl⟩

variable (hg : WellFormed g)
include hg

theorem getConstraintNode_edges {node : ConstraintNode} (hnode : g.getConstraintNode n = some node)
    (k : NodeEdgeSet) : (∀ e ∈ node.outEdges k, e ∈ edges g) ∧ ∀ e ∈ node.inEdges k, e ∈ edges g :=
  ⟨fun e he => ((hg.registered.out _ node hnode k e).mp he).1,
    fun e he => ((hg.registered.inn _ node hnode k e).mp he).1⟩

theorem node_edges (n : NodeID) (k : NodeEdgeSet) :
    (∀ e ∈ ((g.getConstraintNode n).getD .new).outEdges k, e ∈ edges g) ∧
      ∀ e ∈ ((g.getConstraintNode n).getD .new).inEdges k, e ∈ edges g := by
  cases hnode : g.getConstraintNode n with
  | none => exact ⟨fun e he => absurd he (not_mem_empty e), fun e he => absurd he (not_mem_empty e)⟩
  | some node => exact getConstraintNode_edges hg hnode k

theorem getConstraintNode_end (hn : g.hasGNode n = true) :
    ∃ node, g.IDToNodeMap.lookup n = some node ∧ g.getConstraintNode n = some node := by
  obtain ⟨node, hnode⟩ := Option.isSome_iff_exists.mp hn
  refine ⟨node, hnode, ?_⟩
  rw [ConstraintGraph.getConstraintNode, hg.rep n hn, hnode]

theorem mem_outEdges (he : e ∈ edges g) {k : NodeEdgeSet}
    (hk : holds k e.cls.getEdgeKind = true) :
    e ∈ (((g.getConstraintNode e.src).getD .new).outEdges k).elems := by
  obtain ⟨node, hlookup, hnode⟩ := getConstraintNode_end hg (hg.registered.src e he)
  rw [hnode]
  exact (hg.registered.out e.src node hlookup k e).mpr ⟨he, rfl, hk⟩

theorem mem_inEdges (he : e ∈ edges g) {k : NodeEdgeSet}
    (hk : holds k e.cls.getEdgeKind = true) :
    e ∈ (((g.getConstraintNode e.dst).getD .new).inEdges k).elems := by
  obtain ⟨node, hlookup, hnode⟩ := getConstraintNode_end hg (hg.registered.dst e he)
  rw [hnode]
  exact (hg.registered.inn e.dst node hlookup k e).mpr ⟨he, rfl, hk⟩

theorem mem_nodeCalls_copy (he : e ∈ edges g) (hk : e.cls.getEdgeKind = .Copy) (pts : PointsTo) :
    (e.src, e.dst) ∈ nodeCalls g e.src pts := by
  have hmem := mem_outEdges hg he (k := .copy) (by rw [hk]; rfl)
  rw [nodeCalls, List.mem_append, List.mem_append]
  exact .inl (.inr (List.mem_map.mpr ⟨e, hmem, rfl⟩))

theorem mem_nodeCalls_gep (he : e ∈ edges g) (hk : holds .gep e.cls.getEdgeKind = true)
    (pts : PointsTo) : (e.src, e.dst) ∈ nodeCalls g e.src pts := by
  have hmem := mem_outEdges hg he hk
  rw [nodeCalls, List.mem_append]
  exact .inr (List.mem_map.mpr ⟨e, hmem, rfl⟩)

theorem mem_nodeCalls_load (he : e ∈ edges g) (hk : e.cls.getEdgeKind = .Load) {o : NodeID}
    (ho : o ∈ pts) : (o, e.dst) ∈ nodeCalls g e.src pts := by
  have hmem := mem_outEdges hg he (k := .load) (by rw [hk]; rfl)
  rw [nodeCalls, List.mem_append, List.mem_append]
  refine .inl (.inl (List.mem_flatMap.mpr ⟨o, ho, List.mem_append.mpr (.inr ?_)⟩))
  exact List.mem_map.mpr ⟨e, hmem, rfl⟩

theorem mem_nodeCalls_store (he : e ∈ edges g) (hk : e.cls.getEdgeKind = .Store) {o : NodeID}
    (ho : o ∈ pts) : (e.src, o) ∈ nodeCalls g e.dst pts := by
  have hmem := mem_inEdges hg he (k := .store) (by rw [hk]; rfl)
  rw [nodeCalls, List.mem_append, List.mem_append]
  refine .inl (.inl (List.mem_flatMap.mpr ⟨o, ho, List.mem_append.mpr (.inl ?_)⟩))
  exact List.mem_map.mpr ⟨e, hmem, rfl⟩

theorem nodeCalls_ends (hpts : ∀ o ∈ pts, o ∈ ends g) {c : NodeID × NodeID}
    (hc : c ∈ nodeCalls g n pts) : c.1 ∈ ends g ∧ c.2 ∈ ends g := by
  rw [nodeCalls, List.mem_append, List.mem_append, List.mem_flatMap] at hc
  rcases hc with (⟨o, ho, hc⟩ | hc) | hc
  · rcases List.mem_append.mp hc with hc | hc
    · obtain ⟨e, he, rfl⟩ := List.mem_map.mp hc
      exact ⟨src_mem_ends ((node_edges hg n .store).2 e he), hpts o ho⟩
    · obtain ⟨e, he, rfl⟩ := List.mem_map.mp hc
      exact ⟨hpts o ho, dst_mem_ends ((node_edges hg n .load).1 e he)⟩
  · obtain ⟨e, he, rfl⟩ := List.mem_map.mp hc
    have hmem := (node_edges hg n .copy).1 e he
    exact ⟨src_mem_ends hmem, dst_mem_ends hmem⟩
  · obtain ⟨e, he, rfl⟩ := List.mem_map.mp hc
    have hmem := (node_edges hg n .gep).1 e he
    exact ⟨src_mem_ends hmem, dst_mem_ends hmem⟩

/-- When every call that the nodes ask for has nothing left to join, the constraints hold. -/
theorem constraints_of_calls (haddr : ∀ e ∈ edges g, e.cls.getEdgeKind = .Addr →
      e.src ∈ s.getPts e.dst)
    (hcalls : ∀ n, ∀ c ∈ nodeCalls g n (s.getPts n), s.getEC c.1 = s.getEC c.2 ∨ s.getPts n = ∅) :
    ∀ e ∈ edges g, ConstraintHolds s e := by
  -- A node that points to something has had its calls made.
  have hjoined : ∀ n, ∀ c ∈ nodeCalls g n (s.getPts n), ∀ o ∈ s.getPts n,
      s.getPts c.1 = s.getPts c.2 := by
    intro n c hc o ho
    rcases hcalls n c hc with heq | hempty
    · rw [getPts, getPts, heq]
    · rw [hempty] at ho
      exact absurd ho (not_mem_empty o)
  intro e he
  rw [ConstraintHolds]
  cases hk : e.cls.getEdgeKind with
  | Addr => exact haddr e he hk
  | Copy =>
      intro x hx
      rw [← hjoined e.src _ (mem_nodeCalls_copy hg he hk _) x hx]
      exact hx
  | NormalGep | VariantGep =>
      intro x hx
      rw [← hjoined e.src _ (mem_nodeCalls_gep hg he (by rw [hk]; rfl) _) x hx]
      exact hx
  | Load =>
      intro o ho x hx
      rw [← hjoined e.src _ (mem_nodeCalls_load hg he hk ho) o ho]
      exact hx
  | Store =>
      intro o ho x hx
      rw [← hjoined e.dst _ (mem_nodeCalls_store hg he hk ho) o ho]
      exact hx

end

end SVF.WPA.SteensgaardConstraints
