import SVF.CFL.POCRHybrid

namespace SVF.CFL.HybridAgreement

open Relation Grammar EdgeGraph POCRClosure POCRHybrid Util.Saturation
open Solver (isWorklistEmpty)

variable {Sym : Type} [DecidableEq Sym]

/-- The edges that follow from the input edges, and from epsilon edges at nodes
with an outgoing edge, without `F -> F F`. -/
def directEdges (F : Sym) (prods : List (Production Sym)) (graph : CFLGraph Sym) :
    Set (CFLEdge Sym) :=
  {e | Derives (rules (nonTransitive F prods)) (seeds (nonTransitive F prods) graph.cflEdgeSet
    (sources graph)) e}

/-- The forest holds the pairs joined by a path of `F` edges, each as an `F` edge. -/
def ForestAgrees (F : Sym) (s : State Sym) : Prop :=
  ∀ u ∈ s.graph.nodes, ∀ v ∈ s.graph.nodes,
    (s.forest.hasInd_h u v = true ↔ ReflTransGen (fun a b => ⟨a, b, F⟩ ∈ s.edges) u v) ∧
      (s.forest.hasInd_h u v = true → ⟨u, v, F⟩ ∈ s.edges)

variable {F : Sym} {prods : List (Production Sym)} {graph : CFLGraph Sym}

theorem mem_nonTransitive {p : Production Sym} :
    p ∈ nonTransitive F prods ↔ p ∈ prods ∧ p ≠ .binary F F F := by
  simp [nonTransitive]

theorem directEdges_subset (hgraph : graph.WellFormed) : directEdges F prods graph ⊆
    {e | Derives (rules prods) (seeds prods graph.cflEdgeSet {n | n ∈ graph.nodes}) e} := by
  intro e he
  refine he.mem ?_ ⟨?_, ?_⟩
  · rintro c (hc | ⟨hsrc, hdst, hp⟩)
    · exact .init (.inl hc)
    · exact .init (.inr ⟨sources_subset hgraph _ hsrc, hdst, (mem_nonTransitive.mp hp).1⟩)
  · rintro y x hy ⟨hsrc, hdst, hp⟩
    exact .one hy ⟨hsrc, hdst, (mem_nonTransitive.mp hp).1⟩
  · rintro y z x hy hz ⟨hjoin, hsrc, hdst, hp⟩
    exact .two hy hz ⟨hjoin, hsrc, hdst, (mem_nonTransitive.mp hp).1⟩

theorem directEdges_endpoints (hgraph : graph.WellFormed) {e : CFLEdge Sym}
    (he : e ∈ directEdges F prods graph) : e.src ∈ graph.nodes ∧ e.dst ∈ graph.nodes := by
  obtain ⟨hsrc, hdst, _⟩ := he.mem
    (seeds_subset_edgeDomain (nonTransitive F prods) hgraph (sources_subset hgraph))
    (closedUnder_edgeDomain (nonTransitive F prods) graph)
  exact ⟨hsrc, hdst⟩

section

variable (hgraph : graph.WellFormed)
  (hdiag : ∀ u ∈ graph.nodes, ∀ v ∈ graph.nodes, ⟨u, v, F⟩ ∈ directEdges F prods graph ↔ u = v)

include hgraph hdiag

theorem eq_of_directEdge {u v : NodeID} (h : ⟨u, v, F⟩ ∈ directEdges F prods graph) : u = v := by
  obtain ⟨hu, hv⟩ := directEdges_endpoints hgraph h
  exact (hdiag u hu v hv).mp h

/-- With no `F` edge between different nodes, `F -> F F` yields nothing new. -/
theorem derives_eq_directEdges :
    {e | Derives (rules prods) (seeds prods graph.cflEdgeSet {n | n ∈ graph.nodes}) e} =
      directEdges F prods graph := by
  apply Set.Subset.antisymm ?_ (directEdges_subset hgraph)
  intro e he
  refine he.mem ?_ ⟨?_, ?_⟩
  · rintro c (hc | ⟨hsrc, hdst, hp⟩)
    · exact .init (.inl hc)
    · have hself : ⟨c.src, c.src, F⟩ ∈ directEdges F prods graph := (hdiag c.src hsrc c.src hsrc).mpr rfl
      have hsource := POCRAgreement.src_mem_sources (e := ⟨c.src, c.src, F⟩) hself
      exact .init (.inr ⟨hsource, hdst, mem_nonTransitive.mpr ⟨hp, by simp⟩⟩)
  · rintro y x hy ⟨hsrc, hdst, hp⟩
    exact .one hy ⟨hsrc, hdst, mem_nonTransitive.mpr ⟨hp, by simp⟩⟩
  · rintro ⟨i, j, Y⟩ ⟨k, l, Z⟩ ⟨m, n, X⟩ hy hz ⟨hjoin, hsrc, hdst, hp⟩
    by_cases hF : Production.binary X Y Z = .binary F F F
    · obtain ⟨rfl, rfl, rfl⟩ := Production.binary.inj hF
      have hij := eq_of_directEdge hgraph hdiag hy
      have hkl := eq_of_directEdge hgraph hdiag hz
      simp only at hjoin hsrc hdst hij hkl
      subst hjoin hsrc hdst hij hkl
      exact hy
    · exact .two hy hz ⟨hjoin, hsrc, hdst, mem_nonTransitive.mpr ⟨hp, hF⟩⟩

theorem path_eq {u v : NodeID}
    (h : ReflTransGen (fun a b => ⟨a, b, F⟩ ∈ directEdges F prods graph) u v) : u = v := by
  induction h with
  | refl => rfl
  | tail _ hstep ih => exact ih.trans (eq_of_directEdge hgraph hdiag hstep)

end

theorem final_edges (hgraph : graph.WellFormed) {t : State Sym}
    (ht : ReflTransGen (Step (ofProds prods) F) (initializeWorklist (ofProds prods) graph) t)
    (htend : isWorklistEmpty t.toState = true) : t.edges = directEdges F prods graph :=
  edges_of_final (holds_withoutTransitive F (holds_ofProds prods)) hgraph (run_toPOCR ht) htend

theorem final_nodes (hgraph : graph.WellFormed) {t : State Sym}
    (ht : ReflTransGen (Step (ofProds prods) F) (initializeWorklist (ofProds prods) graph) t) :
    t.graph.nodes = graph.nodes := by
  have hg := holds_withoutTransitive F (holds_ofProds prods)
  exact ((saturates hg graph.nodes).settled (sane_initializeWorklist hg hgraph)
    (settled_initializeWorklist hg graph) (run_toPOCR ht)).1.1.sameNodes

/-- The hybrid solver stops in every order. It leaves the edges of the plain
solver together with a forest of the `F` paths exactly when the `F` edges due
without `F -> F F` are the self-edges of all nodes, so when the rule that the
forest stands for has nothing to do. -/
theorem hybrid_agrees_iff (F : Sym) (prods : List (Production Sym)) (graph : CFLGraph Sym)
    (hgraph : graph.WellFormed) :
    (¬ ∃ run : ℕ → State Sym, run 0 = initializeWorklist (ofProds prods) graph ∧
      ∀ n, Step (ofProds prods) F (run n) (run (n + 1))) ∧
    (∀ t, ReflTransGen (Step (ofProds prods) F) (initializeWorklist (ofProds prods) graph) t →
      isWorklistEmpty t.toState = false → ∃ u, Step (ofProds prods) F t u) ∧
    ∀ s t,
      ReflTransGen (Solver.Step (ofProds prods)) (Solver.initializeWorklist (ofProds prods) graph) s →
      isWorklistEmpty s = true →
      ReflTransGen (Step (ofProds prods) F) (initializeWorklist (ofProds prods) graph) t →
      isWorklistEmpty t.toState = true →
      (s.edges = t.edges ∧ ForestAgrees F t ↔
        ∀ u ∈ graph.nodes, ∀ v ∈ graph.nodes, ⟨u, v, F⟩ ∈ directEdges F prods graph ↔ u = v) := by
  have hg := holds_withoutTransitive F (holds_ofProds prods)
  refine ⟨?_, ?_, ?_⟩
  · rintro ⟨run, hstart, hstep⟩
    exact no_infinite_run hg hgraph
      ⟨fun n => (run n).toPOCR, congrArg State.toPOCR hstart, fun n => step_toPOCR (hstep n)⟩
  · intro t ht hne
    obtain ⟨_, e, he, _⟩ := exists_step hg hgraph (run_toPOCR ht) hne
    exact ⟨_, e, he, rfl⟩
  · intro s t hs hsend ht htend
    have hedges := final_edges hgraph ht htend
    have hind : ∀ u v, t.forest.hasInd_h u v = true ↔ u ∈ graph.nodes ∧ u = v := by
      intro u v
      rw [run_forest hgraph ht, hasInd_initForest]
    rw [Closure.edges_of_final prods hgraph hs hsend, ForestAgrees, final_nodes hgraph ht, hedges]
    constructor
    · rintro ⟨_, hforest⟩ u hu v hv
      obtain ⟨hpath, hedge⟩ := hforest u hu v hv
      constructor
      · intro huv
        exact ((hind u v).mp (hpath.mpr (.single huv))).2
      · rintro rfl
        exact hedge ((hind u u).mpr ⟨hu, rfl⟩)
    · intro hdiag
      refine ⟨derives_eq_directEdges hgraph hdiag, fun u hu v hv => ⟨?_, ?_⟩⟩
      · rw [hind]
        constructor
        · rintro ⟨_, rfl⟩
          exact .refl
        · exact fun hpath => ⟨hu, path_eq hgraph hdiag hpath⟩
      · intro huv
        exact (hdiag u hu v hv).mpr ((hind u v).mp huv).2

/-- One node with an `F` edge to itself. -/
theorem hybrid_agrees_loop :
    ∃ s t, Solver.solve (ofProds [.binary 'F' 'F' 'F']) 2 ⟨[0], [⟨0, 0, 'F'⟩]⟩ = some s ∧
      solve (ofProds [.binary 'F' 'F' 'F']) 'F' 2 ⟨[0], [⟨0, 0, 'F'⟩]⟩ = some t ∧
      s.edges = t.edges ∧ ForestAgrees 'F' t := by
  obtain ⟨s, hs⟩ : ∃ s, Solver.solve (ofProds [.binary 'F' 'F' 'F']) 2 ⟨[0], [⟨0, 0, 'F'⟩]⟩ = some s :=
    Option.isSome_iff_exists.mp (by decide)
  obtain ⟨t, ht⟩ : ∃ t, solve (ofProds [.binary 'F' 'F' 'F']) 'F' 2 ⟨[0], [⟨0, 0, 'F'⟩]⟩ = some t :=
    Option.isSome_iff_exists.mp (by decide)
  obtain ⟨hsrun, hsend⟩ := Closure.solve_run hs
  obtain ⟨htrun, htend⟩ := solve_run ht
  refine ⟨s, t, hs, ht, ?_⟩
  refine ((hybrid_agrees_iff 'F' _ _ (by decide)).2.2 s t hsrun hsend htrun htend).mpr ?_
  simp only [List.mem_singleton]
  rintro u rfl v rfl
  exact ⟨fun _ => rfl, fun _ => .init (.inl (by simp))⟩

/-- On `1 -F-> 2 -F-> 3` the edge `1 -F-> 3` is missing. -/
theorem hybrid_edges_ne :
    ¬ ∀ (F : Char) (prods : List (Production Char)) (graph : CFLGraph Char),
      .binary F F F ∈ prods → graph.WellFormed → ∀ s t,
      ReflTransGen (Solver.Step (ofProds prods)) (Solver.initializeWorklist (ofProds prods) graph) s →
      isWorklistEmpty s = true →
      ReflTransGen (Step (ofProds prods) F) (initializeWorklist (ofProds prods) graph) t →
      isWorklistEmpty t.toState = true → s.edges = t.edges ∧ ForestAgrees F t := by
  intro hall
  obtain ⟨s, hs, hsedges⟩ := Option.map_eq_some_iff.mp (show
    (Solver.solve (ofProds [.binary 'F' 'F' 'F']) 3
      ⟨[1, 2, 3], [⟨1, 2, 'F'⟩, ⟨2, 3, 'F'⟩]⟩).map (·.graph.cflEdgeSet) =
        some [⟨1, 2, 'F'⟩, ⟨2, 3, 'F'⟩, ⟨1, 3, 'F'⟩] by decide)
  obtain ⟨t, ht, htedges⟩ := Option.map_eq_some_iff.mp (show
    (solve (ofProds [.binary 'F' 'F' 'F']) 'F' 3
      ⟨[1, 2, 3], [⟨1, 2, 'F'⟩, ⟨2, 3, 'F'⟩]⟩).map (·.graph.cflEdgeSet) =
        some [⟨1, 2, 'F'⟩, ⟨2, 3, 'F'⟩] by decide)
  obtain ⟨hsrun, hsend⟩ := Closure.solve_run hs
  obtain ⟨htrun, htend⟩ := solve_run ht
  obtain ⟨heq, _⟩ := hall 'F' _ _ (by decide) (by decide) s t hsrun hsend htrun htend
  have hin : (⟨1, 3, 'F'⟩ : CFLEdge Char) ∈ s.edges := by
    simp [Solver.State.edges, hsedges]
  rw [heq] at hin
  simp [Solver.State.edges, htedges] at hin

end SVF.CFL.HybridAgreement
