import SVF.CFL.POCRClosure

namespace SVF.CFL.POCRAgreement

open Relation Grammar EdgeGraph POCRClosure Util.Saturation
open Solver (isWorklistEmpty)

variable {Sym : Type} {prods : List (Production Sym)} {graph : CFLGraph Sym}

/-- No derivation from the seeds of the successor map reaches a new source. -/
theorem src_mem_sources {e : CFLEdge Sym}
    (h : Derives (rules prods) (seeds prods graph.cflEdgeSet (sources graph)) e) :
    e.src ∈ sources graph := by
  refine h.mem (S := {e | e.src ∈ sources graph}) ?_ ⟨?_, ?_⟩
  · rintro e (he | ⟨hsrc, _⟩)
    · exact ⟨e, he, rfl⟩
    · exact hsrc
  · rintro y x hy ⟨hsrc, _⟩
    change x.src ∈ sources graph
    rw [hsrc]
    exact hy
  · rintro y z x hy _ ⟨_, hsrc, _⟩
    change x.src ∈ sources graph
    rw [hsrc]
    exact hy

theorem seeds_eq (hgraph : graph.WellFormed)
    (h : (∀ X, .epsilon X ∉ prods) ∨ ∀ n ∈ graph.nodes, n ∈ sources graph) :
    seeds prods graph.cflEdgeSet {n | n ∈ graph.nodes} =
      seeds prods graph.cflEdgeSet (sources graph) := by
  ext e
  rcases h with hnone | hall
  · constructor
    · rintro (he | ⟨_, _, hp⟩)
      · exact .inl he
      · exact absurd hp (hnone _)
    · rintro (he | ⟨_, _, hp⟩)
      · exact .inl he
      · exact absurd hp (hnone _)
  · constructor
    · rintro (he | ⟨hsrc, hrest⟩)
      · exact .inl he
      · exact .inr ⟨hall _ hsrc, hrest⟩
    · rintro (he | ⟨hsrc, hrest⟩)
      · exact .inl he
      · exact .inr ⟨sources_subset hgraph _ hsrc, hrest⟩

theorem derives_eq_iff (hgraph : graph.WellFormed) :
    {e | Derives (rules prods) (seeds prods graph.cflEdgeSet {n | n ∈ graph.nodes}) e} =
        {e | Derives (rules prods) (seeds prods graph.cflEdgeSet (sources graph)) e} ↔
      (∀ X, .epsilon X ∉ prods) ∨ ∀ n ∈ graph.nodes, n ∈ sources graph := by
  constructor
  · intro heq
    by_contra hcond
    push Not at hcond
    obtain ⟨⟨X, hX⟩, n, hn, hsrc⟩ := hcond
    have hself : (⟨n, n, X⟩ : CFLEdge Sym) ∈
        {e | Derives (rules prods) (seeds prods graph.cflEdgeSet {n | n ∈ graph.nodes}) e} :=
      .init (.inr ⟨hn, rfl, hX⟩)
    rw [heq] at hself
    exact hsrc (src_mem_sources hself)
  · intro hcond
    rw [seeds_eq hgraph hcond]

variable [DecidableEq Sym]

/-- The solver over successor and predecessor maps stops in every order, and
leaves the edges of the plain solver exactly when no epsilon edge is due at a
node without an outgoing edge. -/
theorem solve_edges_eq_iff (prods : List (Production Sym)) (graph : CFLGraph Sym)
    (hgraph : graph.WellFormed) :
    (¬ ∃ run : ℕ → POCR.State Sym, run 0 = POCR.initializeWorklist (ofProds prods) graph ∧
      ∀ n, POCR.Step (ofProds prods) (run n) (run (n + 1))) ∧
    (∀ t, ReflTransGen (POCR.Step (ofProds prods)) (POCR.initializeWorklist (ofProds prods) graph) t →
      isWorklistEmpty t.toState = false → ∃ u, POCR.Step (ofProds prods) t u) ∧
    ∀ s t,
      ReflTransGen (Solver.Step (ofProds prods)) (Solver.initializeWorklist (ofProds prods) graph) s →
      isWorklistEmpty s = true →
      ReflTransGen (POCR.Step (ofProds prods)) (POCR.initializeWorklist (ofProds prods) graph) t →
      isWorklistEmpty t.toState = true →
      (s.edges = t.edges ↔ (∀ X, .epsilon X ∉ prods) ∨ ∀ n ∈ graph.nodes, n ∈ sources graph) := by
  have hg := holds_ofProds prods
  refine ⟨no_infinite_run hg hgraph, fun t ht hne => exists_step hg hgraph ht hne, ?_⟩
  intro s t hs hsend ht htend
  rw [Closure.edges_of_final prods hgraph hs hsend, edges_of_final hg hgraph ht htend]
  exact derives_eq_iff hgraph

/-- On `0 -a-> 1 -a-> 0` every node has an outgoing edge. -/
theorem solve_edges_eq_cycle :
    ∃ s t, Solver.solve (ofProds [.epsilon 'x', .binary 'a' 'a' 'x']) 6
        ⟨[0, 1], [⟨0, 1, 'a'⟩, ⟨1, 0, 'a'⟩]⟩ = some s ∧
      POCR.solve (ofProds [.epsilon 'x', .binary 'a' 'a' 'x']) 6
        ⟨[0, 1], [⟨0, 1, 'a'⟩, ⟨1, 0, 'a'⟩]⟩ = some t ∧ s.edges = t.edges := by
  obtain ⟨s, hs⟩ : ∃ s, Solver.solve (ofProds [.epsilon 'x', .binary 'a' 'a' 'x']) 6
      ⟨[0, 1], [⟨0, 1, 'a'⟩, ⟨1, 0, 'a'⟩]⟩ = some s := Option.isSome_iff_exists.mp (by decide)
  obtain ⟨t, ht⟩ : ∃ t, POCR.solve (ofProds [.epsilon 'x', .binary 'a' 'a' 'x']) 6
      ⟨[0, 1], [⟨0, 1, 'a'⟩, ⟨1, 0, 'a'⟩]⟩ = some t := Option.isSome_iff_exists.mp (by decide)
  obtain ⟨hsrun, hsend⟩ := Closure.solve_run hs
  obtain ⟨htrun, htend⟩ := solve_run ht
  refine ⟨s, t, hs, ht, ?_⟩
  refine ((solve_edges_eq_iff _ _ (by decide)).2.2 s t hsrun hsend htrun htend).mpr (.inr ?_)
  simp [sources]

/-- Node `2` has no outgoing edge, so it gets no epsilon edge. -/
theorem solve_edges_ne :
    ¬ ∀ (prods : List (Production Char)) (graph : CFLGraph Char), graph.WellFormed → ∀ s t,
      ReflTransGen (Solver.Step (ofProds prods)) (Solver.initializeWorklist (ofProds prods) graph) s →
      isWorklistEmpty s = true →
      ReflTransGen (POCR.Step (ofProds prods)) (POCR.initializeWorklist (ofProds prods) graph) t →
      isWorklistEmpty t.toState = true → s.edges = t.edges := by
  intro hall
  obtain ⟨s, hs, hsedges⟩ := Option.map_eq_some_iff.mp (show
    (Solver.solve (ofProds [.epsilon 'x']) 3 ⟨[1, 2], [⟨1, 2, 'a'⟩]⟩).map (·.graph.cflEdgeSet) =
      some [⟨1, 2, 'a'⟩, ⟨1, 1, 'x'⟩, ⟨2, 2, 'x'⟩] by decide)
  obtain ⟨t, ht, htedges⟩ := Option.map_eq_some_iff.mp (show
    (POCR.solve (ofProds [.epsilon 'x']) 3 ⟨[1, 2], [⟨1, 2, 'a'⟩]⟩).map (·.graph.cflEdgeSet) =
      some [⟨1, 2, 'a'⟩, ⟨1, 1, 'x'⟩] by decide)
  obtain ⟨hsrun, hsend⟩ := Closure.solve_run hs
  obtain ⟨htrun, htend⟩ := solve_run ht
  have heq := hall _ _ (by decide) s t hsrun hsend htrun htend
  have hin : (⟨2, 2, 'x'⟩ : CFLEdge Char) ∈ s.edges := by
    simp [Solver.State.edges, hsedges]
  rw [heq] at hin
  simp [Solver.State.edges, htedges] at hin

end SVF.CFL.POCRAgreement
