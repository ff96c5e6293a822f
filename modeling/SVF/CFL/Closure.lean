import SVF.CFL.Solver
import SVF.Util.Languages

namespace SVF.CFL.Closure

open Relation Grammar EdgeGraph Solver Util.Saturation Util.Folds Util.Loops Util.Languages

variable {Sym : Type} [DecidableEq Sym] {grammar : CFGrammar Sym} {prods : List (Production Sym)}

theorem addNewEdge_sound {S : Set (CFLEdge Sym)} {i j : NodeID} {X : Sym} (hX : ⟨i, j, X⟩ ∈ S)
    {s : State Sym} (hs : s.edges ⊆ S) : (addNewEdge i j X s).edges ⊆ S := by
  rw [addNewEdge_edges]
  exact Set.insert_subset hX hs

theorem processSingle_sound (hg : Holds grammar prods) {S : Set (CFLEdge Sym)}
    (hS : ClosedUnder (rules prods) S) {e : CFLEdge Sym} (he : e ∈ S) {s : State Sym}
    (hs : s.edges ⊆ S) : (processSingle grammar e s).edges ⊆ S := by
  refine foldl_invariant (I := fun s : State Sym => s.edges ⊆ S) (fun p hp t ht => ?_) hs
  refine addNewEdge_sound ?_ ht
  exact hS.one he ⟨rfl, rfl, hg.single_mem hp⟩

theorem forOutEdgesWithTy_sound {S : Set (CFLEdge Sym)} {j : NodeID} {Z : Sym}
    {f : NodeID → State Sym → State Sym}
    (hf : ∀ k t, ⟨j, k, Z⟩ ∈ S → t.edges ⊆ S → (f k t).edges ⊆ S) {s : State Sym}
    (hs : s.edges ⊆ S) : (forOutEdgesWithTy j Z f s).edges ⊆ S := by
  refine foldl_invariant (I := fun s : State Sym => s.edges ⊆ S) (fun k _ t ht => ?_) hs
  by_cases hZ : (⟨j, k, Z⟩ : CFLEdge Sym) ∈ t.graph.cflEdgeSet
  · rw [if_pos hZ]
    exact hf k t (ht hZ) ht
  · rw [if_neg hZ]
    exact ht

theorem forInEdgesWithTy_sound {S : Set (CFLEdge Sym)} {i : NodeID} {Z : Sym}
    {f : NodeID → State Sym → State Sym}
    (hf : ∀ k t, ⟨k, i, Z⟩ ∈ S → t.edges ⊆ S → (f k t).edges ⊆ S) {s : State Sym}
    (hs : s.edges ⊆ S) : (forInEdgesWithTy i Z f s).edges ⊆ S := by
  refine foldl_invariant (I := fun s : State Sym => s.edges ⊆ S) (fun k _ t ht => ?_) hs
  by_cases hZ : (⟨k, i, Z⟩ : CFLEdge Sym) ∈ t.graph.cflEdgeSet
  · rw [if_pos hZ]
    exact hf k t (ht hZ) ht
  · rw [if_neg hZ]
    exact ht

theorem processFirst_sound (hg : Holds grammar prods) {S : Set (CFLEdge Sym)}
    (hS : ClosedUnder (rules prods) S) {e : CFLEdge Sym} (he : e ∈ S) {s : State Sym}
    (hs : s.edges ⊆ S) : (processFirst grammar e s).edges ⊆ S := by
  refine foldl_invariant (I := fun s : State Sym => s.edges ⊆ S) (fun p hp t ht => ?_) hs
  refine forOutEdgesWithTy_sound (fun k u hZ hu => addNewEdge_sound ?_ hu) ht
  exact hS.two he hZ ⟨rfl, rfl, rfl, hg.first_mem hp⟩

theorem processSecond_sound (hg : Holds grammar prods) {S : Set (CFLEdge Sym)}
    (hS : ClosedUnder (rules prods) S) {e : CFLEdge Sym} (he : e ∈ S) {s : State Sym}
    (hs : s.edges ⊆ S) : (processSecond grammar e s).edges ⊆ S := by
  refine foldl_invariant (I := fun s : State Sym => s.edges ⊆ S) (fun p hp t ht => ?_) hs
  refine forInEdgesWithTy_sound (fun k u hZ hu => addNewEdge_sound ?_ hu) ht
  exact hS.two hZ he ⟨rfl, rfl, rfl, hg.second_mem hp⟩

theorem processCFLEdge_sound (hg : Holds grammar prods) {S : Set (CFLEdge Sym)}
    (hS : ClosedUnder (rules prods) S) {e : CFLEdge Sym} (he : e ∈ S) {s : State Sym}
    (hs : s.edges ⊆ S) : (processCFLEdge grammar e s).edges ⊆ S :=
  processSecond_sound hg hS he (processFirst_sound hg hS he (processSingle_sound hg hS he hs))

/-- What every reachable state satisfies: each pending pointer is an edge and
stands on the worklist once, and edges join nodes of the graph. -/
structure Sane (nodes : List NodeID) (s : State Sym) : Prop where
  sameNodes : s.graph.nodes = nodes
  wellFormed : ∀ e ∈ s.edges, e.src ∈ nodes ∧ e.dst ∈ nodes
  nodup : s.worklist.Nodup
  pointers : none ∉ s.worklist
  pending : s.pending ⊆ s.edges

theorem mem_pending_take {s : State Sym} (hn : s.worklist.Nodup) (e b : CFLEdge Sym) :
    some b ∈ (take e s).worklist ↔ some b ∈ s.worklist ∧ b ≠ e := by
  rw [take, hn.mem_erase_iff, and_comm, ne_eq, Option.some.injEq]

theorem mem_pending_of_grows {s t : State Sym} {e : CFLEdge Sym} (hn : s.worklist.Nodup)
    (h : Grows (take e s) t) (b : CFLEdge Sym) :
    b ∈ t.pending ↔ (b ∈ s.pending ∧ b ≠ e) ∨ (b ∈ t.edges ∧ b ∉ s.edges) := by
  change some b ∈ t.worklist ↔ _
  rw [h.worklist, mem_pending_take hn]
  simp only [Option.some.injEq]
  constructor
  · rintro (hb | ⟨c, hc, hnc, rfl⟩)
    · exact .inl hb
    · exact .inr ⟨hc, hnc⟩
  · rintro (hb | ⟨hb, hnb⟩)
    · exact .inl hb
    · exact .inr ⟨b, hb, hnb, rfl⟩

omit [DecidableEq Sym] in
theorem closedUnder_endpoints (prods : List (Production Sym)) (nodes : List NodeID) :
    ClosedUnder (rules prods) {e | e.src ∈ nodes ∧ e.dst ∈ nodes} where
  one := by
    rintro y x ⟨hsrc, hdst⟩ ⟨h1, h2, _⟩
    exact ⟨h1 ▸ hsrc, h2 ▸ hdst⟩
  two := by
    rintro y z x ⟨hsrc, _⟩ ⟨_, hdst⟩ ⟨_, h1, h2, _⟩
    exact ⟨h1 ▸ hsrc, h2 ▸ hdst⟩

theorem Sane.advances {nodes : List NodeID} {s t : State Sym} {e : CFLEdge Sym} (hs : Sane nodes s)
    (hgrows : Grows (take e s) t)
    (hadv : Advances (rules prods) s.edges s.pending e t.edges t.pending) : Sane nodes t := by
  refine ⟨hgrows.nodes.trans hs.sameNodes, ?_, hgrows.nodup (hs.nodup.erase _), ?_, ?_⟩
  · exact hadv.sound _ (closedUnder_endpoints prods nodes) hs.wellFormed
  · rw [hgrows.worklist]
    rintro (hnull | ⟨c, _, _, hc⟩)
    · exact hs.pointers (List.mem_of_mem_erase hnull)
    · contradiction
  · intro b hb
    rcases (hadv.pending b).mp hb with ⟨hW, _⟩ | ⟨hb, _⟩
    · exact hadv.mono (hs.pending hW)
    · exact hb

theorem processCFLEdge_advances (hg : Holds grammar prods) {nodes : List NodeID} {s : State Sym}
    (hs : Sane nodes s) {e : CFLEdge Sym} (he : some e ∈ s.worklist) :
    Advances (rules prods) s.edges s.pending e (processCFLEdge grammar e (take e s)).edges
      (processCFLEdge grammar e (take e s)).pending := by
  have hsingle := processSingle_grows grammar e (take e s)
  have hfirst := processFirst_grows grammar e (processSingle grammar e (take e s))
  have hsecond := processSecond_grows grammar e
    (processFirst grammar e (processSingle grammar e (take e s)))
  have hgrows := processCFLEdge_grows grammar e (take e s)
  refine ⟨hgrows.edges, mem_pending_of_grows hs.nodup hgrows, ?_, ?_, ?_, ?_⟩
  · intro S hS hsub
    exact processCFLEdge_sound hg hS (hsub (hs.pending he)) hsub
  · intro c hc
    exact hsecond.mem (hfirst.mem (processSingle_covers hg hc _))
  · intro b hb c hc
    have hdst : b.dst ∈ (processSingle grammar e (take e s)).graph.nodes := by
      rw [hsingle.nodes]
      exact hs.sameNodes ▸ (hs.wellFormed b hb).2
    exact hsecond.mem (processFirst_covers hg hc (hsingle.mem hb) hdst)
  · intro b hb c hc
    have hsrc : b.src ∈ (processFirst grammar e (processSingle grammar e (take e s))).graph.nodes := by
      rw [hfirst.nodes, hsingle.nodes]
      exact hs.sameNodes ▸ (hs.wellFormed b hb).1
    exact processSecond_covers hg hc (hfirst.mem (hsingle.mem hb)) hsrc

theorem saturates (hg : Holds grammar prods) (nodes : List NodeID) :
    Saturates (rules prods) State.edges State.pending (Sane nodes) (Step grammar) where
  keeps := by
    rintro s t hs ⟨e, he, rfl⟩
    exact hs.advances (processCFLEdge_grows grammar e _) (processCFLEdge_advances hg hs he)
  advances := by
    rintro s t hs ⟨e, he, rfl⟩
    exact ⟨e, he, processCFLEdge_advances hg hs he⟩

structure Loaded (graph : CFLGraph Sym) (edges : List (CFLEdge Sym)) (s : State Sym) : Prop where
  graph : s.graph = graph
  worklist : ∀ x, x ∈ s.worklist ↔ ∃ e ∈ edges, x = some e
  nodup : s.worklist.Nodup

theorem loaded_pushes (graph : CFLGraph Sym) (edges : List (CFLEdge Sym)) :
    Loaded graph edges (edges.foldl (fun s e => pushIntoWorklist (some e) s) ⟨graph, []⟩) := by
  induction edges using List.reverseRecOn with
  | nil => exact ⟨rfl, by simp, List.nodup_nil⟩
  | append_singleton edges e ih =>
      rw [List.foldl_append]
      refine ⟨?_, ?_, ?_⟩
      · exact (pushIntoWorklist_graph _ _).trans ih.graph
      · intro x
        rw [List.foldl_cons, List.foldl_nil, mem_pushIntoWorklist, ih.worklist]
        constructor
        · rintro (⟨c, hc, rfl⟩ | rfl)
          · exact ⟨c, List.mem_append_left _ hc, rfl⟩
          · exact ⟨e, by simp, rfl⟩
        · rintro ⟨c, hc, rfl⟩
          rcases List.mem_append.mp hc with hc | hc
          · exact .inl ⟨c, hc, rfl⟩
          · exact .inr (congrArg some (List.mem_singleton.mp hc))
      · exact pushIntoWorklist_nodup _ _ ih.nodup

/-- Everything `initializeWorklist` adds after the pushes, one production at a time. -/
def addEpsilons (grammar : CFGrammar Sym) (nodes : List NodeID) (s : State Sym) : State Sym :=
  grammar.epsilonProds.foldl (fun s X => nodes.foldl (fun s i => addNewEdge i i X s) s) s

theorem epsilonRow_grows (nodes : List NodeID) (X : Sym) (s : State Sym) :
    Grows s (nodes.foldl (fun s i => addNewEdge i i X s) s) :=
  foldl_rel Grows (fun _ _ _ => addNewEdge_grows _ _ _ _) s

theorem addEpsilons_grows (grammar : CFGrammar Sym) (nodes : List NodeID) (s : State Sym) :
    Grows s (addEpsilons grammar nodes s) :=
  foldl_rel Grows (fun _ _ _ => epsilonRow_grows _ _ _) s

theorem addEpsilons_edges (hg : Holds grammar prods) (nodes : List NodeID) (s : State Sym) :
    (addEpsilons grammar nodes s).edges =
      s.edges ∪ {e | e.src ∈ nodes ∧ e.dst = e.src ∧ .epsilon e.kind ∈ prods} := by
  apply Set.Subset.antisymm
  · refine foldl_invariant (I := fun t : State Sym => t.edges ⊆ _) (fun X hX t ht => ?_)
      Set.subset_union_left
    refine foldl_invariant (I := fun t : State Sym => t.edges ⊆ _) (fun i hi u hu => ?_) ht
    exact addNewEdge_sound (.inr ⟨hi, rfl, (hg.epsilon X).mp hX⟩) hu
  · rintro e (he | ⟨hsrc, hdst, hp⟩)
    · exact (addEpsilons_grows grammar nodes s).mem he
    · refine foldl_covers Grows (fun _ _ _ => epsilonRow_grows _ _ _) (fun _ _ h => h.mem)
        ((hg.epsilon _).mpr hp) (fun t _ => ?_)
      refine foldl_covers Grows (fun _ _ _ => addNewEdge_grows _ _ _ _) (fun _ _ h => h.mem)
        hsrc (fun u _ => ?_)
      rw [addNewEdge_edges]
      exact .inl (by cases e; simp_all)

omit [DecidableEq Sym] in
/-- The edges of the state before the epsilon productions are looked at. -/
theorem Loaded.edges_eq {graph : CFLGraph Sym} {edges : List (CFLEdge Sym)} {s : State Sym}
    (h : Loaded graph edges s) : s.edges = {e | e ∈ graph.cflEdgeSet} := by
  rw [State.edges, h.graph]

theorem initializeWorklist_edges (hg : Holds grammar prods) (graph : CFLGraph Sym) :
    (initializeWorklist grammar graph).edges =
      seeds prods graph.cflEdgeSet {n | n ∈ graph.nodes} := by
  have hl := loaded_pushes graph (graph.nodes.flatMap graph.getOutEdges)
  change (addEpsilons grammar graph.nodes _).edges = _
  rw [addEpsilons_edges hg, hl.edges_eq]
  rfl

theorem initializeWorklist_pending (grammar : CFGrammar Sym) {graph : CFLGraph Sym}
    (hgraph : graph.WellFormed) (x : Option (CFLEdge Sym)) :
    x ∈ (initializeWorklist grammar graph).worklist ↔
      ∃ e ∈ (initializeWorklist grammar graph).edges, x = some e := by
  have hl := loaded_pushes graph (graph.nodes.flatMap graph.getOutEdges)
  have hgrows := addEpsilons_grows grammar graph.nodes
    ((graph.nodes.flatMap graph.getOutEdges).foldl (fun s e => pushIntoWorklist (some e) s) ⟨graph, []⟩)
  have hedges := hl.edges_eq
  change x ∈ (addEpsilons grammar graph.nodes _).worklist ↔
    ∃ e ∈ (addEpsilons grammar graph.nodes _).edges, _
  rw [hgrows.worklist, hl.worklist]
  simp only [hgraph.mem_outEdges]
  constructor
  · rintro (⟨e, he, rfl⟩ | ⟨e, he, _, rfl⟩)
    · exact ⟨e, hgrows.mem (hedges ▸ he), rfl⟩
    · exact ⟨e, he, rfl⟩
  · rintro ⟨e, he, rfl⟩
    by_cases hin : e ∈ graph.cflEdgeSet
    · exact .inl ⟨e, hin, rfl⟩
    · exact .inr ⟨e, he, hedges ▸ hin, rfl⟩

theorem sane_initializeWorklist (hg : Holds grammar prods) {graph : CFLGraph Sym}
    (hgraph : graph.WellFormed) : Sane graph.nodes (initializeWorklist grammar graph) := by
  have hl := loaded_pushes graph (graph.nodes.flatMap graph.getOutEdges)
  have hgrows := addEpsilons_grows grammar graph.nodes
    ((graph.nodes.flatMap graph.getOutEdges).foldl (fun s e => pushIntoWorklist (some e) s) ⟨graph, []⟩)
  refine ⟨?_, ?_, hgrows.nodup hl.nodup, ?_, ?_⟩
  · exact hgrows.nodes.trans (congrArg _ hl.graph)
  · rw [initializeWorklist_edges hg]
    intro e he
    obtain ⟨hsrc, hdst, _⟩ := seeds_subset_edgeDomain prods hgraph (fun _ => id) he
    exact ⟨hsrc, hdst⟩
  · rw [initializeWorklist_pending grammar hgraph]
    rintro ⟨e, _, he⟩
    contradiction
  · intro e he
    obtain ⟨c, hc, heq⟩ := (initializeWorklist_pending grammar hgraph _).mp he
    exact Option.some.inj heq ▸ hc

theorem settled_initializeWorklist (hg : Holds grammar prods) {graph : CFLGraph Sym}
    (hgraph : graph.WellFormed) :
    Settled (rules prods) (seeds prods graph.cflEdgeSet {n | n ∈ graph.nodes})
      (initializeWorklist grammar graph).edges (initializeWorklist grammar graph).pending := by
  have hpending : (initializeWorklist grammar graph).pending =
      (initializeWorklist grammar graph).edges := by
    ext e
    change some e ∈ (initializeWorklist grammar graph).worklist ↔ _
    simp [initializeWorklist_pending grammar hgraph]
  rw [hpending, initializeWorklist_edges hg]
  exact settled_start _ _

theorem popFromWorklist_eq_some {s t : State Sym} {e : CFLEdge Sym}
    (h : popFromWorklist s = some (e, t)) : some e ∈ s.worklist ∧ t = take e s := by
  cases hw : s.worklist with
  | nil => simp [popFromWorklist, hw] at h
  | cons x worklist =>
      cases x with
      | none => simp [popFromWorklist, hw] at h
      | some c =>
          obtain ⟨rfl, rfl⟩ := by simpa [popFromWorklist, hw] using h
          exact ⟨by simp, by simp [take, hw]⟩

omit [DecidableEq Sym] in
theorem exists_popFromWorklist {nodes : List NodeID} {s : State Sym} (hs : Sane nodes s)
    (hne : isWorklistEmpty s = false) : ∃ e t, popFromWorklist s = some (e, t) := by
  cases hw : s.worklist with
  | nil => simp [isWorklistEmpty, hw] at hne
  | cons x worklist =>
      cases x with
      | none => exact absurd (hw ▸ List.mem_cons_self) hs.pointers
      | some e => exact ⟨e, ⟨s.graph, worklist⟩, by simp [popFromWorklist, hw]⟩

omit [DecidableEq Sym] in
theorem pending_eq_empty {s : State Sym} (h : isWorklistEmpty s = true) : s.pending = ∅ := by
  rw [isWorklistEmpty, List.isEmpty_iff] at h
  ext e
  simp [State.pending, h]

theorem no_infinite_run (prods : List (Production Sym)) {graph : CFLGraph Sym}
    (hgraph : graph.WellFormed) :
    ¬ ∃ run : ℕ → State Sym, run 0 = initializeWorklist (ofProds prods) graph ∧
      ∀ n, Step (ofProds prods) (run n) (run (n + 1)) :=
  (saturates (holds_ofProds prods) graph.nodes).no_infinite_run (edgeDomain_finite prods graph)
    (closedUnder_edgeDomain prods graph) (seeds_subset_edgeDomain prods hgraph (fun _ => id))
    (sane_initializeWorklist (holds_ofProds prods) hgraph)
    (settled_initializeWorklist (holds_ofProds prods) hgraph)

theorem edges_of_final (prods : List (Production Sym)) {graph : CFLGraph Sym}
    (hgraph : graph.WellFormed) {s : State Sym}
    (hrun : ReflTransGen (Step (ofProds prods)) (initializeWorklist (ofProds prods) graph) s)
    (hend : isWorklistEmpty s = true) : s.edges =
      {e | Derives (rules prods) (seeds prods graph.cflEdgeSet {n | n ∈ graph.nodes}) e} :=
  (saturates (holds_ofProds prods) graph.nodes).least
    (sane_initializeWorklist (holds_ofProds prods) hgraph)
    (settled_initializeWorklist (holds_ofProds prods) hgraph) hrun (pending_eq_empty hend)

theorem processNext_step {s t : State Sym} (h : processNext grammar s = some t) :
    Step grammar s t := by
  obtain ⟨⟨e, u⟩, hpop, rfl⟩ := Option.map_eq_some_iff.mp h
  obtain ⟨he, rfl⟩ := popFromWorklist_eq_some hpop
  exact ⟨e, he, rfl⟩

theorem solve_run {fuel : ℕ} {graph : CFLGraph Sym} {s : State Sym}
    (h : solve grammar fuel graph = some s) :
    ReflTransGen (Step grammar) (initializeWorklist grammar graph) s ∧ isWorklistEmpty s = true := by
  obtain ⟨hrun, hend⟩ := whileLoop_run (fun _ _ _ => processNext_step) h
  exact ⟨hrun, by simpa using hend⟩

/-- Whatever order the worklist hands the edges out in, the solver never gets
stuck, stops, and leaves the least closed edge set. -/
theorem solve_least (prods : List (Production Sym)) (graph : CFLGraph Sym)
    (hgraph : graph.WellFormed) :
    (¬ ∃ run : ℕ → State Sym, run 0 = initializeWorklist (ofProds prods) graph ∧
      ∀ n, Step (ofProds prods) (run n) (run (n + 1))) ∧
    ∀ s, ReflTransGen (Step (ofProds prods)) (initializeWorklist (ofProds prods) graph) s →
      (isWorklistEmpty s = false → ∃ t, Step (ofProds prods) s t) ∧
      (isWorklistEmpty s = true →
        IsLeast {S | seeds prods graph.cflEdgeSet {n | n ∈ graph.nodes} ⊆ S ∧
          ClosedUnder (rules prods) S} s.edges) := by
  refine ⟨no_infinite_run prods hgraph, fun s hrun => ⟨fun hne => ?_, fun hend => ?_⟩⟩
  · have hs := ((saturates (holds_ofProds prods) graph.nodes).settled
      (sane_initializeWorklist (holds_ofProds prods) hgraph)
      (settled_initializeWorklist (holds_ofProds prods) hgraph) hrun).1
    obtain ⟨e, t, hpop⟩ := exists_popFromWorklist hs hne
    exact ⟨_, e, (popFromWorklist_eq_some hpop).1, rfl⟩
  · rw [edges_of_final prods hgraph hrun hend]
    exact isLeast_derives _ _

/-- On the path `0 -a-> 1 -a-> 2` with `a -> a a` one edge is added. -/
theorem solve_least_path :
    IsLeast {S | seeds [Production.binary 'a' 'a' 'a'] [⟨0, 1, 'a'⟩, ⟨1, 2, 'a'⟩]
        {n | n ∈ [0, 1, 2]} ⊆ S ∧ ClosedUnder (rules [Production.binary 'a' 'a' 'a']) S}
      {e : CFLEdge Char | e ∈ ([⟨0, 1, 'a'⟩, ⟨1, 2, 'a'⟩, ⟨0, 2, 'a'⟩] : List (CFLEdge Char))} := by
  have hsolve : solve (ofProds [Production.binary 'a' 'a' 'a']) 3
      ⟨[0, 1, 2], [⟨0, 1, 'a'⟩, ⟨1, 2, 'a'⟩]⟩ =
        some ⟨⟨[0, 1, 2], [⟨0, 1, 'a'⟩, ⟨1, 2, 'a'⟩, ⟨0, 2, 'a'⟩]⟩, []⟩ := by decide
  obtain ⟨hrun, hend⟩ := solve_run hsolve
  exact ((solve_least _ _ (by decide)).2 _ hrun).2 hend

theorem exists_solve (prods : List (Production Sym)) {graph : CFLGraph Sym}
    (hgraph : graph.WellFormed) : ∃ fuel s, solve (ofProds prods) fuel graph = some s ∧
      s.edges = {e | Derives (rules prods) (seeds prods graph.cflEdgeSet {n | n ∈ graph.nodes}) e} := by
  have hprogress : ∀ u, ReflTransGen (Step (ofProds prods)) (initializeWorklist (ofProds prods) graph) u →
      (!isWorklistEmpty u) = true → ∃ v, processNext (ofProds prods) u = some v := by
    intro u hu hne
    have hsane := ((saturates (holds_ofProds prods) graph.nodes).settled
      (sane_initializeWorklist (holds_ofProds prods) hgraph)
      (settled_initializeWorklist (holds_ofProds prods) hgraph) hu).1
    obtain ⟨e, t, hpop⟩ := exists_popFromWorklist hsane (by simpa using hne)
    exact ⟨_, by rw [processNext, hpop, Option.map_some]⟩
  obtain ⟨fuel, s, hs⟩ := exists_whileLoop (fun _ _ _ => processNext_step) hprogress
    (no_infinite_run prods hgraph)
  obtain ⟨hrun, hend⟩ := solve_run hs
  exact ⟨fuel, s, hs, edges_of_final prods hgraph hrun hend⟩

section

/-- The productions with their right-hand sides as strings. -/
def Rewrites (prods : List (Production Sym)) : Sym → List Sym → Prop
  | X, [] => .epsilon X ∈ prods
  | X, [Y] => .single X Y ∈ prods
  | X, [Y, Z] => .binary X Y Z ∈ prods
  | _, _ => False

def Along (edges : Set (CFLEdge Sym)) (nodes : List NodeID) : NodeID → List Sym → NodeID → Prop :=
  Spells (fun u X v => ⟨u, v, X⟩ ∈ edges) (· ∈ nodes)

variable {graph : CFLGraph Sym}

omit [DecidableEq Sym]

theorem exists_word {e : CFLEdge Sym}
    (h : Derives (rules prods) (seeds prods graph.cflEdgeSet {n | n ∈ graph.nodes}) e)
    (hgraph : graph.WellFormed) :
    ∃ w, Generates (Rewrites prods) (fun _ => True) [e.kind] w ∧
      Along {e | e ∈ graph.cflEdgeSet} graph.nodes e.src w e.dst := by
  induction h with
  | @init e he =>
      rcases he with he | ⟨hnode, hdst, hp⟩
      · exact ⟨[e.kind], .terminal _ [] [] trivial .nil,
          .cons _ _ _ _ [] he (.nil _ (hgraph e he).2)⟩
      · rw [hdst]
        exact ⟨[], Generates.head (r := []) hp .nil, .nil _ hnode⟩
  | @one y x _ hrule ih =>
      obtain ⟨w, hw, hpath⟩ := ih
      obtain ⟨hsrc, hdst, hp⟩ := hrule
      exact ⟨w, Generates.head (r := [y.kind]) hp hw, hsrc ▸ hdst ▸ hpath⟩
  | @two y z x _ _ hrule ihy ihz =>
      obtain ⟨u, hu, hleft⟩ := ihy
      obtain ⟨w, hw, hright⟩ := ihz
      obtain ⟨hmid, hsrc, hdst, hp⟩ := hrule
      rw [hsrc, hdst]
      exact ⟨u ++ w, Generates.head (r := [y.kind, z.kind]) hp (hu.append hw),
        hleft.append (hmid ▸ hright)⟩

/-- A path that spells a word of the grammar is a path of derived edges with the
symbols the word comes from. -/
theorem along_of_generates (hgraph : graph.WellFormed) {l w : List Sym}
    (h : Generates (Rewrites prods) (fun _ => True) l w) {u v : NodeID}
    (hpath : Along {e | e ∈ graph.cflEdgeSet} graph.nodes u w v) :
    Along {e | Derives (rules prods) (seeds prods graph.cflEdgeSet {n | n ∈ graph.nodes}) e}
      graph.nodes u l v := by
  induction h generalizing u v with
  | nil =>
      cases hpath with
      | nil _ hu => exact .nil u hu
  | terminal a l w _ _ ih =>
      cases hpath with
      | cons _ b _ _ _ edge rest => exact .cons u b v a l (.init (.inl edge)) (ih rest)
  | production A r l x w hA _ _ ihr ihl =>
      obtain ⟨b, hx, hw⟩ := Spells.split (fun a y c hedge => (hgraph ⟨a, c, y⟩ hedge).1) hpath
      refine .cons u b v A l ?_ (ihl hw)
      cases ihr hx with
      | nil _ hu => exact .init (.inr ⟨hu, rfl, hA⟩)
      | cons _ c _ Y r hY hr =>
          cases hr with
          | nil => exact .one hY ⟨rfl, rfl, hA⟩
          | cons _ d _ Z r hZ hr =>
              cases hr with
              | nil => exact .two hY hZ ⟨rfl, rfl, rfl, hA⟩
              | cons => exact hA.elim

end

/-- Whatever order the worklist hands the edges out in, the solver ends with the
edges between which a path of the graph spells a word of the edge's symbol. -/
theorem edges_reachability (prods : List (Production Sym)) (graph : CFLGraph Sym)
    (hgraph : graph.WellFormed) (s : State Sym)
    (hrun : ReflTransGen (Step (ofProds prods)) (initializeWorklist (ofProds prods) graph) s)
    (hend : isWorklistEmpty s = true) (u v : NodeID) (X : Sym) :
    ⟨u, v, X⟩ ∈ s.edges ↔ ∃ w, Generates (Rewrites prods) (fun _ => True) [X] w ∧
      Along {e | e ∈ graph.cflEdgeSet} graph.nodes u w v := by
  rw [edges_of_final prods hgraph hrun hend]
  constructor
  · intro h
    exact exists_word h hgraph
  · rintro ⟨w, hw, hpath⟩
    cases along_of_generates hgraph hw hpath with
    | cons _ b _ _ _ edge rest =>
        cases rest with
        | nil => exact edge

theorem edges_reachability_path : ∃ w, Generates (Rewrites [Production.binary 'a' 'a' 'a'])
      (fun _ => True) ['a'] w ∧
    Along {e : CFLEdge Char | e ∈ ([⟨0, 1, 'a'⟩, ⟨1, 2, 'a'⟩] : List (CFLEdge Char))}
      [0, 1, 2] 0 w 2 := by
  have hsolve : solve (ofProds [Production.binary 'a' 'a' 'a']) 3
      ⟨[0, 1, 2], [⟨0, 1, 'a'⟩, ⟨1, 2, 'a'⟩]⟩ =
        some ⟨⟨[0, 1, 2], [⟨0, 1, 'a'⟩, ⟨1, 2, 'a'⟩, ⟨0, 2, 'a'⟩]⟩, []⟩ := by decide
  obtain ⟨hrun, hend⟩ := solve_run hsolve
  exact (edges_reachability _ _ (by decide) _ hrun hend 0 2 'a').mp (by simp [State.edges])

end SVF.CFL.Closure
