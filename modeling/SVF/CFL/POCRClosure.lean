import SVF.CFL.POCR

namespace SVF.CFL.POCRClosure

open Relation Grammar EdgeGraph DataMaps POCR Util.Saturation Util.Folds Util.Loops
open Solver (Grows isWorklistEmpty popFromWorklist take pushIntoWorklist)
open Closure (Sane)

variable {Sym : Type} [DecidableEq Sym] {grammar : CFGrammar Sym} {prods : List (Production Sym)}

theorem processSingle_addsEach (grammar : CFGrammar Sym) (e : CFLEdge Sym) {s : State Sym}
    (hs : Synced s) : AddsEach (grammar.getProdsFromSingleRHS e.kind)
      (fun p _ => {⟨e.src, e.dst, p.lhs⟩}) s (processSingle grammar e s) :=
  foldl_addsEach (fun _ _ _ _ => subset_rfl) (fun _ _ ht => addNewData_adds ht _ _ _) _ hs

theorem processFirst_addsEach (grammar : CFGrammar Sym) (e : CFLEdge Sym) {s : State Sym}
    (hs : Synced s) : AddsEach (grammar.getProdsFromFirstRHS e.kind)
      (fun p E => {x | x.src = e.src ∧ ⟨e.dst, x.dst, p.secondRHS⟩ ∈ E ∧ x.kind = p.lhs}) s
      (processFirst grammar e s) := by
  refine foldl_addsEach ?_ (fun _ _ ht => addDiffDsts_adds ht _ _ _ _) _ hs
  rintro p E E' hE x ⟨hsrc, hZ, hkind⟩
  exact ⟨hsrc, hE hZ, hkind⟩

theorem processSecond_addsEach (grammar : CFGrammar Sym) (e : CFLEdge Sym) {s : State Sym}
    (hs : Synced s) : AddsEach (grammar.getProdsFromSecondRHS e.kind)
      (fun p E => {x | ⟨x.src, e.src, p.firstRHS⟩ ∈ E ∧ x.dst = e.dst ∧ x.kind = p.lhs}) s
      (processSecond grammar e s) := by
  refine foldl_addsEach ?_ (fun _ _ ht => addDiffSrcs_adds ht _ _ _ _) _ hs
  rintro p E E' hE x ⟨hZ, hdst, hkind⟩
  exact ⟨hE hZ, hdst, hkind⟩

theorem processCFLEdge_synced (grammar : CFGrammar Sym) (e : CFLEdge Sym) {s : State Sym}
    (hs : Synced s) : Synced (processCFLEdge grammar e s) ∧
      Grows s.toState (processCFLEdge grammar e s).toState := by
  have hsingle := processSingle_addsEach grammar e hs
  have hfirst := processFirst_addsEach grammar e hsingle.synced
  have hsecond := processSecond_addsEach grammar e hfirst.synced
  exact ⟨hsecond.synced, (hsingle.grows.trans hfirst.grows).trans hsecond.grows⟩

theorem processCFLEdge_sound (hg : Holds grammar prods) {S : Set (CFLEdge Sym)}
    (hS : ClosedUnder (rules prods) S) {e : CFLEdge Sym} (he : e ∈ S) {s : State Sym}
    (hs : Synced s) (hsub : s.edges ⊆ S) : (processCFLEdge grammar e s).edges ⊆ S := by
  have hsingle := processSingle_addsEach grammar e hs
  have hfirst := processFirst_addsEach grammar e hsingle.synced
  have hsecond := processSecond_addsEach grammar e hfirst.synced
  refine hsecond.sound S (hfirst.sound S (hsingle.sound S hsub ?_) ?_) ?_
  · rintro p hp x rfl
    exact hS.one he ⟨rfl, rfl, hg.single_mem hp⟩
  · rintro p hp x ⟨hsrc, hZ, hkind⟩
    refine hS.two he hZ ⟨rfl, hsrc, rfl, ?_⟩
    rw [hkind]
    exact hg.first_mem hp
  · rintro p hp x ⟨hZ, hdst, hkind⟩
    refine hS.two hZ he ⟨rfl, rfl, hdst, ?_⟩
    rw [hkind]
    exact hg.second_mem hp

/-- Every production that joins the edge with an edge of the maps is applied. -/
theorem processCFLEdge_covers (hg : Holds grammar prods) (e : CFLEdge Sym) {s : State Sym}
    (hs : Synced s) : (∀ c, (rules prods).one e c → c ∈ (processCFLEdge grammar e s).edges) ∧
      (∀ b ∈ s.edges, ∀ c, (rules prods).two e b c → c ∈ (processCFLEdge grammar e s).edges) ∧
      ∀ b ∈ s.edges, ∀ c, (rules prods).two b e c → c ∈ (processCFLEdge grammar e s).edges := by
  have hsingle := processSingle_addsEach grammar e hs
  have hfirst := processFirst_addsEach grammar e hsingle.synced
  have hsecond := processSecond_addsEach grammar e hfirst.synced
  refine ⟨?_, ?_, ?_⟩
  · rintro c ⟨hsrc, hdst, hp⟩
    refine hsecond.grows.mem (hfirst.grows.mem (hsingle.covers ⟨c.kind, e.kind⟩ ?_ ?_))
    · exact (hg.single _ _).mpr ⟨rfl, hp⟩
    · rw [Set.mem_singleton_iff, ← hsrc, ← hdst]
  · rintro b hb c ⟨hjoin, hsrc, hdst, hp⟩
    refine hsecond.grows.mem (hfirst.covers ⟨c.kind, e.kind, b.kind⟩ ?_ ⟨hsrc, ?_, rfl⟩)
    · exact (hg.first _ _).mpr ⟨rfl, hp⟩
    · rw [hjoin, hdst]
      exact hsingle.grows.mem hb
  · rintro b hb c ⟨hjoin, hsrc, hdst, hp⟩
    refine hsecond.covers ⟨c.kind, b.kind, e.kind⟩ ?_ ⟨?_, hdst, rfl⟩
    · exact (hg.second _ _).mpr ⟨rfl, hp⟩
    · rw [hsrc, ← hjoin]
      exact hfirst.grows.mem (hsingle.grows.mem hb)

theorem processCFLEdge_advances (hg : Holds grammar prods) {nodes : List NodeID} {s : State Sym}
    (hs : Sane nodes s.toState) (hsync : Synced s) {e : CFLEdge Sym} (he : some e ∈ s.worklist) :
    Advances (rules prods) s.edges s.pending e
      (processCFLEdge grammar e ⟨take e s.toState, s.data⟩).edges
      (processCFLEdge grammar e ⟨take e s.toState, s.data⟩).pending := by
  have htake : Synced (⟨take e s.toState, s.data⟩ : State Sym) := hsync
  have hgrows := (processCFLEdge_synced grammar e htake).2
  obtain ⟨hone, hleft, hright⟩ := processCFLEdge_covers hg e htake
  refine ⟨hgrows.edges, Closure.mem_pending_of_grows hs.nodup hgrows, ?_, hone, hleft, hright⟩
  intro S hS hsub
  exact processCFLEdge_sound hg hS (hsub (hs.pending he)) htake hsub

theorem saturates (hg : Holds grammar prods) (nodes : List NodeID) :
    Saturates (rules prods) (fun s : State Sym => s.edges) (fun s => s.pending)
      (fun s => Sane nodes s.toState ∧ Synced s) (Step grammar) where
  keeps := by
    rintro s t ⟨hs, hsync⟩ ⟨e, he, rfl⟩
    have ht := processCFLEdge_synced grammar e (s := ⟨take e s.toState, s.data⟩) hsync
    exact ⟨hs.advances ht.2 (processCFLEdge_advances hg hs hsync he), ht.1⟩
  advances := by
    rintro s t ⟨hs, hsync⟩ ⟨e, he, rfl⟩
    exact ⟨e, he, processCFLEdge_advances hg hs hsync he⟩

def sources (graph : CFLGraph Sym) : Set NodeID := {n | ∃ e ∈ graph.cflEdgeSet, e.src = n}

theorem mem_keys_addEdge (d : CFLData Sym) (src dst : NodeID) (ty : Sym) (n : NodeID) :
    n ∈ (d.addEdge src dst ty).1.succMap.keys ↔ n ∈ d.succMap.keys ∨ n = src :=
  Util.DefaultMaps.mem_keys_modify _ _ _ _

theorem buildCFLData_spec (edges : List (CFLEdge Sym)) (d : CFLData Sym) {D : Set (CFLEdge Sym)}
    (hd : Stores d D) :
    Stores (edges.foldl (fun d e => (d.addEdge e.src e.dst e.kind).1) d) (D ∪ {e | e ∈ edges}) ∧
      ∀ n, n ∈ (edges.foldl (fun d e => (d.addEdge e.src e.dst e.kind).1) d).succMap.keys ↔
        n ∈ d.succMap.keys ∨ ∃ e ∈ edges, e.src = n := by
  induction edges generalizing d D with
  | nil => exact ⟨by simpa using hd, by simp⟩
  | cons e edges ih =>
      obtain ⟨hstores, hkeys⟩ := ih _ (hd.addEdge e.src e.dst e.kind).1
      constructor
      · have hD : insert e D ∪ {c | c ∈ edges} = D ∪ {c | c ∈ e :: edges} := by
          ext c
          simp only [Set.mem_union, Set.mem_insert_iff, Set.mem_ofPred_eq, List.mem_cons]
          tauto
        exact hD ▸ hstores
      · intro n
        rw [List.foldl_cons, hkeys, mem_keys_addEdge, List.exists_mem_cons_iff, or_assoc]
        simp only [eq_comm]

theorem pushEdges_spec (graph : CFLGraph Sym) :
    Closure.Loaded graph graph.cflEdgeSet (pushEdges graph).toState ∧ Synced (pushEdges graph) ∧
      ∀ n, n ∈ (pushEdges graph).data.succMap.keys ↔ n ∈ sources graph := by
  have hl := Closure.loaded_pushes graph graph.cflEdgeSet
  obtain ⟨hstores, hkeys⟩ := buildCFLData_spec graph.cflEdgeSet .empty stores_empty
  refine ⟨hl, ?_, fun n => ?_⟩
  · rw [Set.empty_union] at hstores
    have hedges : (pushEdges graph).edges = {e | e ∈ graph.cflEdgeSet} := hl.edges_eq
    rw [Synced, hedges]
    exact hstores
  · refine (hkeys n).trans ?_
    simp [sources, CFLData.empty, Util.DefaultMaps.DefaultMap.empty]

theorem keys_addNewData (i j : NodeID) (X : Sym) (s : State Sym) (n : NodeID) :
    n ∈ (addNewData i j X s).data.succMap.keys ↔ n ∈ s.data.succMap.keys ∨ n = i := by
  have hkeys := mem_keys_addEdge s.data i j X n
  cases hd : s.data.addEdge i j X with
  | mk data added =>
      rw [hd] at hkeys
      cases added with
      | true => simpa only [addNewData, hd] using hkeys
      | false => simpa only [addNewData, hd] using hkeys

theorem keys_epsilonRow (l : List NodeID) (X : Sym) (s : State Sym)
    (hl : ∀ i ∈ l, i ∈ s.data.succMap.keys) (n : NodeID) :
    n ∈ (l.foldl (fun s i => addNewData i i X s) s).data.succMap.keys ↔ n ∈ s.data.succMap.keys := by
  induction l generalizing s with
  | nil => exact Iff.rfl
  | cons i l ih =>
      rw [List.foldl_cons, ih, keys_addNewData]
      · exact ⟨fun h => h.elim id (fun he => he ▸ hl i List.mem_cons_self), .inl⟩
      · intro k hk
        exact (keys_addNewData _ _ _ _ _).mpr (.inl (hl k (List.mem_cons_of_mem _ hk)))

theorem epsilonRow_adds (X : Sym) {s : State Sym} (hs : Synced s) :
    Adds s {e | e.src ∈ s.data.succMap.keys ∧ e.dst = e.src ∧ e.kind = X}
      (s.data.succMap.keys.foldl (fun s i => addNewData i i X s) s) := by
  have heach : AddsEach s.data.succMap.keys (fun i _ => {⟨i, i, X⟩}) s
      (s.data.succMap.keys.foldl (fun s i => addNewData i i X s) s) :=
    foldl_addsEach (fun _ _ _ _ => subset_rfl) (fun i t ht => addNewData_adds ht i i X) _ hs
  refine ⟨heach.synced, heach.grows, Set.Subset.antisymm ?_ ?_⟩
  · refine heach.sound _ Set.subset_union_left ?_
    rintro i hi e rfl
    exact .inr ⟨hi, rfl, rfl⟩
  · rintro e (he | ⟨hsrc, hdst, hkind⟩)
    · exact heach.grows.mem he
    · refine heach.covers e.src hsrc ?_
      cases e
      simp_all

/-- The epsilon edges reach only the keys of the successor map, which the
epsilon edges themselves do not extend. -/
theorem addEpsilons_adds (hg : Holds grammar prods) {s : State Sym} (hs : Synced s) :
    Adds s {e | e.src ∈ s.data.succMap.keys ∧ e.dst = e.src ∧ .epsilon e.kind ∈ prods}
      (addEpsilons grammar s) := by
  have hrow : ∀ (l : List Sym) (t : State Sym), Synced t →
      Adds t {e | e.src ∈ t.data.succMap.keys ∧ e.dst = e.src ∧ e.kind ∈ l}
        (l.foldl (fun s X => s.data.succMap.keys.foldl (fun s i => addNewData i i X s) s) t) := by
    intro l
    induction l with
    | nil => exact fun t ht => ⟨ht, Grows.refl _, by simp⟩
    | cons X l ih =>
        intro t ht
        have hhead := epsilonRow_adds X ht
        have htail := ih _ hhead.synced
        refine ⟨htail.synced, hhead.grows.trans htail.grows, ?_⟩
        rw [List.foldl_cons, htail.edges, hhead.edges, Set.union_assoc]
        congr 1
        ext e
        have hkeys := keys_epsilonRow t.data.succMap.keys X t (fun _ => id) e.src
        simp only [Set.mem_union, Set.mem_ofPred_eq, List.mem_cons, hkeys]
        tauto
  have hall := hrow grammar.epsilonProds s hs
  simp only [hg.epsilon] at hall
  exact hall

theorem initializeWorklist_adds (hg : Holds grammar prods) (graph : CFLGraph Sym) :
    Adds (pushEdges graph) {e | e.src ∈ sources graph ∧ e.dst = e.src ∧ .epsilon e.kind ∈ prods}
      (initializeWorklist grammar graph) := by
  obtain ⟨_, hsync, hkeys⟩ := pushEdges_spec graph
  have hadds := addEpsilons_adds hg hsync
  simp only [hkeys] at hadds
  exact hadds

theorem initializeWorklist_edges (hg : Holds grammar prods) (graph : CFLGraph Sym) :
    (initializeWorklist grammar graph).edges = seeds prods graph.cflEdgeSet (sources graph) := by
  rw [(initializeWorklist_adds hg graph).edges, (pushEdges_spec graph).1.edges_eq]
  rfl

theorem initializeWorklist_pending (hg : Holds grammar prods) (graph : CFLGraph Sym)
    (x : Option (CFLEdge Sym)) : x ∈ (initializeWorklist grammar graph).worklist ↔
      ∃ e ∈ (initializeWorklist grammar graph).edges, x = some e := by
  have hl := (pushEdges_spec graph).1
  have hgrows := (initializeWorklist_adds hg graph).grows
  have hedges : ∀ e, e ∈ (pushEdges graph).edges ↔ e ∈ graph.cflEdgeSet := by
    intro e
    rw [hl.edges_eq]
    rfl
  rw [hgrows.worklist, hl.worklist]
  constructor
  · rintro (⟨e, he, rfl⟩ | ⟨e, he, _, rfl⟩)
    · exact ⟨e, hgrows.mem ((hedges e).mpr he), rfl⟩
    · exact ⟨e, he, rfl⟩
  · rintro ⟨e, he, rfl⟩
    by_cases hin : e ∈ graph.cflEdgeSet
    · exact .inl ⟨e, hin, rfl⟩
    · exact .inr ⟨e, he, fun h => hin ((hedges e).mp h), rfl⟩

omit [DecidableEq Sym] in
theorem sources_subset {graph : CFLGraph Sym} (hgraph : graph.WellFormed) :
    ∀ n ∈ sources graph, n ∈ graph.nodes := by
  rintro n ⟨e, he, rfl⟩
  exact (hgraph e he).1

theorem sane_initializeWorklist (hg : Holds grammar prods) {graph : CFLGraph Sym}
    (hgraph : graph.WellFormed) : Sane graph.nodes (initializeWorklist grammar graph).toState ∧
      Synced (initializeWorklist grammar graph) := by
  have hl := (pushEdges_spec graph).1
  have hadds := initializeWorklist_adds hg graph
  refine ⟨⟨?_, ?_, hadds.grows.nodup hl.nodup, ?_, ?_⟩, hadds.synced⟩
  · exact hadds.grows.nodes.trans (congrArg _ hl.graph)
  · rw [initializeWorklist_edges hg]
    intro e he
    obtain ⟨hsrc, hdst, _⟩ := seeds_subset_edgeDomain prods hgraph (sources_subset hgraph) he
    exact ⟨hsrc, hdst⟩
  · rw [initializeWorklist_pending hg]
    rintro ⟨e, _, he⟩
    contradiction
  · intro e he
    obtain ⟨c, hc, heq⟩ := (initializeWorklist_pending hg graph _).mp he
    exact Option.some.inj heq ▸ hc

theorem settled_initializeWorklist (hg : Holds grammar prods) (graph : CFLGraph Sym) :
    Settled (rules prods) (seeds prods graph.cflEdgeSet (sources graph))
      (initializeWorklist grammar graph).edges (initializeWorklist grammar graph).pending := by
  have hpending : (initializeWorklist grammar graph).pending =
      (initializeWorklist grammar graph).edges := by
    ext e
    change some e ∈ (initializeWorklist grammar graph).worklist ↔ _
    simp [initializeWorklist_pending hg]
  rw [hpending, initializeWorklist_edges hg]
  exact settled_start _ _

theorem no_infinite_run (hg : Holds grammar prods) {graph : CFLGraph Sym}
    (hgraph : graph.WellFormed) :
    ¬ ∃ run : ℕ → State Sym, run 0 = initializeWorklist grammar graph ∧
      ∀ n, Step grammar (run n) (run (n + 1)) :=
  (saturates hg graph.nodes).no_infinite_run (edgeDomain_finite prods graph)
    (closedUnder_edgeDomain prods graph)
    (seeds_subset_edgeDomain prods hgraph (sources_subset hgraph))
    (sane_initializeWorklist hg hgraph) (settled_initializeWorklist hg graph)

theorem edges_of_final (hg : Holds grammar prods) {graph : CFLGraph Sym}
    (hgraph : graph.WellFormed) {s : State Sym}
    (hrun : ReflTransGen (Step grammar) (initializeWorklist grammar graph) s)
    (hend : isWorklistEmpty s.toState = true) :
    s.edges = {e | Derives (rules prods) (seeds prods graph.cflEdgeSet (sources graph)) e} :=
  (saturates hg graph.nodes).least (sane_initializeWorklist hg hgraph)
    (settled_initializeWorklist hg graph) hrun (Closure.pending_eq_empty hend)

theorem exists_step (hg : Holds grammar prods) {graph : CFLGraph Sym} (hgraph : graph.WellFormed)
    {s : State Sym} (hrun : ReflTransGen (Step grammar) (initializeWorklist grammar graph) s)
    (hne : isWorklistEmpty s.toState = false) : ∃ t, Step grammar s t := by
  have hs := ((saturates hg graph.nodes).settled (sane_initializeWorklist hg hgraph)
    (settled_initializeWorklist hg graph) hrun).1
  obtain ⟨e, t, hpop⟩ := Closure.exists_popFromWorklist hs.1 hne
  exact ⟨_, e, (Closure.popFromWorklist_eq_some hpop).1, rfl⟩

theorem processNext_step {s t : State Sym} (h : processNext grammar s = some t) :
    Step grammar s t := by
  obtain ⟨⟨e, u⟩, hpop, rfl⟩ := Option.map_eq_some_iff.mp h
  obtain ⟨he, rfl⟩ := Closure.popFromWorklist_eq_some hpop
  exact ⟨e, he, rfl⟩

theorem solve_run {fuel : ℕ} {graph : CFLGraph Sym} {s : State Sym}
    (h : solve grammar fuel graph = some s) :
    ReflTransGen (Step grammar) (initializeWorklist grammar graph) s ∧
      isWorklistEmpty s.toState = true := by
  obtain ⟨hrun, hend⟩ := whileLoop_run (fun _ _ _ => processNext_step) h
  exact ⟨hrun, by simpa using hend⟩

end SVF.CFL.POCRClosure
