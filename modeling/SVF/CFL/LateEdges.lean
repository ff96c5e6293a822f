import SVF.CFL.OnTheFly

namespace SVF.CFL.LateEdges

open Relation Grammar EdgeGraph DataMaps OnTheFly Util.Saturation Util.Folds Util.Loops
open Solver (Grows isWorklistEmpty pushIntoWorklist)
open Closure (Sane)

section

variable {Sym : Type} [DecidableEq Sym] {L : Set (CFLEdge Sym)}

/-- The graph of `s` has the edges of `L` besides the ones of `s'`, and nothing else differs. -/
structure Hides (L : Set (CFLEdge Sym)) (s s' : Solver.State Sym) : Prop where
  nodes : s.graph.nodes = s'.graph.nodes
  worklist : s.worklist = s'.worklist
  edges : s.edges = s'.edges ∪ L
  disjoint : ∀ e ∈ L, e ∉ s'.edges

theorem hides_pushIntoWorklist {s s' : Solver.State Sym} (h : Hides L s s')
    (item : Option (CFLEdge Sym)) : Hides L (pushIntoWorklist item s) (pushIntoWorklist item s') := by
  have hgraph := Solver.pushIntoWorklist_graph item s
  have hgraph' := Solver.pushIntoWorklist_graph item s'
  refine ⟨?_, ?_, ?_, ?_⟩
  · rw [hgraph, hgraph', h.nodes]
  · unfold pushIntoWorklist
    rw [h.worklist]
    split
    · exact h.worklist
    · rfl
  · rw [Solver.State.edges, Solver.State.edges, hgraph, hgraph']
    exact h.edges
  · rw [Solver.State.edges, hgraph']
    exact h.disjoint

theorem hides_pushNewEdge {s s' : Solver.State Sym} (h : Hides L s s') {i j : NodeID} {X : Sym}
    (hL : ⟨i, j, X⟩ ∉ L) : Hides L (POCR.pushNewEdge i j X s) (POCR.pushNewEdge i j X s') := by
  have hiff : (⟨i, j, X⟩ : CFLEdge Sym) ∈ s.graph.cflEdgeSet ↔ ⟨i, j, X⟩ ∈ s'.graph.cflEdgeSet := by
    have hmem : (⟨i, j, X⟩ : CFLEdge Sym) ∈ s.edges ↔ ⟨i, j, X⟩ ∈ s'.edges ∪ L := by rw [h.edges]
    exact hmem.trans ⟨fun h => h.resolve_right hL, .inl⟩
  simp only [POCR.pushNewEdge, CFLGraph.addCFLEdge]
  by_cases hin : (⟨i, j, X⟩ : CFLEdge Sym) ∈ s'.graph.cflEdgeSet
  · rw [if_pos hin, if_pos (hiff.mpr hin)]
    exact hides_pushIntoWorklist h none
  · rw [if_neg hin, if_neg (hiff.not.mpr hin)]
    apply hides_pushIntoWorklist
    refine ⟨h.nodes, h.worklist, ?_, ?_⟩
    · ext e
      have hmem : e ∈ s.graph.cflEdgeSet ↔ e ∈ s'.graph.cflEdgeSet ∨ e ∈ L := by
        change e ∈ s.edges ↔ e ∈ s'.edges ∪ L
        rw [h.edges]
      simp only [Solver.State.edges, Set.mem_ofPred_eq, List.mem_append, List.mem_singleton, hmem,
        Set.mem_union]
      exact or_right_comm
    · intro e he hmem
      rcases List.mem_append.mp hmem with hmem | hmem
      · exact h.disjoint e he hmem
      · exact hL (List.mem_singleton.mp hmem ▸ he)

structure HidesData (L : Set (CFLEdge Sym)) (s s' : POCR.State Sym) : Prop where
  graph : Hides L s.toState s'.toState
  data : s.data = s'.data

theorem hides_pushNewEdges {l : List (CFLEdge Sym)} {s s' : Solver.State Sym} (h : Hides L s s')
    (hl : ∀ e ∈ l, e ∉ L) :
    Hides L (l.foldl (fun s e => POCR.pushNewEdge e.src e.dst e.kind s) s)
      (l.foldl (fun s e => POCR.pushNewEdge e.src e.dst e.kind s) s') := by
  refine foldl_simulates (R := Hides L) ?_ h
  intro e he t t' ht
  exact hides_pushNewEdge ht (hl e he)

theorem hides_addNewData {s s' : POCR.State Sym} (h : HidesData L s s') {i j : NodeID} {X : Sym}
    (hL : ⟨i, j, X⟩ ∉ L) : HidesData L (POCR.addNewData i j X s) (POCR.addNewData i j X s') := by
  unfold POCR.addNewData
  rw [h.data]
  split
  · exact ⟨hides_pushNewEdge h.graph hL, rfl⟩
  · exact ⟨h.graph, rfl⟩

theorem hides_addDiffDsts {s s' : POCR.State Sym} (h : HidesData L s s') {i j : NodeID} {Z X : Sym}
    (hL : ∀ e ∈ L, e.kind ≠ X) : HidesData L (POCR.addDiffDsts i j Z X s) (POCR.addDiffDsts i j Z X s') := by
  unfold POCR.addDiffDsts
  rw [h.data]
  refine ⟨?_, rfl⟩
  have hpush := hides_pushNewEdges (l := ((s'.data.getSuccs j Z).1.addEdgesToDsts i
    (s'.data.getSuccs j Z).2 X).2.map fun k => ⟨i, k, X⟩) h.graph ?_
  · rw [List.foldl_map, List.foldl_map] at hpush
    exact hpush
  · intro e he hmem
    obtain ⟨k, -, rfl⟩ := List.mem_map.mp he
    exact hL _ hmem rfl

theorem hides_addDiffSrcs {s s' : POCR.State Sym} (h : HidesData L s s') {i j : NodeID} {Z X : Sym}
    (hL : ∀ e ∈ L, e.kind ≠ X) : HidesData L (POCR.addDiffSrcs i j Z X s) (POCR.addDiffSrcs i j Z X s') := by
  unfold POCR.addDiffSrcs
  rw [h.data]
  refine ⟨?_, rfl⟩
  have hpush := hides_pushNewEdges (l := ((s'.data.getPreds i Z).1.addEdgesFromSrcs
    (s'.data.getPreds i Z).2 j X).2.map fun k => ⟨k, j, X⟩) h.graph ?_
  · rw [List.foldl_map, List.foldl_map] at hpush
    exact hpush
  · intro e he hmem
    obtain ⟨k, -, rfl⟩ := List.mem_map.mp he
    exact hL _ hmem rfl

variable {grammar : CFGrammar Sym} {prods : List (Production Sym)}

/-- No production has an edge of `L` as its result, of a single edge of the graph or of two edges. -/
structure Apart (prods : List (Production Sym)) (E L : Set (CFLEdge Sym)) : Prop where
  single : ∀ y ∈ E, ∀ x ∈ L, ¬ (rules prods).one y x
  binary : ∀ X Y Z, .binary X Y Z ∈ prods → ∀ x ∈ L, x.kind ≠ X
  epsilon : ∀ X, .epsilon X ∈ prods → ∀ x ∈ L, x.kind ≠ X

theorem hides_processCFLEdge (hg : Holds grammar prods) {E : Set (CFLEdge Sym)}
    (hL : Apart prods E L) {e : CFLEdge Sym} (he : e ∈ E) {s s' : POCR.State Sym}
    (h : HidesData L s s') :
    HidesData L (POCR.processCFLEdge grammar e s) (POCR.processCFLEdge grammar e s') := by
  have hsingle : HidesData L (POCR.processSingle grammar e s) (POCR.processSingle grammar e s') := by
    refine foldl_simulates (R := HidesData L) ?_ h
    intro p hp t t' ht
    exact hides_addNewData ht fun hmem => hL.single e he _ hmem ⟨rfl, rfl, hg.single_mem hp⟩
  have hfirst : HidesData L (POCR.processFirst grammar e (POCR.processSingle grammar e s))
      (POCR.processFirst grammar e (POCR.processSingle grammar e s')) := by
    refine foldl_simulates (R := HidesData L) ?_ hsingle
    intro p hp t t' ht
    exact hides_addDiffDsts ht (hL.binary _ _ _ (hg.first_mem hp))
  refine foldl_simulates (R := HidesData L) ?_ hfirst
  intro p hp t t' ht
  exact hides_addDiffSrcs ht (hL.binary _ _ _ (hg.second_mem hp))

theorem hides_addEpsilons (hg : Holds grammar prods) {E : Set (CFLEdge Sym)} (hL : Apart prods E L)
    {s s' : POCR.State Sym} (h : HidesData L s s') :
    HidesData L (POCR.addEpsilons grammar s) (POCR.addEpsilons grammar s') := by
  refine foldl_simulates (R := HidesData L) ?_ h
  intro X hX t t' ht
  rw [ht.data]
  refine foldl_simulates (R := HidesData L) ?_ ht
  intro i _ u u' hu
  exact hides_addNewData hu fun hmem => hL.epsilon X ((hg.epsilon X).mp hX) _ hmem rfl

omit [DecidableEq Sym] in
theorem Hides.grows {s s' t t' : Solver.State Sym} (hs : Hides L s s') (ht : Hides L t t')
    (h : Grows s' t') : Grows s t where
  nodes := ht.nodes.trans (h.nodes.trans hs.nodes.symm)
  edges := by
    rw [hs.edges, ht.edges]
    exact Set.union_subset_union_left L h.edges
  worklist x := by
    rw [ht.worklist, hs.worklist, h.worklist]
    refine or_congr_right (exists_congr fun e => ?_)
    rw [hs.edges, ht.edges]
    constructor
    · rintro ⟨he, hne, hx⟩
      exact ⟨.inl he, fun hmem => hmem.elim hne fun hmem => ht.disjoint e hmem he, hx⟩
    · rintro ⟨he | he, hne, hx⟩
      · exact ⟨he, fun hmem => hne (.inl hmem), hx⟩
      · exact absurd (.inr he) hne
  nodup := by
    rw [ht.worklist, hs.worklist]
    exact h.nodup

end

section

variable {Sym : Type} [DecidableEq Sym]

def Full (s : Solver.State Sym) : Prop := ∀ x, x ∈ s.worklist ↔ ∃ e ∈ s.edges, x = some e

omit [DecidableEq Sym] in
theorem Full.grows {s t : Solver.State Sym} (hs : Full s) (h : Grows s t) : Full t := by
  intro x
  rw [h.worklist, hs]
  constructor
  · rintro (⟨e, he, rfl⟩ | ⟨e, he, -, rfl⟩)
    · exact ⟨e, h.mem he, rfl⟩
    · exact ⟨e, he, rfl⟩
  · rintro ⟨e, he, rfl⟩
    by_cases hold : e ∈ s.edges
    · exact .inl ⟨e, hold, rfl⟩
    · exact .inr ⟨e, he, hold, rfl⟩

omit [DecidableEq Sym] in
theorem Full.pending {s : Solver.State Sym} (hs : Full s) : s.pending = s.edges := by
  ext e
  change some e ∈ s.worklist ↔ _
  simp [hs (some e)]

omit [DecidableEq Sym] in
theorem Full.sane {s : Solver.State Sym} (hs : Full s) (hn : s.worklist.Nodup)
    (hw : s.graph.WellFormed) : Sane s.graph.nodes s where
  sameNodes := rfl
  wellFormed := hw
  nodup := hn
  pointers h := by
    obtain ⟨e, -, he⟩ := (hs none).mp h
    contradiction
  pending := hs.pending.le

theorem pushAll_spec (edges : List (CFLEdge Sym)) (s : Solver.State Sym) :
    (SolverKind.pushAll edges s).graph = s.graph ∧
      (∀ x, x ∈ (SolverKind.pushAll edges s).worklist ↔ x ∈ s.worklist ∨ ∃ e ∈ edges, x = some e) ∧
      (s.worklist.Nodup → (SolverKind.pushAll edges s).worklist.Nodup) := by
  induction edges generalizing s with
  | nil => exact ⟨rfl, by simp [SolverKind.pushAll], id⟩
  | cons e edges ih =>
      obtain ⟨hgraph, hmem, hnodup⟩ := ih (pushIntoWorklist (some e) s)
      refine ⟨hgraph.trans (Solver.pushIntoWorklist_graph _ s), fun x => ?_, fun hs => ?_⟩
      · refine (hmem x).trans ?_
        rw [Solver.mem_pushIntoWorklist, List.exists_mem_cons_iff, or_assoc]
      · exact hnodup (Solver.pushIntoWorklist_nodup _ s hs)

theorem full_pushAll {edges : List (CFLEdge Sym)} {s : Solver.State Sym} (hs : s.pending ⊆ s.edges)
    (hnull : none ∉ s.worklist) (hedges : ∀ e, e ∈ edges ↔ e ∈ s.edges) :
    Full (SolverKind.pushAll edges s) := by
  obtain ⟨hgraph, hmem, -⟩ := pushAll_spec edges s
  intro x
  rw [hmem, Solver.State.edges, hgraph]
  constructor
  · rintro (hx | ⟨e, he, rfl⟩)
    · cases x with
      | none => exact absurd hx hnull
      | some e => exact ⟨e, hs hx, rfl⟩
    · exact ⟨e, (hedges e).mp he, rfl⟩
  · rintro ⟨e, he, rfl⟩
    exact .inr ⟨e, (hedges e).mpr he, rfl⟩

end

section

variable {Sym : Type} [DecidableEq Sym]

def applied (kind : SolverKind) (F : Sym) (prods : List (Production Sym)) : List (Production Sym) :=
  match kind with
  | .CFLSolver | .POCRSolver => prods
  | .POCRHybridSolver => POCRHybrid.nonTransitive F prods

/-- The nodes at which the solver begins with an edge for each epsilon production. -/
def startNodes (kind : SolverKind) (graph : CFLGraph Sym) : Set NodeID :=
  match kind with
  | .CFLSolver => {n | n ∈ graph.nodes}
  | .POCRSolver | .POCRHybridSolver => POCRClosure.sources graph

/-- The nodes at which `initializeWorklist` looks at the epsilon productions. -/
def epsilonNodes (kind : SolverKind) (s : SolverState Sym) : Set NodeID :=
  match kind with
  | .CFLSolver => {n | n ∈ s.graph.nodes}
  | .POCRSolver | .POCRHybridSolver => {n | n ∈ s.data.succMap.keys}

def tabled (d : CFLData Sym) : Set (CFLEdge Sym) := {e | d.hasEdge e.src e.dst e.kind = true}

theorem tabled_of_stores {d : CFLData Sym} {D : Set (CFLEdge Sym)} (h : Stores d D) : tabled d = D := by
  ext e
  rw [tabled, Set.mem_ofPred_eq, CFLData.hasEdge, decide_eq_true_eq]
  exact h.succ e.src e.kind e.dst

/-- The edges that are in the graph, and not in the maps that the solver reads. -/
def late (kind : SolverKind) (s : SolverState Sym) : Set (CFLEdge Sym) :=
  match kind with
  | .CFLSolver => ∅
  | .POCRSolver | .POCRHybridSolver => s.edges \ tabled s.data

def Tables (kind : SolverKind) (s : SolverState Sym) : Prop :=
  kind = .CFLSolver ∨ Stores s.data (tabled s.data) ∧ tabled s.data ⊆ s.edges

/-- The state of the solver without the edges that the maps do not have. -/
def hidden (s : POCR.State Sym) : POCR.State Sym :=
  ⟨⟨⟨s.graph.nodes, s.graph.cflEdgeSet.filter fun e => s.data.hasEdge e.src e.dst e.kind⟩,
    s.worklist⟩, s.data⟩

theorem hidden_edges {s : POCR.State Sym} (h : tabled s.data ⊆ s.edges) :
    (hidden s).edges = tabled s.data := by
  ext e
  change e ∈ s.graph.cflEdgeSet.filter _ ↔ _
  rw [List.mem_filter]
  exact ⟨And.right, fun he => ⟨h he, he⟩⟩

theorem hides_hidden {s : POCR.State Sym} (h : tabled s.data ⊆ s.edges) :
    HidesData (s.edges \ tabled s.data) s (hidden s) := by
  refine ⟨⟨rfl, rfl, ?_, ?_⟩, rfl⟩
  · rw [hidden_edges h]
    exact (Set.union_sdiff_cancel h).symm
  · intro e he
    rw [hidden_edges h]
    exact he.2

variable {grammar : CFGrammar Sym} {prods : List (Production Sym)}

/-- What a solver with maps does to a state with late edges it does to the state without them. -/
theorem HidesData.tables {L : Set (CFLEdge Sym)} {s s' : POCR.State Sym} (h : HidesData L s s')
    (hs : POCR.Synced s') : Stores s.data (tabled s.data) ∧ tabled s.data ⊆ s.edges ∧
      s.edges \ tabled s.data = L := by
  have hstores : Stores s.data s'.edges := h.data ▸ hs
  rw [tabled_of_stores hstores, h.graph.edges]
  refine ⟨hstores, Set.subset_union_left, ?_⟩
  ext e
  constructor
  · rintro ⟨he | he, hne⟩
    · exact absurd he hne
    · exact he
  · exact fun he => ⟨.inr he, h.graph.disjoint e he⟩

/-- Where a production joins the edge with a late one, its result is there already. -/
def Joined (kind : SolverKind) (F : Sym) (prods : List (Production Sym)) (e : CFLEdge Sym)
    (s : SolverState Sym) : Prop :=
  ∀ z ∈ late kind s, ∀ x, (rules (applied kind F prods)).two e z x ∨
    (rules (applied kind F prods)).two z e x → x ∈ s.edges

structure Processes (prods : List (Production Sym)) (e : CFLEdge Sym) (s t : POCR.State Sym) : Prop where
  grows : Grows (Solver.take e s.toState) t.toState
  advances : Advances (rules prods) s.edges s.pending e t.edges t.pending
  stores : Stores t.data (tabled t.data)
  tabled : tabled t.data ⊆ t.edges
  late : t.edges \ LateEdges.tabled t.data = s.edges \ LateEdges.tabled s.data

theorem processCFLEdge_processes (hg : Holds grammar prods) {nodes : List NodeID} {s : POCR.State Sym}
    (hs : Sane nodes s.toState) (hstores : Stores s.data (tabled s.data))
    (hsub : tabled s.data ⊆ s.edges) (hapart : Apart prods s.edges (s.edges \ tabled s.data))
    {e : CFLEdge Sym} (he : some e ∈ s.worklist)
    (hjoined : ∀ z ∈ s.edges \ tabled s.data, ∀ x,
      (rules prods).two e z x ∨ (rules prods).two z e x → x ∈ s.edges) :
    Processes prods e s (POCR.processCFLEdge grammar e ⟨Solver.take e s.toState, s.data⟩) := by
  have hhide := hides_hidden (s := ⟨Solver.take e s.toState, s.data⟩) hsub
  have hedges : (hidden ⟨Solver.take e s.toState, s.data⟩).edges = tabled s.data := hidden_edges hsub
  have hsync : POCR.Synced (hidden ⟨Solver.take e s.toState, s.data⟩) := by
    rw [POCR.Synced, hedges]
    exact hstores
  have hin : e ∈ s.edges := hs.pending he
  have hproc := hides_processCFLEdge hg hapart hin hhide
  obtain ⟨hsync', hgrows'⟩ := POCRClosure.processCFLEdge_synced grammar e hsync
  have hgrows := hhide.graph.grows hproc.graph hgrows'
  obtain ⟨hone, hleft, hright⟩ := POCRClosure.processCFLEdge_covers hg e hsync
  obtain ⟨hstores', hsub', hlate⟩ := hproc.tables hsync'
  have hmem := hproc.graph.edges
  have hcases : ∀ b ∈ s.edges, b ∈ tabled s.data ∨ b ∈ s.edges \ tabled s.data := fun b hb =>
    (em (b ∈ tabled s.data)).imp_right fun hne => ⟨hb, hne⟩
  refine ⟨hgrows, ⟨hgrows.edges, Closure.mem_pending_of_grows hs.nodup hgrows, ?_, ?_, ?_, ?_⟩,
    hstores', hsub', hlate⟩
  · intro S hS hall
    have hsmall : (hidden ⟨Solver.take e s.toState, s.data⟩).edges ⊆ S := hedges ▸ hsub.trans hall
    rw [hmem]
    exact Set.union_subset (POCRClosure.processCFLEdge_sound hg hS (hall hin) hsync hsmall)
      (Set.sdiff_subset.trans hall)
  · intro c hc
    rw [hmem]
    exact .inl (hone c hc)
  · intro b hb c hc
    rcases hcases b hb with hb | hb
    · rw [hmem]
      exact .inl (hleft b (hedges ▸ hb) c hc)
    · exact hgrows.mem (hjoined b hb c (.inl hc))
  · intro b hb c hc
    rcases hcases b hb with hb | hb
    · rw [hmem]
      exact .inl (hright b (hedges ▸ hb) c hc)
    · exact hgrows.mem (hjoined b hb c (.inr hc))

structure Advanced (kind : SolverKind) (F : Sym) (prods : List (Production Sym)) (e : CFLEdge Sym)
    (s t : SolverState Sym) : Prop where
  grows : Grows (Solver.take e s.toState) t.toState
  advances : Advances (rules (applied kind F prods)) s.edges s.pending e t.edges t.pending
  tables : Tables kind t
  late : late kind t = late kind s

theorem advanced_processCFLEdge {kind : SolverKind} {F : Sym} {nodes : List NodeID}
    {s : SolverState Sym} (hs : Sane nodes s.toState) (htables : Tables kind s)
    (hapart : Apart (applied kind F prods) s.edges (late kind s)) {e : CFLEdge Sym}
    (he : some e ∈ s.worklist) (hjoined : Joined kind F prods e s) :
    Advanced kind F prods e s
      (kind.processCFLEdge (ofProds prods) F e (SolverKind.take e s)) := by
  have hg := holds_ofProds prods
  cases kind with
  | CFLSolver =>
      exact ⟨Solver.processCFLEdge_grows (ofProds prods) e _,
        Closure.processCFLEdge_advances hg hs he, .inl rfl, rfl⟩
  | POCRSolver =>
      obtain ⟨hstores, hsub⟩ := htables.resolve_left (by simp)
      have hproc := processCFLEdge_processes hg (s := s.toPOCR) hs hstores hsub hapart he hjoined
      exact ⟨hproc.grows, hproc.advances, .inr ⟨hproc.stores, hproc.tabled⟩, hproc.late⟩
  | POCRHybridSolver =>
      obtain ⟨hstores, hsub⟩ := htables.resolve_left (by simp)
      have hg := POCRHybrid.holds_withoutTransitive F hg
      have hproc := processCFLEdge_processes hg (s := s.toPOCR) hs hstores hsub hapart he hjoined
      have heq := POCRHybrid.processCFLEdge_toPOCR (ofProds prods) F e (SolverKind.take e s)
      change _ = POCR.processCFLEdge _ e ⟨Solver.take e s.toState, s.data⟩ at heq
      rw [← heq] at hproc
      exact ⟨hproc.grows, hproc.advances, .inr ⟨hproc.stores, hproc.tabled⟩, hproc.late⟩

/-- What the beginning of `solve` does to the edges, the worklist and the late edges. -/
structure Initialized (prods : List (Production Sym)) (starts : Set NodeID) (s t : Solver.State Sym) :
    Prop where
  nodes : t.graph.nodes = s.graph.nodes
  edges : t.edges = s.edges ∪ {e | e.src ∈ starts ∧ e.dst = e.src ∧ .epsilon e.kind ∈ prods}
  full : Full t
  nodup : t.worklist.Nodup

omit [DecidableEq Sym] in
theorem initialized_of_grows {starts : Set NodeID} {s u t : Solver.State Sym} (hgraph : u.graph = s.graph)
    (hfull : Full u) (hnodup : u.worklist.Nodup) (hgrows : Grows u t)
    (hedges : t.edges = u.edges ∪ {e | e.src ∈ starts ∧ e.dst = e.src ∧ .epsilon e.kind ∈ prods}) :
    Initialized prods starts s t where
  nodes := hgrows.nodes.trans (congrArg _ hgraph)
  edges := by
    rw [hedges, Solver.State.edges, hgraph]
    rfl
  full := hfull.grows hgrows
  nodup := hgrows.nodup hnodup

structure Ready (s : Solver.State Sym) : Prop where
  pending : s.pending ⊆ s.edges
  pointers : none ∉ s.worklist
  nodup : s.worklist.Nodup
  wellFormed : s.graph.WellFormed

omit [DecidableEq Sym] in
theorem Ready.of_sane {nodes : List NodeID} {s : Solver.State Sym} (hs : Sane nodes s) : Ready s where
  pending := hs.pending
  pointers := hs.pointers
  nodup := hs.nodup
  wellFormed e he := by
    rw [hs.sameNodes]
    exact hs.wellFormed e he

theorem addEpsilons_initialized (hg : Holds grammar prods) {s : POCR.State Sym}
    (hready : Ready s.toState) (hstores : Stores s.data (tabled s.data))
    (hsub : tabled s.data ⊆ s.edges) (hapart : Apart prods s.edges (s.edges \ tabled s.data)) :
    let t := POCR.addEpsilons grammar ⟨SolverKind.pushAll s.graph.cflEdgeSet s.toState, s.data⟩
    Initialized prods {n | n ∈ s.data.succMap.keys} s.toState t.toState ∧
      Stores t.data (tabled t.data) ∧ tabled t.data ⊆ t.edges ∧
      t.edges \ tabled t.data = s.edges \ tabled s.data := by
  obtain ⟨hgraph, -, hnodup⟩ := pushAll_spec s.graph.cflEdgeSet s.toState
  have hfull := full_pushAll hready.pending hready.pointers fun e => Iff.rfl
  generalize hu : SolverKind.pushAll s.graph.cflEdgeSet s.toState = u at hgraph hnodup hfull
  have hedges : u.edges = s.edges := by rw [Solver.State.edges, hgraph]; rfl
  have hsub' : tabled s.data ⊆ u.edges := hedges ▸ hsub
  have hhide := hides_hidden (s := ⟨u, s.data⟩) hsub'
  rw [hedges] at hhide
  have hsync : POCR.Synced (hidden ⟨u, s.data⟩) := by
    rw [POCR.Synced, hidden_edges hsub']
    exact hstores
  have hadds := POCRClosure.addEpsilons_adds hg hsync
  have hrun := hides_addEpsilons hg hapart hhide
  obtain ⟨hstores', htab, hlate⟩ := hrun.tables hadds.synced
  have hgrows := hhide.graph.grows hrun.graph hadds.grows
  refine ⟨initialized_of_grows hgraph hfull (hnodup hready.nodup) hgrows ?_, hstores', htab, hlate⟩
  rw [hrun.graph.edges, hadds.edges, hhide.graph.edges]
  exact Set.union_right_comm _ _ _

theorem initialized_initializeWorklist {kind : SolverKind} {F : Sym} {s : SolverState Sym}
    (hready : Ready s.toState) (htables : Tables kind s)
    (hapart : Apart (applied kind F prods) s.edges (late kind s)) :
    let t := kind.initializeWorklist (ofProds prods) s
    Initialized prods (epsilonNodes kind s) s.toState t.toState ∧ Tables kind t ∧
      late kind t = late kind s := by
  have hg := holds_ofProds prods
  cases kind with
  | CFLSolver =>
      obtain ⟨hgraph, -, hnodup⟩ := pushAll_spec (s.graph.nodes.flatMap s.graph.getOutEdges) s.toState
      have hfull := full_pushAll hready.pending hready.pointers
        (hready.wellFormed.mem_outEdges : ∀ e, e ∈ s.graph.nodes.flatMap s.graph.getOutEdges ↔ _)
      refine ⟨initialized_of_grows hgraph hfull (hnodup hready.nodup)
        (Closure.addEpsilons_grows (ofProds prods) s.graph.nodes _) ?_, .inl rfl, rfl⟩
      exact Closure.addEpsilons_edges hg s.graph.nodes _
  | POCRSolver =>
      obtain ⟨hstores, hsub⟩ := htables.resolve_left (by simp)
      obtain ⟨hinit, hstores', hsub', hlate⟩ :=
        addEpsilons_initialized hg (s := s.toPOCR) hready hstores hsub hapart
      exact ⟨hinit, .inr ⟨hstores', hsub'⟩, hlate⟩
  | POCRHybridSolver =>
      obtain ⟨hstores, hsub⟩ := htables.resolve_left (by simp)
      have hg := POCRHybrid.holds_withoutTransitive F hg
      obtain ⟨hinit, hstores', hsub', hlate⟩ :=
        addEpsilons_initialized hg (s := s.toPOCR) hready hstores hsub hapart
      refine ⟨⟨hinit.nodes, hinit.edges.trans ?_, hinit.full, hinit.nodup⟩, .inr ⟨hstores', hsub'⟩, hlate⟩
      simp [POCRHybrid.nonTransitive, epsilonNodes]

end

section

variable {Sym : Type} [DecidableEq Sym] {prods : List (Production Sym)} {graph : CFLGraph Sym}
variable {kind : SolverKind} {F : Sym}

omit [DecidableEq Sym] in
theorem apart_empty (prods : List (Production Sym)) (E : Set (CFLEdge Sym)) : Apart prods E ∅ where
  single _ _ _ h := absurd h (Set.notMem_empty _)
  binary _ _ _ _ _ h := absurd h (Set.notMem_empty _)
  epsilon _ _ _ h := absurd h (Set.notMem_empty _)

theorem new_spec (kind : SolverKind) (hgraph : graph.WellFormed) : Ready (kind.new graph).toState ∧
    Tables kind (kind.new graph) ∧ late kind (kind.new graph) = ∅ ∧
      epsilonNodes kind (kind.new graph) = startNodes kind graph := by
  refine ⟨⟨?_, List.not_mem_nil, List.nodup_nil, hgraph⟩, ?_⟩
  · exact fun e he => absurd he List.not_mem_nil
  obtain ⟨hstores, hkeys⟩ := POCRClosure.buildCFLData_spec graph.cflEdgeSet .empty stores_empty
  rw [Set.empty_union] at hstores
  have htab : tabled (POCR.buildCFLData graph) = {e | e ∈ graph.cflEdgeSet} := tabled_of_stores hstores
  have hnodes : {n | n ∈ (POCR.buildCFLData graph).succMap.keys} = POCRClosure.sources graph := by
    ext n
    refine (hkeys n).trans ?_
    simp [POCRClosure.sources, CFLData.empty, Util.DefaultMaps.DefaultMap.empty]
  have hdata : Stores (POCR.buildCFLData graph) (tabled (POCR.buildCFLData graph)) ∧
      tabled (POCR.buildCFLData graph) ⊆ {e | e ∈ graph.cflEdgeSet} :=
    ⟨htab ▸ hstores, htab.le⟩
  have hlate : {e | e ∈ graph.cflEdgeSet} \ tabled (POCR.buildCFLData graph) = ∅ := by
    rw [htab, Set.sdiff_self]
  cases kind with
  | CFLSolver => exact ⟨.inl rfl, rfl, rfl⟩
  | POCRSolver => exact ⟨.inr hdata, hlate, hnodes⟩
  | POCRHybridSolver => exact ⟨.inr hdata, hlate, hnodes⟩

theorem mem_applied_epsilon {X : Sym} : .epsilon X ∈ applied kind F prods ↔ .epsilon X ∈ prods := by
  cases kind <;> simp [applied, POCRHybrid.nonTransitive]

theorem saturates (kind : SolverKind) (F : Sym) (prods : List (Production Sym)) (nodes : List NodeID) :
    Saturates (rules (applied kind F prods)) (fun s : SolverState Sym => s.edges) (fun s => s.pending)
      (fun s => Sane nodes s.toState ∧ Tables kind s ∧ late kind s = ∅)
      (kind.Step (ofProds prods) F) := by
  have hstep : ∀ {s : SolverState Sym}, Sane nodes s.toState ∧ Tables kind s ∧ late kind s = ∅ →
      ∀ e, some e ∈ s.worklist → Advanced kind F prods e s
        (kind.processCFLEdge (ofProds prods) F e (SolverKind.take e s)) := by
    rintro s ⟨hs, htables, hlate⟩ e he
    refine advanced_processCFLEdge hs htables (hlate ▸ apart_empty _ _) he fun z hz => ?_
    exact absurd (hlate ▸ hz) (Set.notMem_empty z)
  constructor
  · rintro s t hs ⟨e, he, rfl⟩
    have hadv := hstep hs e he
    exact ⟨hs.1.advances hadv.grows hadv.advances, hadv.tables, hadv.late.trans hs.2.2⟩
  · rintro s t hs ⟨e, he, rfl⟩
    exact ⟨e, he, (hstep hs e he).advances⟩

omit [DecidableEq Sym] in
theorem startNodes_subset (kind : SolverKind) (hgraph : graph.WellFormed) :
    ∀ n ∈ startNodes kind graph, n ∈ graph.nodes := by
  cases kind with
  | CFLSolver => exact fun n hn => hn
  | POCRSolver => exact POCRClosure.sources_subset hgraph
  | POCRHybridSolver => exact POCRClosure.sources_subset hgraph

theorem start_spec (kind : SolverKind) (F : Sym) (prods : List (Production Sym))
    (hgraph : graph.WellFormed) :
    let s := kind.initializeWorklist (ofProds prods) (kind.new graph)
    (Sane graph.nodes s.toState ∧ Tables kind s ∧ late kind s = ∅) ∧
      Settled (rules (applied kind F prods))
        (seeds (applied kind F prods) graph.cflEdgeSet (startNodes kind graph)) s.edges s.pending := by
  obtain ⟨hready, htables, hlate, hnodes⟩ := new_spec kind hgraph
  obtain ⟨hinit, htables', hlate'⟩ := @initialized_initializeWorklist _ _ prods kind F _
    hready htables (hlate ▸ apart_empty _ _)
  have hedges : (kind.initializeWorklist (ofProds prods) (kind.new graph)).edges =
      seeds (applied kind F prods) graph.cflEdgeSet (startNodes kind graph) := by
    rw [hinit.edges, hnodes]
    ext e
    simp only [seeds, mem_applied_epsilon]
    rfl
  have hnodes' : (kind.initializeWorklist (ofProds prods) (kind.new graph)).graph.nodes = graph.nodes :=
    hinit.nodes
  refine ⟨⟨?_, htables', hlate'.trans hlate⟩, ?_⟩
  · have hw : (kind.initializeWorklist (ofProds prods) (kind.new graph)).graph.WellFormed := by
      intro e he
      have hmem : e ∈ (kind.initializeWorklist (ofProds prods) (kind.new graph)).edges := he
      rw [hedges] at hmem
      obtain ⟨hsrc, hdst, -⟩ := seeds_subset_edgeDomain _ hgraph (startNodes_subset kind hgraph) hmem
      rw [hnodes']
      exact ⟨hsrc, hdst⟩
    exact hnodes' ▸ hinit.full.sane hinit.nodup hw
  · rw [hinit.full.pending, hedges]
    exact settled_start _ _

/-- What a solver computes from scratch, whatever the order of its worklist. -/
theorem edges_of_scratch (hgraph : graph.WellFormed) {u : SolverState Sym}
    (hrun : ReflTransGen (kind.Step (ofProds prods) F)
      (kind.initializeWorklist (ofProds prods) (kind.new graph)) u)
    (hend : isWorklistEmpty u.toState = true) : u.edges =
      {e | Derives (rules (applied kind F prods))
        (seeds (applied kind F prods) graph.cflEdgeSet (startNodes kind graph)) e} := by
  obtain ⟨hinv, hsettled⟩ := start_spec kind F prods hgraph
  exact (saturates kind F prods graph.nodes).least hinv hsettled hrun (Closure.pending_eq_empty hend)

theorem processNext_step {s t : SolverState Sym} (h : kind.processNext (ofProds prods) F s = some t) :
    kind.Step (ofProds prods) F s t := by
  obtain ⟨⟨e, u⟩, hpop, rfl⟩ := Option.map_eq_some_iff.mp h
  obtain ⟨he, rfl⟩ := Closure.popFromWorklist_eq_some hpop
  exact ⟨e, he, rfl⟩

theorem exists_solve (kind : SolverKind) (F : Sym) (prods : List (Production Sym))
    (hgraph : graph.WellFormed) :
    ∃ fuel u, kind.solve (ofProds prods) F fuel (kind.new graph) = some u := by
  obtain ⟨hinv, hsettled⟩ := start_spec kind F prods hgraph
  have hsat := saturates kind F prods graph.nodes
  refine exists_whileLoop (R := kind.Step (ofProds prods) F) (fun _ _ _ => processNext_step) ?_ ?_
  · intro u hu hne
    obtain ⟨e, t, hpop⟩ := Closure.exists_popFromWorklist (hsat.settled hinv hsettled hu).1.1
      (by simpa using hne)
    exact ⟨_, by rw [SolverKind.processNext, hpop, Option.map_some]⟩
  · exact hsat.no_infinite_run (edgeDomain_finite _ graph) (closedUnder_edgeDomain _ graph)
      (seeds_subset_edgeDomain _ hgraph (startNodes_subset kind hgraph)) hinv hsettled

end

end SVF.CFL.LateEdges
