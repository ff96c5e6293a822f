import SVF.CFL.EdgeGraph
import SVF.Util.Folds

namespace SVF.CFL.Solver

open Grammar EdgeGraph Util.Saturation Util.Folds Util.Loops

variable {Sym : Type} [DecidableEq Sym]

/-- The worklist holds edge pointers, so a null pointer can be pushed as well. -/
structure State (Sym : Type) where
  graph : CFLGraph Sym
  worklist : List (Option (CFLEdge Sym))
  deriving DecidableEq

def State.edges (s : State Sym) : Set (CFLEdge Sym) := {e | e ∈ s.graph.cflEdgeSet}

def State.pending (s : State Sym) : Set (CFLEdge Sym) := {e | some e ∈ s.worklist}

def pushIntoWorklist (item : Option (CFLEdge Sym)) (s : State Sym) : State Sym :=
  if item ∈ s.worklist then s else { s with worklist := s.worklist ++ [item] }

/-- `if (newEdge = graph->addCFLEdge(i, j, X)) pushIntoWorklist(newEdge)`. -/
def addNewEdge (i j : NodeID) (X : Sym) (s : State Sym) : State Sym :=
  match s.graph.addCFLEdge i j X with
  | (_, none) => s
  | (graph, some e) => pushIntoWorklist (some e) { s with graph := graph }

/-- The sets of edges with one label at one end are ordered by the other end,
and edges inserted behind the iterator are met by the loop, so the loop over
such a set asks every node in ascending order. -/
def forOutEdgesWithTy (j : NodeID) (Z : Sym) (f : NodeID → State Sym → State Sym)
    (s : State Sym) : State Sym :=
  s.graph.nodes.foldl (fun s k => if ⟨j, k, Z⟩ ∈ s.graph.cflEdgeSet then f k s else s) s

def forInEdgesWithTy (i : NodeID) (Z : Sym) (f : NodeID → State Sym → State Sym)
    (s : State Sym) : State Sym :=
  s.graph.nodes.foldl (fun s k => if ⟨k, i, Z⟩ ∈ s.graph.cflEdgeSet then f k s else s) s

def processSingle (grammar : CFGrammar Sym) (Y_edge : CFLEdge Sym) (s : State Sym) : State Sym :=
  (grammar.getProdsFromSingleRHS Y_edge.kind).foldl
    (fun s prod => addNewEdge Y_edge.src Y_edge.dst prod.lhs s) s

def processFirst (grammar : CFGrammar Sym) (Y_edge : CFLEdge Sym) (s : State Sym) : State Sym :=
  (grammar.getProdsFromFirstRHS Y_edge.kind).foldl
    (fun s prod => forOutEdgesWithTy Y_edge.dst prod.secondRHS
      (fun k => addNewEdge Y_edge.src k prod.lhs) s) s

def processSecond (grammar : CFGrammar Sym) (Y_edge : CFLEdge Sym) (s : State Sym) : State Sym :=
  (grammar.getProdsFromSecondRHS Y_edge.kind).foldl
    (fun s prod => forInEdgesWithTy Y_edge.src prod.firstRHS
      (fun k => addNewEdge k Y_edge.dst prod.lhs) s) s

def processCFLEdge (grammar : CFGrammar Sym) (Y_edge : CFLEdge Sym) (s : State Sym) : State Sym :=
  processSecond grammar Y_edge (processFirst grammar Y_edge (processSingle grammar Y_edge s))

def initializeWorklist (grammar : CFGrammar Sym) (graph : CFLGraph Sym) : State Sym :=
  let s := (graph.nodes.flatMap graph.getOutEdges).foldl
    (fun s edge => pushIntoWorklist (some edge) s) ⟨graph, []⟩
  grammar.epsilonProds.foldl (fun s X => graph.nodes.foldl (fun s i => addNewEdge i i X s) s) s

def isWorklistEmpty (s : State Sym) : Bool := s.worklist.isEmpty

/-- The front of the queue; `none` when there is none or the pointer is null. -/
def popFromWorklist (s : State Sym) : Option (CFLEdge Sym × State Sym) :=
  match s.worklist with
  | some e :: worklist => some (e, { s with worklist := worklist })
  | _ => none

def processNext (grammar : CFGrammar Sym) (s : State Sym) : Option (State Sym) :=
  (popFromWorklist s).map fun (Y_edge, s) => processCFLEdge grammar Y_edge s

def solve (grammar : CFGrammar Sym) (fuel : ℕ) (graph : CFLGraph Sym) : Option (State Sym) :=
  whileLoop (fun s => !isWorklistEmpty s) (processNext grammar) fuel
    (initializeWorklist grammar graph)

/-- The worklist hands out `e`, which need not stand at its front. -/
def take (e : CFLEdge Sym) (s : State Sym) : State Sym :=
  { s with worklist := s.worklist.erase (some e) }

/-- One turn of the loop of `solve` for an arbitrary order. A null pointer
cannot be processed. -/
def Step (grammar : CFGrammar Sym) (s t : State Sym) : Prop :=
  ∃ e, some e ∈ s.worklist ∧ t = processCFLEdge grammar e (take e s)

structure Grows (s t : State Sym) : Prop where
  nodes : t.graph.nodes = s.graph.nodes
  edges : s.edges ⊆ t.edges
  worklist : ∀ x, x ∈ t.worklist ↔ x ∈ s.worklist ∨ ∃ e, e ∈ t.edges ∧ e ∉ s.edges ∧ x = some e
  nodup : s.worklist.Nodup → t.worklist.Nodup

omit [DecidableEq Sym] in
theorem Grows.refl (s : State Sym) : Grows s s :=
  ⟨rfl, subset_rfl, fun x => by simp +contextual, id⟩

omit [DecidableEq Sym] in
theorem Grows.trans {s t u : State Sym} (h : Grows s t) (h' : Grows t u) : Grows s u where
  nodes := h'.nodes.trans h.nodes
  edges := h.edges.trans h'.edges
  worklist x := by
    rw [h'.worklist, h.worklist]
    constructor
    · rintro ((hx | ⟨e, he, hn, hx⟩) | ⟨e, he, hn, hx⟩)
      · exact .inl hx
      · exact .inr ⟨e, h'.edges he, hn, hx⟩
      · exact .inr ⟨e, he, fun hs => hn (h.edges hs), hx⟩
    · rintro (hx | ⟨e, he, hn, hx⟩)
      · exact .inl (.inl hx)
      · by_cases ht : e ∈ t.edges
        · exact .inl (.inr ⟨e, ht, hn, hx⟩)
        · exact .inr ⟨e, he, ht, hx⟩
  nodup := h'.nodup ∘ h.nodup

instance : Std.Refl (@Grows Sym) := ⟨Grows.refl⟩

instance : IsTrans (State Sym) Grows := ⟨fun _ _ _ => Grows.trans⟩

theorem addNewEdge_of_mem {i j : NodeID} {X : Sym} {s : State Sym}
    (h : ⟨i, j, X⟩ ∈ s.graph.cflEdgeSet) : addNewEdge i j X s = s := by
  simp [addNewEdge, CFLGraph.addCFLEdge, h]

theorem addNewEdge_of_not_mem {i j : NodeID} {X : Sym} {s : State Sym}
    (h : ⟨i, j, X⟩ ∉ s.graph.cflEdgeSet) :
    addNewEdge i j X s = pushIntoWorklist (some ⟨i, j, X⟩)
      ⟨⟨s.graph.nodes, s.graph.cflEdgeSet ++ [⟨i, j, X⟩]⟩, s.worklist⟩ := by
  simp [addNewEdge, CFLGraph.addCFLEdge, h]

theorem pushIntoWorklist_graph (item : Option (CFLEdge Sym)) (s : State Sym) :
    (pushIntoWorklist item s).graph = s.graph := by
  unfold pushIntoWorklist
  split <;> rfl

theorem mem_pushIntoWorklist (item x : Option (CFLEdge Sym)) (s : State Sym) :
    x ∈ (pushIntoWorklist item s).worklist ↔ x ∈ s.worklist ∨ x = item := by
  unfold pushIntoWorklist
  split
  · rename_i h
    exact ⟨.inl, fun hx => hx.elim id (fun he => he ▸ h)⟩
  · simp

theorem pushIntoWorklist_nodup (item : Option (CFLEdge Sym)) (s : State Sym)
    (h : s.worklist.Nodup) : (pushIntoWorklist item s).worklist.Nodup := by
  unfold pushIntoWorklist
  split
  · exact h
  · rename_i hn
    exact List.nodup_append.mpr ⟨h, List.nodup_singleton _, by
      rintro x hx y hy rfl
      exact hn (List.mem_singleton.mp hy ▸ hx)⟩

theorem addNewEdge_edges (i j : NodeID) (X : Sym) (s : State Sym) :
    (addNewEdge i j X s).edges = insert ⟨i, j, X⟩ s.edges := by
  by_cases h : (⟨i, j, X⟩ : CFLEdge Sym) ∈ s.graph.cflEdgeSet
  · rw [addNewEdge_of_mem h]
    exact (Set.insert_eq_of_mem (s := s.edges) h).symm
  · rw [addNewEdge_of_not_mem h]
    ext e
    simp [State.edges, pushIntoWorklist_graph, or_comm]

theorem addNewEdge_grows (i j : NodeID) (X : Sym) (s : State Sym) :
    Grows s (addNewEdge i j X s) := by
  by_cases h : (⟨i, j, X⟩ : CFLEdge Sym) ∈ s.graph.cflEdgeSet
  · rw [addNewEdge_of_mem h]
    exact Grows.refl s
  · have hedges := addNewEdge_edges i j X s
    rw [addNewEdge_of_not_mem h] at hedges ⊢
    refine ⟨?_, ?_, ?_, ?_⟩
    · rw [pushIntoWorklist_graph]
    · rw [hedges]
      exact Set.subset_insert _ _
    · intro x
      rw [mem_pushIntoWorklist, hedges]
      constructor
      · rintro (hx | rfl)
        · exact .inl hx
        · exact .inr ⟨⟨i, j, X⟩, Set.mem_insert _ _, h, rfl⟩
      · rintro (hx | ⟨e, he, hn, rfl⟩)
        · exact .inl hx
        · exact .inr (congrArg some (he.resolve_right hn))
    · intro hn
      exact pushIntoWorklist_nodup _ _ hn

theorem forOutEdgesWithTy_grows {f : NodeID → State Sym → State Sym}
    (hf : ∀ k s, Grows s (f k s)) (j : NodeID) (Z : Sym) (s : State Sym) :
    Grows s (forOutEdgesWithTy j Z f s) := by
  refine foldl_rel Grows (fun k _ t => ?_) s
  split
  · exact hf k t
  · exact Grows.refl t

theorem forInEdgesWithTy_grows {f : NodeID → State Sym → State Sym}
    (hf : ∀ k s, Grows s (f k s)) (i : NodeID) (Z : Sym) (s : State Sym) :
    Grows s (forInEdgesWithTy i Z f s) := by
  refine foldl_rel Grows (fun k _ t => ?_) s
  split
  · exact hf k t
  · exact Grows.refl t

theorem processSingle_grows (grammar : CFGrammar Sym) (e : CFLEdge Sym) (s : State Sym) :
    Grows s (processSingle grammar e s) :=
  foldl_rel Grows (fun _ _ _ => addNewEdge_grows _ _ _ _) s

theorem processFirst_grows (grammar : CFGrammar Sym) (e : CFLEdge Sym) (s : State Sym) :
    Grows s (processFirst grammar e s) :=
  foldl_rel Grows
    (fun _ _ _ => forOutEdgesWithTy_grows (fun _ _ => addNewEdge_grows _ _ _ _) _ _ _) s

theorem processSecond_grows (grammar : CFGrammar Sym) (e : CFLEdge Sym) (s : State Sym) :
    Grows s (processSecond grammar e s) :=
  foldl_rel Grows
    (fun _ _ _ => forInEdgesWithTy_grows (fun _ _ => addNewEdge_grows _ _ _ _) _ _ _) s

theorem processCFLEdge_grows (grammar : CFGrammar Sym) (e : CFLEdge Sym) (s : State Sym) :
    Grows s (processCFLEdge grammar e s) :=
  ((processSingle_grows grammar e s).trans (processFirst_grows grammar e _)).trans
    (processSecond_grows grammar e _)

omit [DecidableEq Sym] in
theorem Grows.mem {s t : State Sym} (h : Grows s t) {e : CFLEdge Sym} (he : e ∈ s.edges) :
    e ∈ t.edges := h.edges he

theorem processSingle_covers {grammar : CFGrammar Sym} {prods : List (Production Sym)}
    (hg : Holds grammar prods) {e x : CFLEdge Sym} (hx : (rules prods).one e x) (s : State Sym) :
    x ∈ (processSingle grammar e s).edges := by
  obtain ⟨hsrc, hdst, hp⟩ := hx
  have hmem : ⟨x.kind, e.kind⟩ ∈ grammar.getProdsFromSingleRHS e.kind :=
    (hg.single _ _).mpr ⟨rfl, hp⟩
  refine foldl_covers Grows (fun _ _ _ => addNewEdge_grows _ _ _ _) (fun _ _ h => h.mem) hmem ?_
  intro t _
  rw [addNewEdge_edges, ← hsrc, ← hdst]
  exact Set.mem_insert _ _

theorem processFirst_covers {grammar : CFGrammar Sym} {prods : List (Production Sym)}
    (hg : Holds grammar prods) {e z x : CFLEdge Sym} (hx : (rules prods).two e z x) {s : State Sym}
    (hz : z ∈ s.edges) (hn : z.dst ∈ s.graph.nodes) : x ∈ (processFirst grammar e s).edges := by
  obtain ⟨hez, hsrc, hdst, hp⟩ := hx
  have hmem : ⟨x.kind, e.kind, z.kind⟩ ∈ grammar.getProdsFromFirstRHS e.kind :=
    (hg.first _ _).mpr ⟨rfl, hp⟩
  have hloop : ∀ (p : BinaryProd Sym) (t : State Sym), Grows t (forOutEdgesWithTy e.dst p.secondRHS
      (fun k => addNewEdge e.src k p.lhs) t) :=
    fun _ _ => forOutEdgesWithTy_grows (fun _ _ => addNewEdge_grows _ _ _ _) _ _ _
  refine foldl_covers Grows (fun p _ t => hloop p t) (fun _ _ h => h.mem) hmem ?_
  intro t ht
  have hnt : z.dst ∈ t.graph.nodes := ht.nodes ▸ hn
  refine foldl_covers Grows (fun k _ u => ?_) (fun _ _ h => h.mem) hnt ?_
  · split
    · exact addNewEdge_grows _ _ _ _
    · exact Grows.refl u
  · intro u hu
    have hzu : (⟨e.dst, z.dst, z.kind⟩ : CFLEdge Sym) ∈ u.graph.cflEdgeSet := by
      rw [hez]
      exact hu.mem (ht.mem hz)
    rw [if_pos hzu, addNewEdge_edges, ← hsrc, ← hdst]
    exact Set.mem_insert _ _

theorem processSecond_covers {grammar : CFGrammar Sym} {prods : List (Production Sym)}
    (hg : Holds grammar prods) {e z x : CFLEdge Sym} (hx : (rules prods).two z e x) {s : State Sym}
    (hz : z ∈ s.edges) (hn : z.src ∈ s.graph.nodes) : x ∈ (processSecond grammar e s).edges := by
  obtain ⟨hze, hsrc, hdst, hp⟩ := hx
  have hmem : ⟨x.kind, z.kind, e.kind⟩ ∈ grammar.getProdsFromSecondRHS e.kind :=
    (hg.second _ _).mpr ⟨rfl, hp⟩
  have hloop : ∀ (p : BinaryProd Sym) (t : State Sym), Grows t (forInEdgesWithTy e.src p.firstRHS
      (fun k => addNewEdge k e.dst p.lhs) t) :=
    fun _ _ => forInEdgesWithTy_grows (fun _ _ => addNewEdge_grows _ _ _ _) _ _ _
  refine foldl_covers Grows (fun p _ t => hloop p t) (fun _ _ h => h.mem) hmem ?_
  intro t ht
  have hnt : z.src ∈ t.graph.nodes := ht.nodes ▸ hn
  refine foldl_covers Grows (fun k _ u => ?_) (fun _ _ h => h.mem) hnt ?_
  · split
    · exact addNewEdge_grows _ _ _ _
    · exact Grows.refl u
  · intro u hu
    have hzu : (⟨z.src, e.src, z.kind⟩ : CFLEdge Sym) ∈ u.graph.cflEdgeSet := by
      rw [← hze]
      exact hu.mem (ht.mem hz)
    rw [if_pos hzu, addNewEdge_edges, ← hsrc, ← hdst]
    exact Set.mem_insert _ _

end SVF.CFL.Solver
