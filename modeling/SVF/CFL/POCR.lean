import SVF.CFL.Closure
import SVF.CFL.DataMaps
import Mathlib.Order.CompletePartialOrder

namespace SVF.CFL.POCR

open Relation Grammar EdgeGraph DataMaps Closure Util.Saturation Util.Folds Util.Loops
open Solver (Grows pushIntoWorklist isWorklistEmpty popFromWorklist take addNewEdge)

variable {Sym : Type} [DecidableEq Sym]

structure State (Sym : Type) [DecidableEq Sym] extends Solver.State Sym where
  data : CFLData Sym

/-- `pushIntoWorklist(graph->addCFLEdge(i, j, X))`, without a look at the pointer. -/
def pushNewEdge (i j : NodeID) (X : Sym) (s : Solver.State Sym) : Solver.State Sym :=
  let (graph, newEdge) := s.graph.addCFLEdge i j X
  pushIntoWorklist newEdge { s with graph := graph }

/-- `if (addEdge(i, j, X)) pushIntoWorklist(graph->addCFLEdge(i, j, X))`. -/
def addNewData (i j : NodeID) (X : Sym) (s : State Sym) : State Sym :=
  match s.data.addEdge i j X with
  | (data, true) => ⟨pushNewEdge i j X s.toState, data⟩
  | (data, false) => { s with data := data }

def addDiffDsts (i j : NodeID) (Z X : Sym) (s : State Sym) : State Sym :=
  let (data, dstData) := s.data.getSuccs j Z
  let (data, diffDsts) := data.addEdgesToDsts i dstData X
  ⟨diffDsts.foldl (fun s diffDst => pushNewEdge i diffDst X s) s.toState, data⟩

def addDiffSrcs (i j : NodeID) (Z X : Sym) (s : State Sym) : State Sym :=
  let (data, srcData) := s.data.getPreds i Z
  let (data, diffSrcs) := data.addEdgesFromSrcs srcData j X
  ⟨diffSrcs.foldl (fun s diffSrc => pushNewEdge diffSrc j X s) s.toState, data⟩

def processSingle (grammar : CFGrammar Sym) (Y_edge : CFLEdge Sym) (s : State Sym) : State Sym :=
  (grammar.getProdsFromSingleRHS Y_edge.kind).foldl
    (fun s prod => addNewData Y_edge.src Y_edge.dst prod.lhs s) s

def processFirst (grammar : CFGrammar Sym) (Y_edge : CFLEdge Sym) (s : State Sym) : State Sym :=
  (grammar.getProdsFromFirstRHS Y_edge.kind).foldl
    (fun s prod => addDiffDsts Y_edge.src Y_edge.dst prod.secondRHS prod.lhs s) s

def processSecond (grammar : CFGrammar Sym) (Y_edge : CFLEdge Sym) (s : State Sym) : State Sym :=
  (grammar.getProdsFromSecondRHS Y_edge.kind).foldl
    (fun s prod => addDiffSrcs Y_edge.src Y_edge.dst prod.firstRHS prod.lhs s) s

def processCFLEdge (grammar : CFGrammar Sym) (Y_edge : CFLEdge Sym) (s : State Sym) : State Sym :=
  processSecond grammar Y_edge (processFirst grammar Y_edge (processSingle grammar Y_edge s))

def buildCFLData (graph : CFLGraph Sym) : CFLData Sym :=
  graph.cflEdgeSet.foldl (fun d edge => (d.addEdge edge.src edge.dst edge.kind).1) .empty

def pushEdges (graph : CFLGraph Sym) : State Sym :=
  ⟨graph.cflEdgeSet.foldl (fun s edge => pushIntoWorklist (some edge) s) ⟨graph, []⟩,
    buildCFLData graph⟩

def addEpsilons (grammar : CFGrammar Sym) (s : State Sym) : State Sym :=
  grammar.epsilonProds.foldl
    (fun s X => s.data.succMap.keys.foldl (fun s i => addNewData i i X s) s) s

def initializeWorklist (grammar : CFGrammar Sym) (graph : CFLGraph Sym) : State Sym :=
  addEpsilons grammar (pushEdges graph)

def processNext (grammar : CFGrammar Sym) (s : State Sym) : Option (State Sym) :=
  (popFromWorklist s.toState).map fun (Y_edge, t) => processCFLEdge grammar Y_edge ⟨t, s.data⟩

def solve (grammar : CFGrammar Sym) (fuel : ℕ) (graph : CFLGraph Sym) : Option (State Sym) :=
  whileLoop (fun s => !isWorklistEmpty s.toState) (processNext grammar) fuel
    (initializeWorklist grammar graph)

def Step (grammar : CFGrammar Sym) (s t : State Sym) : Prop :=
  ∃ e, some e ∈ s.worklist ∧ t = processCFLEdge grammar e ⟨take e s.toState, s.data⟩

def Synced (s : State Sym) : Prop := Stores s.data s.edges

/-- `t` is `s` with the edges of `new` in the graph and in the maps, and those
that are not in `s` on the worklist. -/
structure Adds (s : State Sym) (new : Set (CFLEdge Sym)) (t : State Sym) : Prop where
  synced : Synced t
  grows : Grows s.toState t.toState
  edges : t.edges = s.edges ∪ new

theorem pushNewEdge_of_not_mem {i j : NodeID} {X : Sym} {s : Solver.State Sym}
    (h : ⟨i, j, X⟩ ∉ s.edges) : pushNewEdge i j X s = addNewEdge i j X s := by
  have h' : (⟨i, j, X⟩ : CFLEdge Sym) ∉ s.graph.cflEdgeSet := h
  simp [pushNewEdge, addNewEdge, CFLGraph.addCFLEdge, h']

theorem pushNewEdges_spec (es : List (CFLEdge Sym)) (hn : es.Nodup) (s : Solver.State Sym)
    (hes : ∀ e ∈ es, e ∉ s.edges) :
    Grows s (es.foldl (fun s e => pushNewEdge e.src e.dst e.kind s) s) ∧
      (es.foldl (fun s e => pushNewEdge e.src e.dst e.kind s) s).edges = s.edges ∪ {e | e ∈ es} := by
  induction es generalizing s with
  | nil => exact ⟨Grows.refl s, by simp⟩
  | cons e es ih =>
      obtain ⟨hne, hn⟩ := List.nodup_cons.mp hn
      have hadd := pushNewEdge_of_not_mem (hes e List.mem_cons_self)
      have hedges : (pushNewEdge e.src e.dst e.kind s).edges = insert e s.edges := by
        rw [hadd]
        exact Solver.addNewEdge_edges _ _ _ s
      obtain ⟨hgrows, heq⟩ := ih hn (pushNewEdge e.src e.dst e.kind s) (by
        intro c hc
        rw [hedges]
        rintro (rfl | hcs)
        · exact hne hc
        · exact hes c (List.mem_cons_of_mem _ hc) hcs)
      rw [List.foldl_cons]
      refine ⟨Grows.trans ?_ hgrows, ?_⟩
      · rw [hadd]
        exact Solver.addNewEdge_grows _ _ _ s
      · rw [heq, hedges]
        ext c
        simp only [Set.mem_union, Set.mem_insert_iff, Set.mem_ofPred_eq, List.mem_cons]
        tauto

theorem addNewData_adds {s : State Sym} (hs : Synced s) (i j : NodeID) (X : Sym) :
    Adds s {⟨i, j, X⟩} (addNewData i j X s) := by
  obtain ⟨hstores, hadded⟩ := hs.addEdge i j X
  cases hd : s.data.addEdge i j X with
  | mk data added =>
      rw [hd] at hstores hadded
      cases added with
      | true =>
          have hpush := pushNewEdge_of_not_mem (hadded.mp rfl)
          have hedges := Solver.addNewEdge_edges i j X s.toState
          simp only [addNewData, hd, hpush]
          refine ⟨?_, Solver.addNewEdge_grows i j X s.toState, ?_⟩
          · rw [Synced, hedges]
            exact hstores
          · rw [hedges, Set.union_singleton]
      | false =>
          have hin : ⟨i, j, X⟩ ∈ s.edges := by
            by_contra hn
            exact absurd (hadded.mpr hn) Bool.false_ne_true
          simp only [addNewData, hd]
          refine ⟨?_, Grows.refl s.toState, ?_⟩
          · rw [Set.insert_eq_of_mem hin] at hstores
            exact hstores
          · rw [Set.union_singleton]
            exact (Set.insert_eq_of_mem hin).symm

theorem addDiffDsts_adds {s : State Sym} (hs : Synced s) (i j : NodeID) (Z X : Sym) :
    Adds s {x | x.src = i ∧ ⟨j, x.dst, Z⟩ ∈ s.edges ∧ x.kind = X} (addDiffDsts i j Z X s) := by
  obtain ⟨hget, hdata⟩ := hs.getSuccs j Z
  obtain ⟨hstores, hmem, hnodup⟩ := hget.addEdgesToDsts i (s.data.getSuccs j Z).2 X
  simp only [hdata] at hstores hmem
  let diffDsts := ((s.data.getSuccs j Z).1.addEdgesToDsts i (s.data.getSuccs j Z).2 X).2
  obtain ⟨hgrows, hedges⟩ := pushNewEdges_spec (diffDsts.map fun k => ⟨i, k, X⟩)
    (hnodup.map fun k l h => (CFLEdge.mk.inj h).2.1) s.toState (by
      intro e he
      obtain ⟨k, hk, rfl⟩ := List.mem_map.mp he
      exact ((hmem k).mp hk).2)
  rw [List.foldl_map] at hgrows hedges
  have hall : (addDiffDsts i j Z X s).edges =
      s.edges ∪ {x | x.src = i ∧ ⟨j, x.dst, Z⟩ ∈ s.edges ∧ x.kind = X} := by
    refine hedges.trans (Set.ext fun e => ?_)
    constructor
    · rintro (he | he)
      · exact .inl he
      · obtain ⟨k, hk, rfl⟩ := List.mem_map.mp he
        exact .inr ⟨rfl, ((hmem k).mp hk).1, rfl⟩
    · rintro (he | ⟨rfl, hZ, rfl⟩)
      · exact .inl he
      · by_cases he : e ∈ s.edges
        · exact .inl he
        · exact .inr (List.mem_map.mpr ⟨e.dst, (hmem e.dst).mpr ⟨hZ, he⟩, rfl⟩)
  refine ⟨?_, hgrows, hall⟩
  rw [Synced, hall]
  exact hstores

theorem addDiffSrcs_adds {s : State Sym} (hs : Synced s) (i j : NodeID) (Z X : Sym) :
    Adds s {x | ⟨x.src, i, Z⟩ ∈ s.edges ∧ x.dst = j ∧ x.kind = X} (addDiffSrcs i j Z X s) := by
  obtain ⟨hget, hdata⟩ := hs.getPreds i Z
  obtain ⟨hstores, hmem, hnodup⟩ := hget.addEdgesFromSrcs (s.data.getPreds i Z).2 j X
  simp only [hdata] at hstores hmem
  let diffSrcs := ((s.data.getPreds i Z).1.addEdgesFromSrcs (s.data.getPreds i Z).2 j X).2
  obtain ⟨hgrows, hedges⟩ := pushNewEdges_spec (diffSrcs.map fun k => ⟨k, j, X⟩)
    (hnodup.map fun k l h => (CFLEdge.mk.inj h).1) s.toState (by
      intro e he
      obtain ⟨k, hk, rfl⟩ := List.mem_map.mp he
      exact ((hmem k).mp hk).2)
  rw [List.foldl_map] at hgrows hedges
  have hall : (addDiffSrcs i j Z X s).edges =
      s.edges ∪ {x | ⟨x.src, i, Z⟩ ∈ s.edges ∧ x.dst = j ∧ x.kind = X} := by
    refine hedges.trans (Set.ext fun e => ?_)
    constructor
    · rintro (he | he)
      · exact .inl he
      · obtain ⟨k, hk, rfl⟩ := List.mem_map.mp he
        exact .inr ⟨((hmem k).mp hk).1, rfl, rfl⟩
    · rintro (he | ⟨hZ, rfl, rfl⟩)
      · exact .inl he
      · by_cases he : e ∈ s.edges
        · exact .inl he
        · exact .inr (List.mem_map.mpr ⟨e.src, (hmem e.src).mpr ⟨hZ, he⟩, rfl⟩)
  refine ⟨?_, hgrows, hall⟩
  rw [Synced, hall]
  exact hstores

structure AddsEach {ι : Type} (l : List ι) (new : ι → Set (CFLEdge Sym) → Set (CFLEdge Sym))
    (s t : State Sym) : Prop where
  synced : Synced t
  grows : Grows s.toState t.toState
  covers : ∀ a ∈ l, new a s.edges ⊆ t.edges
  sound : ∀ S, s.edges ⊆ S → (∀ a ∈ l, new a S ⊆ S) → t.edges ⊆ S

theorem foldl_addsEach {ι : Type} {f : State Sym → ι → State Sym}
    {new : ι → Set (CFLEdge Sym) → Set (CFLEdge Sym)} (hmono : ∀ a, Monotone (new a))
    (hf : ∀ a s, Synced s → Adds s (new a s.edges) (f s a)) (l : List ι) {s : State Sym}
    (hs : Synced s) : AddsEach l new s (l.foldl f s) := by
  induction l generalizing s with
  | nil => exact ⟨hs, Grows.refl _, by simp, fun S hS _ => hS⟩
  | cons a l ih =>
      have hadd := hf a s hs
      have hrest := ih hadd.synced
      refine ⟨hrest.synced, hadd.grows.trans hrest.grows, ?_, ?_⟩
      · intro b hb
        rcases List.mem_cons.mp hb with rfl | hb
        · refine subset_trans ?_ hrest.grows.edges
          rw [hadd.edges]
          exact Set.subset_union_right
        · exact (hmono b hadd.grows.edges).trans (hrest.covers b hb)
      · intro S hS hnew
        refine hrest.sound S ?_ (fun b hb => hnew b (List.mem_cons_of_mem _ hb))
        rw [hadd.edges]
        exact Set.union_subset hS ((hmono a hS).trans (hnew a List.mem_cons_self))

end SVF.CFL.POCR
