import SVF.CFL.POCRAgreement

namespace SVF.CFL.POCRHybrid

open Relation Grammar EdgeGraph DataMaps POCRClosure Util.Saturation Util.Folds Util.Loops Util.DefaultMaps
open Solver (isWorklistEmpty popFromWorklist take)

variable {Sym : Type} [DecidableEq Sym]

/-- The address of a tree node. A tree holds at most one node for every graph
node, and the node is never freed, so tree and graph node identify it. -/
structure TreeNode where
  tree : NodeID
  id : NodeID
  deriving DecidableEq

structure Forest where
  indMap : DefaultMap NodeID (DefaultMap NodeID (Option TreeNode))
  children : DefaultMap TreeNode (List TreeNode)

def Forest.empty : Forest := ⟨.empty, .empty⟩

def Forest.hasInd_h (forest : Forest) (src dst : NodeID) : Bool :=
  dst ∈ forest.indMap.keys && src ∈ (forest.indMap.get dst).keys

/-- The node `dst` of the tree of `src`, unless it is there already. -/
def Forest.addInd_h (forest : Forest) (src dst : NodeID) : Forest × Option TreeNode :=
  if src ∈ (forest.indMap.get dst).keys then (forest, none)
  else ({ forest with indMap := forest.indMap.modify dst (·.set src (some ⟨src, dst⟩)) },
    some ⟨src, dst⟩)

def Forest.getNode_h (forest : Forest) (src dst : NodeID) : Option TreeNode :=
  (forest.indMap.get dst).get src

def Forest.insertEdge_h (forest : Forest) (u v : TreeNode) : Forest :=
  { forest with children := forest.children.modify u (·.insert v) }

/-- Every nested call has added one more graph node to the tree of `x`, so the
number of graph nodes bounds the depth. -/
def Forest.meld (x : NodeID) : ℕ → TreeNode → TreeNode → Forest → Forest
  | 0, _, _, forest => forest
  | fuel + 1, uNode, vNode, forest =>
      match forest.addInd_h x vNode.id with
      | (forest, none) => forest
      | (forest, some newVNode) =>
          (forest.children.get vNode).foldl (fun forest vChild => forest.meld x fuel newVNode vChild)
            (forest.insertEdge_h uNode newVNode)

structure State (Sym : Type) [DecidableEq Sym] extends toPOCR : POCR.State Sym where
  forest : Forest

/-- The loop reads `getNode_h(dst, dst)` through the pointer, which every node
of the graph has. -/
def addArc (F : Sym) (src dst : NodeID) (s : State Sym) : State Sym :=
  if s.data.hasEdge src dst F then s
  else { s with
    forest := (s.forest.indMap.get src).keys.foldl (fun forest x =>
      match forest.getNode_h x src, forest.getNode_h dst dst with
      | some uNode, some vNode => forest.meld x (s.graph.nodes.length + 1) uNode vNode
      | _, _ => forest) s.forest }

def processSingle (grammar : CFGrammar Sym) (Y_edge : CFLEdge Sym) (s : State Sym) : State Sym :=
  { s with toPOCR := POCR.processSingle grammar Y_edge s.toPOCR }

def processFirst (grammar : CFGrammar Sym) (F : Sym) (Y_edge : CFLEdge Sym) (s : State Sym) :
    State Sym :=
  (grammar.getProdsFromFirstRHS Y_edge.kind).foldl (fun s prod =>
    if prod.lhs = F ∧ Y_edge.kind = F ∧ prod.secondRHS = F then addArc F Y_edge.src Y_edge.dst s
    else { s with
      toPOCR := POCR.addDiffDsts Y_edge.src Y_edge.dst prod.secondRHS prod.lhs s.toPOCR }) s

def processSecond (grammar : CFGrammar Sym) (F : Sym) (Y_edge : CFLEdge Sym) (s : State Sym) :
    State Sym :=
  (grammar.getProdsFromSecondRHS Y_edge.kind).foldl (fun s prod =>
    if prod.lhs = F ∧ Y_edge.kind = F ∧ prod.firstRHS = F then addArc F Y_edge.src Y_edge.dst s
    else { s with
      toPOCR := POCR.addDiffSrcs Y_edge.src Y_edge.dst prod.firstRHS prod.lhs s.toPOCR }) s

def processCFLEdge (grammar : CFGrammar Sym) (F : Sym) (Y_edge : CFLEdge Sym) (s : State Sym) :
    State Sym :=
  processSecond grammar F Y_edge (processFirst grammar F Y_edge (processSingle grammar Y_edge s))

def initForest (nodes : List NodeID) : Forest :=
  nodes.foldl (fun forest nId => (forest.addInd_h nId nId).1) .empty

def initializeWorklist (grammar : CFGrammar Sym) (graph : CFLGraph Sym) : State Sym :=
  ⟨POCR.addEpsilons grammar (POCR.pushEdges graph), initForest graph.nodes⟩

def processNext (grammar : CFGrammar Sym) (F : Sym) (s : State Sym) : Option (State Sym) :=
  (popFromWorklist s.toState).map fun (Y_edge, t) =>
    processCFLEdge grammar F Y_edge ⟨⟨t, s.data⟩, s.forest⟩

def solve (grammar : CFGrammar Sym) (F : Sym) (fuel : ℕ) (graph : CFLGraph Sym) :
    Option (State Sym) :=
  whileLoop (fun s => !isWorklistEmpty s.toState) (processNext grammar F) fuel
    (initializeWorklist grammar graph)

def Step (grammar : CFGrammar Sym) (F : Sym) (s t : State Sym) : Prop :=
  ∃ e, some e ∈ s.worklist ∧
    t = processCFLEdge grammar F e ⟨⟨take e s.toState, s.data⟩, s.forest⟩

/-- The grammar as the solver sees it on edges: `F -> F F` is left to the forest. -/
def withoutTransitive (F : Sym) (grammar : CFGrammar Sym) : CFGrammar Sym :=
  { grammar with
    firstRHSToProds := grammar.firstRHSToProds.mapWithKey fun Y prods =>
      prods.filter fun p => ¬ (p.lhs = F ∧ Y = F ∧ p.secondRHS = F)
    secondRHSToProds := grammar.secondRHSToProds.mapWithKey fun Z prods =>
      prods.filter fun p => ¬ (p.lhs = F ∧ Z = F ∧ p.firstRHS = F) }

def nonTransitive (F : Sym) (prods : List (Production Sym)) : List (Production Sym) :=
  prods.filter (· ≠ .binary F F F)

theorem getProdsFromFirstRHS_withoutTransitive (F : Sym) (grammar : CFGrammar Sym) (Y : Sym) :
    (withoutTransitive F grammar).getProdsFromFirstRHS Y =
      (grammar.getProdsFromFirstRHS Y).filter
        fun p => ¬ (p.lhs = F ∧ Y = F ∧ p.secondRHS = F) := by
  simp only [withoutTransitive, CFGrammar.getProdsFromFirstRHS, get_mapWithKey]
  split
  · rfl
  · rename_i h
    rw [grammar.firstRHSToProds.get_absent Y h]
    rfl

theorem getProdsFromSecondRHS_withoutTransitive (F : Sym) (grammar : CFGrammar Sym) (Z : Sym) :
    (withoutTransitive F grammar).getProdsFromSecondRHS Z =
      (grammar.getProdsFromSecondRHS Z).filter
        fun p => ¬ (p.lhs = F ∧ Z = F ∧ p.firstRHS = F) := by
  simp only [withoutTransitive, CFGrammar.getProdsFromSecondRHS, get_mapWithKey]
  split
  · rfl
  · rename_i h
    rw [grammar.secondRHSToProds.get_absent Z h]
    rfl

theorem holds_withoutTransitive {grammar : CFGrammar Sym} {prods : List (Production Sym)} (F : Sym)
    (hg : Holds grammar prods) : Holds (withoutTransitive F grammar) (nonTransitive F prods) where
  epsilon X := by simp [nonTransitive, ← hg.epsilon, withoutTransitive]
  single Y p := by
    have hsingle := hg.single Y p
    simpa [nonTransitive, CFGrammar.getProdsFromSingleRHS, withoutTransitive] using hsingle
  first Y p := by
    rw [getProdsFromFirstRHS_withoutTransitive, List.mem_filter, hg.first]
    simp only [nonTransitive, List.mem_filter, decide_eq_true_eq, ne_eq, Production.binary.injEq]
    constructor
    · rintro ⟨⟨rfl, hp⟩, hF⟩
      exact ⟨rfl, hp, hF⟩
    · rintro ⟨rfl, hp, hF⟩
      exact ⟨⟨rfl, hp⟩, hF⟩
  second Z p := by
    rw [getProdsFromSecondRHS_withoutTransitive, List.mem_filter, hg.second]
    simp only [nonTransitive, List.mem_filter, decide_eq_true_eq, ne_eq, Production.binary.injEq]
    constructor
    · rintro ⟨⟨rfl, hp⟩, hF⟩
      exact ⟨rfl, hp, fun h => hF ⟨h.1, h.2.2, h.2.1⟩⟩
    · rintro ⟨rfl, hp, hF⟩
      exact ⟨⟨rfl, hp⟩, fun h => hF ⟨h.1, h.2.2, h.2.1⟩⟩

theorem addArc_toPOCR (F : Sym) (src dst : NodeID) (s : State Sym) :
    (addArc F src dst s).toPOCR = s.toPOCR := by
  unfold addArc
  split <;> rfl

/-- The arcs touch no edge, so a loop over productions does to the edges what
the loop over the other productions does. -/
theorem foldl_toPOCR {ι : Type} (p : ι → Prop) [DecidablePred p] (arc : State Sym → State Sym)
    (harc : ∀ s, (arc s).toPOCR = s.toPOCR) (f : ι → POCR.State Sym → POCR.State Sym) (l : List ι)
    (s : State Sym) :
    (l.foldl (fun s a => if p a then arc s else { s with toPOCR := f a s.toPOCR }) s).toPOCR =
      (l.filter fun a => ¬ p a).foldl (fun s a => f a s) s.toPOCR := by
  induction l generalizing s with
  | nil => rfl
  | cons a l ih =>
      rw [List.foldl_cons, ih]
      by_cases ha : p a
      · simp [ha, harc]
      · simp [ha]

theorem processCFLEdge_toPOCR (grammar : CFGrammar Sym) (F : Sym) (e : CFLEdge Sym) (s : State Sym) :
    (processCFLEdge grammar F e s).toPOCR =
      POCR.processCFLEdge (withoutTransitive F grammar) e s.toPOCR := by
  have hfirst : ∀ s : State Sym, (processFirst grammar F e s).toPOCR =
      POCR.processFirst (withoutTransitive F grammar) e s.toPOCR := by
    intro s
    rw [processFirst, POCR.processFirst, getProdsFromFirstRHS_withoutTransitive]
    exact foldl_toPOCR _ _ (addArc_toPOCR F _ _)
      (fun p : BinaryProd Sym => POCR.addDiffDsts e.src e.dst p.secondRHS p.lhs) _ s
  have hsecond : ∀ s : State Sym, (processSecond grammar F e s).toPOCR =
      POCR.processSecond (withoutTransitive F grammar) e s.toPOCR := by
    intro s
    rw [processSecond, POCR.processSecond, getProdsFromSecondRHS_withoutTransitive]
    exact foldl_toPOCR _ _ (addArc_toPOCR F _ _)
      (fun p : BinaryProd Sym => POCR.addDiffSrcs e.src e.dst p.firstRHS p.lhs) _ s
  rw [processCFLEdge, hsecond, hfirst]
  rfl

theorem step_toPOCR {grammar : CFGrammar Sym} {F : Sym} {s t : State Sym}
    (h : Step grammar F s t) : POCR.Step (withoutTransitive F grammar) s.toPOCR t.toPOCR := by
  obtain ⟨e, he, rfl⟩ := h
  exact ⟨e, he, processCFLEdge_toPOCR grammar F e _⟩

theorem run_toPOCR {grammar : CFGrammar Sym} {F : Sym} {graph : CFLGraph Sym} {s : State Sym}
    (h : ReflTransGen (Step grammar F) (initializeWorklist grammar graph) s) :
    ReflTransGen (POCR.Step (withoutTransitive F grammar))
      (POCR.initializeWorklist (withoutTransitive F grammar) graph) s.toPOCR :=
  ReflTransGen.lift State.toPOCR (fun _ _ => step_toPOCR) _ _ h

theorem processNext_step {grammar : CFGrammar Sym} {F : Sym} {s t : State Sym}
    (h : processNext grammar F s = some t) : Step grammar F s t := by
  obtain ⟨⟨e, u⟩, hpop, rfl⟩ := Option.map_eq_some_iff.mp h
  obtain ⟨he, rfl⟩ := Closure.popFromWorklist_eq_some hpop
  exact ⟨e, he, rfl⟩

theorem solve_run {grammar : CFGrammar Sym} {F : Sym} {fuel : ℕ} {graph : CFLGraph Sym}
    {s : State Sym} (h : solve grammar F fuel graph = some s) :
    ReflTransGen (Step grammar F) (initializeWorklist grammar graph) s ∧
      isWorklistEmpty s.toState = true := by
  obtain ⟨hrun, hend⟩ := whileLoop_run (fun _ _ _ => processNext_step) h
  exact ⟨hrun, by simpa using hend⟩

theorem hasInd_addInd (forest : Forest) (x y u v : NodeID) :
    (forest.addInd_h x y).1.hasInd_h u v = true ↔ forest.hasInd_h u v = true ∨ u = x ∧ v = y := by
  by_cases hx : x ∈ (forest.indMap.get y).keys
  · have hy : y ∈ forest.indMap.keys := by
      by_contra hn
      rw [forest.indMap.get_absent y hn] at hx
      exact absurd hx List.not_mem_nil
    simp only [Forest.addInd_h, hx, if_true, Forest.hasInd_h, Bool.and_eq_true, decide_eq_true_eq]
    constructor
    · exact .inl
    · rintro (h | ⟨rfl, rfl⟩)
      · exact h
      · exact ⟨hy, hx⟩
  · simp only [Forest.addInd_h, hx, if_false, Forest.hasInd_h, Bool.and_eq_true, decide_eq_true_eq,
      mem_keys_modify, get_modify]
    by_cases hv : v = y
    · rw [if_pos hv, hv]
      simp only [mem_keys_set, or_true, true_and, and_true]
      constructor
      · rintro (hu | hu)
        · refine .inl ⟨?_, hu⟩
          by_contra hn
          rw [forest.indMap.get_absent y hn] at hu
          exact absurd hu List.not_mem_nil
        · exact .inr hu
      · rintro (⟨_, hu⟩ | hu)
        · exact .inl hu
        · exact .inr hu
    · simp [hv]

theorem hasInd_initForest (nodes : List NodeID) (u v : NodeID) :
    (initForest nodes).hasInd_h u v = true ↔ u ∈ nodes ∧ u = v := by
  have hfold : ∀ (l : List NodeID) (forest : Forest),
      (l.foldl (fun forest nId => (forest.addInd_h nId nId).1) forest).hasInd_h u v = true ↔
        forest.hasInd_h u v = true ∨ u ∈ l ∧ u = v := by
    intro l
    induction l with
    | nil => simp
    | cons n l ih =>
        intro forest
        rw [List.foldl_cons, ih, hasInd_addInd, List.mem_cons]
        constructor
        · rintro ((h | ⟨rfl, rfl⟩) | ⟨h, rfl⟩)
          · exact .inl h
          · exact .inr ⟨.inl rfl, rfl⟩
          · exact .inr ⟨.inr h, rfl⟩
        · rintro (h | ⟨rfl | h, rfl⟩)
          · exact .inl (.inl h)
          · exact .inl (.inr ⟨rfl, rfl⟩)
          · exact .inr ⟨h, rfl⟩
  have hempty : Forest.empty.hasInd_h u v = false := rfl
  rw [initForest, hfold, hempty]
  simp

/-- Every edge is in the successor map before it is on the worklist, so the
forest is never melded: `addArc` finds the arc it is called with. -/
theorem addArc_of_mem {F : Sym} {src dst : NodeID} {s : State Sym} (hs : POCR.Synced s.toPOCR)
    (he : ⟨src, dst, F⟩ ∈ s.edges) : addArc F src dst s = s := by
  have hsucc : dst ∈ (s.data.succMap.get src).get F := (hs.succ src F dst).mpr he
  rw [addArc, CFLData.hasEdge, if_pos (decide_eq_true hsucc)]

def Keeps (e : CFLEdge Sym) (forest : Forest) (s : State Sym) : Prop :=
  POCR.Synced s.toPOCR ∧ e ∈ s.edges ∧ s.forest = forest

theorem Keeps.adds {e : CFLEdge Sym} {forest : Forest} {s : State Sym} {new : Set (CFLEdge Sym)}
    {t : POCR.State Sym} (h : Keeps e forest s) (ht : POCR.Adds s.toPOCR new t) :
    Keeps e forest { s with toPOCR := t } :=
  ⟨ht.synced, ht.grows.mem h.2.1, h.2.2⟩

theorem Keeps.addArc {F : Sym} {e : CFLEdge Sym} {forest : Forest} {s : State Sym}
    (h : Keeps e forest s) (hF : e.kind = F) : Keeps e forest (addArc F e.src e.dst s) := by
  rw [addArc_of_mem h.1 (hF ▸ h.2.1)]
  exact h

theorem processCFLEdge_keeps (grammar : CFGrammar Sym) (F : Sym) {e : CFLEdge Sym} {forest : Forest}
    {s : State Sym} (h : Keeps e forest s) : Keeps e forest (processCFLEdge grammar F e s) := by
  have hsingle : Keeps e forest (processSingle grammar e s) := by
    obtain ⟨hs, he, hforest⟩ := h
    have hadds := processSingle_addsEach grammar e hs
    exact ⟨hadds.synced, hadds.grows.mem he, hforest⟩
  have hfirst : Keeps e forest (processFirst grammar F e (processSingle grammar e s)) := by
    refine foldl_invariant (fun p _ t ht => ?_) hsingle
    split
    · rename_i hF
      exact ht.addArc hF.2.1
    · exact ht.adds (POCR.addDiffDsts_adds ht.1 _ _ _ _)
  refine foldl_invariant (fun p _ t ht => ?_) hfirst
  split
  · rename_i hF
    exact ht.addArc hF.2.1
  · exact ht.adds (POCR.addDiffSrcs_adds ht.1 _ _ _ _)

theorem run_forest {prods : List (Production Sym)} {F : Sym} {graph : CFLGraph Sym}
    (hgraph : graph.WellFormed) {s : State Sym}
    (h : ReflTransGen (Step (ofProds prods) F) (initializeWorklist (ofProds prods) graph) s) :
    s.forest = initForest graph.nodes := by
  have hg := holds_withoutTransitive F (holds_ofProds prods)
  induction h with
  | refl => rfl
  | @tail t u hrun hstep ih =>
      obtain ⟨e, he, rfl⟩ := hstep
      have hinv := ((saturates hg graph.nodes).settled (sane_initializeWorklist hg hgraph)
        (settled_initializeWorklist hg graph) (run_toPOCR hrun)).1
      have hkeeps : Keeps e t.forest ⟨⟨take e t.toState, t.data⟩, t.forest⟩ :=
        ⟨hinv.2, hinv.1.pending he, rfl⟩
      exact (processCFLEdge_keeps (ofProds prods) F hkeeps).2.2.trans ih

end SVF.CFL.POCRHybrid
