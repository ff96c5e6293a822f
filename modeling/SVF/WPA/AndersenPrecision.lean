import SVF.Graphs.MergeExact
import SVF.Util.InclusionConstraints
import SVF.WPA.DiffPropagation
import SVF.WPA.SteensgaardSolution

namespace SVF.WPA.AndersenPrecision

open Relation Graphs.ConsG Graphs.FieldObjects Graphs.Registration Graphs.Retargeting
open Graphs.Merging Graphs.MergeExact Graphs.ReachableGraphs Util.InclusionConstraints
open MemoryModel.MutablePointsToDS AndersenSolver Andersen SolverInvariant DiffPropagation

def isGep : EdgeClass → Bool
  | .NormalGepCGEdge _ | .VariantGepCGEdge => true
  | _ => false

/-- A constraint graph of address, copy, load and store edges, as it is built. The address of
an object goes to a variable. -/
inductive Built : ConstraintGraph → Prop
  | empty : Built .empty
  | addConstraintNode (g : ConstraintGraph) (id : NodeID) (hg : Built g)
      (hnew : g.hasGNode id = false) : Built (g.addConstraintNode id)
  | addEdge (g g' : ConstraintGraph) (cls : EdgeClass) (src dst : NodeID) (hg : Built g)
      (hgep : isGep cls = false) (haddr : cls = .AddrCGEdge → src ≠ dst)
      (hadd : Graphs.Retargeting.addEdge g cls src dst = some g') : Built g'
  | removeSolitary (g : ConstraintGraph) (id : NodeID) (hg : Built g)
      (hedges : ∀ e ∈ edges g, ¬ Touches id e) : Built (g.removeConstraintNode id)

def constraints (g : ConstraintGraph) : Constraints NodeID where
  addr o p := ⟨o, p, .AddrCGEdge⟩ ∈ edges g
  copy a b := ⟨a, b, .CopyCGEdge⟩ ∈ edges g
  load q y := ∃ svfgid, ⟨q, y, .LoadCGEdge svfgid⟩ ∈ edges g
  store x q := ∃ svfgid, ⟨x, q, .StoreCGEdge svfgid⟩ ∈ edges g

def Direct (g : ConstraintGraph) (a b : NodeID) : Prop :=
  ∃ e ∈ edges g, isDirect e.cls = true ∧ e.src = a ∧ e.dst = b

def InCycle (g : ConstraintGraph) (n m : NodeID) : Prop :=
  ReflTransGen (Direct g) n m ∧ ReflTransGen (Direct g) m n

/-- The states of the solver on a graph, with the nodes that the last SCC detection has found
to be in one SCC. -/
inductive Runs (opts : Options) (alloc : NodeIDAllocator) (g : ConstraintGraph) :
    Andersen → (NodeID → NodeID → Prop) → Prop
  | processAllAddr (s : Andersen) (hcg : s.consCG = g) (hpag : Consistent s.pag)
      (hptD : s.ptD = .empty)
      (haddr : ∀ e ∈ edges g, e.cls = .AddrCGEdge → e.src ∈ s.pag.nodes) :
      Runs opts alloc g s.processAllAddr Eq
  | SCCDetect (s : Andersen) (scc : NodeID → NodeID → Prop) (h : Runs opts alloc g s scc) :
      Runs opts alloc g s (InCycle s.consCG)
  | mergeNodeToRep (s : Andersen) (scc : NodeID → NodeID → Prop) (nodeId newRepId : NodeID)
      (h : Runs opts alloc g s scc) (hscc : scc nodeId newRepId)
      (hnode : s.sccRepNode nodeId = nodeId) (hrep : s.sccRepNode newRepId = newRepId) :
      Runs opts alloc g (s.mergeNodeToRep nodeId newRepId) scc
  | popFromWorklist (s t : Andersen) (scc : NodeID → NodeID → Prop) (id : NodeID)
      (h : Runs opts alloc g s scc) (hpop : s.popFromWorklist = some (id, t)) :
      Runs opts alloc g t scc
  | pushIntoWorklist (s : Andersen) (scc : NodeID → NodeID → Prop) (id : NodeID)
      (h : Runs opts alloc g s scc) : Runs opts alloc g (s.pushIntoWorklist id) scc
  | setReanalyze (s : Andersen) (scc : NodeID → NodeID → Prop) (reanalyze : Bool)
      (h : Runs opts alloc g s scc) : Runs opts alloc g { s with reanalyze := reanalyze } scc
  | collapsePWCNode (s t : Andersen) (scc : NodeID → NodeID → Prop) (fuel : ℕ) (nodeId : NodeID)
      (h : Runs opts alloc g s scc) (hcollapse : s.collapsePWCNode fuel nodeId = some t) :
      Runs opts alloc g t scc
  | processNode (s : Andersen) (scc : NodeID → NodeID → Prop) (nodeId : NodeID)
      (h : Runs opts alloc g s scc) : Runs opts alloc g (s.processNode opts alloc nodeId) scc
  | collapseNextField (s t : Andersen) (scc : NodeID → NodeID → Prop) (fuel : ℕ)
      (h : Runs opts alloc g s scc) (hcollapse : s.collapseNextField fuel = some t) :
      Runs opts alloc g t scc
  | postProcessNode (s : Andersen) (scc : NodeID → NodeID → Prop) (nodeId : NodeID)
      (h : Runs opts alloc g s scc) : Runs opts alloc g (s.postProcessNode nodeId) scc

section

variable {g g' : ConstraintGraph}

def NoPWC (g : ConstraintGraph) : Prop :=
  ∀ id, (g.IDToNodeMap.lookup id).map (·.isPWCNode) ≠ some true

theorem NoPWC.sameNodes (h : NoPWC g) (hsame : SameNodes g g') : NoPWC g' := fun id => by
  rw [hsame.node]
  exact h id

theorem NoPWC.removeConstraintNode (h : NoPWC g) (id : NodeID) :
    NoPWC (g.removeConstraintNode id) := by
  intro j hj
  by_cases hid : j = id
  · subst hid
    rw [ConstraintGraph.removeConstraintNode, AList.lookup_erase] at hj
    contradiction
  · rw [ConstraintGraph.removeConstraintNode, AList.lookup_erase_ne hid] at hj
    exact h j hj

theorem NoPWC.updateNodeRepAndSubs (h : NoPWC g) (nodeId newRepId : NodeID) :
    NoPWC (g.updateNodeRepAndSubs nodeId newRepId) := fun id => h id

theorem NoPWC.isPWCNode (h : NoPWC g) (id : NodeID) : g.isPWCNode id = false := by
  rw [ConstraintGraph.isPWCNode, ConstraintGraph.getConstraintNode]
  have hrep := h (g.sccRepNode id)
  cases hnode : g.IDToNodeMap.lookup (g.sccRepNode id) with
  | none => rfl
  | some node =>
      rw [hnode] at hrep
      cases hpwc : node.isPWCNode with
      | false => simpa using hpwc
      | true => exact absurd (congrArg some hpwc) hrep

structure Fresh (g : ConstraintGraph) : Prop where
  reachable : Graphs.ReachableGraphs.Reachable g
  rep : ∀ id, g.sccRepNode id = id
  collapse : g.nodesToBeCollapsed = []
  pwc : NoPWC g
  gep : ∀ e ∈ edges g, isGep e.cls = false
  addr : ∀ e ∈ edges g, e.cls = .AddrCGEdge → e.src ≠ e.dst

theorem Built.fresh (h : Built g) : Fresh g := by
  induction h with
  | empty =>
      refine ⟨.empty, fun _ => rfl, rfl, fun _ h => ?_, fun e he => ?_, fun e he => ?_⟩
      · simp [ConstraintGraph.empty] at h
      · exact absurd he (Util.OrderedSets.not_mem_empty e)
      · exact absurd he (Util.OrderedSets.not_mem_empty e)
  | addConstraintNode g id _ hnew ih =>
      refine ⟨.addConstraintNode g id ih.reachable (ih.rep id) hnew, ih.rep, ih.collapse, ?_,
        ih.gep, ih.addr⟩
      intro j hj
      by_cases hid : j = id
      · subst hid
        rw [ConstraintGraph.addConstraintNode, AList.lookup_insert] at hj
        contradiction
      · rw [ConstraintGraph.addConstraintNode, AList.lookup_insert_ne hid] at hj
        exact ih.pwc j hj
  | addEdge g g' cls src dst _ hgep haddr hadd ih =>
      obtain ⟨-, hsame, hedges, -⟩ := addEdge_spec ih.reachable.wellFormed hadd
      refine ⟨.addEdge g g' cls src dst ih.reachable hadd, fun id => ?_, ?_,
        ih.pwc.sameNodes hsame, fun e he => ?_, fun e he hcls => ?_⟩
      · rw [hsame.sccRepNode, ih.rep]
      · rw [hsame.collapse, ih.collapse]
      · rcases (hedges e).mp he with he | rfl
        · exact ih.gep e he
        · exact hgep
      · rcases (hedges e).mp he with he | rfl
        · exact ih.addr e he hcls
        · rw [ih.rep, ih.rep]
          exact haddr hcls
  | removeSolitary g id _ hedges ih =>
      exact ⟨.removeSolitary g id ih.reachable hedges, ih.rep, ih.collapse,
        ih.pwc.removeConstraintNode id, ih.gep, ih.addr⟩

theorem nodesToBeCollapsed_mergeNode (g : ConstraintGraph) (node rep : NodeID) :
    (mergeNode g node rep).nodesToBeCollapsed =
      (g.moveEdgesToRepNode node rep).1.nodesToBeCollapsed := by
  rw [mergeNode]
  generalize (g.moveEdgesToRepNode node rep).1 = g'
  rfl

theorem isGep_of_critical {e : ConstraintEdge} (h : critical e = true) : isGep e.cls = true := by
  obtain ⟨src, dst, cls⟩ := e
  cases cls <;> simp [critical, holds, EdgeClass.getEdgeKind, isGep] at h ⊢

end

section

variable {C : Constraints NodeID} {opts : Options} {alloc : NodeIDAllocator} {s t : Andersen}

def Valid (C : Constraints NodeID) (e : ConstraintEdge) : Prop :=
  match e.cls with
  | .AddrCGEdge => PointsTo C e.src e.dst
  | .CopyCGEdge => ∀ x, PointsTo C x e.src → PointsTo C x e.dst
  | .LoadCGEdge _ => ∀ o x, PointsTo C o e.src → PointsTo C x o → PointsTo C x e.dst
  | .StoreCGEdge _ => ∀ o x, PointsTo C o e.dst → PointsTo C x e.src → PointsTo C x o
  | .NormalGepCGEdge _ | .VariantGepCGEdge => False

def Same (C : Constraints NodeID) (n m : NodeID) : Prop := ∀ x, PointsTo C x n ↔ PointsTo C x m

structure Exact (C : Constraints NodeID) (s : Andersen) : Prop where
  pts : ∀ k x, x ∈ s.ptD.getPts k → PointsTo C x k
  rep : ∀ id, Same C (s.sccRepNode id) id
  edges : ∀ e ∈ edges s.consCG, Valid C e
  pwc : NoPWC s.consCG
  collapse : s.consCG.nodesToBeCollapsed = []

theorem Exact.getPts (h : Exact C s) {id x : NodeID} (hx : x ∈ s.getPts id) : PointsTo C x id :=
  (h.rep id x).mp (h.pts _ x hx)

theorem valid_of_isGep {e : ConstraintEdge} (h : isGep e.cls = true) : ¬ Valid C e := by
  obtain ⟨src, dst, cls⟩ := e
  cases cls <;> simp [isGep, Valid] at h ⊢

theorem same_of_inCycle (h : Exact C s) {n m : NodeID} (hscc : InCycle s.consCG n m) :
    Same C n m := by
  have hstep : ∀ a b, ReflTransGen (Direct s.consCG) a b → ∀ x, PointsTo C x a → PointsTo C x b := by
    intro a b hab x hx
    induction hab with
    | refl => exact hx
    | tail _ hdirect ih =>
        obtain ⟨⟨src, dst, cls⟩, he, hcls, rfl, rfl⟩ := hdirect
        have hvalid := h.edges _ he
        cases cls <;> simp [isDirect, holds, EdgeClass.getEdgeKind, Valid] at hcls hvalid
        exact hvalid x ih
  exact fun x => ⟨hstep n m hscc.1 x, hstep m n hscc.2 x⟩

theorem valid_replaceEnds {e : ConstraintEdge} {node rep : NodeID} (h : Valid C e)
    (hsame : Same C node rep) (hdrop : ¬ Dropped node rep e) : Valid C (replaceEnds node rep e) := by
  have hend : ∀ n, Same C n (if n = node then rep else n) := by
    intro n x
    split
    · rename_i hn
      rw [hn]
      exact hsame x
    · exact Iff.rfl
  obtain ⟨src, dst, cls⟩ := e
  cases cls with
  | AddrCGEdge =>
      have htouch : ¬ Touches node ⟨src, dst, .AddrCGEdge⟩ := fun ht => hdrop (.inl ⟨ht, rfl⟩)
      rw [Touches, not_or] at htouch
      rw [replaceEnds, if_neg htouch.1, if_neg htouch.2]
      exact h
  | CopyCGEdge => exact fun x hx => (hend dst x).mp (h x ((hend src x).mpr hx))
  | LoadCGEdge => exact fun o x ho hx => (hend dst x).mp (h o x ((hend src o).mpr ho) hx)
  | StoreCGEdge => exact fun o x ho hx => h o x ((hend dst o).mpr ho) ((hend src x).mpr hx)
  | NormalGepCGEdge => exact h.elim
  | VariantGepCGEdge => exact h.elim

theorem Exact.of_eq (h : Exact C s) (hcg : t.consCG = s.consCG)
    (hpts : ∀ k x, x ∈ t.ptD.getPts k → x ∈ s.ptD.getPts k) : Exact C t where
  pts k x hx := h.pts k x (hpts k x hx)
  rep id := by
    rw [Andersen.sccRepNode, hcg]
    exact h.rep id
  edges := hcg ▸ h.edges
  pwc := hcg ▸ h.pwc
  collapse := hcg ▸ h.collapse

theorem Exact.unionPts (h : Exact C s) {id : NodeID} {target : List NodeID}
    (htarget : ∀ x ∈ target, PointsTo C x id) : Exact C (s.unionPts id target).1 where
  pts k x hx := by
    rcases (mem_getPts_unionPts s id target k x).mp hx with hold | ⟨rfl, hnew⟩
    · exact h.pts k x hold
    · exact (h.rep id x).mpr (htarget x hnew)
  rep := h.rep
  edges := h.edges
  pwc := h.pwc
  collapse := h.collapse

theorem Exact.unionAndPush (h : Exact C s) {dst : NodeID} {pts : List NodeID}
    (hpts : ∀ x ∈ pts, PointsTo C x dst) : Exact C (s.unionAndPush dst pts) := by
  obtain ⟨worklist, heq⟩ := unionAndPush_eq s dst pts
  rw [heq]
  exact (h.unionPts hpts).of_eq rfl fun _ _ hx => hx

structure Copying (C : Constraints NodeID) (n : NodeID) (s : Andersen) : Prop where
  exact' : Exact C s
  diff : ∀ x ∈ s.getDiffPts n, PointsTo C x n

theorem Copying.processCopy {n : NodeID} (h : Copying C n s) {edge : ConstraintEdge}
    (hvalid : Valid C edge) (hcls : edge.cls = .CopyCGEdge) (hsrc : edge.src = n) :
    Copying C n (s.processCopy n edge) := by
  obtain ⟨src, dst, cls⟩ := edge
  subst hcls hsrc
  refine ⟨h.exact'.unionAndPush fun x hx => hvalid x (h.diff x hx), fun x hx => h.diff x ?_⟩
  obtain ⟨worklist, heq⟩ := unionAndPush_eq s dst (s.getDiffPts src)
  rw [Andersen.processCopy, heq] at hx
  exact hx

theorem Exact.handleCopyGep (hs : Sound s) (h : Exact C s) {n : NodeID}
    (hn : s.sccRepNode n = n) : Exact C (s.handleCopyGep opts alloc n) := by
  obtain ⟨hhandle, -, -, -⟩ := computeDiffPts_spec hs hn
  have hdiff : Exact C (s.computeDiffPts n) := h.of_eq rfl fun _ _ hx => hx
  have hstart : Copying C n (s.computeDiffPts n) := by
    refine ⟨hdiff, fun x hx => ?_⟩
    rw [hhandle.getDiffPts] at hx
    exact hdiff.pts n x (hhandle.diff x hx)
  have hlisted : ∀ k, ∀ e ∈ (((s.consCG.IDToNodeMap.lookup n).getD .new).outEdges k).elems,
      e ∈ Graphs.Registration.edges s.consCG ∧ e.src = n ∧ holds k e.cls.getEdgeKind = true := by
    intro k e he
    cases hnode : s.consCG.IDToNodeMap.lookup n with
    | none =>
        rw [hnode] at he
        exact absurd he List.not_mem_nil
    | some node =>
        rw [hnode] at he
        exact (hs.basic.graph.registered.out n node hnode k e).mp he
  have hnogep : (((s.consCG.IDToNodeMap.lookup n).getD .new).outEdges .gep).elems = [] := by
    apply List.eq_nil_iff_forall_not_mem.mpr
    intro e he
    obtain ⟨hmem, -, hkind⟩ := hlisted .gep e he
    refine valid_of_isGep ?_ (h.edges e hmem)
    cases hcls : e.cls <;> simp [hcls, holds, EdgeClass.getEdgeKind, isGep] at hkind ⊢
  have hcopies := Util.Folds.foldl_invariant
    (l := (((s.consCG.IDToNodeMap.lookup n).getD .new).outEdges .copy).elems)
    (f := fun s edge => Andersen.processCopy s n edge) (I := Copying C n) (fun e he t ht => by
      obtain ⟨hmem, hsrc, hkind⟩ := hlisted .copy e he
      refine ht.processCopy (h.edges e hmem) ?_ hsrc
      cases hcls : e.cls <;> simp [hcls, holds, EdgeClass.getEdgeKind] at hkind ⊢) hstart
  rw [Andersen.handleCopyGep]
  simp only [hnogep, List.foldl_nil]
  split
  · exact hdiff
  · exact hcopies.exact'

def Good (C : Constraints NodeID) (s : Andersen) : Prop := Sound s ∧ Exact C s

theorem Good.addCopyEdge (h : Good C s) {src dst : NodeID}
    (hvalid : ∀ x, PointsTo C x src → PointsTo C x dst) : Good C (s.addCopyEdge src dst).1 := by
  refine ⟨(addCopyEdge_keeps s src dst h.1).1, ?_⟩
  rw [Andersen.addCopyEdge]
  split
  · rename_i consCG hadd
    have hcopy : Graphs.Retargeting.addEdge s.consCG .CopyCGEdge src dst = some consCG := hadd
    obtain ⟨-, hsame, hedges, -⟩ := addEdge_spec h.1.basic.graph hcopy
    refine ⟨h.2.pts, fun id => ?_, fun e he => ?_, h.2.pwc.sameNodes hsame,
      hsame.collapse.trans h.2.collapse⟩
    · change Same C (consCG.sccRepNode id) id
      rw [hsame.sccRepNode]
      exact h.2.rep id
    · rcases (hedges e).mp he with he | rfl
      · exact h.2.edges e he
      · exact fun x hx => (h.2.rep dst x).mpr (hvalid x ((h.2.rep src x).mp hx))
  · exact h.2

theorem Good.processLoad (h : Good C s) {o : NodeID} {load : ConstraintEdge} {n : NodeID}
    (hvalid : Valid C load) (hcls : load.cls.getEdgeKind = .Load) (hsrc : Same C load.src n)
    (ho : PointsTo C o n) : Good C (s.processLoad o load).1 := by
  rw [Andersen.processLoad]
  split
  · exact h
  · obtain ⟨src, dst, cls⟩ := load
    cases cls <;> simp [EdgeClass.getEdgeKind] at hcls
    exact h.addCopyEdge fun x hx => hvalid o x ((hsrc o).mpr ho) hx

theorem Good.processStore (h : Good C s) {o : NodeID} {store : ConstraintEdge} {n : NodeID}
    (hvalid : Valid C store) (hcls : store.cls.getEdgeKind = .Store) (hdst : Same C store.dst n)
    (ho : PointsTo C o n) : Good C (s.processStore o store).1 := by
  rw [Andersen.processStore]
  split
  · exact h
  · obtain ⟨src, dst, cls⟩ := store
    cases cls <;> simp [EdgeClass.getEdgeKind] at hcls
    exact h.addCopyEdge fun x hx => hvalid o x ((hdst o).mpr ho) hx

theorem setReanalyze_good {p : Andersen × Bool} (h : Good C p.1) : Good C (setReanalyze p) := by
  obtain ⟨s, _ | _⟩ := p
  · exact h
  · exact ⟨(setReanalyze_keeps (s, true) h.1).1, h.2.of_eq rfl fun _ _ hx => hx⟩

theorem foldl_flag_good {f : Andersen → NodeID → Andersen × Bool} {pts : List NodeID}
    (hf : ∀ o ∈ pts, ∀ t, Good C t → Good C (f t o).1) (p : Andersen × Bool) (h : Good C p.1) :
    Good C (pts.foldl (fun (s, changed) o =>
      let (s, added) := f s o
      (s, changed || added)) p).1 := by
  induction pts generalizing p with
  | nil => exact h
  | cons o pts ih =>
      obtain ⟨ho, hpts⟩ := List.forall_mem_cons.mp hf
      exact ih hpts ((f p.1 o).1, p.2 || (f p.1 o).2) (ho p.1 h)

theorem Good.postProcessNode (h : Good C s) (n : NodeID) : Good C (s.postProcessNode n) := by
  have hsame : Same C (s.sccRepNode n) n := h.2.rep n
  have hreg := h.1.basic.graph.registered
  have hout : ∀ k, ∀ e ∈ (((s.consCG.getConstraintNode n).getD .new).outEdges k).elems,
      Valid C e ∧ e.src = s.sccRepNode n ∧ holds k e.cls.getEdgeKind = true := by
    intro k e he
    cases hnode : s.consCG.getConstraintNode n with
    | none =>
        rw [hnode] at he
        exact absurd he List.not_mem_nil
    | some node =>
        rw [hnode] at he
        obtain ⟨hmem, hend, hkind⟩ := (hreg.out _ node hnode k e).mp he
        exact ⟨h.2.edges e hmem, hend, hkind⟩
  have hinn : ∀ k, ∀ e ∈ (((s.consCG.getConstraintNode n).getD .new).inEdges k).elems,
      Valid C e ∧ e.dst = s.sccRepNode n ∧ holds k e.cls.getEdgeKind = true := by
    intro k e he
    cases hnode : s.consCG.getConstraintNode n with
    | none =>
        rw [hnode] at he
        exact absurd he List.not_mem_nil
    | some node =>
        rw [hnode] at he
        obtain ⟨hmem, hend, hkind⟩ := (hreg.inn _ node hnode k e).mp he
        exact ⟨h.2.edges e hmem, hend, hkind⟩
  rw [Andersen.postProcessNode]
  refine Util.Folds.foldl_invariant (I := Good C) (fun e he t ht => ?_)
    (Util.Folds.foldl_invariant (I := Good C) (fun e he t ht => ?_) h)
  · obtain ⟨hvalid, hend, hkind⟩ := hinn .store e he
    exact setReanalyze_good (foldl_flag_good (fun o ho u hu => hu.processStore hvalid
      (by simpa [holds] using hkind) (hend ▸ hsame) (ht.2.getPts ho)) (t, false) ht)
  · obtain ⟨hvalid, hend, hkind⟩ := hout .load e he
    exact setReanalyze_good (foldl_flag_good (fun o ho u hu => hu.processLoad hvalid
      (by simpa [holds] using hkind) (hend ▸ hsame) (ht.2.getPts ho)) (t, false) ht)

section

variable {nodeId newRepId : NodeID}

/-- Without gep edges a merge never finds a positive weight cycle. -/
theorem mergeSrcToTgt_snd (hs : Sound s) (h : Exact C s) (hnode : s.sccRepNode nodeId = nodeId)
    (hrep : s.sccRepNode newRepId = newRepId) : (s.mergeSrcToTgt nodeId newRepId).2 = false := by
  rw [mergeSrcToTgt]
  split
  · rfl
  · rename_i hpresent
    simp only [not_or, Bool.not_eq_false, ConstraintGraph.hasConstraintNode] at hpresent
    obtain ⟨hne, hnodeMem, hrepMem⟩ := hpresent
    rw [show s.consCG.sccRepNode nodeId = nodeId from hnode] at hnodeMem
    rw [show s.consCG.sccRepNode newRepId = newRepId from hrep] at hrepMem
    have hnode' : ((s.updatePropaPts newRepId nodeId).unionPts newRepId
        ((s.updatePropaPts newRepId nodeId).getPts nodeId)).1.sccRepNode nodeId = nodeId := hnode
    have hrep' : ((s.updatePropaPts newRepId nodeId).unionPts newRepId
        ((s.updatePropaPts newRepId nodeId).getPts nodeId)).1.sccRepNode newRepId = newRepId := hrep
    simp only [hnode', hrep']
    change ((s.consCG.moveEdgesToRepNode nodeId newRepId).2 ||
      (s.consCG.moveEdgesToRepNode nodeId newRepId).1.isPWCNode nodeId) = false
    obtain ⟨-, hsame, -, -⟩ := moveEdgesToRepNode_spec hs.basic.graph hnodeMem hrepMem hne
    rw [(h.pwc.sameNodes hsame).isPWCNode, Bool.or_false]
    cases hpwc : (s.consCG.moveEdgesToRepNode nodeId newRepId).2 with
    | false => rfl
    | true =>
        obtain ⟨e, he, -, hcrit⟩ := critical_of_reported hs.basic.graph hnodeMem hrepMem hne hpwc
        exact absurd (h.edges e he) (valid_of_isGep (isGep_of_critical hcrit))

theorem Exact.mergeSrcToTgt (hs : Sound s) (h : Exact C s) (hnode : s.sccRepNode nodeId = nodeId)
    (hrep : s.sccRepNode newRepId = newRepId) (hsame : Same C nodeId newRepId) :
    Exact C (s.mergeSrcToTgt nodeId newRepId).1 := by
  rw [mergeSrcToTgt_fst hnode hrep]
  split
  · exact h
  · rename_i hpresent
    simp only [not_or, Bool.not_eq_false, ConstraintGraph.hasConstraintNode] at hpresent
    obtain ⟨hne, hnodeMem, hrepMem⟩ := hpresent
    rw [show s.consCG.sccRepNode nodeId = nodeId from hnode] at hnodeMem
    rw [show s.consCG.sccRepNode newRepId = newRepId from hrep] at hrepMem
    have hunites := unionPts_unites hnode hrep
    obtain ⟨-, hnodes, -, -⟩ := moveEdgesToRepNode_spec hs.basic.graph hnodeMem hrepMem hne
    generalize ((s.updatePropaPts newRepId nodeId).unionPts newRepId (s.ptD.getPts nodeId)).1 = t at *
    refine ⟨fun k x hx => ?_, fun id => ?_, fun e he => ?_, ?_, ?_⟩
    · rcases (hunites.pts k x).mp hx with hx | ⟨hk, hx⟩
      · exact h.pts k x hx
      · rw [hk]
        exact (hsame x).mp (h.pts nodeId x hx)
    · change Same C ((mergeNode s.consCG nodeId newRepId).sccRepNode id) id
      rw [sccRepNode_mergeNode hs.basic.graph hnodeMem hrepMem hne]
      split
      · rename_i hid
        intro x
        rw [← hsame x, ← hid]
        exact h.rep id x
      · exact h.rep id
    · rw [edges_mergeNode hs.basic.graph hnodeMem hrepMem hne] at he
      obtain ⟨e', he', hdrop, rfl⟩ := movedEdges_sound he
      exact valid_replaceEnds (h.edges e' he') hsame hdrop
    · rw [mergeNode]
      exact ((h.pwc.sameNodes hnodes).updateNodeRepAndSubs nodeId newRepId).removeConstraintNode nodeId
    · rw [nodesToBeCollapsed_mergeNode, hnodes.collapse]
      exact h.collapse

theorem Good.mergeNodeToRep (h : Good C s) (hnode : s.sccRepNode nodeId = nodeId)
    (hrep : s.sccRepNode newRepId = newRepId) (hsame : Same C nodeId newRepId) :
    Good C (s.mergeNodeToRep nodeId newRepId) := by
  refine ⟨(mergeNodeToRep_keeps hnode hrep h.1).1, ?_⟩
  have hmerge := h.2.mergeSrcToTgt h.1 hnode hrep hsame
  have hpwc := mergeSrcToTgt_snd h.1 h.2 hnode hrep
  rw [Andersen.mergeNodeToRep]
  split
  · rename_i t heq
    rw [heq] at hpwc
    contradiction
  · rename_i t heq
    rw [heq] at hmerge
    exact hmerge

end

theorem processAddr_exact (h : Exact C s) {addr : ConstraintEdge}
    (hvalid : Valid C addr) (hcls : addr.cls = .AddrCGEdge) :
    Exact C (s.processAddr addr) ∧ (s.processAddr addr).consCG = s.consCG := by
  obtain ⟨src, dst, cls⟩ := addr
  subst hcls
  have hadded : Exact C (s.addPts dst src).1 := by
    refine ⟨fun k x hx => ?_, h.rep, h.edges, h.pwc, h.collapse⟩
    rcases (mem_addPts s.ptD.mutPTData dst src k x).mp hx with hx | ⟨hk, hxs⟩
    · exact h.pts k x hx
    · rw [hk, hxs]
      exact hvalid
  rw [processAddr]
  split
  · rename_i t heq
    rw [heq] at hadded
    have hcg : t.consCG = s.consCG := (congrArg (fun p : Andersen × Bool => p.1.consCG) heq).symm
    obtain ⟨worklist, hpush⟩ := pushIntoWorklist_eq t dst
    rw [hpush]
    exact ⟨hadded.of_eq rfl fun _ _ hx => hx, hcg⟩
  · rename_i t heq
    rw [heq] at hadded
    exact ⟨hadded, (congrArg (fun p : Andersen × Bool => p.1.consCG) heq).symm⟩

theorem processAllAddr_exact (hs : WellFormed s.consCG) (h : Exact C s) : Exact C s.processAllAddr := by
  have hlisted : ∀ node ∈ s.consCG.IDToNodeMap.entries, ∀ e ∈ (node.2.inEdges .address).elems,
      Valid C e ∧ e.cls = .AddrCGEdge := by
    intro node hnode e he
    have hlookup := AList.mem_lookup_iff.mpr hnode
    obtain ⟨he, -, hkind⟩ := (hs.registered.inn node.1 node.2 hlookup .address e).mp he
    refine ⟨h.edges e he, ?_⟩
    cases hcls : e.cls <;> simp [hcls, holds, EdgeClass.getEdgeKind] at hkind ⊢
  have hloop := Util.Folds.foldl_invariant (l := s.consCG.IDToNodeMap.entries)
    (f := fun s node => (node.2.inEdges .address).elems.foldl processAddr s)
    (I := fun t => Exact C t ∧ t.consCG = s.consCG) (fun node hnode t ht =>
      Util.Folds.foldl_invariant (I := fun t => Exact C t ∧ t.consCG = s.consCG) (fun e he u hu => by
        obtain ⟨hvalid, hcls⟩ := hlisted node hnode e he
        obtain ⟨hexact, hcg⟩ := processAddr_exact hu.1 hvalid hcls
        exact ⟨hexact, hcg.trans hu.2⟩) ht) ⟨h, rfl⟩
  exact hloop.1

theorem exact_start {g : ConstraintGraph} (hg : Fresh g) (hcg : s.consCG = g)
    (hptD : s.ptD = .empty) : Exact (constraints g) s := by
  refine ⟨fun k x hx => ?_, fun id => ?_, fun e he => ?_, ?_, ?_⟩
  · rw [hptD] at hx
    exact absurd hx List.not_mem_nil
  · rw [Andersen.sccRepNode, hcg, hg.rep]
    exact fun _ => Iff.rfl
  · rw [hcg] at he
    have hgep := hg.gep e he
    obtain ⟨src, dst, cls⟩ := e
    cases cls with
    | AddrCGEdge => exact .addr src dst he
    | CopyCGEdge => exact fun x hx => .copy x src dst he hx
    | LoadCGEdge svfgid => exact fun o x ho hx => .load x o src dst ⟨svfgid, he⟩ ho hx
    | StoreCGEdge svfgid => exact fun o x ho hx => .store x o src dst ⟨svfgid, he⟩ ho hx
    | NormalGepCGEdge => exact absurd hgep Bool.noConfusion
    | VariantGepCGEdge => exact absurd hgep Bool.noConfusion
  · exact hcg ▸ hg.pwc
  · exact hcg ▸ hg.collapse

theorem Good.of_eq (h : Good C s) (hcg : t.consCG = s.consCG) (hpag : t.pag = s.pag)
    (hptD : t.ptD = s.ptD) : Good C t :=
  ⟨(keeps_of_eq hcg hpag hptD h.1).1, h.2.of_eq hcg fun _ _ hx => hptD ▸ hx⟩

theorem Good.collapsePWCNode (h : Good C s) {fuel : ℕ} {nodeId : NodeID}
    (hcollapse : s.collapsePWCNode fuel nodeId = some t) : t = s := by
  rw [Andersen.collapsePWCNode, h.2.pwc.isPWCNode, if_neg Bool.false_ne_true] at hcollapse
  exact (Option.some.inj hcollapse).symm

theorem Good.collapseNextField (h : Good C s) {fuel : ℕ}
    (hcollapse : s.collapseNextField fuel = some t) : t = s := by
  rw [Andersen.collapseNextField, h.2.collapse] at hcollapse
  exact (Option.some.inj hcollapse).symm

theorem Runs.good {g : ConstraintGraph} {scc : NodeID → NodeID → Prop} (hg : Fresh g)
    (h : Runs opts alloc g s scc) :
    Good (constraints g) s ∧ ∀ n m, scc n m → Same (constraints g) n m := by
  induction h with
  | processAllAddr s hcg hpag hptD haddr =>
      have hexact := exact_start hg hcg hptD
      refine ⟨⟨?_, processAllAddr_exact ?_ hexact⟩, ?_⟩
      · have hstart : Reachable opts alloc s.processAllAddr :=
          .start s (hcg ▸ hg.reachable) hpag hptD (hcg ▸ haddr)
        exact hstart.sound
      · exact hcg ▸ hg.reachable.wellFormed
      · rintro n _ rfl
        exact fun _ => Iff.rfl
  | SCCDetect s scc _ ih => exact ⟨ih.1, fun n m hscc => same_of_inCycle ih.1.2 hscc⟩
  | mergeNodeToRep s scc nodeId newRepId _ hscc hnode hrep ih =>
      exact ⟨ih.1.mergeNodeToRep hnode hrep (ih.2 nodeId newRepId hscc), ih.2⟩
  | popFromWorklist s t scc id _ hpop ih =>
      rw [Andersen.popFromWorklist.eq_def] at hpop
      split at hpop
      · contradiction
      · cases hpop
        exact ⟨ih.1.of_eq rfl rfl rfl, ih.2⟩
  | pushIntoWorklist s scc id _ ih =>
      obtain ⟨worklist, hpush⟩ := pushIntoWorklist_eq s id
      rw [hpush]
      exact ⟨ih.1.of_eq rfl rfl rfl, ih.2⟩
  | setReanalyze s scc reanalyze _ ih => exact ⟨ih.1.of_eq rfl rfl rfl, ih.2⟩
  | collapsePWCNode s t scc fuel nodeId _ hcollapse ih =>
      rw [ih.1.collapsePWCNode hcollapse]
      exact ih
  | processNode s scc nodeId _ ih =>
      refine ⟨?_, ih.2⟩
      rw [Andersen.processNode]
      split
      · rename_i hrep
        exact ⟨(handleCopyGep_keeps hrep ih.1.1).1, ih.1.2.handleCopyGep ih.1.1 hrep⟩
      · exact ih.1
  | collapseNextField s t scc fuel _ hcollapse ih =>
      rw [ih.1.collapseNextField hcollapse]
      exact ih
  | postProcessNode s scc nodeId _ ih => exact ⟨ih.1.postProcessNode nodeId, ih.2⟩

theorem Runs.pointsTo {g : ConstraintGraph} {scc : NodeID → NodeID → Prop} (hg : Built g)
    (h : Runs opts alloc g s scc) {o p : NodeID} (ho : o ∈ s.getPts p) :
    PointsTo (constraints g) o p :=
  (h.good hg.fresh).1.2.getPts ho

end

theorem built_copy : Built SteensgaardSolution.sample := by
  have hnodes : Built
      (((ConstraintGraph.empty.addConstraintNode 1).addConstraintNode 2).addConstraintNode 3) := by
    apply Built.addConstraintNode _ 3
    · apply Built.addConstraintNode _ 2
      · exact .addConstraintNode _ 1 .empty rfl
      · rfl
    · rfl
  have haddr := Built.addEdge _ _ .AddrCGEdge 3 1 hnodes rfl (fun _ => by decide) rfl
  exact Built.addEdge _ _ .CopyCGEdge 1 2 haddr rfl (by simp) rfl

def copyObjects : SVFIR where
  nodes := [1, 2, 3]
  gepObjVar _ := none
  GepObjVarMap _ _ := none
  memToFieldsMap b := [b]
  maxFieldOffsetLimit _ := 2
  isConstDataOrConstGlobal _ := false
  isPointer _ := true

def copyStart : Andersen := ⟨copyObjects, SteensgaardSolution.sample, .empty, [], false, []⟩

def copySolved : Andersen := copyStart.processAllAddr.processNode sampleOptions allocateNext 1

theorem runs_copySolved : Runs sampleOptions allocateNext SteensgaardSolution.sample copySolved Eq := by
  have hstart : Runs sampleOptions allocateNext SteensgaardSolution.sample copyStart.processAllAddr Eq := by
    apply Runs.processAllAddr copyStart rfl
    · refine ⟨?_, ?_, ?_, ?_, ?_⟩
      · exact fun _ _ _ h => absurd h (Option.some_ne_none _).symm
      · exact fun _ _ _ h => absurd h (Option.some_ne_none _).symm
      · exact fun _ _ _ h => absurd h (Option.some_ne_none _).symm
      · exact fun _ _ _ h => absurd h (Option.some_ne_none _).symm
      · exact fun b x hx => .inl (List.mem_singleton.mp hx)
    · rfl
    · have hends : ∀ e ∈ edges SteensgaardSolution.sample, e.src ∈ [1, 2, 3] := by
        intro e he
        have hlisted : ∀ k, ∀ e ∈ (SteensgaardSolution.sample.edgeSets k).elems, e.src ∈ [1, 2, 3] := by
          intro k
          cases k <;> decide +kernel
        exact hlisted _ e he
      exact fun e he _ => hends e he
  exact .processNode _ _ 1 hstart

/-- In every state of every run a points-to set is part of the least solution of
the graph, and only nodes with equal sets there have one representative. -/
theorem runs_precise {g : ConstraintGraph} (hg : Built g) {opts : Options}
    {alloc : NodeIDAllocator} {s : Andersen} {scc : NodeID → NodeID → Prop}
    (h : Runs opts alloc g s scc) : (∀ p o, o ∈ s.getPts p → PointsTo (constraints g) o p) ∧
    ∀ n m, s.sccRepNode n = s.sccRepNode m → Same (constraints g) n m := by
  obtain ⟨-, hexact⟩ := (h.good hg.fresh).1
  refine ⟨fun p o ho => hexact.getPts ho, fun n m hrep x => ?_⟩
  rw [← hexact.rep n x, hrep]
  exact hexact.rep m x

theorem runs_precise_copy : PointsTo (constraints SteensgaardSolution.sample) 3 2 :=
  (runs_precise built_copy runs_copySolved).1 2 3 (by decide +kernel)

section

open SteensgaardSolver (Steensgaard Finished start)
open SteensgaardConstraints (ConstraintHolds)
open SteensgaardSolution (SafeStep)

theorem pointsTo_covered {g : ConstraintGraph} {s : Steensgaard}
    (h : ∀ e ∈ edges g, ConstraintHolds s e) {o p : NodeID} (ho : PointsTo (constraints g) o p) :
    o ∈ s.getPts p := by
  induction ho with
  | addr o p he => exact h _ he
  | copy o a b he _ ih => exact h _ he o ih
  | load o o' q y he _ _ ihq iho =>
      obtain ⟨svfgid, he⟩ := he
      exact h _ he o' ihq o iho
  | store o o' x q he _ _ ihq ihx =>
      obtain ⟨svfgid, he⟩ := he
      exact h _ he o' ihq o ihx

/-- Steensgaard's classes, when its solver stops, cover the points-to sets of
every state of every run of Andersen's solver on the graph. -/
theorem runs_in_classes {g : ConstraintGraph} (hg : Built g) {worklist : List NodeID}
    {s : Steensgaard} (hrun : ReflTransGen (SafeStep g) (start g worklist) s) (hend : Finished s)
    {opts : Options} {alloc : NodeIDAllocator} {t : Andersen} {scc : NodeID → NodeID → Prop}
    (ht : Runs opts alloc g t scc) {p o : NodeID} (ho : o ∈ t.getPts p) : o ∈ s.getPts p := by
  have hwf := hg.fresh.reachable.wellFormed
  exact pointsTo_covered ((SteensgaardSolution.inv_run hwf hrun).constraints hwf hend)
    (ht.pointsTo hg ho)

theorem runs_in_classes_copy : ∃ s : Steensgaard, Finished s ∧ 3 ∈ s.getPts 2 := by
  obtain ⟨s, hrun, hend, -⟩ := SteensgaardSolution.sample_run
  exact ⟨s, hend, runs_in_classes built_copy hrun hend runs_copySolved (by decide +kernel)⟩

end

end SVF.WPA.AndersenPrecision
