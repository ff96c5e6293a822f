import SVF.WPA.SolverInvariant

namespace SVF.WPA.DiffPropagation

open Graphs.ConsG Graphs.FieldObjects Graphs.Registration Graphs.Retargeting Graphs.Merging
open Graphs.ReachableGraphs MemoryModel.MutablePointsToDS AndersenSolver Andersen SolverInvariant

/-- What counts as propagated from a node is in its points-to set, and in the
points-to sets along the copy edges `P`, unless it is gone. -/
structure Propagated (P : ConstraintEdge → Prop) (s : Andersen) : Prop where
  self : ∀ k, ∀ x ∈ s.ptD.getPropaPts k, x ∈ s.ptD.getPts k ∨ Gone s x
  copy : ∀ e ∈ edges s.consCG, e.cls = .CopyCGEdge → P e →
    ∀ x ∈ s.ptD.getPropaPts e.src, x ∈ s.ptD.getPts e.dst ∨ Gone s x

structure Sound (s : Andersen) : Prop where
  basic : Basic s
  propagated : Propagated (fun _ => True) s

variable {opts : Options} {alloc : NodeIDAllocator} {s t u : Andersen}

theorem Propagated.evolve {P Q : ConstraintEdge → Prop} (h : Propagated P s) (hev : Evolves s t)
    (hpropa : ∀ k x, x ∈ t.ptD.getPropaPts k → x ∈ s.ptD.getPropaPts k)
    (hedges : ∀ e ∈ edges t.consCG, e.cls = .CopyCGEdge → Q e → e ∈ edges s.consCG ∧ P e) :
    Propagated Q t := by
  constructor
  · intro k x hx
    exact hev.or_gone (h.self k x (hpropa k x hx))
  · intro e he hcls hQ x hx
    obtain ⟨he, hP⟩ := hedges e he hcls hQ
    exact hev.or_gone (h.copy e he hcls hP x (hpropa e.src x hx))

theorem Propagated.grow {P : ConstraintEdge → Prop} (h : Propagated P s) (hgrows : Grows s t) :
    Propagated P t := by
  refine h.evolve hgrows.evolves (fun k x hx => ?_) fun e he _ hP => ⟨hgrows.edges ▸ he, hP⟩
  rwa [MutableDiffPTData.getPropaPts, hgrows.propa] at hx

/-- A step of the solver keeps the invariant, and only objects that are gone leave
a points-to set. -/
def Keeps (s t : Andersen) : Prop := Sound s → Sound t ∧ Evolves s t

instance : Std.Refl Keeps := ⟨fun s hs => ⟨hs, Evolves.refl s⟩⟩

instance : IsTrans Andersen Keeps where
  trans _ _ _ h h' hs := by
    obtain ⟨ht, hev⟩ := h hs
    obtain ⟨hu, hev'⟩ := h' ht
    exact ⟨hu, hev.trans hev'⟩

theorem keeps_of_eq (hcg : t.consCG = s.consCG) (hpag : t.pag = s.pag) (hptD : t.ptD = s.ptD) :
    Keeps s t := by
  obtain ⟨pag, consCG, ptD, worklist, reanalyze, redundantGepNodes⟩ := s
  obtain ⟨pag', consCG', ptD', worklist', reanalyze', redundantGepNodes'⟩ := t
  subst hcg hpag hptD
  intro hs
  exact ⟨⟨⟨hs.basic.graph, hs.basic.pag, hs.basic.inverse, hs.basic.known⟩,
    ⟨hs.propagated.self, hs.propagated.copy⟩⟩, ⟨fun _ h => h, fun _ _ h => .inl h⟩⟩

structure Handling (n : NodeID) (s : Andersen) : Prop where
  basic : Basic s
  rep : s.sccRepNode n = n
  diff : ∀ x ∈ s.ptD.getDiffPts n, x ∈ s.ptD.getPts n

def Handles (n : NodeID) (s t : Andersen) : Prop := Handling n s → Handling n t ∧ Grows s t

instance (n : NodeID) : Std.Refl (Handles n) := ⟨fun s hs => ⟨hs, Grows.refl s⟩⟩

instance (n : NodeID) : IsTrans Andersen (Handles n) where
  trans _ _ _ h h' hs := by
    obtain ⟨ht, hgrows⟩ := h hs
    obtain ⟨hu, hgrows'⟩ := h' ht
    exact ⟨hu, hgrows.trans hgrows'⟩

theorem Handling.of_grows {n : NodeID} (hs : Handling n s) (ht : Basic t) (h : Grows s t) :
    Handling n t := by
  refine ⟨ht, (h.rep n).trans hs.rep, fun x hx => h.pts n x (hs.diff x ?_)⟩
  rwa [MutableDiffPTData.getDiffPts, h.diff] at hx

theorem Handling.getDiffPts {n : NodeID} (hs : Handling n s) :
    s.getDiffPts n = s.ptD.getDiffPts n := by
  rw [Andersen.getDiffPts, hs.rep]

theorem processCopy_handles (n : NodeID) (edge : ConstraintEdge) (s : Andersen) :
    Handles n s (s.processCopy n edge) := by
  intro hs
  obtain ⟨hbasic, hgrows, -⟩ := unionAndPush_spec hs.basic edge.dst (s.getDiffPts n)
    fun x hx => hs.basic.live (hs.diff x (hs.getDiffPts ▸ hx))
  exact ⟨hs.of_grows hbasic hgrows, hgrows⟩

theorem processCopy_covers {n : NodeID} (hs : Handling n s) (edge : ConstraintEdge) :
    ∀ x ∈ s.ptD.getDiffPts n, x ∈ (s.processCopy n edge).ptD.getPts (s.sccRepNode edge.dst) := by
  obtain ⟨-, -, hmem⟩ := unionAndPush_spec hs.basic edge.dst (s.getDiffPts n)
    fun x hx => hs.basic.live (hs.diff x (hs.getDiffPts ▸ hx))
  intro x hx
  exact hmem x (hs.getDiffPts.symm ▸ hx)

theorem processGep_handles (n : NodeID) (edge : ConstraintEdge) (hsrc : edge.src = n) (s : Andersen) :
    Handles n s (s.processGep opts alloc edge) := by
  intro hs
  have hpts : ∀ x ∈ s.getDiffPts edge.src, x ∈ s.ptD.getPts n := by
    intro x hx
    rw [hsrc, hs.getDiffPts] at hx
    exact hs.diff x hx
  obtain ⟨hbasic, hgrows⟩ := processGepPts_spec opts alloc hs.basic hpts edge
  exact ⟨hs.of_grows hbasic hgrows, hgrows⟩

theorem computeDiffPts_spec (hs : Sound s) {n : NodeID} (hn : s.sccRepNode n = n) :
    Handling n (s.computeDiffPts n) ∧ Propagated (fun e => e.src ≠ n) (s.computeDiffPts n) ∧
      (∀ k, (s.computeDiffPts n).ptD.getPropaPts k =
        if k = n then s.ptD.getPts n else s.ptD.getPropaPts k) ∧
      ∀ x, x ∈ (s.computeDiffPts n).ptD.getDiffPts n ↔
        x ∈ s.ptD.getPts n ∧ x ∉ s.ptD.getPropaPts n := by
  have hpropa : ∀ k, (s.computeDiffPts n).ptD.getPropaPts k =
      if k = n then s.ptD.getPts n else s.ptD.getPropaPts k := by
    intro k
    rw [Andersen.computeDiffPts, hn]
    exact getPropaPts_computeDiffPts s.ptD n _ k
  have hdiff : ∀ x, x ∈ (s.computeDiffPts n).ptD.getDiffPts n ↔
      x ∈ s.ptD.getPts n ∧ x ∉ s.ptD.getPropaPts n := by
    intro x
    rw [Andersen.computeDiffPts, hn]
    exact mem_computeDiffPts_diff s.ptD n _ x
  refine ⟨⟨⟨hs.basic.graph, hs.basic.pag, hs.basic.inverse, hs.basic.known⟩, hn, ?_⟩, ⟨?_, ?_⟩,
    hpropa, hdiff⟩
  · exact fun x hx => ((hdiff x).mp hx).1
  · intro k x hx
    rw [hpropa] at hx
    split at hx
    · rename_i hk
      exact .inl (hk ▸ hx)
    · exact hs.propagated.self k x hx
  · intro e he hcls hne x hx
    rw [hpropa, if_neg hne] at hx
    exact hs.propagated.copy e he hcls trivial x hx

theorem foldl_processCopy_covers {n x : NodeID} {e : ConstraintEdge} (hs : Basic s)
    (hhandle : Handling n (s.computeDiffPts n)) (he : e ∈ edges s.consCG) (hcls : e.cls = .CopyCGEdge)
    (hsrc : e.src = n) (hx : x ∈ (s.computeDiffPts n).ptD.getDiffPts n) :
    x ∈ ((((s.consCG.IDToNodeMap.lookup n).getD .new).outEdges .copy).elems.foldl
      (fun s edge => s.processCopy n edge) (s.computeDiffPts n)).ptD.getPts e.dst := by
  have hlisted : e ∈ (((s.consCG.IDToNodeMap.lookup n).getD .new).outEdges .copy).elems := by
    obtain ⟨node, hnode⟩ := Option.isSome_iff_exists.mp (hs.graph.registered.src e he)
    rw [hsrc] at hnode
    rw [hnode, Option.getD_some]
    exact (hs.graph.registered.out n node hnode .copy e).mpr ⟨he, hsrc, by rw [hcls]; rfl⟩
  have hcover := Util.Folds.foldl_covers (Handles n)
    (Q := fun t => Handling n t ∧ x ∈ t.ptD.getPts e.dst)
    (fun edge _ t => processCopy_handles n edge t)
    (fun t u htu ht => ⟨(htu ht.1).1, (htu ht.1).2.pts e.dst x ht.2⟩) hlisted
    (s := s.computeDiffPts n) fun t ht => by
      obtain ⟨htn, hgrows⟩ := ht hhandle
      have hmem := processCopy_covers htn e x (by rwa [MutableDiffPTData.getDiffPts, hgrows.diff])
      have hdst : t.sccRepNode e.dst = e.dst := (hgrows.rep e.dst).trans (hs.graph.rep_dst he)
      rw [hdst] at hmem
      exact ⟨(processCopy_handles n e t htn).1, hmem⟩
  exact hcover.2

theorem handleCopyGep_keeps {n : NodeID} (hn : s.sccRepNode n = n) :
    Keeps s (s.handleCopyGep opts alloc n) := by
  intro hs
  obtain ⟨hhandle, hothers, hpropa, hdiff⟩ := computeDiffPts_spec hs hn
  have hev : Evolves s (s.computeDiffPts n) := ⟨fun _ h => h, fun _ _ h => .inl h⟩
  rw [handleCopyGep]
  simp only
  split
  · rename_i hempty
    rw [hhandle.getDiffPts, List.isEmpty_iff] at hempty
    refine ⟨⟨hhandle.basic, hothers.self, fun e he hcls _ x hx => ?_⟩, hev⟩
    by_cases hsrc : e.src = n
    · -- nothing is new, so all of the set was propagated before
      rw [hpropa, if_pos hsrc] at hx
      have hold : x ∈ s.ptD.getPropaPts n := by
        by_contra hnew
        have hx := (hdiff x).mpr ⟨hx, hnew⟩
        rw [hempty] at hx
        exact List.not_mem_nil hx
      exact hs.propagated.copy e he hcls trivial x (hsrc ▸ hold)
    · exact hothers.copy e he hcls hsrc x hx
  · have hcopies : ∀ e ∈ ((s.consCG.IDToNodeMap.lookup n).getD .new).outEdges .copy |>.elems,
        ∀ t, Handles n t (t.processCopy n e) := fun e _ t => processCopy_handles n e t
    have hgeps : ∀ e ∈ ((s.consCG.IDToNodeMap.lookup n).getD .new).outEdges .gep |>.elems,
        ∀ t, Handles n t (t.processGep opts alloc e) := by
      intro e he t
      refine processGep_handles n e ?_ t
      cases hnode : s.consCG.IDToNodeMap.lookup n with
      | none =>
          rw [hnode] at he
          exact absurd he List.not_mem_nil
      | some node =>
          rw [hnode, Option.getD_some] at he
          exact ((hs.basic.graph.registered.out n node hnode .gep e).mp he).2.1
    obtain ⟨hhandle₁, hgrows₁⟩ := Util.Folds.foldl_rel (Handles n) hcopies (s.computeDiffPts n) hhandle
    obtain ⟨hhandle₂, hgrows₂⟩ := Util.Folds.foldl_rel (Handles n) hgeps _ hhandle₁
    have hgrows := hgrows₁.trans hgrows₂
    have hothers₂ := hothers.grow hgrows
    refine ⟨⟨hhandle₂.basic, hothers₂.self, fun e he hcls _ x hx => ?_⟩, hev.trans hgrows.evolves⟩
    by_cases hsrc : e.src = n
    · have hold : e ∈ edges s.consCG := hgrows.edges ▸ he
      rw [MutableDiffPTData.getPropaPts, hgrows.propa, hsrc] at hx
      have hx : x ∈ s.ptD.getPts n := by
        have hall := hpropa n
        rw [if_pos rfl] at hall
        exact hall ▸ hx
      by_cases hprop : x ∈ s.ptD.getPropaPts n
      · exact (hev.trans hgrows.evolves).or_gone
          (hs.propagated.copy e hold hcls trivial x (hsrc ▸ hprop))
      · have hnew := (hdiff x).mpr ⟨hx, hprop⟩
        exact .inl (hgrows₂.pts e.dst x (foldl_processCopy_covers hs.basic hhandle hold hcls hsrc hnew))
    · exact hothers₂.copy e he hcls hsrc x hx

theorem addCopyEdge_keeps (s : Andersen) (src dst : NodeID) : Keeps s (s.addCopyEdge src dst).1 := by
  intro hs
  rw [addCopyEdge]
  cases hadd : s.consCG.addCopyCGEdge src dst with
  | none => exact ⟨hs, Evolves.refl s⟩
  | some consCG =>
      have hadd : addEdge s.consCG .CopyCGEdge src dst = some consCG := hadd
      obtain ⟨hg, hsame, hedges, -⟩ := addEdge_spec hs.basic.graph hadd
      have hpropa : ∀ k x, x ∈ (updatePropaPts { s with consCG := consCG } src dst).ptD.getPropaPts k ↔
          x ∈ s.ptD.getPropaPts k ∧
            (k = s.sccRepNode src → x ∈ s.ptD.getPropaPts (s.sccRepNode dst)) := by
        intro k x
        have hmem := mem_updatePropaPtsMap s.ptD (consCG.sccRepNode dst) (consCG.sccRepNode src) k x
        rw [hsame.sccRepNode, hsame.sccRepNode] at hmem
        rw [updatePropaPts, Andersen.sccRepNode, Andersen.sccRepNode, hsame.sccRepNode,
          hsame.sccRepNode]
        exact hmem
      have hev : Evolves s (updatePropaPts { s with consCG := consCG } src dst) :=
        ⟨fun _ h => h, fun _ _ h => .inl h⟩
      refine ⟨⟨⟨hg, hs.basic.pag, hs.basic.inverse, hs.basic.known⟩, ⟨?_, ?_⟩⟩, hev⟩
      · intro k x hx
        exact hs.propagated.self k x ((hpropa k x).mp hx).1
      · intro e he hcls _ x hx
        obtain ⟨hx, hdst⟩ := (hpropa e.src x).mp hx
        rcases (hedges e).mp he with he | rfl
        · exact hs.propagated.copy e he hcls trivial x hx
        · -- only what both ends have propagated still counts as propagated
          exact hs.propagated.self _ x (hdst rfl)

theorem processLoad_keeps (s : Andersen) (node : NodeID) (load : ConstraintEdge) :
    Keeps s (s.processLoad node load).1 := by
  rw [processLoad]
  split
  · exact refl_of Keeps s
  · exact addCopyEdge_keeps s node load.dst

theorem processStore_keeps (s : Andersen) (node : NodeID) (store : ConstraintEdge) :
    Keeps s (s.processStore node store).1 := by
  rw [processStore]
  split
  · exact refl_of Keeps s
  · exact addCopyEdge_keeps s store.src node

theorem setReanalyze_keeps (p : Andersen × Bool) : Keeps p.1 (setReanalyze p) := by
  obtain ⟨s, b⟩ := p
  cases b with
  | false => exact refl_of Keeps s
  | true => exact keeps_of_eq rfl rfl rfl

theorem foldl_flag_keeps {f : Andersen → NodeID → Andersen × Bool}
    (hf : ∀ s o, Keeps s (f s o).1) (l : List NodeID) (p : Andersen × Bool) :
    Keeps p.1 (l.foldl (fun (s, changed) o =>
      let (s, added) := f s o
      (s, changed || added)) p).1 := by
  induction l generalizing p with
  | nil => exact refl_of Keeps p.1
  | cons o l ih => exact trans_of Keeps (hf p.1 o) (ih ((f p.1 o).1, p.2 || (f p.1 o).2))

theorem postProcessNode_keeps (s : Andersen) (nodeId : NodeID) : Keeps s (s.postProcessNode nodeId) := by
  rw [postProcessNode]
  have hload : ∀ edge t, Keeps t (setReanalyze (Andersen.handleLoad t nodeId edge)) := fun edge t =>
    trans_of Keeps (foldl_flag_keeps (fun s o => processLoad_keeps s o edge) (t.getPts nodeId) (t, false))
      (setReanalyze_keeps _)
  have hstore : ∀ edge t, Keeps t (setReanalyze (Andersen.handleStore t nodeId edge)) := fun edge t =>
    trans_of Keeps (foldl_flag_keeps (fun s o => processStore_keeps s o edge) (t.getPts nodeId) (t, false))
      (setReanalyze_keeps _)
  exact trans_of Keeps (Util.Folds.foldl_rel Keeps (fun edge _ t => hload edge t) s)
    (Util.Folds.foldl_rel Keeps (fun edge _ t => hstore edge t) _)

theorem mergeSrcToTgt_fst {nodeId newRepId : NodeID} (hnode : s.sccRepNode nodeId = nodeId)
    (hrep : s.sccRepNode newRepId = newRepId) :
    (s.mergeSrcToTgt nodeId newRepId).1 = if nodeId = newRepId ∨
        s.consCG.hasConstraintNode nodeId = false ∨ s.consCG.hasConstraintNode newRepId = false then s
      else { ((s.updatePropaPts newRepId nodeId).unionPts newRepId (s.ptD.getPts nodeId)).1 with
        consCG := mergeNode s.consCG nodeId newRepId } := by
  rw [mergeSrcToTgt]
  split
  · rfl
  · simp only [Andersen.getPts, Andersen.unionPts, updatePropaPts, Andersen.sccRepNode] at hnode hrep ⊢
    simp only [hnode, hrep]
    rfl

structure Unites (nodeId newRepId : NodeID) (s t : Andersen) : Prop where
  pag : t.pag = s.pag
  pts : ∀ k x, x ∈ t.ptD.getPts k ↔ x ∈ s.ptD.getPts k ∨ k = newRepId ∧ x ∈ s.ptD.getPts nodeId
  propa : ∀ k x, x ∈ t.ptD.getPropaPts k ↔
    x ∈ s.ptD.getPropaPts k ∧ (k = newRepId → x ∈ s.ptD.getPropaPts nodeId)
  inverse : s.ptD.mutPTData.Inverse → t.ptD.mutPTData.Inverse

theorem unionPts_unites {nodeId newRepId : NodeID} (hnode : s.sccRepNode nodeId = nodeId)
    (hrep : s.sccRepNode newRepId = newRepId) : Unites nodeId newRepId s
      ((s.updatePropaPts newRepId nodeId).unionPts newRepId (s.ptD.getPts nodeId)).1 := by
  refine ⟨rfl, fun k x => ?_, fun k x => ?_, fun h => inverse_unionPts h _ _⟩
  · have hmem := mem_getPts_unionPts (s.updatePropaPts newRepId nodeId) newRepId
      (s.ptD.getPts nodeId) k x
    rw [show (s.updatePropaPts newRepId nodeId).sccRepNode newRepId = newRepId from hrep] at hmem
    exact hmem
  · have hmem := mem_updatePropaPtsMap s.ptD (s.sccRepNode nodeId) (s.sccRepNode newRepId) k x
    rw [hnode, hrep] at hmem
    rw [updatePropaPts, hnode, hrep]
    exact hmem

theorem Unites.evolves {nodeId newRepId : NodeID} (h : Unites nodeId newRepId s t) : Evolves s t := by
  have hext : Extends s.pag t.pag := h.pag ▸ Extends.refl s.pag
  refine ⟨gone_of_subset hext fun k x hx => ?_, fun k x hx => .inl ((h.pts k x).mpr (.inl hx))⟩
  exact ((h.pts k x).mp hx).imp_right fun hx => not_gone_of_mem hx.2

/-- The ends of a copy edge may become the representative, which has the points-to
set of both nodes, and the propagated set that they share. -/
theorem Unites.propagated {nodeId newRepId : NodeID} (h : Unites nodeId newRepId s t)
    (hs : Propagated (fun _ => True) s)
    (hedges : ∀ x ∈ edges t.consCG, ∃ e ∈ edges s.consCG, replaceEnds nodeId newRepId e = x) :
    Propagated (fun _ => True) t := by
  have hev := h.evolves
  constructor
  · intro k x hx
    exact hev.or_gone (hs.self k x ((h.propa k x).mp hx).1)
  · intro e' he' hcls _ x hx
    obtain ⟨e, he, rfl⟩ := hedges e' he'
    obtain ⟨hx, hboth⟩ := (h.propa _ x).mp hx
    have hsrc : x ∈ s.ptD.getPropaPts e.src := by
      by_cases hnode : e.src = nodeId
      · rw [hnode]
        exact hboth (if_pos hnode)
      · rwa [replaceEnds, if_neg hnode] at hx
    rcases hs.copy e he hcls trivial x hsrc with hdst | hgone
    · refine .inl ((h.pts _ x).mpr ?_)
      by_cases hnode : e.dst = nodeId
      · exact .inr ⟨if_pos hnode, hnode ▸ hdst⟩
      · rw [replaceEnds, if_neg hnode]
        exact .inl hdst
    · exact .inr (hev.gone x hgone)

theorem mergeSrcToTgt_keeps {nodeId newRepId : NodeID} (hnode : s.sccRepNode nodeId = nodeId)
    (hrep : s.sccRepNode newRepId = newRepId) : Keeps s (s.mergeSrcToTgt nodeId newRepId).1 := by
  intro hs
  rw [mergeSrcToTgt_fst hnode hrep]
  split
  · exact ⟨hs, Evolves.refl s⟩
  · rename_i hpresent
    simp only [not_or, Bool.not_eq_false, ConstraintGraph.hasConstraintNode] at hpresent
    obtain ⟨hne, hnodeMem, hrepMem⟩ := hpresent
    rw [show s.consCG.sccRepNode nodeId = nodeId from hnode] at hnodeMem
    rw [show s.consCG.sccRepNode newRepId = newRepId from hrep] at hrepMem
    have hunites := unionPts_unites hnode hrep
    generalize ((s.updatePropaPts newRepId nodeId).unionPts newRepId (s.ptD.getPts nodeId)).1 = t at *
    have hmerged : Unites nodeId newRepId s { t with consCG := mergeNode s.consCG nodeId newRepId } :=
      ⟨hunites.pag, hunites.pts, hunites.propa, hunites.inverse⟩
    refine ⟨⟨⟨wellFormed_mergeNode hs.basic.graph hnodeMem hrepMem hne, ?_,
      hmerged.inverse hs.basic.inverse, ?_⟩, ?_⟩, hmerged.evolves⟩
    · exact hmerged.pag.symm ▸ hs.basic.pag
    · intro k x hx
      rw [hmerged.pag]
      rcases (hmerged.pts k x).mp hx with hx | ⟨-, hx⟩
      · exact hs.basic.known k x hx
      · exact hs.basic.known nodeId x hx
    · apply hmerged.propagated hs.propagated
      intro x hx
      rw [edges_mergeNode hs.basic.graph hnodeMem hrepMem hne] at hx
      obtain ⟨e, he, -, rfl⟩ := movedEdges_sound hx
      exact ⟨e, he, rfl⟩

theorem setPWCNode_keeps (s : Andersen) (id : NodeID) :
    Keeps s { s with consCG := s.consCG.setPWCNode id } := by
  intro hs
  refine ⟨⟨⟨wellFormed_setPWCNode hs.basic.graph id, hs.basic.pag, hs.basic.inverse,
    hs.basic.known⟩, ⟨hs.propagated.self, fun e he hcls hP x hx => ?_⟩⟩,
    ⟨fun _ h => h, fun _ _ h => .inl h⟩⟩
  exact hs.propagated.copy e (edges_setPWCNode s.consCG id ▸ he) hcls hP x hx

theorem mergeNodeToRep_keeps {nodeId newRepId : NodeID} (hnode : s.sccRepNode nodeId = nodeId)
    (hrep : s.sccRepNode newRepId = newRepId) : Keeps s (s.mergeNodeToRep nodeId newRepId) := by
  have hmerge := mergeSrcToTgt_keeps hnode hrep
  rw [mergeNodeToRep]
  split
  · rename_i t heq
    rw [heq] at hmerge
    exact trans_of Keeps hmerge (setPWCNode_keeps t newRepId)
  · rename_i t heq
    rw [heq] at hmerge
    exact hmerge

theorem mergeSrcToTgt_frame {nodeId newRepId : NodeID} (hs : Basic s)
    (hnode : s.sccRepNode nodeId = nodeId) (hrep : s.sccRepNode newRepId = newRepId) :
    (s.mergeSrcToTgt nodeId newRepId).1.pag = s.pag ∧
      (s.mergeSrcToTgt nodeId newRepId).1.sccRepNode newRepId = newRepId := by
  rw [mergeSrcToTgt_fst hnode hrep]
  split
  · exact ⟨rfl, hrep⟩
  · rename_i hpresent
    simp only [not_or, Bool.not_eq_false, ConstraintGraph.hasConstraintNode] at hpresent
    obtain ⟨hne, hnodeMem, hrepMem⟩ := hpresent
    rw [show s.consCG.sccRepNode nodeId = nodeId from hnode] at hnodeMem
    have hrepId : s.consCG.sccRepNode newRepId = newRepId := hrep
    rw [hrepId] at hrepMem
    refine ⟨rfl, (sccRepNode_mergeNode hs.graph hnodeMem hrepMem hne newRepId).trans ?_⟩
    rw [hrepId, if_neg (Ne.symm hne)]

theorem mergeNodeToRep_frame {nodeId newRepId : NodeID} (hs : Basic s)
    (hnode : s.sccRepNode nodeId = nodeId) (hrep : s.sccRepNode newRepId = newRepId) :
    (s.mergeNodeToRep nodeId newRepId).pag = s.pag ∧
      (s.mergeNodeToRep nodeId newRepId).sccRepNode newRepId = newRepId := by
  have hframe := mergeSrcToTgt_frame hs hnode hrep
  rw [mergeNodeToRep]
  split
  · rename_i t heq
    rw [heq] at hframe
    exact ⟨hframe.1, (sccRepNode_setPWCNode t.consCG newRepId newRepId).trans hframe.2⟩
  · rename_i t heq
    rw [heq] at hframe
    exact hframe

structure Replaces (fieldId baseId : NodeID) (ks : List NodeID) (s t : Andersen) : Prop where
  pag : t.pag = s.pag
  consCG : t.consCG = s.consCG
  propa : t.ptD.propaPtsMap = s.ptD.propaPtsMap
  inverse : s.ptD.mutPTData.Inverse → t.ptD.mutPTData.Inverse
  pts : ∀ k x, x ∈ t.ptD.getPts k ↔
    x ∈ s.ptD.getPts k ∧ (k ∈ ks → x ≠ fieldId) ∨ k ∈ ks ∧ x = baseId

theorem replaces_one (fieldId baseId : NodeID) (s : Andersen) (o : NodeID) :
    Replaces fieldId baseId [o] s
      ((((s.clearPts o fieldId).addPts o baseId).1).pushIntoWorklist o) := by
  obtain ⟨worklist, hpush⟩ := pushIntoWorklist_eq ((s.clearPts o fieldId).addPts o baseId).1 o
  rw [hpush]
  refine ⟨rfl, rfl, rfl, fun h => inverse_addPts (inverse_clearPts h o fieldId) o baseId, ?_⟩
  intro k x
  have hadd := mem_addPts (s.ptD.clearPts o fieldId).mutPTData o baseId k x
  have hclear := mem_clearPts s.ptD.mutPTData o fieldId k x
  rw [List.mem_singleton]
  exact hadd.trans (or_congr_left hclear)

theorem foldl_replaces {fieldId baseId : NodeID} (hne : fieldId ≠ baseId) (ks : List NodeID)
    (s : Andersen) : Replaces fieldId baseId ks s (ks.foldl (fun s o =>
      (((s.clearPts o fieldId).addPts o baseId).1).pushIntoWorklist o) s) := by
  induction ks generalizing s with
  | nil => exact ⟨rfl, rfl, rfl, fun h => h, by simp⟩
  | cons o ks ih =>
      have hone := replaces_one fieldId baseId s o
      have hrest := ih ((((s.clearPts o fieldId).addPts o baseId).1).pushIntoWorklist o)
      refine ⟨hrest.pag.trans hone.pag, hrest.consCG.trans hone.consCG,
        hrest.propa.trans hone.propa, fun h => hrest.inverse (hone.inverse h), fun k x => ?_⟩
      rw [List.foldl_cons, hrest.pts, hone.pts, List.mem_singleton, List.mem_cons]
      constructor
      · rintro (⟨⟨hx, ho⟩ | ⟨rfl, rfl⟩, hks⟩ | ⟨hk, rfl⟩)
        · exact .inl ⟨hx, fun hk => hk.elim ho hks⟩
        · exact .inr ⟨.inl rfl, rfl⟩
        · exact .inr ⟨.inr hk, rfl⟩
      · rintro (⟨hx, hk⟩ | ⟨rfl | hk, rfl⟩)
        · exact .inl ⟨.inl ⟨hx, fun ho => hk (.inl ho)⟩, fun hks => hk (.inr hks)⟩
        · exact .inl ⟨.inr ⟨rfl, rfl⟩, fun _ => hne.symm⟩
        · exact .inr ⟨hk, rfl⟩

/-- The base takes the place of the field everywhere, so the field is gone. -/
theorem Replaces.keeps {fieldId baseId : NodeID} {i : APOffset}
    (h : Replaces fieldId baseId (s.getRevPts fieldId) s t)
    (hfield : s.pag.gepObjVar fieldId = some (baseId, i))
    (hlimit : s.pag.maxFieldOffsetLimit baseId = 0) : Keeps s t := by
  intro hs
  have hrev : ∀ k, k ∈ s.getRevPts fieldId ↔ fieldId ∈ s.ptD.getPts k := fun k =>
    hs.basic.inverse k fieldId
  have hbase := hs.basic.pag.base fieldId baseId i hfield
  have hne : fieldId ≠ baseId := by
    rintro rfl
    rw [hbase] at hfield
    contradiction
  have hext : Extends s.pag t.pag := h.pag ▸ Extends.refl s.pag
  have hfieldGone : Gone t fieldId := by
    refine ⟨⟨baseId, i, h.pag ▸ hfield, h.pag ▸ hlimit⟩, fun k hk => ?_⟩
    rcases (h.pts k fieldId).mp hk with ⟨hk, hnot⟩ | ⟨-, heq⟩
    · exact hnot ((hrev k).mpr hk) rfl
    · exact hne heq
  have hev : Evolves s t := by
    refine ⟨gone_of_subset hext fun k x hx => ?_, fun k x hx => ?_⟩
    · rcases (h.pts k x).mp hx with ⟨hx, -⟩ | ⟨-, rfl⟩
      · exact .inl hx
      · exact .inr (not_gone_of_base hbase)
    · by_cases hx' : x = fieldId
      · exact .inr (hx' ▸ hfieldGone)
      · exact .inl ((h.pts k x).mpr (.inl ⟨hx, fun _ => hx'⟩))
  refine ⟨⟨⟨h.consCG ▸ hs.basic.graph, h.pag ▸ hs.basic.pag, h.inverse hs.basic.inverse, ?_⟩,
    hs.propagated.evolve hev ?_ ?_⟩, hev⟩
  · intro k x hx
    rw [h.pag]
    rcases (h.pts k x).mp hx with ⟨hx, -⟩ | ⟨-, rfl⟩
    · exact hs.basic.known k x hx
    · exact (hs.basic.pag.node fieldId x i hfield).2
  · intro k x hx
    rwa [MutableDiffPTData.getPropaPts, h.propa] at hx
  · exact fun e he _ _ => ⟨h.consCG ▸ he, trivial⟩

structure Collapsing (baseId baseRepNodeId : NodeID) (fields : List NodeID) (s : Andersen) :
    Prop where
  rep : s.sccRepNode baseRepNodeId = baseRepNodeId
  limit : s.pag.maxFieldOffsetLimit baseId = 0
  field : ∀ x ∈ fields, x ≠ baseId → ∃ i, s.pag.gepObjVar x = some (baseId, i)

theorem collapseOneField_keeps {baseId baseRepNodeId fieldId : NodeID} {fields : List NodeID}
    {p : Andersen × Bool} (hp : Sound p.1) (hloop : Collapsing baseId baseRepNodeId fields p.1)
    (hmem : fieldId ∈ fields) :
    Sound (collapseOneField baseId baseRepNodeId p fieldId).1 ∧
      Evolves p.1 (collapseOneField baseId baseRepNodeId p fieldId).1 ∧
      Collapsing baseId baseRepNodeId fields (collapseOneField baseId baseRepNodeId p fieldId).1 := by
  obtain ⟨s, changed⟩ := p
  rw [collapseOneField]
  split
  · exact ⟨hp, Evolves.refl s, hloop⟩
  · rename_i hne
    obtain ⟨i, hfield⟩ := hloop.field fieldId hmem hne
    have hreplaces := foldl_replaces hne (s.getRevPts fieldId) s
    obtain ⟨ht, hev⟩ := hreplaces.keeps hfield hloop.limit hp
    simp only [replaceField]
    generalize (s.getRevPts fieldId).foldl _ s = t at *
    have hrep : t.sccRepNode baseRepNodeId = baseRepNodeId := by
      rw [Andersen.sccRepNode, hreplaces.consCG]
      exact hloop.rep
    have hfieldRep : t.sccRepNode (t.sccRepNode fieldId) = t.sccRepNode fieldId :=
      ht.basic.graph.rep_rep fieldId
    obtain ⟨hpag, hrep'⟩ := mergeNodeToRep_frame ht.basic hfieldRep hrep
    obtain ⟨hu, hev'⟩ := mergeNodeToRep_keeps hfieldRep hrep ht
    generalize t.mergeNodeToRep (t.sccRepNode fieldId) baseRepNodeId = u at *
    have hnodes : ∀ ids, Keeps u { u with redundantGepNodes := ids } := fun _ =>
      keeps_of_eq rfl rfl rfl
    refine ⟨(hnodes _ hu).1, (hev.trans hev').trans (hnodes _ hu).2, ⟨hrep', ?_, ?_⟩⟩
    · exact (hpag.trans hreplaces.pag) ▸ hloop.limit
    · exact (hpag.trans hreplaces.pag) ▸ hloop.field

theorem foldl_collapseOneField_keeps {baseId baseRepNodeId : NodeID} {fields : List NodeID}
    (hs : Sound s) (hloop : Collapsing baseId baseRepNodeId fields s) :
    Sound (fields.foldl (collapseOneField baseId baseRepNodeId) (s, false)).1 ∧
      Evolves s (fields.foldl (collapseOneField baseId baseRepNodeId) (s, false)).1 := by
  have h := Util.Folds.foldl_invariant
    (I := fun p : Andersen × Bool => Sound p.1 ∧ Evolves s p.1 ∧
      Collapsing baseId baseRepNodeId fields p.1)
    (f := collapseOneField baseId baseRepNodeId) (l := fields)
    (fun fieldId hmem p hp => by
      obtain ⟨ht, hev, hloop⟩ := collapseOneField_keeps hp.1 hp.2.2 hmem
      exact ⟨ht, hp.2.1.trans hev, hloop⟩) (s := (s, false)) ⟨hs, Evolves.refl s, hloop⟩
  exact ⟨h.1, h.2.1⟩

theorem collapsePts_keeps {collapse : Andersen → NodeID → Option (Andersen × Bool)}
    (hcollapse : ∀ s o p, collapse s o = some p → Keeps s p.1) {nodeId : NodeID}
    {p : Andersen × Bool} (h : s.collapsePts collapse nodeId = some p) : Keeps s p.1 := by
  rw [collapsePts] at h
  refine Util.Folds.foldlM_rel Keeps Prod.fst (fun o _ q r hr => ?_) h
  obtain ⟨t, changed⟩ := q
  simp only at hr
  split at hr
  · cases hr
    exact refl_of Keeps t
  · obtain ⟨q, hq, rfl⟩ := Option.map_eq_some_iff.mp hr
    exact hcollapse t o q hq

theorem collapseField_keeps {fuel : ℕ} {nodeId : NodeID} {p : Andersen × Bool}
    (h : collapseField fuel s nodeId = some p) : Keeps s p.1 := by
  induction fuel generalizing s nodeId p with
  | zero => contradiction
  | succ fuel ih =>
      intro hs
      rw [collapseField] at h
      split at h
      · cases h
        exact ⟨hs, Evolves.refl s⟩
      · simp only at h
        obtain ⟨hbasic, hgrows⟩ := setObjFieldInsensitive_spec hs.basic nodeId
        have ht : Sound { s with pag := s.pag.setObjFieldInsensitive nodeId } :=
          ⟨hbasic, hs.propagated.grow hgrows⟩
        have hbase := gepObjVar_getBaseObjVar hs.basic.pag nodeId
        have hloop : Collapsing (s.pag.getBaseObjVar nodeId)
            (s.sccRepNode (s.pag.getBaseObjVar nodeId))
            (s.pag.memToFieldsMap (s.pag.getBaseObjVar nodeId))
            { s with pag := s.pag.setObjFieldInsensitive nodeId } := by
          refine ⟨hs.basic.graph.rep_rep _, Function.update_self _ _ _, fun x hx hne => ?_⟩
          exact (hs.basic.pag.ofField _ x hx).resolve_left hne
        have hfields : (s.pag.setObjFieldInsensitive nodeId).getAllFieldsObjVars
            ((s.pag.setObjFieldInsensitive nodeId).getFIObjVar nodeId) =
              s.pag.memToFieldsMap (s.pag.getBaseObjVar nodeId) := by
          change s.pag.memToFieldsMap (s.pag.getBaseObjVar (s.pag.getBaseObjVar nodeId)) = _
          rw [SVFIR.getBaseObjVar, hbase]
        rw [hfields] at h
        obtain ⟨hu, hev⟩ := foldl_collapseOneField_keeps ht hloop
        have hcollapsed := hgrows.evolves.trans hev
        split at h
        · obtain ⟨q, hq, rfl⟩ := Option.map_eq_some_iff.mp h
          obtain ⟨hv, hev'⟩ := collapsePts_keeps (fun _ _ _ hr => ih hr) hq hu
          exact ⟨hv, hcollapsed.trans hev'⟩
        · cases h
          exact ⟨hu, hcollapsed⟩

theorem map_setReanalyze_keeps {r : Option (Andersen × Bool)} (hr : ∀ p, r = some p → Keeps s p.1)
    (h : r.map setReanalyze = some t) : Keeps s t := by
  obtain ⟨p, hp, rfl⟩ := Option.map_eq_some_iff.mp h
  exact trans_of Keeps (hr p hp) (setReanalyze_keeps p)

theorem collapsePWCNode_keeps {fuel : ℕ} {nodeId : NodeID}
    (h : s.collapsePWCNode fuel nodeId = some t) : Keeps s t := by
  rw [collapsePWCNode] at h
  split at h
  · exact map_setReanalyze_keeps
      (fun p hp => collapsePts_keeps (fun _ _ _ hq => collapseField_keeps hq) hp) h
  · cases h
    exact refl_of Keeps s

theorem nodesToBeCollapsed_keeps (s : Andersen) (ids : List NodeID) :
    Keeps s { s with consCG := { s.consCG with nodesToBeCollapsed := ids } } := fun hs =>
  ⟨⟨⟨wellFormed_nodesToBeCollapsed hs.basic.graph ids, hs.basic.pag, hs.basic.inverse,
    hs.basic.known⟩, ⟨hs.propagated.self, hs.propagated.copy⟩⟩,
    ⟨fun _ h => h, fun _ _ h => .inl h⟩⟩

theorem collapseNextField_keeps {fuel : ℕ} (h : s.collapseNextField fuel = some t) : Keeps s t := by
  rw [collapseNextField] at h
  split at h
  · cases h
    exact refl_of Keeps s
  · rename_i rest _
    exact trans_of Keeps (nodesToBeCollapsed_keeps s rest)
      (map_setReanalyze_keeps (fun p hp => collapseField_keeps hp) h)

structure Unpropagated (s : Andersen) : Prop where
  basic : Basic s
  propa : ∀ k, s.ptD.getPropaPts k = []

theorem Unpropagated.sound (h : Unpropagated s) : Sound s := by
  have hnone : ∀ k x, x ∉ s.ptD.getPropaPts k := fun k x hx => List.not_mem_nil (h.propa k ▸ hx)
  exact ⟨h.basic, fun k x hx => absurd hx (hnone k x), fun e _ _ _ x hx => absurd hx (hnone e.src x)⟩

theorem processAddr_unpropagated (hs : Unpropagated s) {addr : ConstraintEdge}
    (hsrc : addr.src ∈ s.pag.nodes) : Unpropagated (s.processAddr addr) := by
  have hadded : Unpropagated (s.addPts addr.dst addr.src).1 := by
    refine ⟨⟨hs.basic.graph, hs.basic.pag, inverse_addPts hs.basic.inverse _ _, ?_⟩, hs.propa⟩
    intro k x hx
    rcases (mem_addPts s.ptD.mutPTData addr.dst addr.src k x).mp hx with hx | ⟨-, rfl⟩
    · exact hs.basic.known k x hx
    · exact hsrc
  rw [processAddr]
  split
  · rename_i t heq
    rw [heq] at hadded
    obtain ⟨worklist, hpush⟩ := pushIntoWorklist_eq t addr.dst
    rw [hpush]
    exact ⟨⟨hadded.basic.graph, hadded.basic.pag, hadded.basic.inverse, hadded.basic.known⟩,
      hadded.propa⟩
  · rename_i t heq
    rw [heq] at hadded
    exact hadded

theorem processAddr_pag (s : Andersen) (addr : ConstraintEdge) : (s.processAddr addr).pag = s.pag := by
  rw [processAddr]
  split
  · rename_i t heq
    obtain ⟨worklist, hpush⟩ := pushIntoWorklist_eq t addr.dst
    rw [hpush]
    exact (congrArg (fun p : Andersen × Bool => p.1.pag) heq).symm
  · rename_i t heq
    exact (congrArg (fun p : Andersen × Bool => p.1.pag) heq).symm

theorem processAllAddr_unpropagated (hs : Unpropagated s)
    (haddr : ∀ e ∈ edges s.consCG, e.cls = .AddrCGEdge → e.src ∈ s.pag.nodes) :
    Unpropagated s.processAllAddr := by
  have hlisted : ∀ node ∈ s.consCG.IDToNodeMap.entries, ∀ e ∈ (node.2.inEdges .address).elems,
      e.src ∈ s.pag.nodes := by
    intro node hnode e he
    have hlookup := AList.mem_lookup_iff.mpr hnode
    obtain ⟨he, -, hkind⟩ := (hs.basic.graph.registered.inn node.1 node.2 hlookup .address e).mp he
    refine haddr e he ((getEdgeKind_eq_Addr e.cls).mp ?_)
    cases hk : e.cls.getEdgeKind with
    | Addr => rfl
    | Copy | Store | Load | NormalGep | VariantGep => rw [hk] at hkind; contradiction
  have hloop := Util.Folds.foldl_invariant (l := s.consCG.IDToNodeMap.entries)
    (f := fun s node => (node.2.inEdges .address).elems.foldl processAddr s)
    (I := fun t => Unpropagated t ∧ t.pag = s.pag) (fun node hnode t ht =>
      Util.Folds.foldl_invariant (I := fun t => Unpropagated t ∧ t.pag = s.pag) (fun e he u hu =>
        ⟨processAddr_unpropagated hu.1 (hu.2 ▸ hlisted node hnode e he),
          (processAddr_pag u e).trans hu.2⟩) ht) ⟨hs, rfl⟩
  exact hloop.1

theorem addHeapDummyNodes_keeps {valNode objNode : NodeID} (hobj : objNode ∉ s.pag.nodes) (hne : objNode ≠ valNode)
    (hvalRep : s.sccRepNode valNode = valNode) (hobjRep : s.sccRepNode objNode = objNode)
    (hvalNew : s.consCG.hasGNode valNode = false) (hobjNew : s.consCG.hasGNode objNode = false) :
    Keeps s (s.addHeapDummyNodes valNode objNode) := by
  intro hs
  have hpts : ∀ k x, x ∈ (s.addHeapDummyNodes valNode objNode).ptD.getPts k ↔
      x ∈ s.ptD.getPts k ∨ k = valNode ∧ x = objNode := mem_addPts s.ptD.mutPTData valNode objNode
  have hext : Extends s.pag (s.addHeapDummyNodes valNode objNode).pag :=
    ⟨fun _ _ h => h, fun _ h => h, fun x hx => List.mem_cons_of_mem _ (List.mem_cons_of_mem _ hx)⟩
  have hbase : s.pag.gepObjVar objNode = none := by
    cases hgep : s.pag.gepObjVar objNode with
    | none => rfl
    | some p => exact absurd (hs.basic.pag.node objNode p.1 p.2 hgep).1 hobj
  have hev : Evolves s (s.addHeapDummyNodes valNode objNode) := by
    refine ⟨gone_of_subset hext fun k x hx => ?_, fun k x hx => .inl ((hpts k x).mpr (.inl hx))⟩
    rcases (hpts k x).mp hx with hx | ⟨-, rfl⟩
    · exact .inl hx
    · exact .inr (not_gone_of_base hbase)
  refine ⟨⟨⟨?_, ?_, inverse_addPts hs.basic.inverse _ _, ?_⟩,
    hs.propagated.evolve hev (fun _ _ hx => hx) fun e he _ _ => ⟨he, trivial⟩⟩, hev⟩
  · refine wellFormed_addConstraintNode
      (wellFormed_addConstraintNode hs.basic.graph hvalRep hvalNew) hobjRep ?_
    rw [ConstraintGraph.hasGNode, ConstraintGraph.addConstraintNode, AList.lookup_insert_ne hne]
    exact hobjNew
  · refine ⟨fun x b i hx => ?_, hs.basic.pag.base, hs.basic.pag.field, hs.basic.pag.gep,
      hs.basic.pag.ofField⟩
    obtain ⟨hx, hb⟩ := hs.basic.pag.node x b i hx
    exact ⟨hext.nodes x hx, hext.nodes b hb⟩
  · intro k x hx
    rcases (hpts k x).mp hx with hx | ⟨-, rfl⟩
    · exact hext.nodes x (hs.basic.known k x hx)
    · exact List.mem_cons_self

inductive Step (opts : Options) (alloc : NodeIDAllocator) : Andersen → Andersen → Prop
  | popFromWorklist (s t : Andersen) (id : NodeID) (h : s.popFromWorklist = some (id, t)) :
      Step opts alloc s t
  | pushIntoWorklist (s : Andersen) (id : NodeID) : Step opts alloc s (s.pushIntoWorklist id)
  | setReanalyze (s : Andersen) (reanalyze : Bool) :
      Step opts alloc s { s with reanalyze := reanalyze }
  | processNode (s : Andersen) (nodeId : NodeID) : Step opts alloc s (s.processNode opts alloc nodeId)
  | postProcessNode (s : Andersen) (nodeId : NodeID) : Step opts alloc s (s.postProcessNode nodeId)
  | addCopyEdge (s : Andersen) (src dst : NodeID) : Step opts alloc s (s.addCopyEdge src dst).1
  | mergeNodeToRep (s : Andersen) (nodeId newRepId : NodeID) (hnode : s.sccRepNode nodeId = nodeId)
      (hrep : s.sccRepNode newRepId = newRepId) : Step opts alloc s (s.mergeNodeToRep nodeId newRepId)
  | collapsePWCNode (s t : Andersen) (fuel : ℕ) (nodeId : NodeID)
      (h : s.collapsePWCNode fuel nodeId = some t) : Step opts alloc s t
  | collapseNextField (s t : Andersen) (fuel : ℕ) (h : s.collapseNextField fuel = some t) :
      Step opts alloc s t
  | addHeapDummyNodes (s : Andersen) (valNode objNode : NodeID) (hval : valNode ∉ s.pag.nodes)
      (hobj : objNode ∉ s.pag.nodes) (hne : objNode ≠ valNode)
      (hvalRep : s.sccRepNode valNode = valNode) (hobjRep : s.sccRepNode objNode = objNode)
      (hvalNew : s.consCG.hasGNode valNode = false) (hobjNew : s.consCG.hasGNode objNode = false) :
      Step opts alloc s (s.addHeapDummyNodes valNode objNode)

inductive Reachable (opts : Options) (alloc : NodeIDAllocator) : Andersen → Prop
  | start (s : Andersen) (hcg : Graphs.ReachableGraphs.Reachable s.consCG)
      (hpag : Consistent s.pag) (hptD : s.ptD = .empty)
      (haddr : ∀ e ∈ edges s.consCG, e.cls = .AddrCGEdge → e.src ∈ s.pag.nodes) :
      Reachable opts alloc s.processAllAddr
  | step (s t : Andersen) (hs : Reachable opts alloc s) (h : Step opts alloc s t) :
      Reachable opts alloc t

theorem Step.keeps (h : Step opts alloc s t) : Keeps s t := by
  cases h with
  | popFromWorklist _ id h =>
      rw [Andersen.popFromWorklist.eq_def] at h
      split at h
      · contradiction
      · cases h
        exact keeps_of_eq rfl rfl rfl
  | pushIntoWorklist id =>
      obtain ⟨worklist, hpush⟩ := pushIntoWorklist_eq s id
      rw [hpush]
      exact keeps_of_eq rfl rfl rfl
  | setReanalyze => exact keeps_of_eq rfl rfl rfl
  | processNode nodeId =>
      rw [Andersen.processNode]
      split
      · rename_i hrep
        exact handleCopyGep_keeps hrep
      · exact refl_of Keeps s
  | postProcessNode nodeId => exact postProcessNode_keeps s nodeId
  | addCopyEdge src dst => exact addCopyEdge_keeps s src dst
  | mergeNodeToRep nodeId newRepId hnode hrep => exact mergeNodeToRep_keeps hnode hrep
  | collapsePWCNode _ fuel nodeId h => exact collapsePWCNode_keeps h
  | collapseNextField _ fuel h => exact collapseNextField_keeps h
  | addHeapDummyNodes valNode objNode _ hobj hne hvalRep hobjRep hvalNew hobjNew =>
      exact addHeapDummyNodes_keeps hobj hne hvalRep hobjRep hvalNew hobjNew

theorem Reachable.sound (h : Reachable opts alloc s) : Sound s := by
  induction h with
  | start s hcg hpag hptD haddr =>
      have hstart : Unpropagated s := by
        refine ⟨⟨hcg.wellFormed, hpag, ?_, ?_⟩, fun k => ?_⟩
        · rw [hptD]
          exact inverse_empty
        · intro k x hx
          rw [hptD] at hx
          exact absurd hx List.not_mem_nil
        · rw [hptD]
          rfl
      exact (processAllAddr_unpropagated hstart haddr).sound
  | step s t _ h ih => exact (h.keeps ih).1

theorem evolves_of_steps (hs : Sound s) (h : Relation.ReflTransGen (Step opts alloc) s t) :
    Evolves s t := by
  induction h using Relation.ReflTransGen.head_induction_on with
  | refl => exact Evolves.refl t
  | head hstep _ ih =>
      obtain ⟨hu, hev⟩ := hstep.keeps hs
      exact hev.trans (ih hu)

theorem reachable_propagated (h : Reachable opts alloc s) :
    (∀ a, ∀ x ∈ s.ptD.getPropaPts a, x ∈ s.ptD.getPts a ∨ Gone s x) ∧
      (∀ e ∈ edges s.consCG, e.cls = .CopyCGEdge →
        (∀ x ∈ s.ptD.getPropaPts e.src, x ∈ s.ptD.getPts e.dst ∨ Gone s x) ∧
        ∀ x ∈ s.getPts e.src, x ∉ s.getPts e.dst →
          x ∈ (s.computeDiffPts e.src).getDiffPts e.src) ∧
      ∀ t, Relation.ReflTransGen (Step opts alloc) s t → ∀ x, Gone s x → Gone t x := by
  have hs := h.sound
  refine ⟨hs.propagated.self, fun e he hcls => ?_, fun t ht x => (evolves_of_steps hs ht).gone x⟩
  have hcopy := hs.propagated.copy e he hcls trivial
  have hsrc : s.sccRepNode e.src = e.src := hs.basic.graph.rep_src he
  have hdst : s.sccRepNode e.dst = e.dst := hs.basic.graph.rep_dst he
  obtain ⟨hhandle, -, -, hdiff⟩ := computeDiffPts_spec hs hsrc
  refine ⟨hcopy, fun x hx hnot => ?_⟩
  rw [Andersen.getPts, hsrc] at hx
  rw [Andersen.getPts, hdst] at hnot
  rw [hhandle.getDiffPts, hdiff]
  refine ⟨hx, fun hpropa => ?_⟩
  rcases hcopy x hpropa with hmem | hgone
  · exact hnot hmem
  · exact hgone.2 e.src hx

def sampleOptions : Options := ⟨512, true, false⟩

/-- `p = &o` and `v = &o`, `q = &p->f`, `r = q`, and a variant gep from `v`. -/
def sampleGraph : ConstraintGraph :=
  let g := [4, 5, 6, 7, 8, 9].foldl ConstraintGraph.addConstraintNode .empty
  let g := (g.addAddrCGEdge 4 5).getD g
  let g := (g.addAddrCGEdge 4 8).getD g
  let g := (g.addNormalGepCGEdge 5 6 ⟨1⟩).getD g
  let g := (g.addCopyCGEdge 6 7).getD g
  (g.addVariantGepCGEdge 8 9).getD g

def sampleObjects : SVFIR where
  nodes := [4, 5, 6, 7, 8, 9]
  gepObjVar _ := none
  GepObjVarMap _ _ := none
  memToFieldsMap b := [b]
  maxFieldOffsetLimit _ := 2
  isConstDataOrConstGlobal _ := false
  isPointer _ := true

def sampleStart : Andersen := ⟨sampleObjects, sampleGraph, .empty, [], false, []⟩

def sampleProcessed : Andersen :=
  let s := sampleStart.processAllAddr
  let s := s.processNode sampleOptions allocateNext 5
  let s := s.processNode sampleOptions allocateNext 6
  s.processNode sampleOptions allocateNext 8

def sampleCollapsed : Andersen := (sampleProcessed.collapseNextField 1).getD sampleProcessed

theorem reachable_sampleNodes : Graphs.ReachableGraphs.Reachable
    ([4, 5, 6, 7, 8, 9].foldl ConstraintGraph.addConstraintNode .empty) := by
  apply Graphs.ReachableGraphs.Reachable.addConstraintNode _ 9
  · apply Graphs.ReachableGraphs.Reachable.addConstraintNode _ 8
    · apply Graphs.ReachableGraphs.Reachable.addConstraintNode _ 7
      · apply Graphs.ReachableGraphs.Reachable.addConstraintNode _ 6
        · apply Graphs.ReachableGraphs.Reachable.addConstraintNode _ 5
          · exact .addConstraintNode _ 4 .empty rfl rfl
          · rfl
          · rfl
        · rfl
        · rfl
      · rfl
      · rfl
    · rfl
    · rfl
  · rfl
  · rfl

theorem sampleObjects_consistent : Consistent sampleObjects := by
  refine ⟨?_, ?_, ?_, ?_, ?_⟩
  · exact fun _ _ _ h => absurd h (Option.some_ne_none _).symm
  · exact fun _ _ _ h => absurd h (Option.some_ne_none _).symm
  · exact fun _ _ _ h => absurd h (Option.some_ne_none _).symm
  · exact fun _ _ _ h => absurd h (Option.some_ne_none _).symm
  · exact fun b x hx => .inl (List.mem_singleton.mp hx)

theorem reachable_sampleGraph : Graphs.ReachableGraphs.Reachable sampleGraph := by
  have haddr := Graphs.ReachableGraphs.Reachable.addEdge _ _ .AddrCGEdge 4 5 reachable_sampleNodes rfl
  have haddr' := Graphs.ReachableGraphs.Reachable.addEdge _ _ .AddrCGEdge 4 8 haddr rfl
  have hgep := Graphs.ReachableGraphs.Reachable.addEdge _ _ (.NormalGepCGEdge ⟨1⟩) 5 6 haddr' rfl
  have hcopy := Graphs.ReachableGraphs.Reachable.addEdge _ _ .CopyCGEdge 6 7 hgep rfl
  exact Graphs.ReachableGraphs.Reachable.addEdge _ _ .VariantGepCGEdge 8 9 hcopy rfl

theorem addr_src_mem {g : ConstraintGraph} {srcs nodes : List NodeID}
    (hsrcs : (g.edgeSets .AddrCGEdgeSet).elems.map ConstraintEdge.src = srcs) (hnodes : srcs ⊆ nodes) :
    ∀ e ∈ edges g, e.cls = .AddrCGEdge → e.src ∈ nodes := by
  intro e he hcls
  rw [mem_edges, hcls] at he
  exact hnodes (hsrcs ▸ List.mem_map_of_mem he)

theorem reachable_sampleCollapsed : Reachable sampleOptions allocateNext sampleCollapsed := by
  have hstart : Reachable sampleOptions allocateNext sampleStart.processAllAddr := by
    apply Reachable.start sampleStart reachable_sampleGraph
    · exact sampleObjects_consistent
    · rfl
    · have hsrcs : (sampleGraph.edgeSets .AddrCGEdgeSet).elems.map ConstraintEdge.src = [4, 4] := by
        decide +kernel
      exact addr_src_mem hsrcs (by decide)
  have hprocessed : Reachable sampleOptions allocateNext sampleProcessed :=
    .step _ _ (.step _ _ (.step _ _ hstart (.processNode _ 5)) (.processNode _ 6)) (.processNode _ 8)
  have hsome : (sampleProcessed.collapseNextField 1).isSome = true := by decide +kernel
  obtain ⟨t, ht⟩ := Option.isSome_iff_exists.mp hsome
  rw [sampleCollapsed, ht]
  exact .step _ _ hprocessed (.collapseNextField _ _ 1 ht)

theorem reachable_propagated_sample : Reachable sampleOptions allocateNext sampleCollapsed ∧
    ∀ x ∈ sampleCollapsed.ptD.getPropaPts 6, x ∈ sampleCollapsed.ptD.getPts 6 ∨ Gone sampleCollapsed x :=
  ⟨reachable_sampleCollapsed, (reachable_propagated reachable_sampleCollapsed).1 6⟩

/-- The field of `o` still counts as propagated from `q`, and is in neither set. -/
theorem reachable_not_propagated : Reachable sampleOptions allocateNext sampleCollapsed ∧
    ∃ e ∈ edges sampleCollapsed.consCG, e.cls = .CopyCGEdge ∧
      ∃ x ∈ sampleCollapsed.ptD.getPropaPts e.src,
        x ∉ sampleCollapsed.ptD.getPts e.src ∧ x ∉ sampleCollapsed.ptD.getPts e.dst := by
  refine ⟨reachable_sampleCollapsed, ⟨6, 7, .CopyCGEdge⟩, ?_, rfl, 10, ?_, ?_, ?_⟩
  · have hmem : ⟨6, 7, .CopyCGEdge⟩ ∈ (sampleCollapsed.consCG.edgeSets .directEdgeSet).elems := by
      decide +kernel
    exact (mem_edges _ _).mpr hmem
  · decide +kernel
  · decide +kernel
  · decide +kernel

end SVF.WPA.DiffPropagation
