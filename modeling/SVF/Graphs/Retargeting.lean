import SVF.Graphs.Registration

namespace SVF.Graphs.Retargeting

open ConsG Registration Util.OrderedSets

structure WellFormed (g : ConstraintGraph) : Prop where
  registered : Registered g
  rep : ∀ id, g.hasGNode id = true → g.sccRepNode id = id
  rep_rep : ∀ id, g.sccRepNode (g.sccRepNode id) = g.sccRepNode id
  subs : ∀ id, g.sccRepNode id ≠ id → id ∈ g.nodeToSubsMap (g.sccRepNode id)
  sub_rep : ∀ n id, id ∈ g.nodeToSubsMap n → g.sccRepNode id = n
  noSelfCopy : ∀ e ∈ edges g, e.cls = .CopyCGEdge → e.src ≠ e.dst

theorem WellFormed.of_sameNodes {g g' : ConstraintGraph} (hg : WellFormed g) (h : SameNodes g g')
    (hreg : Registered g') (hcopy : ∀ e ∈ edges g', e.cls = .CopyCGEdge → e.src ≠ e.dst) :
    WellFormed g' where
  registered := hreg
  rep := by
    intro id hid
    rw [h.sccRepNode]
    exact hg.rep id (h.hasGNode id ▸ hid)
  rep_rep := by
    intro id
    rw [h.sccRepNode, h.sccRepNode]
    exact hg.rep_rep id
  subs := by
    intro id hid
    rw [h.sccRepNode] at hid ⊢
    exact h.subs ▸ hg.subs id hid
  sub_rep := by
    intro n id hid
    rw [h.sccRepNode]
    exact hg.sub_rep n id (h.subs ▸ hid)
  noSelfCopy := hcopy

theorem WellFormed.rep_src {g : ConstraintGraph} (hg : WellFormed g) {e : ConstraintEdge}
    (he : e ∈ edges g) : g.sccRepNode e.src = e.src := hg.rep _ (hg.registered.src e he)

theorem WellFormed.rep_dst {g : ConstraintGraph} (hg : WellFormed g) {e : ConstraintEdge}
    (he : e ∈ edges g) : g.sccRepNode e.dst = e.dst := hg.rep _ (hg.registered.dst e he)

variable {g g' : ConstraintGraph}

def addEdge (g : ConstraintGraph) (cls : EdgeClass) (src dst : NodeID) : Option ConstraintGraph :=
  match cls with
  | .AddrCGEdge => g.addAddrCGEdge src dst
  | .CopyCGEdge => g.addCopyCGEdge src dst
  | .StoreCGEdge svfgid => g.addStoreCGEdge src dst svfgid
  | .LoadCGEdge svfgid => g.addLoadCGEdge src dst svfgid
  | .NormalGepCGEdge ap => g.addNormalGepCGEdge src dst ap
  | .VariantGepCGEdge => g.addVariantGepCGEdge src dst

def removeEdge (g : ConstraintGraph) (edge : ConstraintEdge) : ConstraintGraph :=
  match edge.cls with
  | .AddrCGEdge => g.removeAddrEdge edge
  | .StoreCGEdge _ => g.removeStoreEdge edge
  | .LoadCGEdge _ => g.removeLoadEdge edge
  | _ => g.removeDirectEdge edge

theorem addEdge_eq_addCGEdge (g : ConstraintGraph) (cls : EdgeClass) (src dst : NodeID) :
    ∃ addOut addIn sets, Adds addOut addIn sets cls.getEdgeKind ∧
      addEdge g cls src dst =
        if cls = .CopyCGEdge ∧ g.sccRepNode src = g.sccRepNode dst then none
        else g.addCGEdge addOut addIn cls src dst := by
  cases cls with
  | AddrCGEdge => exact ⟨_, _, _, ⟨rfl, rfl, by intro k; cases k <;> simp [holds, EdgeClass.getEdgeKind]⟩, rfl⟩
  | CopyCGEdge =>
      refine ⟨_, _, [.direct, .edges, .copy],
        ⟨rfl, rfl, by intro k; cases k <;> simp [holds, EdgeClass.getEdgeKind]⟩, ?_⟩
      rw [addEdge, ConstraintGraph.addCopyCGEdge]
      simp only [true_and]
      rfl
  | StoreCGEdge => exact ⟨_, _, _, ⟨rfl, rfl, by intro k; cases k <;> simp [holds, EdgeClass.getEdgeKind]⟩, rfl⟩
  | LoadCGEdge => exact ⟨_, _, _, ⟨rfl, rfl, by intro k; cases k <;> simp [holds, EdgeClass.getEdgeKind]⟩, rfl⟩
  | NormalGepCGEdge => exact ⟨_, _, _, ⟨rfl, rfl, by intro k; cases k <;> simp [holds, EdgeClass.getEdgeKind]⟩, rfl⟩
  | VariantGepCGEdge => exact ⟨_, _, _, ⟨rfl, rfl, by intro k; cases k <;> simp [holds, EdgeClass.getEdgeKind]⟩, rfl⟩

theorem addEdge_spec (hg : WellFormed g) {cls : EdgeClass} {src dst : NodeID}
    (h : addEdge g cls src dst = some g') :
    WellFormed g' ∧ SameNodes g g' ∧ (∀ x, x ∈ edges g' ↔
      x ∈ edges g ∨ x = ⟨g.sccRepNode src, g.sccRepNode dst, cls⟩) ∧
      ∀ x ∈ edges g, x.key ≠ edgeKey cls.getEdgeKind (g.sccRepNode src) (g.sccRepNode dst) := by
  obtain ⟨addOut, addIn, sets, hadds, heq⟩ := addEdge_eq_addCGEdge g cls src dst
  rw [heq] at h
  split at h
  · contradiction
  · rename_i hcopy
    obtain ⟨rfl, hsrc, hdst, hnew⟩ := addCGEdge_eq_some hadds h
    have hedges := mem_edges_withEdge sets
      (e := ⟨g.sccRepNode src, g.sccRepNode dst, cls⟩) hnew hg.registered.set
    have hsame := sameNodes_withEdge sets g ⟨g.sccRepNode src, g.sccRepNode dst, cls⟩
    have hreg := registered_withEdge hg.registered
      (e := ⟨g.sccRepNode src, g.sccRepNode dst, cls⟩) hadds.sets hsrc hdst hnew
    refine ⟨hg.of_sameNodes hsame hreg ?_, hsame, hedges, hnew⟩
    intro x hx hcls
    rcases (hedges x).mp hx with hx | rfl
    · exact hg.noSelfCopy x hx hcls
    · exact fun hself => hcopy ⟨hcls, hself⟩

theorem addEdge_eq_none (hg : WellFormed g) {cls : EdgeClass} {src dst : NodeID}
    (h : addEdge g cls src dst = none) (hsrc : g.hasGNode (g.sccRepNode src) = true)
    (hdst : g.hasGNode (g.sccRepNode dst) = true) :
    (cls = .CopyCGEdge ∧ g.sccRepNode src = g.sccRepNode dst) ∨
      ∃ x ∈ edges g, x.key = edgeKey cls.getEdgeKind (g.sccRepNode src) (g.sccRepNode dst) := by
  obtain ⟨addOut, addIn, sets, -, heq⟩ := addEdge_eq_addCGEdge g cls src dst
  rw [heq] at h
  split at h
  · rename_i hcopy
    exact .inl hcopy
  · obtain ⟨x, hx, hkey⟩ := addCGEdge_eq_none h hsrc hdst
    exact .inr ⟨x, (mem_edges g x).mpr (hg.registered.set _ x hx ▸ hx), hkey⟩

theorem removeEdge_spec (hg : WellFormed g) {e : ConstraintEdge} (he : e ∈ edges g) :
    WellFormed (removeEdge g e) ∧ SameNodes g (removeEdge g e) ∧
      ∀ x, x ∈ edges (removeEdge g e) ↔ x ∈ edges g ∧ x ≠ e := by
  have hremove : ∃ sets, removeEdge g e = withoutEdge sets g e ∧
      ∀ k, k ∈ sets ↔ holds k e.cls.getEdgeKind = true := by
    have hsrc := hg.rep_src he
    have hdst := hg.rep_dst he
    obtain ⟨src, dst, cls⟩ := e
    cases cls with
    | AddrCGEdge =>
        refine ⟨[.address, .edges], ?_, by intro k; cases k <;> simp [holds, EdgeClass.getEdgeKind]⟩
        simp only [removeEdge, ConstraintGraph.removeAddrEdge, ConstraintGraph.removeCGEdge, hsrc, hdst]
        rfl
    | CopyCGEdge =>
        refine ⟨[.copy, .direct, .edges], ?_, by intro k; cases k <;> simp [holds, EdgeClass.getEdgeKind]⟩
        simp only [removeEdge, ConstraintGraph.removeDirectEdge, ConstraintGraph.removeCGEdge, hsrc, hdst]
        rfl
    | StoreCGEdge =>
        refine ⟨[.store, .edges], ?_, by intro k; cases k <;> simp [holds, EdgeClass.getEdgeKind]⟩
        simp only [removeEdge, ConstraintGraph.removeStoreEdge, ConstraintGraph.removeCGEdge, hsrc, hdst]
        rfl
    | LoadCGEdge =>
        refine ⟨[.load, .edges], ?_, by intro k; cases k <;> simp [holds, EdgeClass.getEdgeKind]⟩
        simp only [removeEdge, ConstraintGraph.removeLoadEdge, ConstraintGraph.removeCGEdge, hsrc, hdst]
        rfl
    | NormalGepCGEdge =>
        refine ⟨[.gep, .direct, .edges], ?_, by intro k; cases k <;> simp [holds, EdgeClass.getEdgeKind]⟩
        simp only [removeEdge, ConstraintGraph.removeDirectEdge, ConstraintGraph.removeCGEdge, hsrc, hdst]
        rfl
    | VariantGepCGEdge =>
        refine ⟨[.gep, .direct, .edges], ?_, by intro k; cases k <;> simp [holds, EdgeClass.getEdgeKind]⟩
        simp only [removeEdge, ConstraintGraph.removeDirectEdge, ConstraintGraph.removeCGEdge, hsrc, hdst]
        rfl
  obtain ⟨sets, heq, hsets⟩ := hremove
  rw [heq]
  have hedges := mem_edges_withoutEdge sets hg.registered.set he
  have hsame := sameNodes_withoutEdge sets g e
  refine ⟨hg.of_sameNodes hsame (registered_withoutEdge hg.registered he hsets) ?_, hsame, hedges⟩
  exact fun x hx => hg.noSelfCopy x ((hedges x).mp hx).1

theorem removeEdge_moves (hg : WellFormed g) {e : ConstraintEdge} (he : e ∈ edges g) :
    edges (removeEdge g e) = move ConstraintEdge.key (edges g) e none := by
  ext x
  rw [(removeEdge_spec hg he).2.2, move]
  simp

def replaceEdge (g : ConstraintGraph) (e e' : ConstraintEdge) : ConstraintGraph :=
  (addEdge (removeEdge g e) e'.cls e'.src e'.dst).getD (removeEdge g e)

theorem replaceEdge_moves (hg : WellFormed g) {e e' : ConstraintEdge} (he : e ∈ edges g)
    (hsrc : g.hasGNode e'.src = true) (hdst : g.hasGNode e'.dst = true)
    (hcopy : e'.cls = .CopyCGEdge → e'.src ≠ e'.dst) :
    WellFormed (replaceEdge g e e') ∧ SameNodes g (replaceEdge g e e') ∧
      edges (replaceEdge g e e') = move ConstraintEdge.key (edges g) e (some e') := by
  obtain ⟨hg₁, hsame₁, hedges₁⟩ := removeEdge_spec hg he
  rw [← hsame₁.hasGNode] at hsrc hdst
  have hsrc₁ := hg₁.rep _ hsrc
  have hdst₁ := hg₁.rep _ hdst
  cases hadd : addEdge (removeEdge g e) e'.cls e'.src e'.dst with
  | none =>
      have hsame : replaceEdge g e e' = removeEdge g e := by
        rw [replaceEdge, hadd, Option.getD_none]
      rw [hsame]
      refine ⟨hg₁, hsame₁, ?_⟩
      have hclash := addEdge_eq_none hg₁ hadd (by rwa [hsrc₁]) (by rwa [hdst₁])
      rw [hsrc₁, hdst₁] at hclash
      obtain ⟨y, hy, hkey⟩ := hclash.resolve_left fun h => hcopy h.1 h.2
      ext x
      rw [hedges₁]
      refine ⟨.inl, fun hx => hx.resolve_right fun ⟨hx', hfree⟩ => ?_⟩
      cases hx'
      exact hfree y ((hedges₁ y).mp hy).1 ((hedges₁ y).mp hy).2 hkey
  | some g₂ =>
      have hsame : replaceEdge g e e' = g₂ := by rw [replaceEdge, hadd, Option.getD_some]
      rw [hsame]
      obtain ⟨hg₂, hsame₂, hedges₂, hnew⟩ := addEdge_spec hg₁ hadd
      rw [hsrc₁, hdst₁] at hedges₂ hnew
      refine ⟨hg₂, hsame₁.trans hsame₂, ?_⟩
      ext x
      rw [hedges₂, hedges₁]
      refine or_congr_right ⟨fun hx => ⟨hx ▸ rfl, ?_⟩, fun hx => (Option.some.inj hx.1).symm⟩
      intro y hy hye
      exact hx ▸ hnew y ((hedges₁ y).mpr ⟨hy, hye⟩)

theorem reTargetDstOfEdge_eq (g : ConstraintGraph) (e : ConstraintEdge) (newDst : NodeID) :
    g.reTargetDstOfEdge e newDst = if e.cls = .AddrCGEdge then removeEdge g e
      else replaceEdge g e { e with dst := newDst } := by
  obtain ⟨src, dst, cls⟩ := e
  cases cls <;> rfl

theorem reTargetSrcOfEdge_eq (g : ConstraintGraph) (e : ConstraintEdge) (newSrc : NodeID) :
    g.reTargetSrcOfEdge e newSrc = if e.cls = .AddrCGEdge then removeEdge g e
      else replaceEdge g e { e with src := newSrc } := by
  obtain ⟨src, dst, cls⟩ := e
  cases cls <;> rfl

end SVF.Graphs.Retargeting
