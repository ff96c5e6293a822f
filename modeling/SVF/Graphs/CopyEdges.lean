import SVF.Graphs.FlowSensitiveConsG
import SVF.Graphs.ReachableGraphs
import SVF.Util.Folds

namespace SVF.Graphs.CopyEdges

open ConsG Registration Retargeting ReachableGraphs FlowSensitiveConsG Util.OrderedSets

variable {g g' g'' : ConstraintGraph} {new : Set (NodeID × NodeID)}

def copyEdges (g : ConstraintGraph) : Set (NodeID × NodeID) :=
  {p | (⟨p.1, p.2, .CopyCGEdge⟩ : ConstraintEdge) ∈ edges g}

instance (g : ConstraintGraph) (p : NodeID × NodeID) : Decidable (p ∈ copyEdges g) :=
  inferInstanceAs (Decidable ((⟨p.1, p.2, .CopyCGEdge⟩ : ConstraintEdge) ∈ edges g))

structure Unmerged (g : ConstraintGraph) : Prop where
  wellFormed : WellFormed g
  rep : g.nodeToRepMap = fun _ => none

theorem Unmerged.sccRepNode (hg : Unmerged g) (id : NodeID) : g.sccRepNode id = id := by
  rw [ConstraintGraph.sccRepNode, hg.rep]
  rfl

theorem Unmerged.hasConstraintNode (hg : Unmerged g) (id : NodeID) :
    g.hasConstraintNode id = g.hasGNode id := by
  rw [ConstraintGraph.hasConstraintNode, hg.sccRepNode]

theorem Unmerged.of_sameNodes (hg : Unmerged g) (hg' : WellFormed g') (h : SameNodes g g') :
    Unmerged g' := ⟨hg', h.rep.trans hg.rep⟩

def asCopy (e : ConstraintEdge) : Set (NodeID × NodeID) :=
  {p | e.cls = .CopyCGEdge ∧ p = (e.src, e.dst)}

/-- The nodes stay, and so do the copy edges; the only further ones are `new`. -/
structure AddsCopies (g g' : ConstraintGraph) (new : Set (NodeID × NodeID)) : Prop where
  unmerged : Unmerged g'
  node : ∀ id, g'.hasGNode id = g.hasGNode id
  keeps : copyEdges g ⊆ copyEdges g'
  bound : copyEdges g' ⊆ copyEdges g ∪ new

theorem AddsCopies.refl (hg : Unmerged g) (new : Set (NodeID × NodeID)) : AddsCopies g g new :=
  ⟨hg, fun _ => rfl, subset_rfl, Set.subset_union_left⟩

theorem addCGEdge_addsCopies (hg : Unmerged g) (e : ConstraintEdge) :
    AddsCopies g (addCGEdge g e) (asCopy e) := by
  rw [addCGEdge]
  cases hadd : addEdge g e.cls e.src e.dst with
  | none => exact .refl hg _
  | some g' =>
      obtain ⟨hg', hsame, hedges, -⟩ := addEdge_spec hg.wellFormed hadd
      rw [hg.sccRepNode, hg.sccRepNode] at hedges
      refine ⟨hg.of_sameNodes hg' hsame, hsame.hasGNode, ?_, ?_⟩
      · intro p hp
        exact (hedges _).mpr (.inl hp)
      · intro p hp
        refine ((hedges _).mp hp).imp id fun heq => ?_
        obtain ⟨hsrc, hdst, hcls⟩ := ConstraintEdge.mk.inj heq
        exact ⟨hcls.symm, Prod.ext hsrc hdst⟩

theorem mem_copyEdges_addCGEdge (hg : Unmerged g) {a b : NodeID} (ha : g.hasGNode a = true)
    (hb : g.hasGNode b = true) (hne : a ≠ b) :
    (a, b) ∈ copyEdges (addCGEdge g ⟨a, b, .CopyCGEdge⟩) := by
  rw [addCGEdge]
  cases hadd : addEdge g .CopyCGEdge a b with
  | none =>
      rw [← hg.sccRepNode a] at ha
      rw [← hg.sccRepNode b] at hb
      have hnone := addEdge_eq_none hg.wellFormed hadd ha hb
      rw [hg.sccRepNode, hg.sccRepNode] at hnone
      obtain ⟨⟨src, dst, cls⟩, hx, hkey⟩ := hnone.resolve_left fun h => hne h.2
      obtain ⟨hkind, rfl, rfl⟩ := edgeKey_inj hkey
      cases cls with
      | CopyCGEdge => exact hx
      | _ => contradiction
  | some g' =>
      obtain ⟨-, -, hedges, -⟩ := addEdge_spec hg.wellFormed hadd
      rw [hg.sccRepNode, hg.sccRepNode] at hedges
      exact (hedges _).mpr (.inr rfl)

theorem getEdge_spec (hg : Unmerged g) {src dst : NodeID} {kind : ConstraintEdgeK}
    {e : ConstraintEdge} (h : getEdge g src dst kind = some e) :
    e ∈ edges g ∧ e.cls.getEdgeKind = kind ∧ e.src = src ∧ e.dst = dst := by
  have hmem : e ∈ g.edgeSets kind.edgeSet := List.mem_of_find?_eq_some h
  have hkey : e.key = edgeKey kind (g.sccRepNode src) (g.sccRepNode dst) := by
    simpa using List.find?_some h
  rw [hg.sccRepNode, hg.sccRepNode] at hkey
  obtain ⟨hkind, hsrc, hdst⟩ := edgeKey_inj hkey
  exact ⟨(mem_edges g e).mpr (hkind.symm ▸ hmem), hkind, hsrc, hdst⟩

theorem setSVFGID_addsCopies (hg : Unmerged g) {old : ConstraintEdge} (hold : old ∈ edges g)
    {cls : EdgeClass} (hkind : cls.getEdgeKind = old.cls.getEdgeKind) (hcls : cls ≠ .CopyCGEdge)
    (new : Set (NodeID × NodeID)) : AddsCopies g (setSVFGID g old cls) new := by
  have hsrc := hg.wellFormed.registered.src old hold
  have hdst := hg.wellFormed.registered.dst old hold
  obtain ⟨hg', hsame, hedges⟩ := @replaceEdge_moves g hg.wellFormed old
    ⟨old.src, old.dst, cls⟩ hold hsrc hdst (fun h => absurd h hcls)
  refine ⟨hg.of_sameNodes hg' hsame, hsame.hasGNode, ?_, ?_⟩
  · intro p hp
    refine (Set.ext_iff.mp hedges _).mpr (.inl ⟨hp, fun heq => ?_⟩)
    rw [← heq] at hkind
    cases cls with
    | CopyCGEdge => exact hcls rfl
    | _ => contradiction
  · intro p hp
    refine .inl (((Set.ext_iff.mp hedges _).mp hp).elim And.left fun h => ?_)
    exact absurd (congrArg ConstraintEdge.cls (Option.some.inj h.1)) hcls

theorem addOrUpdateCGEdge_addsCopies (hg : Unmerged g) (e : ConstraintEdge) :
    AddsCopies g (addOrUpdateCGEdge g e) (asCopy e) := by
  have hupdate : ∀ old, getEdge g e.src e.dst e.cls.getEdgeKind = some old → e.cls ≠ .CopyCGEdge →
      AddsCopies g (setSVFGID g old e.cls) (asCopy e) := by
    intro old hget hcls
    obtain ⟨hold, hkind, -⟩ := getEdge_spec hg hget
    exact setSVFGID_addsCopies hg hold hkind.symm hcls _
  rw [addOrUpdateCGEdge]
  split
  · rename_i heq
    split
    · exact hupdate _ ‹_› (heq ▸ EdgeClass.noConfusion)
    · exact addCGEdge_addsCopies hg e
  · rename_i heq
    split
    · exact hupdate _ ‹_› (heq ▸ EdgeClass.noConfusion)
    · exact addCGEdge_addsCopies hg e
  · exact addCGEdge_addsCopies hg e

theorem unmerged_addConstraintNode (hg : Unmerged g) {id : NodeID} (hid : g.hasGNode id = false) :
    Unmerged (g.addConstraintNode id) :=
  ⟨wellFormed_addConstraintNode hg.wellFormed (hg.sccRepNode id) hid, hg.rep⟩

theorem hasGNode_addConstraintNode (g : ConstraintGraph) (id j : NodeID) :
    (g.addConstraintNode id).hasGNode j = true ↔ j = id ∨ g.hasGNode j = true := by
  by_cases hj : j = id
  · subst hj
    refine iff_of_true ?_ (.inl rfl)
    rw [ConstraintGraph.hasGNode, ConstraintGraph.addConstraintNode, AList.lookup_insert]
    rfl
  · rw [ConstraintGraph.hasGNode, ConstraintGraph.addConstraintNode, AList.lookup_insert_ne hj]
    exact (or_iff_right hj).symm

theorem AddsCopies.trans {new' : Set (NodeID × NodeID)} (h : AddsCopies g g' new)
    (h' : AddsCopies g' g'' new') : AddsCopies g g'' (new ∪ new') where
  unmerged := h'.unmerged
  node := fun id => (h'.node id).trans (h.node id)
  keeps := h.keeps.trans h'.keeps
  bound := by
    intro p hp
    rcases h'.bound hp with hp | hp
    · exact (h.bound hp).imp id .inl
    · exact .inr (.inr hp)

theorem AddsCopies.mono {new' : Set (NodeID × NodeID)} (h : AddsCopies g g' new)
    (hnew : new ⊆ new') : AddsCopies g g' new' :=
  ⟨h.unmerged, h.node, h.keeps, h.bound.trans (Set.union_subset_union_right _ hnew)⟩

def copiesOf (l : List ConstraintEdge) : Set (NodeID × NodeID) := {p | ∃ e ∈ l, p ∈ asCopy e}

theorem foldl_addCGEdge (hg : Unmerged g) (l : List ConstraintEdge) :
    AddsCopies g (l.foldl addCGEdge g) (copiesOf l) ∧
      ∀ a b, (a, b) ∈ copiesOf l → g.hasGNode a = true → g.hasGNode b = true → a ≠ b →
        (a, b) ∈ copyEdges (l.foldl addCGEdge g) := by
  induction l generalizing g with
  | nil => exact ⟨.refl hg _, fun a b ⟨e, he, _⟩ => absurd he List.not_mem_nil⟩
  | cons e l ih =>
      have hstep := addCGEdge_addsCopies hg e
      obtain ⟨hrest, hcovers⟩ := ih hstep.unmerged
      refine ⟨(hstep.trans hrest).mono ?_, ?_⟩
      · intro p hp
        rcases hp with hp | ⟨e', he', hp⟩
        · exact ⟨e, List.mem_cons_self, hp⟩
        · exact ⟨e', List.mem_cons_of_mem e he', hp⟩
      · intro a b ⟨e', he', hcopy⟩ ha hb hne
        rcases List.mem_cons.mp he' with rfl | he'
        · obtain ⟨src, dst, cls⟩ := e'
          obtain ⟨rfl, hends⟩ := hcopy
          obtain ⟨rfl, rfl⟩ := Prod.mk.inj hends
          exact hrest.keeps (mem_copyEdges_addCGEdge hg ha hb hne)
        · rw [← hstep.node] at ha hb
          exact hcovers a b ⟨e', he', hcopy⟩ ha hb hne

theorem unmerged_empty : Unmerged .empty := ⟨wellFormed_empty, rfl⟩

theorem foldl_addConstraintNode (hg : Unmerged g) {l : List NodeID} (hl : l.Nodup)
    (hnew : ∀ id ∈ l, g.hasGNode id = false) :
    Unmerged (l.foldl (fun g id => g.addConstraintNode id) g) ∧
      (∀ j, (l.foldl (fun g id => g.addConstraintNode id) g).hasGNode j = true ↔
        j ∈ l ∨ g.hasGNode j = true) ∧
      edges (l.foldl (fun g id => g.addConstraintNode id) g) = edges g := by
  induction l generalizing g with
  | nil => exact ⟨hg, fun j => by simp, rfl⟩
  | cons id l ih =>
      obtain ⟨hid, hl⟩ := List.nodup_cons.mp hl
      have hg' := unmerged_addConstraintNode hg (hnew id List.mem_cons_self)
      have hnew' : ∀ j ∈ l, (g.addConstraintNode id).hasGNode j = false := by
        intro j hj
        rw [Bool.eq_false_iff, Ne, hasGNode_addConstraintNode]
        rintro (rfl | hhas)
        · exact hid hj
        · exact Bool.false_ne_true ((hnew j (List.mem_cons_of_mem id hj)).symm.trans hhas)
      obtain ⟨hun, hnode, hedges⟩ := ih hg' hl hnew'
      refine ⟨hun, fun j => ?_, hedges⟩
      rw [List.foldl_cons, hnode, hasGNode_addConstraintNode, List.mem_cons]
      tauto

theorem not_touches_of_isSolitary (hg : Unmerged g) {id : NodeID} {node : ConstraintNode}
    (hnode : g.IDToNodeMap.lookup id = some node)
    (hsolitary : FlowSensitiveConsG.ConstraintNode.isSolitary node = true) :
    ∀ e ∈ edges g, ¬ Merging.Touches id e := by
  simp only [FlowSensitiveConsG.ConstraintNode.isSolitary, Bool.and_eq_true,
    List.isEmpty_iff] at hsolitary
  intro e he htouch
  rcases htouch with hsrc | hdst
  · have hout := (hg.wellFormed.registered.out id node hnode .edges e).mpr ⟨he, hsrc, rfl⟩
    rw [← mem_elems, hsolitary.2] at hout
    exact List.not_mem_nil hout
  · have hinn := (hg.wellFormed.registered.inn id node hnode .edges e).mpr ⟨he, hdst, rfl⟩
    rw [← mem_elems, hsolitary.1] at hinn
    exact List.not_mem_nil hinn

theorem clearSolitaries_spec (pag : SVFIR) (hg : Unmerged g) :
    Unmerged (clearSolitaries pag g) ∧ edges (clearSolitaries pag g) = edges g ∧
      ∀ id, (clearSolitaries pag g).hasGNode id = true → g.hasGNode id = true := by
  rw [clearSolitaries]
  refine Util.Folds.foldl_invariant (I := fun g' => Unmerged g' ∧ edges g' = edges g ∧
    ∀ id, g'.hasGNode id = true → g.hasGNode id = true) ?_ ⟨hg, rfl, fun _ h => h⟩
  intro entry hentry g' ⟨hg', hedges, hsub⟩
  obtain ⟨hmem, hcond⟩ := List.mem_filter.mp hentry
  simp only [Bool.and_eq_true] at hcond
  have hlookup : g.IDToNodeMap.lookup entry.1 = some entry.2 := AList.mem_lookup_iff.mpr hmem
  have htouch := not_touches_of_isSolitary hg hlookup hcond.1.1
  rw [← hedges] at htouch
  refine ⟨⟨wellFormed_removeConstraintNode hg'.wellFormed htouch, hg'.rep⟩, hedges, ?_⟩
  intro id hid
  refine hsub id ?_
  by_cases heq : id = entry.1
  · subst heq
    rw [ConstraintGraph.hasGNode, ConstraintGraph.removeConstraintNode, AList.lookup_erase] at hid
    contradiction
  · rw [ConstraintGraph.hasGNode, ConstraintGraph.removeConstraintNode,
      AList.lookup_erase_ne heq] at hid
    exact hid

theorem mem_copiesOf {l : List ConstraintEdge} {a b : NodeID} :
    (a, b) ∈ copiesOf l ↔ ⟨a, b, .CopyCGEdge⟩ ∈ l := by
  constructor
  · intro ⟨⟨src, dst, cls⟩, he, hcls, hends⟩
    obtain ⟨rfl, rfl⟩ := Prod.mk.inj hends
    exact hcls ▸ he
  · exact fun h => ⟨_, h, rfl, rfl⟩

theorem mem_buildKinds (kind : PEDGEK) : kind ∈ buildKinds := by
  cases kind <;> decide

theorem buildCG_spec {pag : SVFIR} (hids : pag.ids.Nodup)
    (hstmts : ∀ s ∈ pag.stmts, ∀ e ∈ s.constraintEdges, e.src ∈ pag.ids ∧ e.dst ∈ pag.ids) :
    Unmerged (buildCG pag) ∧ (∀ id, (buildCG pag).hasGNode id = true → id ∈ pag.ids) ∧
      ∀ a b, (a, b) ∈ copyEdges (buildCG pag) ↔
        a ≠ b ∧ ∃ s ∈ pag.stmts, ⟨a, b, .CopyCGEdge⟩ ∈ s.constraintEdges := by
  obtain ⟨hun, hnode, hedges⟩ := foldl_addConstraintNode unmerged_empty hids fun _ _ => rfl
  have hmem : ∀ e, e ∈ (buildKinds.flatMap pag.getPTASVFStmtSet).flatMap (·.constraintEdges) ↔
      ∃ s ∈ pag.stmts, e ∈ s.constraintEdges := by
    intro e
    simp only [List.mem_flatMap, SVFIR.getPTASVFStmtSet, List.mem_filter]
    constructor
    · intro ⟨s, ⟨_, _, hs, _⟩, he⟩
      exact ⟨s, hs, he⟩
    · intro ⟨s, hs, he⟩
      exact ⟨s, ⟨s.getEdgeKind, mem_buildKinds _, hs, by simp⟩, he⟩
  obtain ⟨hadds, hcovers⟩ := foldl_addCGEdge hun
    ((buildKinds.flatMap pag.getPTASVFStmtSet).flatMap (·.constraintEdges))
  obtain ⟨hclear, hkeep, hsub⟩ := clearSolitaries_spec pag hadds.unmerged
  have hnode' : ∀ id, (pag.ids.foldl (fun g id => ConstraintGraph.addConstraintNode g id)
      ConstraintGraph.empty).hasGNode id = true ↔ id ∈ pag.ids := fun id => (hnode id).trans (or_iff_left Bool.false_ne_true)
  refine ⟨hclear, fun id hid => ?_, fun a b => ⟨fun hab => ?_, fun ⟨hne, s, hs, he⟩ => ?_⟩⟩
  · have hid' := hsub id hid
    rw [hadds.node] at hid'
    exact (hnode' id).mp hid'
  · refine ⟨hclear.wellFormed.noSelfCopy _ hab rfl, ?_⟩
    rw [buildCG, copyEdges, hkeep] at hab
    rcases hadds.bound hab with hab | hab
    · rw [copyEdges, hedges] at hab
      exact absurd hab (not_mem_empty _)
    · exact (hmem _).mp (mem_copiesOf.mp hab)
  · obtain ⟨ha, hb⟩ := hstmts s hs _ he
    have hcopy := hcovers a b (mem_copiesOf.mpr ((hmem _).mpr ⟨s, hs, he⟩))
      ((hnode' a).mpr ha) ((hnode' b).mpr hb) hne
    rw [buildCG, copyEdges, hkeep]
    exact hcopy

end SVF.Graphs.CopyEdges
