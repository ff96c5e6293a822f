import SVF.Graphs.Merging

namespace SVF.Graphs.ReachableGraphs

open ConsG Registration Retargeting Merging Util.OrderedSets

variable {g : ConstraintGraph} {node rep : NodeID}

theorem registered_removeConstraintNode (hg : Registered g) (hedges : ∀ e ∈ edges g, ¬ Touches node e) :
    Registered (g.removeConstraintNode node) := by
  have hlookup : ∀ id, id ≠ node →
      (g.removeConstraintNode node).IDToNodeMap.lookup id = g.IDToNodeMap.lookup id :=
    fun id hid => AList.lookup_erase_ne hid
  have hkept : ∀ id n, (g.removeConstraintNode node).IDToNodeMap.lookup id = some n →
      g.IDToNodeMap.lookup id = some n := by
    intro id n hn
    by_cases hid : id = node
    · subst hid
      have hnone : (g.removeConstraintNode id).IDToNodeMap.lookup id = none := AList.lookup_erase _ _
      rw [hnone] at hn
      contradiction
    · exact hlookup id hid ▸ hn
  refine ⟨hg.set, ?_, ?_, fun id n hn => hg.out id n (hkept id n hn),
    fun id n hn => hg.inn id n (hkept id n hn)⟩
  · intro e he
    rw [ConstraintGraph.hasGNode, hlookup _ fun h => hedges e he (.inl h)]
    exact hg.src e he
  · intro e he
    rw [ConstraintGraph.hasGNode, hlookup _ fun h => hedges e he (.inr h)]
    exact hg.dst e he

/-- What `mergeSrcToTgt` and `mergeNodeToRep` do to the graph, but for the flag. -/
def mergeNode (g : ConstraintGraph) (node rep : NodeID) : ConstraintGraph :=
  ((g.moveEdgesToRepNode node rep).1.updateNodeRepAndSubs node rep).removeConstraintNode node

section

variable (hg : WellFormed g) (hnode : g.hasGNode node = true) (hrep : g.hasGNode rep = true)
  (hne : node ≠ rep)
include hg hnode

theorem mem_sccSubNodes (id : NodeID) : id ∈ g.sccSubNodes node ↔ g.sccRepNode id = node := by
  rw [ConstraintGraph.sccSubNodes, List.mem_insert_iff]
  constructor
  · rintro (rfl | hid)
    · exact hg.rep _ hnode
    · exact hg.sub_rep _ _ hid
  · intro hid
    by_cases heq : id = node
    · exact .inl heq
    · exact .inr (hid ▸ hg.subs id (fun h => heq (h.symm.trans hid)))

theorem sccRepNode_updateNodeRepAndSubs (rep id : NodeID) :
    (g.updateNodeRepAndSubs node rep).sccRepNode id =
      if g.sccRepNode id = node then rep else g.sccRepNode id := by
  rw [ConstraintGraph.sccRepNode, ConstraintGraph.updateNodeRepAndSubs]
  simp only [mem_sccSubNodes hg hnode]
  split
  · rfl
  · rfl

include hrep hne

theorem wellFormed_updateNodeRepAndSubs (hedges : ∀ e ∈ edges g, ¬ Touches node e) :
    WellFormed ((g.updateNodeRepAndSubs node rep).removeConstraintNode node) := by
  have hrepRep := hg.rep rep hrep
  have hscc : ∀ id, ((g.updateNodeRepAndSubs node rep).removeConstraintNode node).sccRepNode id =
      if g.sccRepNode id = node then rep else g.sccRepNode id :=
    sccRepNode_updateNodeRepAndSubs hg hnode rep
  have hsubs : ∀ n id, id ∈ ((g.updateNodeRepAndSubs node rep).removeConstraintNode node).nodeToSubsMap n ↔
      n ≠ node ∧ (id ∈ g.nodeToSubsMap n ∨ n = rep ∧ g.sccRepNode id = node) := by
    intro n id
    change id ∈ Function.update (Function.update g.nodeToSubsMap rep
      (g.nodeToSubsMap rep ∪ g.sccSubNodes node)) node [] n ↔ _
    by_cases hn : n = node
    · subst hn
      simp
    · rw [Function.update_of_ne hn]
      by_cases hnr : n = rep
      · subst hnr
        rw [Function.update_self, List.mem_union_iff, mem_sccSubNodes hg hnode]
        simp [hn]
      · rw [Function.update_of_ne hnr]
        simp [hn, hnr]
  refine ⟨registered_removeConstraintNode ?_ hedges, ?_, ?_, ?_, ?_, hg.noSelfCopy⟩
  · exact ⟨hg.registered.set, hg.registered.src, hg.registered.dst, hg.registered.out,
      hg.registered.inn⟩
  · intro id hid
    have hidNode : id ≠ node := by
      rintro rfl
      have hnone : ((g.updateNodeRepAndSubs id rep).removeConstraintNode id).IDToNodeMap.lookup id =
        none := AList.lookup_erase _ _
      rw [ConstraintGraph.hasGNode, hnone] at hid
      contradiction
    have hpresent : g.hasGNode id = true := by
      have hlookup : ((g.updateNodeRepAndSubs node rep).removeConstraintNode node).IDToNodeMap.lookup id =
        g.IDToNodeMap.lookup id := AList.lookup_erase_ne hidNode
      rwa [ConstraintGraph.hasGNode, hlookup] at hid
    rw [hscc, hg.rep id hpresent, if_neg hidNode]
  · intro id
    rw [hscc, hscc]
    by_cases hid : g.sccRepNode id = node
    · rw [if_pos hid, hrepRep, if_neg hne.symm]
    · rw [if_neg hid, hg.rep_rep, if_neg hid]
  · intro id hid
    rw [hscc] at hid ⊢
    rw [hsubs]
    by_cases h : g.sccRepNode id = node
    · rw [if_pos h]
      exact ⟨hne.symm, .inr ⟨rfl, h⟩⟩
    · rw [if_neg h] at hid ⊢
      exact ⟨h, .inl (hg.subs id hid)⟩
  · intro n id hid
    obtain ⟨hn, hold | ⟨rfl, hmerged⟩⟩ := (hsubs n id).mp hid
    · have hrepId := hg.sub_rep n id hold
      rw [hscc, hrepId, if_neg hn]
    · rw [hscc, if_pos hmerged]

end

theorem wellFormed_mergeNode (hg : WellFormed g) (hnode : g.hasGNode node = true)
    (hrep : g.hasGNode rep = true) (hne : node ≠ rep) : WellFormed (mergeNode g node rep) := by
  obtain ⟨hg₁, hsame₁, hedges₁, -⟩ := moveEdgesToRepNode_spec hg hnode hrep hne
  rw [← hsame₁.hasGNode] at hnode hrep
  apply wellFormed_updateNodeRepAndSubs hg₁ hnode hrep hne
  intro e he
  rw [hedges₁] at he
  exact not_touches_merged hne he

theorem edges_updateNodeRepAndSubs (g : ConstraintGraph) (node rep : NodeID) :
    edges ((g.updateNodeRepAndSubs node rep).removeConstraintNode node) = edges g := rfl

theorem edges_mergeNode (hg : WellFormed g) (hnode : g.hasGNode node = true)
    (hrep : g.hasGNode rep = true) (hne : node ≠ rep) : edges (mergeNode g node rep) =
      movedEdges .src node rep (movedEdges .dst node rep (edges g)) := by
  rw [mergeNode, edges_updateNodeRepAndSubs]
  exact (moveEdgesToRepNode_spec hg hnode hrep hne).2.2.1

theorem sccRepNode_mergeNode (hg : WellFormed g) (hnode : g.hasGNode node = true)
    (hrep : g.hasGNode rep = true) (hne : node ≠ rep) (id : NodeID) :
    (mergeNode g node rep).sccRepNode id =
      if g.sccRepNode id = node then rep else g.sccRepNode id := by
  obtain ⟨hg₁, hsame₁, -, -⟩ := moveEdgesToRepNode_spec hg hnode hrep hne
  rw [mergeNode]
  generalize (g.moveEdgesToRepNode node rep).1 = g₁ at *
  rw [← hsame₁.hasGNode] at hnode
  rw [← hsame₁.sccRepNode]
  exact sccRepNode_updateNodeRepAndSubs hg₁ hnode rep id

theorem wellFormed_empty : WellFormed .empty where
  registered := by
    refine ⟨?_, ?_, ?_, ?_, ?_⟩
    · intro s e he
      exact absurd he (not_mem_empty e)
    · intro e he
      exact absurd he (not_mem_empty e)
    · intro e he
      exact absurd he (not_mem_empty e)
    · intro id node hnode
      simp [ConstraintGraph.empty] at hnode
    · intro id node hnode
      simp [ConstraintGraph.empty] at hnode
  rep := fun _ _ => rfl
  rep_rep := fun _ => rfl
  subs := fun _ h => absurd rfl h
  sub_rep := fun _ _ h => absurd h List.not_mem_nil
  noSelfCopy := fun e he => absurd he (not_mem_empty e)

theorem wellFormed_addConstraintNode (hg : WellFormed g) {id : NodeID}
    (hrep : g.sccRepNode id = id) (hnew : g.hasGNode id = false) :
    WellFormed (g.addConstraintNode id) := by
  have hnode : ∀ j, (g.addConstraintNode id).IDToNodeMap.lookup j =
      if j = id then some .new else g.IDToNodeMap.lookup j := by
    intro j
    by_cases hj : j = id
    · subst hj
      rw [if_pos rfl]
      exact AList.lookup_insert _
    · rw [if_neg hj]
      exact AList.lookup_insert_ne hj
  have hne : ∀ j, g.hasGNode j = true → j ≠ id := fun j hj heq =>
    Bool.false_ne_true (hnew.symm.trans (heq ▸ hj))
  have hhas : ∀ j, g.hasGNode j = true → (g.addConstraintNode id).hasGNode j = true := by
    intro j hj
    rw [ConstraintGraph.hasGNode, hnode, if_neg (hne j hj)]
    exact hj
  refine ⟨⟨hg.registered.set, ?_, ?_, ?_, ?_⟩, ?_, hg.rep_rep, hg.subs, hg.sub_rep, hg.noSelfCopy⟩
  · exact fun e he => hhas _ (hg.registered.src e he)
  · exact fun e he => hhas _ (hg.registered.dst e he)
  · intro j n hn k e
    rw [hnode] at hn
    split at hn
    · rename_i hj
      cases hn
      refine iff_of_false (not_mem_empty e) fun ⟨he, hsrc, _⟩ => ?_
      exact hne _ (hg.registered.src e he) (hsrc.trans hj)
    · exact hg.registered.out j n hn k e
  · intro j n hn k e
    rw [hnode] at hn
    split at hn
    · rename_i hj
      cases hn
      refine iff_of_false (not_mem_empty e) fun ⟨he, hdst, _⟩ => ?_
      exact hne _ (hg.registered.dst e he) (hdst.trans hj)
    · exact hg.registered.inn j n hn k e
  · intro j hj
    rw [ConstraintGraph.hasGNode, hnode] at hj
    by_cases hjid : j = id
    · exact hjid ▸ hrep
    · rw [if_neg hjid] at hj
      exact hg.rep j hj

theorem wellFormed_removeConstraintNode (hg : WellFormed g) (hedges : ∀ e ∈ edges g, ¬ Touches node e) :
    WellFormed (g.removeConstraintNode node) where
  registered := registered_removeConstraintNode hg.registered hedges
  rep := by
    intro id hid
    by_cases hne : id = node
    · subst hne
      have hnone : (g.removeConstraintNode id).IDToNodeMap.lookup id = none := AList.lookup_erase _ _
      rw [ConstraintGraph.hasGNode, hnone] at hid
      contradiction
    · have hlookup : (g.removeConstraintNode node).IDToNodeMap.lookup id = g.IDToNodeMap.lookup id :=
        AList.lookup_erase_ne hne
      rw [ConstraintGraph.hasGNode, hlookup] at hid
      exact hg.rep id hid
  rep_rep := hg.rep_rep
  subs := hg.subs
  sub_rep := hg.sub_rep
  noSelfCopy := hg.noSelfCopy

theorem edges_setPWCNode (g : ConstraintGraph) (id : NodeID) : edges (g.setPWCNode id) = edges g := by
  rw [edges, edges, ConstraintGraph.setPWCNode, modifyNode_edgeSets]

theorem sccRepNode_setPWCNode (g : ConstraintGraph) (id j : NodeID) :
    (g.setPWCNode id).sccRepNode j = g.sccRepNode j := by
  rw [ConstraintGraph.setPWCNode, ConstraintGraph.modifyNode]
  split <;> rfl

theorem wellFormed_setPWCNode (hg : WellFormed g) (id : NodeID) : WellFormed (g.setPWCNode id) := by
  have hnode : ∀ j n', (g.setPWCNode id).IDToNodeMap.lookup j = some n' →
      ∃ n, g.IDToNodeMap.lookup j = some n ∧ n'.outEdges = n.outEdges ∧ n'.inEdges = n.inEdges := by
    intro j n' hn'
    rw [ConstraintGraph.setPWCNode, lookup_modifyNode] at hn'
    split at hn'
    · rename_i hj
      obtain ⟨n, hn, rfl⟩ := Option.map_eq_some_iff.mp hn'
      exact ⟨n, hj ▸ hn, rfl, rfl⟩
    · exact ⟨n', hn', rfl, rfl⟩
  have hhas : ∀ j, (g.setPWCNode id).hasGNode j = g.hasGNode j := by
    intro j
    rw [ConstraintGraph.hasGNode, ConstraintGraph.setPWCNode, lookup_modifyNode]
    split
    · rename_i hj
      rw [Option.isSome_map, hj, ConstraintGraph.hasGNode]
    · rfl
  have hedges := edges_setPWCNode g id
  have hsubs : (g.setPWCNode id).nodeToSubsMap = g.nodeToSubsMap := by
    rw [ConstraintGraph.setPWCNode, ConstraintGraph.modifyNode]
    split <;> rfl
  have hrep := sccRepNode_setPWCNode g id
  refine ⟨⟨?_, ?_, ?_, ?_, ?_⟩, ?_, ?_, ?_, ?_, ?_⟩
  · intro s e he
    rw [ConstraintGraph.setPWCNode, modifyNode_edgeSets] at he
    exact hg.registered.set s e he
  · intro e he
    rw [hhas]
    exact hg.registered.src e (hedges ▸ he)
  · intro e he
    rw [hhas]
    exact hg.registered.dst e (hedges ▸ he)
  · intro j n' hn' k e
    obtain ⟨n, hn, hout, -⟩ := hnode j n' hn'
    rw [hout, hedges]
    exact hg.registered.out j n hn k e
  · intro j n' hn' k e
    obtain ⟨n, hn, -, hin⟩ := hnode j n' hn'
    rw [hin, hedges]
    exact hg.registered.inn j n hn k e
  · intro j hj
    rw [hrep]
    exact hg.rep j (hhas j ▸ hj)
  · intro j
    rw [hrep, hrep]
    exact hg.rep_rep j
  · intro j hj
    rw [hrep] at hj ⊢
    exact hsubs ▸ hg.subs j hj
  · intro n j hj
    rw [hrep]
    exact hg.sub_rep n j (hsubs ▸ hj)
  · intro e he
    exact hg.noSelfCopy e (hedges ▸ he)

theorem wellFormed_nodesToBeCollapsed (hg : WellFormed g) (ids : List NodeID) :
    WellFormed { g with nodesToBeCollapsed := ids } where
  registered := ⟨hg.registered.set, hg.registered.src, hg.registered.dst, hg.registered.out,
    hg.registered.inn⟩
  rep := hg.rep
  rep_rep := hg.rep_rep
  subs := hg.subs
  sub_rep := hg.sub_rep
  noSelfCopy := hg.noSelfCopy

/-- The graphs that arise from the empty one: by building it, removing solitary
nodes, and adding nodes and edges and merging nodes while it is solved. -/
inductive Reachable : ConstraintGraph → Prop
  | empty : Reachable .empty
  | addConstraintNode (g : ConstraintGraph) (id : NodeID) (hg : Reachable g)
      (hrep : g.sccRepNode id = id) (hnew : g.hasGNode id = false) :
      Reachable (g.addConstraintNode id)
  | removeSolitary (g : ConstraintGraph) (id : NodeID) (hg : Reachable g)
      (hedges : ∀ e ∈ edges g, ¬ Touches id e) : Reachable (g.removeConstraintNode id)
  | addEdge (g g' : ConstraintGraph) (cls : EdgeClass) (src dst : NodeID) (hg : Reachable g)
      (hadd : addEdge g cls src dst = some g') : Reachable g'
  | merge (g : ConstraintGraph) (node rep : NodeID) (hg : Reachable g)
      (hnode : g.hasGNode node = true) (hrep : g.hasGNode rep = true) (hne : node ≠ rep) :
      Reachable (mergeNode g node rep)
  | setPWCNode (g : ConstraintGraph) (id : NodeID) (hg : Reachable g) : Reachable (g.setPWCNode id)
  | collapse (g : ConstraintGraph) (ids : List NodeID) (hg : Reachable g) :
      Reachable { g with nodesToBeCollapsed := ids }

theorem Reachable.wellFormed (h : Reachable g) : WellFormed g := by
  induction h with
  | empty => exact wellFormed_empty
  | addConstraintNode g id _ hrep hnew ih => exact wellFormed_addConstraintNode ih hrep hnew
  | removeSolitary g id _ hedges ih => exact wellFormed_removeConstraintNode ih hedges
  | addEdge g g' cls src dst _ hadd ih => exact (addEdge_spec ih hadd).1
  | merge g node rep _ hnode hrep hne ih => exact wellFormed_mergeNode ih hnode hrep hne
  | setPWCNode g id _ ih => exact wellFormed_setPWCNode ih id
  | collapse g ids _ ih => exact wellFormed_nodesToBeCollapsed ih ids

end SVF.Graphs.ReachableGraphs
