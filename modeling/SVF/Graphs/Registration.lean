import SVF.Graphs.ConsG

namespace SVF.Graphs.Registration

open ConsG Util.OrderedSets

def holds : NodeEdgeSet → ConstraintEdgeK → Bool
  | .edges, _ => true
  | .direct, kind => kind = .Copy || kind = .NormalGep || kind = .VariantGep
  | .copy, kind => kind = .Copy
  | .gep, kind => kind = .NormalGep || kind = .VariantGep
  | .load, kind => kind = .Load
  | .store, kind => kind = .Store
  | .address, kind => kind = .Addr

def edges (g : ConstraintGraph) : Set ConstraintEdge :=
  {e | e ∈ g.edgeSets e.cls.getEdgeKind.edgeSet}

instance (g : ConstraintGraph) (e : ConstraintEdge) : Decidable (e ∈ edges g) :=
  inferInstanceAs (Decidable (e ∈ g.edgeSets e.cls.getEdgeKind.edgeSet))

theorem mem_edges (g : ConstraintGraph) (e : ConstraintEdge) :
    e ∈ edges g ↔ e ∈ g.edgeSets e.cls.getEdgeKind.edgeSet := Iff.rfl

/-- The graph keeps each edge in the set of its kind, and in exactly the sets
of its kind at its two ends. -/
structure Registered (g : ConstraintGraph) : Prop where
  set : ∀ s e, e ∈ g.edgeSets s → e.cls.getEdgeKind.edgeSet = s
  src : ∀ e ∈ edges g, g.hasGNode e.src = true
  dst : ∀ e ∈ edges g, g.hasGNode e.dst = true
  out : ∀ id node, g.IDToNodeMap.lookup id = some node → ∀ k e,
    e ∈ node.outEdges k ↔ e ∈ edges g ∧ e.src = id ∧ holds k e.cls.getEdgeKind = true
  inn : ∀ id node, g.IDToNodeMap.lookup id = some node → ∀ k e,
    e ∈ node.inEdges k ↔ e ∈ edges g ∧ e.dst = id ∧ holds k e.cls.getEdgeKind = true

structure SameNodes (g g' : ConstraintGraph) : Prop where
  node : ∀ id, (g'.IDToNodeMap.lookup id).map (·.isPWCNode) =
    (g.IDToNodeMap.lookup id).map (·.isPWCNode)
  rep : g'.nodeToRepMap = g.nodeToRepMap
  subs : g'.nodeToSubsMap = g.nodeToSubsMap
  collapse : g'.nodesToBeCollapsed = g.nodesToBeCollapsed

theorem SameNodes.refl (g : ConstraintGraph) : SameNodes g g := ⟨fun _ => rfl, rfl, rfl, rfl⟩

theorem SameNodes.trans {g g' g'' : ConstraintGraph} (h : SameNodes g g') (h' : SameNodes g' g'') :
    SameNodes g g'' :=
  ⟨fun id => (h'.node id).trans (h.node id), h'.rep.trans h.rep, h'.subs.trans h.subs,
    h'.collapse.trans h.collapse⟩

theorem SameNodes.hasGNode {g g' : ConstraintGraph} (h : SameNodes g g') (id : NodeID) :
    g'.hasGNode id = g.hasGNode id := by
  have hnode := congrArg Option.isSome (h.node id)
  rw [Option.isSome_map, Option.isSome_map] at hnode
  exact hnode

theorem SameNodes.sccRepNode {g g' : ConstraintGraph} (h : SameNodes g g') (id : NodeID) :
    g'.sccRepNode id = g.sccRepNode id := by
  rw [ConstraintGraph.sccRepNode, h.rep, ConstraintGraph.sccRepNode]

theorem edgeKey_inj {kind kind' : ConstraintEdgeK} {src src' dst dst' : NodeID}
    (h : edgeKey kind src dst = edgeKey kind' src' dst') :
    kind = kind' ∧ src = src' ∧ dst = dst' := by
  simp only [edgeKey, EmbeddingLike.apply_eq_iff_eq, Prod.mk.injEq] at h
  obtain ⟨hflag, hsrc, hdst⟩ := h
  refine ⟨?_, hsrc, hdst⟩
  cases kind <;> cases kind' <;> first | rfl | contradiction

theorem eq_of_key {g : ConstraintGraph} {e e' : ConstraintEdge} (he : e ∈ edges g)
    (he' : e' ∈ edges g) (h : e.key = e'.key) : e = e' := by
  have hkind := (edgeKey_inj h).1
  rw [mem_edges] at he he'
  rw [← hkind] at he'
  exact eq_of_key_eq he he' h

theorem lookup_modifyNode (g : ConstraintGraph) (i j : NodeID)
    (f : ConstraintNode → ConstraintNode) : (g.modifyNode i f).IDToNodeMap.lookup j =
      if j = i then (g.IDToNodeMap.lookup i).map f else g.IDToNodeMap.lookup j := by
  rw [ConstraintGraph.modifyNode]
  cases h : g.IDToNodeMap.lookup i with
  | none =>
      by_cases hj : j = i
      · rw [if_pos hj, hj, h, Option.map_none]
      · rw [if_neg hj]
  | some node =>
      by_cases hj : j = i
      · rw [if_pos hj, hj, Option.map_some]
        exact AList.lookup_insert _
      · rw [if_neg hj]
        exact AList.lookup_insert_ne hj

/-- What becomes of a node when the outgoing edges of one node and the incoming
edges of another are written to. -/
theorem lookup_modifyNode_twice (g : ConstraintGraph) {i j : NodeID} (sets : List NodeEdgeSet)
    (f : ConstraintEdgeSetTy → ConstraintEdgeSetTy) {id : NodeID} {node' : ConstraintNode}
    (hnode' : ((g.modifyNode i fun n =>
        { n with outEdges := fun k => if k ∈ sets then f (n.outEdges k) else n.outEdges k }).modifyNode j
      fun n => { n with inEdges := fun k => if k ∈ sets then f (n.inEdges k) else n.inEdges k }).IDToNodeMap.lookup
        id = some node') :
    ∃ node, g.IDToNodeMap.lookup id = some node ∧
      (∀ k, node'.outEdges k = if id = i ∧ k ∈ sets then f (node.outEdges k) else node.outEdges k) ∧
      ∀ k, node'.inEdges k = if id = j ∧ k ∈ sets then f (node.inEdges k) else node.inEdges k := by
  rw [lookup_modifyNode, lookup_modifyNode, lookup_modifyNode] at hnode'
  by_cases hj : id = j
  · subst hj
    by_cases hi : id = i
    · subst hi
      simp only [if_true, Option.map_map, Option.map_eq_some_iff, true_and] at hnode' ⊢
      obtain ⟨node, hnode, rfl⟩ := hnode'
      exact ⟨node, hnode, fun _ => rfl, fun _ => rfl⟩
    · simp only [hi, if_true, if_false, Option.map_eq_some_iff, true_and, false_and] at hnode' ⊢
      obtain ⟨node, hnode, rfl⟩ := hnode'
      exact ⟨node, hnode, fun _ => rfl, fun _ => rfl⟩
  · by_cases hi : id = i
    · subst hi
      simp only [hj, if_true, if_false, Option.map_eq_some_iff, true_and, false_and] at hnode' ⊢
      obtain ⟨node, hnode, rfl⟩ := hnode'
      exact ⟨node, hnode, fun _ => rfl, fun _ => rfl⟩
    · simp only [hi, hj, if_false, false_and] at hnode' ⊢
      exact ⟨node', hnode', fun _ => rfl, fun _ => rfl⟩

@[simp] theorem modifyNode_edgeSets (g : ConstraintGraph) (id : NodeID)
    (f : ConstraintNode → ConstraintNode) : (g.modifyNode id f).edgeSets = g.edgeSets := by
  unfold ConstraintGraph.modifyNode
  split <;> rfl

theorem sameNodes_modifyNode (g : ConstraintGraph) (id : NodeID)
    (f : ConstraintNode → ConstraintNode) (hf : ∀ node, (f node).isPWCNode = node.isPWCNode) :
    SameNodes g (g.modifyNode id f) := by
  refine ⟨fun j => ?_, ?_, ?_, ?_⟩
  · rw [lookup_modifyNode]
    by_cases hj : j = id
    · subst hj
      rw [if_pos rfl, Option.map_map]
      exact congrArg (fun h => Option.map h (g.IDToNodeMap.lookup j)) (funext hf)
    · rw [if_neg hj]
  all_goals
    unfold ConstraintGraph.modifyNode
    split <;> rfl

theorem mem_update_edgeSets (g : ConstraintGraph) (s : GraphEdgeSet)
    (f : ConstraintEdgeSetTy → ConstraintEdgeSetTy) (s' : GraphEdgeSet) (e : ConstraintEdge) :
    e ∈ (g.modifyEdgeSet s f).edgeSets s' ↔
      if s' = s then e ∈ f (g.edgeSets s) else e ∈ g.edgeSets s' := by
  change e ∈ Function.update g.edgeSets s (f (g.edgeSets s)) s' ↔ _
  by_cases h : s' = s
  · subst h
    rw [if_pos rfl, Function.update_self]
  · rw [if_neg h, Function.update_of_ne h]

section

variable {g : ConstraintGraph} {addOut addIn : ConstraintNode → ConstraintEdge → ConstraintNode}
  {sets : List NodeEdgeSet} {cls : EdgeClass} {src dst : NodeID}

/-- Where an `add*CGEdge` puts its edge: into the sets of its kind at both ends. -/
structure Adds (addOut addIn : ConstraintNode → ConstraintEdge → ConstraintNode)
    (sets : List NodeEdgeSet) (kind : ConstraintEdgeK) : Prop where
  out : addOut = ConstraintNode.addOutgoing sets
  inn : addIn = ConstraintNode.addIncoming sets
  sets : ∀ k, k ∈ sets ↔ holds k kind = true

theorem addCGEdge_eq_none (h : g.addCGEdge addOut addIn cls src dst = none) :
    (g.hasGNode (g.sccRepNode src) = true → g.hasGNode (g.sccRepNode dst) = true →
      ∃ e ∈ g.edgeSets cls.getEdgeKind.edgeSet,
        e.key = edgeKey cls.getEdgeKind (g.sccRepNode src) (g.sccRepNode dst)) := by
  intro hsrc hdst
  rw [ConstraintGraph.addCGEdge] at h
  simp only [hsrc, hdst, Bool.true_and, Bool.not_eq_true', ite_eq_right_iff, reduceCtorEq,
    imp_false, Bool.not_eq_false] at h
  exact (contains_iff _ _).mp h

/-- The graph with the new edge in the edge set of its kind and at its two ends. -/
def withEdge (sets : List NodeEdgeSet) (g : ConstraintGraph) (edge : ConstraintEdge) :
    ConstraintGraph :=
  ((g.modifyEdgeSet edge.cls.getEdgeKind.edgeSet (·.insert edge)).modifyNode edge.src
    (·.addOutgoing sets edge)).modifyNode edge.dst (·.addIncoming sets edge)

theorem addCGEdge_eq_some (hadds : Adds addOut addIn sets cls.getEdgeKind) {g' : ConstraintGraph}
    (h : g.addCGEdge addOut addIn cls src dst = some g') :
    g' = withEdge sets g ⟨g.sccRepNode src, g.sccRepNode dst, cls⟩ ∧
      g.hasGNode (g.sccRepNode src) = true ∧ g.hasGNode (g.sccRepNode dst) = true ∧
      ∀ e ∈ edges g, e.key ≠ edgeKey cls.getEdgeKind (g.sccRepNode src) (g.sccRepNode dst) := by
  rw [ConstraintGraph.addCGEdge] at h
  split at h
  · rename_i hguard
    simp only [Bool.and_eq_true, Bool.not_eq_true'] at hguard
    refine ⟨?_, hguard.1.1, hguard.1.2, ?_⟩
    · cases h
      rw [hadds.out, hadds.inn, withEdge]
    · intro e he hkey
      rw [mem_edges, (edgeKey_inj hkey).1] at he
      have hhas := (contains_iff _ _).mpr ⟨e, he, hkey⟩
      exact Bool.false_ne_true (hguard.2.symm.trans hhas)
  · contradiction

theorem sameNodes_withEdge (sets : List NodeEdgeSet) (g : ConstraintGraph) (e : ConstraintEdge) :
    SameNodes g (withEdge sets g e) := by
  have hset : SameNodes g (g.modifyEdgeSet e.cls.getEdgeKind.edgeSet (·.insert e)) :=
    ⟨fun _ => rfl, rfl, rfl, rfl⟩
  have hsrc := sameNodes_modifyNode (g.modifyEdgeSet e.cls.getEdgeKind.edgeSet (·.insert e)) e.src
    (·.addOutgoing sets e) (fun _ => rfl)
  exact (hset.trans hsrc).trans (sameNodes_modifyNode _ e.dst (·.addIncoming sets e) (fun _ => rfl))

theorem mem_edgeSets_withEdge {e : ConstraintEdge} (hnew : ∀ x ∈ edges g, x.key ≠ e.key)
    (hset : ∀ s x, x ∈ g.edgeSets s → x.cls.getEdgeKind.edgeSet = s) (s : GraphEdgeSet)
    (x : ConstraintEdge) : x ∈ (withEdge sets g e).edgeSets s ↔
      x ∈ g.edgeSets s ∨ x = e ∧ s = e.cls.getEdgeKind.edgeSet := by
  rw [withEdge, modifyNode_edgeSets, modifyNode_edgeSets, mem_update_edgeSets]
  by_cases hs : s = e.cls.getEdgeKind.edgeSet
  · subst hs
    rw [if_pos rfl, mem_insert]
    refine or_congr_right (and_congr_right fun _ => iff_of_true (fun c hc => ?_) rfl)
    exact hnew c ((mem_edges g c).mpr ((hset _ c hc).symm ▸ hc))
  · simp [hs]

theorem mem_edges_withEdge (sets : List NodeEdgeSet) {e : ConstraintEdge}
    (hnew : ∀ x ∈ edges g, x.key ≠ e.key) (hset : ∀ s x, x ∈ g.edgeSets s → x.cls.getEdgeKind.edgeSet = s) (x : ConstraintEdge) :
    x ∈ edges (withEdge sets g e) ↔ x ∈ edges g ∨ x = e := by
  rw [mem_edges, mem_edgeSets_withEdge hnew hset, mem_edges]
  exact or_congr_right (and_iff_left_of_imp fun h => h ▸ rfl)

theorem lookup_withEdge (sets : List NodeEdgeSet) (g : ConstraintGraph) (e : ConstraintEdge)
    {id : NodeID} {node' : ConstraintNode}
    (h : (withEdge sets g e).IDToNodeMap.lookup id = some node') :
    ∃ node, g.IDToNodeMap.lookup id = some node ∧
      (∀ k, node'.outEdges k =
        if id = e.src ∧ k ∈ sets then (node.outEdges k).insert e else node.outEdges k) ∧
      ∀ k, node'.inEdges k =
        if id = e.dst ∧ k ∈ sets then (node.inEdges k).insert e else node.inEdges k :=
  lookup_modifyNode_twice (g.modifyEdgeSet e.cls.getEdgeKind.edgeSet (·.insert e)) sets (·.insert e) h

/-- The edges of one set of the node `id`, in the direction that `atEnd` reads. -/
theorem mem_insert_listed {s : ConstraintEdgeSetTy} {atEnd : ConstraintEdge → NodeID} {id : NodeID}
    {k : NodeEdgeSet} {e : ConstraintEdge} (hsets : k ∈ sets ↔ holds k e.cls.getEdgeKind = true)
    (hs : ∀ x, x ∈ s ↔ x ∈ edges g ∧ atEnd x = id ∧ holds k x.cls.getEdgeKind = true)
    (hnew : ∀ x ∈ edges g, x.key ≠ e.key) (x : ConstraintEdge) :
    x ∈ (if id = atEnd e ∧ k ∈ sets then s.insert e else s) ↔
      (x ∈ edges g ∨ x = e) ∧ atEnd x = id ∧ holds k x.cls.getEdgeKind = true := by
  split
  · rename_i hk
    have hclash : ∀ c ∈ s, c.key ≠ e.key := fun c hc => hnew c ((hs c).mp hc).1
    rw [mem_insert, hs]
    constructor
    · rintro (⟨hx, hid, hkind⟩ | ⟨rfl, -⟩)
      · exact ⟨.inl hx, hid, hkind⟩
      · exact ⟨.inr rfl, hk.1.symm, hsets.mp hk.2⟩
    · rintro ⟨hx | hx, hid, hkind⟩
      · exact .inl ⟨hx, hid, hkind⟩
      · exact .inr ⟨hx, hclash⟩
  · rename_i hk
    rw [hs]
    refine and_congr_left fun ⟨hid, hkind⟩ => (or_iff_left fun hx => hk ?_).symm
    subst hx
    exact ⟨hid.symm, hsets.mpr hkind⟩

theorem registered_withEdge (hg : Registered g) {e : ConstraintEdge}
    (hsets : ∀ k, k ∈ sets ↔ holds k e.cls.getEdgeKind = true)
    (hsrc : g.hasGNode e.src = true) (hdst : g.hasGNode e.dst = true)
    (hnew : ∀ x ∈ edges g, x.key ≠ e.key) : Registered (withEdge sets g e) where
  set := by
    intro s x hx
    rcases (mem_edgeSets_withEdge hnew hg.set s x).mp hx with hx | ⟨rfl, rfl⟩
    · exact hg.set s x hx
    · rfl
  src := by
    intro x hx
    rw [(sameNodes_withEdge sets g e).hasGNode]
    rcases (mem_edges_withEdge sets hnew hg.set x).mp hx with hx | rfl
    · exact hg.src x hx
    · exact hsrc
  dst := by
    intro x hx
    rw [(sameNodes_withEdge sets g e).hasGNode]
    rcases (mem_edges_withEdge sets hnew hg.set x).mp hx with hx | rfl
    · exact hg.dst x hx
    · exact hdst
  out := by
    intro id node' hnode' k x
    obtain ⟨node, hnode, hout, -⟩ := lookup_withEdge sets g e hnode'
    rw [hout, mem_edges_withEdge sets hnew hg.set]
    exact mem_insert_listed (hsets k) (hg.out id node hnode k) hnew x
  inn := by
    intro id node' hnode' k x
    obtain ⟨node, hnode, -, hin⟩ := lookup_withEdge sets g e hnode'
    rw [hin, mem_edges_withEdge sets hnew hg.set]
    exact mem_insert_listed (hsets k) (hg.inn id node hnode k) hnew x

end

section

variable {g : ConstraintGraph} {removeOut removeIn : ConstraintNode → ConstraintEdge → ConstraintNode}
  {sets : List NodeEdgeSet} {e : ConstraintEdge}

/-- The graph without the edge, in the edge set of its kind and at its two ends. -/
def withoutEdge (sets : List NodeEdgeSet) (g : ConstraintGraph) (edge : ConstraintEdge) :
    ConstraintGraph :=
  ((g.modifyNode edge.src (·.removeOutgoing sets edge)).modifyNode edge.dst
    (·.removeIncoming sets edge)).modifyEdgeSet edge.cls.getEdgeKind.edgeSet (·.erase edge)

theorem sameNodes_withoutEdge (sets : List NodeEdgeSet) (g : ConstraintGraph) (e : ConstraintEdge) :
    SameNodes g (withoutEdge sets g e) := by
  have hsrc := sameNodes_modifyNode g e.src (·.removeOutgoing sets e) (fun _ => rfl)
  have hdst := sameNodes_modifyNode (g.modifyNode e.src (·.removeOutgoing sets e)) e.dst
    (·.removeIncoming sets e) (fun _ => rfl)
  exact (hsrc.trans hdst).trans ⟨fun _ => rfl, rfl, rfl, rfl⟩

theorem mem_edgeSets_withoutEdge (hset : ∀ s x, x ∈ g.edgeSets s → x.cls.getEdgeKind.edgeSet = s)
    (he : e ∈ edges g) (s : GraphEdgeSet) (x : ConstraintEdge) :
    x ∈ (withoutEdge sets g e).edgeSets s ↔ x ∈ g.edgeSets s ∧ x ≠ e := by
  rw [withoutEdge, mem_update_edgeSets, modifyNode_edgeSets, modifyNode_edgeSets]
  by_cases hs : s = e.cls.getEdgeKind.edgeSet
  · subst hs
    rw [if_pos rfl, mem_erase]
    refine and_congr_right fun hx => ⟨fun hkey heq => hkey (heq ▸ rfl), fun hne hkey => hne ?_⟩
    exact eq_of_key_eq hx he hkey
  · rw [if_neg hs]
    refine (and_iff_left_of_imp fun hx heq => hs ?_).symm
    exact heq ▸ (hset s x hx).symm

theorem mem_edges_withoutEdge (sets : List NodeEdgeSet)
    (hset : ∀ s x, x ∈ g.edgeSets s → x.cls.getEdgeKind.edgeSet = s) (he : e ∈ edges g) (x : ConstraintEdge) :
    x ∈ edges (withoutEdge sets g e) ↔ x ∈ edges g ∧ x ≠ e :=
  mem_edgeSets_withoutEdge hset he _ x

theorem lookup_withoutEdge (sets : List NodeEdgeSet) (g : ConstraintGraph) (e : ConstraintEdge)
    {id : NodeID} {node' : ConstraintNode}
    (h : (withoutEdge sets g e).IDToNodeMap.lookup id = some node') :
    ∃ node, g.IDToNodeMap.lookup id = some node ∧
      (∀ k, node'.outEdges k =
        if id = e.src ∧ k ∈ sets then (node.outEdges k).erase e else node.outEdges k) ∧
      ∀ k, node'.inEdges k =
        if id = e.dst ∧ k ∈ sets then (node.inEdges k).erase e else node.inEdges k :=
  lookup_modifyNode_twice _ sets (·.erase e) h

theorem mem_erase_listed {s : ConstraintEdgeSetTy} {atEnd : ConstraintEdge → NodeID} {id : NodeID}
    {k : NodeEdgeSet} (hsets : k ∈ sets ↔ holds k e.cls.getEdgeKind = true)
    (hs : ∀ x, x ∈ s ↔ x ∈ edges g ∧ atEnd x = id ∧ holds k x.cls.getEdgeKind = true)
    (he : e ∈ edges g) (x : ConstraintEdge) :
    x ∈ (if id = atEnd e ∧ k ∈ sets then s.erase e else s) ↔
      (x ∈ edges g ∧ x ≠ e) ∧ atEnd x = id ∧ holds k x.cls.getEdgeKind = true := by
  split
  · rw [mem_erase, hs]
    constructor
    · rintro ⟨⟨hx, hid, hkind⟩, hkey⟩
      exact ⟨⟨hx, fun heq => hkey (heq ▸ rfl)⟩, hid, hkind⟩
    · rintro ⟨⟨hx, hne⟩, hid, hkind⟩
      exact ⟨⟨hx, hid, hkind⟩, fun hkey => hne (eq_of_key hx he hkey)⟩
  · rename_i hk
    rw [hs]
    refine and_congr_left fun ⟨hid, hkind⟩ => (and_iff_left fun hx => hk ?_).symm
    subst hx
    exact ⟨hid.symm, hsets.mpr hkind⟩

theorem registered_withoutEdge (hg : Registered g) (he : e ∈ edges g)
    (hsets : ∀ k, k ∈ sets ↔ holds k e.cls.getEdgeKind = true) :
    Registered (withoutEdge sets g e) where
  set := by
    intro s x hx
    exact hg.set s x ((mem_edgeSets_withoutEdge hg.set he s x).mp hx).1
  src := by
    intro x hx
    rw [(sameNodes_withoutEdge sets g e).hasGNode]
    exact hg.src x ((mem_edges_withoutEdge sets hg.set he x).mp hx).1
  dst := by
    intro x hx
    rw [(sameNodes_withoutEdge sets g e).hasGNode]
    exact hg.dst x ((mem_edges_withoutEdge sets hg.set he x).mp hx).1
  out := by
    intro id node' hnode' k x
    obtain ⟨node, hnode, hout, -⟩ := lookup_withoutEdge sets g e hnode'
    rw [hout, mem_edges_withoutEdge sets hg.set he]
    exact mem_erase_listed (hsets k) (hg.out id node hnode k) he x
  inn := by
    intro id node' hnode' k x
    obtain ⟨node, hnode, -, hin⟩ := lookup_withoutEdge sets g e hnode'
    rw [hin, mem_edges_withoutEdge sets hg.set he]
    exact mem_erase_listed (hsets k) (hg.inn id node hnode k) he x

end

end SVF.Graphs.Registration
