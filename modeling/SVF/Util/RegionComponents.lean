import SVF.Util.ClusterMapping

namespace SVF.Util.RegionComponents

open Relation DefaultMaps Loops NodeIDs ObjectRegions Clusterer ClusterMapping

variable {numObjects k : ℕ} {order : HashOrder NodeID} {graph : CoPointeeGraph} {labels labels₀ : List NodeID}
  {getPts : NodeID → List NodeID} {keys : List (NodeID × ℕ)}

def Share (getPts : NodeID → List NodeID) (keys : List (NodeID × ℕ)) (o m : NodeID) : Prop :=
  ∃ key ∈ keys, o ∈ getPts key.1 ∧ m ∈ getPts key.1

def Linked (graph : CoPointeeGraph) : NodeID → NodeID → Prop := ReflTransGen fun o m => m ∈ graph.get o

theorem Linked.symm (hgraph : Undirected numObjects graph) {o m : NodeID} (h : Linked graph o m) :
    Linked graph m o := by
  induction h with
  | refl => exact .refl
  | tail _ hedge ih => exact .head (hgraph.symm _ _ hedge) ih

structure Reached (graph : CoPointeeGraph) (k : ℕ) (labels₀ : List NodeID) (start : NodeID) (s : Bfs) : Prop where
  queue : ∀ q ∈ s.queue, Linked graph start q
  changed : ∀ o, entry s.labels o ≠ entry labels₀ o → entry s.labels o = k ∧ Linked graph start o

theorem Reached.visit {start : NodeID} {s s' : Bfs} (h : Reached graph k labels₀ start s)
    (hvisit : visit order graph k s = some s') : Reached graph k labels₀ start s' := by
  obtain ⟨labels, queue⟩ := s
  cases queue with
  | nil => contradiction
  | cons o queue =>
      have hrest : ∀ q ∈ queue, Linked graph start q := fun q hq => h.queue q (List.mem_cons_of_mem o hq)
      have ho : Linked graph start o := h.queue o List.mem_cons_self
      obtain ⟨l, hl, hvisit⟩ := Option.bind_eq_some_iff.mp hvisit
      have hlen : o < labels.length := (List.getElem?_eq_some_iff.mp hl).1
      split at hvisit
      · split at hvisit
        · cases hvisit
          exact ⟨hrest, h.changed⟩
        · contradiction
      · split at hvisit
        · cases hvisit
          refine ⟨fun q hq => ?_, fun m hm => ?_⟩
          · rcases List.mem_append.mp hq with hq | hq
            · exact hrest q hq
            · exact ho.tail ((order.perm _).mem_iff.mp hq)
          · rw [entry_set hlen] at hm ⊢
            split at hm
            · rename_i hmo
              rw [if_pos hmo, hmo]
              exact ⟨rfl, ho⟩
            · rename_i hmo
              rw [if_neg hmo]
              exact h.changed m hm
        · contradiction

theorem reached_labelComponent {start : NodeID} (h : labelComponent order graph k labels₀ start = some labels) :
    ∀ o, entry labels o ≠ entry labels₀ o → entry labels o = k ∧ Linked graph start o := by
  obtain ⟨s, hs, rfl⟩ := Option.map_eq_some_iff.mp h
  obtain ⟨hrun, -⟩ := whileLoop_run (R := fun s t => visit order graph k s = some t) (fun s t _ h => h) hs
  have hinit : Reached graph k labels₀ start ⟨labels₀, [start]⟩ :=
    ⟨fun q hq => List.mem_singleton.mp hq ▸ .refl, fun o ho => absurd rfl ho⟩
  suffices hreached : Reached graph k labels₀ start s from hreached.changed
  clear hs h
  induction hrun with
  | refl => exact hinit
  | tail _ hstep ih => exact ih.visit hstep

def Joined (graph : CoPointeeGraph) (labels : List NodeID) : Prop :=
  ∀ o m, entry labels o ≠ UINT_MAX → entry labels o = entry labels m → Linked graph o m

theorem joined_labelKey (hgraph : Undirected numObjects graph) (hmax : numObjects ≤ UINT_MAX) {s s' : Labelling}
    (h : Regions numObjects graph s.next s.labels) (hjoined : Joined graph s.labels) {o : NodeID} (ho : o ∈ graph.keys)
    (hkey : labelKey order graph s o = some s') : Joined graph s'.labels := by
  obtain ⟨l, hl, hkey⟩ := Option.bind_eq_some_iff.mp hkey
  split at hkey
  · cases hkey
    exact hjoined
  · rename_i hnone
    rw [not_not] at hnone
    obtain ⟨labels, hlabels, heq⟩ := Option.bind_eq_some_iff.mp hkey
    cases heq
    have hreached := reached_labelComponent hlabels
    have hlt : s.next < UINT_MAX := h.lt (hgraph.key_lt o ho) (by
      rw [getElem?_eq_entry (h.length_eq.symm ▸ hgraph.key_lt o ho)] at hl
      exact (Option.some.inj hl).trans hnone) hmax
    -- an old label is not the new one
    have hold : ∀ m, entry labels m = entry s.labels m → entry labels m ≠ s.next := by
      intro m hm heq
      rcases h.range m with hr | hr
      · exact hlt.ne (heq.symm.trans (hm.trans hr))
      · exact hr.ne (hm.symm.trans heq)
    intro a b ha hab
    by_cases hca : entry labels a = entry s.labels a
    · by_cases hcb : entry labels b = entry s.labels b
      · exact hjoined a b (hca ▸ ha) (hca.symm.trans (hab.trans hcb))
      · exact absurd (hab.trans (hreached b hcb).1) (hold a hca)
    · by_cases hcb : entry labels b = entry s.labels b
      · exact absurd (hab.symm.trans (hreached a hca).1) (hold b hcb)
      · exact ((hreached a hca).2.symm hgraph).trans (hreached b hcb).2

theorem joined_labelKeys (hgraph : Undirected numObjects graph) (hmax : numObjects ≤ UINT_MAX) (os : List NodeID)
    (hos : ∀ o ∈ os, o ∈ graph.keys) {s s' : Labelling} (h : Regions numObjects graph s.next s.labels)
    (hjoined : Joined graph s.labels) (hrun : os.foldlM (labelKey order graph) s = some s') :
    Joined graph s'.labels := by
  induction os generalizing s with
  | nil =>
      cases hrun
      exact hjoined
  | cons o os ih =>
      rw [List.forall_mem_cons] at hos
      rw [List.foldlM_cons] at hrun
      obtain ⟨s₁, hs₁, hrest⟩ := Option.bind_eq_some_iff.mp hrun
      obtain ⟨t, ht, hone⟩ := labelKey_spec order hgraph hmax h hos.1
      cases hs₁.symm.trans ht
      exact ih hos.2 hone.regions (joined_labelKey hgraph hmax h hjoined hos.1 hs₁) hrest

theorem joined_labelAlone (hmax : numObjects ≤ UINT_MAX) {s : Labelling}
    (h : Regions numObjects graph s.next s.labels) (hjoined : Joined graph s.labels) (o : NodeID) :
    Joined graph (labelAlone s o).labels := by
  rw [labelAlone]
  split
  · rename_i hnone
    obtain ⟨hlen, hval⟩ := List.getElem?_eq_some_iff.mp hnone
    have hlt : s.next < UINT_MAX := h.lt (h.length_eq ▸ hlen) ((getElem_eq_entry hlen).symm.trans hval) hmax
    have hold : ∀ m, entry s.labels m ≠ s.next := by
      intro m heq
      rcases h.range m with hr | hr
      · exact hlt.ne (heq.symm.trans hr)
      · exact hr.ne heq
    intro a b ha hab
    dsimp only at ha hab
    rw [entry_set hlen, entry_set hlen] at hab
    rw [entry_set hlen] at ha
    split at hab
    · split at hab
      · rename_i hao hbo
        rw [hao, hbo]
        exact .refl
      · exact absurd hab.symm (hold b)
    · rename_i hao
      rw [if_neg hao] at ha
      split at hab
      · exact absurd hab (hold a)
      · exact hjoined a b ha hab
  · exact hjoined

theorem joined_labelAll (hgraph : Undirected numObjects graph) (hmax : numObjects ≤ UINT_MAX) (os : List NodeID)
    (hos : ∀ o ∈ os, o < numObjects) {s : Labelling} (h : Regions numObjects graph s.next s.labels)
    (hkeys : ∀ o ∈ graph.keys, entry s.labels o ≠ UINT_MAX) (hjoined : Joined graph s.labels) :
    Joined graph (os.foldl labelAlone s).labels := by
  induction os generalizing s with
  | nil => exact hjoined
  | cons o os ih =>
      rw [List.forall_mem_cons] at hos
      have hone := labelAlone_spec hgraph hmax h hkeys hos.1
      exact ih hos.2 hone.regions (fun m hm => hone.keeps m (hkeys m hm) ▸ hkeys m hm)
        (joined_labelAlone hmax h hjoined o)

theorem joined_regionObjects (hgraph : Undirected numObjects graph) (hmax : numObjects ≤ UINT_MAX) {n : ℕ}
    (h : regionObjects order graph numObjects = some (labels, n)) : Joined graph labels := by
  obtain ⟨s, hs, heq⟩ := Option.bind_eq_some_iff.mp h
  cases heq
  have hnone : ∀ o, entry (List.replicate numObjects UINT_MAX) o = UINT_MAX := by
    intro o
    rcases (regions_init numObjects graph).range o with ho | ho
    · exact ho
    · exact absurd ho (Nat.not_lt_zero _)
  have hstart : Labelling.next ⟨UINT_MAX, List.replicate numObjects UINT_MAX⟩ = 0 := by
    simp [Labelling.next, incr, UINT_MAX]
  have hinit : Regions numObjects graph (Labelling.next ⟨UINT_MAX, List.replicate numObjects UINT_MAX⟩)
      (List.replicate numObjects UINT_MAX) := hstart.symm ▸ regions_init numObjects graph
  have hos : ∀ o ∈ order.iterate graph.keys, o ∈ graph.keys := fun o ho => (order.perm _).mem_iff.mp ho
  obtain ⟨t, ht, hregions, -, hkeys⟩ := labelKeys_spec order hgraph hmax (order.iterate graph.keys) hos
    (s := ⟨UINT_MAX, List.replicate numObjects UINT_MAX⟩) hinit
  cases hs.symm.trans ht
  refine joined_labelAll hgraph hmax (List.range numObjects) (fun o ho => List.mem_range.mp ho) hregions
    (fun o ho => hkeys o ((order.perm _).mem_iff.mpr ho)) ?_
  exact joined_labelKeys hgraph hmax _ hos hinit (fun o m ho => absurd (hnone o) ho) hs

theorem mem_addPointsTo {pts : List NodeID} {u v : NodeID} (h : v ∈ (addPointsTo graph pts).get u) :
    v ∈ graph.get u ∨ u ∈ pts ∧ v ∈ pts := by
  cases pts with
  | nil =>
      left
      rwa [addPointsTo, List.foldl_nil, get_touch] at h
  | cons first pts =>
      have hfold : ∀ g : CoPointeeGraph, (∀ u, ∀ v ∈ g.get u, v ∈ graph.get u ∨ u ∈ first :: pts ∧ v ∈ first :: pts) →
          ∀ u, ∀ v ∈ ((first :: pts).foldl (fun g o => if o = first then g else addEdge g first o) g).get u,
            v ∈ graph.get u ∨ u ∈ first :: pts ∧ v ∈ first :: pts := by
        intro g hg
        refine Folds.foldl_invariant (I := fun g : CoPointeeGraph =>
          ∀ u, ∀ v ∈ g.get u, v ∈ graph.get u ∨ u ∈ first :: pts ∧ v ∈ first :: pts) (fun o ho g hg => ?_) hg
        split
        · exact hg
        · rename_i hne
          intro u v hv
          rcases (mem_addEdge hne u v).mp hv with hv | ⟨rfl, rfl⟩ | ⟨rfl, rfl⟩
          · exact hg u v hv
          · exact .inr ⟨List.mem_cons_self, ho⟩
          · exact .inr ⟨ho, List.mem_cons_self⟩
      refine hfold (graph.touch first) (fun u v hv => ?_) u v h
      rw [get_touch] at hv
      exact .inl hv

theorem share_of_edge {u v : NodeID} (h : v ∈ (collectPointsToSets getPts keys).coPointeeGraph.get u) :
    Share getPts keys u v := by
  suffices hall : ∀ u, ∀ v ∈ (collectPointsToSets getPts keys).coPointeeGraph.get u, Share getPts keys u v from hall u v h
  refine Folds.foldl_invariant (I := fun s : PointsToSets => ∀ u, ∀ v ∈ s.coPointeeGraph.get u, Share getPts keys u v)
    (fun key hkey s hs u v hv => ?_) fun u v hv => absurd hv List.not_mem_nil
  rw [addKey] at hv
  dsimp only at hv
  split at hv
  · exact hs u v hv
  · rcases mem_addPointsTo hv with hv | ⟨hu, hv⟩
    · exact hs u v hv
    · exact ⟨key, hkey, hu, hv⟩

theorem mem_keys_collect {key : NodeID × ℕ} (h : key ∈ keys) :
    getPts key.1 ∈ (collectPointsToSets getPts keys).pointsToSets.keys := by
  rw [collectPointsToSets, Folds.foldl_collects (M := fun pts (s : PointsToSets) => pts ∈ s.pointsToSets.keys)
    (P := fun key pts => pts = getPts key.1)]
  · exact .inr ⟨key, h, rfl⟩
  · exact fun key _ s pts => mem_keys_modify _ _ _ _

/-- The regions are the components of the objects under the points-to sets they share. -/
theorem regionObjects_components (order : HashOrder NodeID) (getPts : NodeID → List NodeID)
    (keys : List (NodeID × ℕ)) (numObjects : ℕ) (hpos : 0 < numObjects) (hmax : numObjects ≤ UINT_MAX)
    (hpts : ∀ key ∈ keys, ∀ o ∈ getPts key.1, o < numObjects) :
    ∃ labels n, regionObjects order (collectPointsToSets getPts keys).coPointeeGraph numObjects = some (labels, n) ∧
      labels.length = numObjects ∧ n ≤ numObjects ∧ (∀ o < numObjects, entry labels o < n) ∧
      (∀ l < n, ∃ o < numObjects, entry labels o = l) ∧
      ∀ o < numObjects, ∀ m, entry labels o = entry labels m ↔ ReflTransGen (Share getPts keys) o m := by
  have hcollected := collectPointsToSets_spec hpos hpts
  obtain ⟨labels, n, hrun, hlen, hlt, hused, hclosed⟩ := regionObjects_spec order hcollected.graph hmax
  have hnone : ∀ o, ¬ o < numObjects → entry labels o = UINT_MAX :=
    fun o ho => entry_of_le (hlen.le.trans (not_lt.mp ho))
  have hregions : Regions numObjects (collectPointsToSets getPts keys).coPointeeGraph n labels := by
    refine ⟨hlen, fun o => ?_, hused, fun o ho => hclosed o (not_not.mp fun h => ho (hnone o h))⟩
    by_cases ho : o < numObjects
    · exact .inr (hlt o ho)
    · exact .inl (hnone o ho)
  have hjoined := joined_regionObjects hcollected.graph hmax hrun
  refine ⟨labels, n, hrun, hlen, hregions.le, hlt, hused, fun o ho m => ⟨fun heq => ?_, fun hpath => ?_⟩⟩
  · have hlabel : entry labels o ≠ UINT_MAX := ((hlt o ho).trans_le (hregions.le.trans hmax)).ne
    exact ReflTransGen.mono (fun _ _ => share_of_edge) _ _ (hjoined o m hlabel heq)
  · -- every object of a set has the label of its first object
    have hfirst : ∀ key ∈ keys, ∀ o ∈ getPts key.1, entry labels o = entry labels ((getPts key.1).headD 0) := by
      intro key hkey o ho
      rcases hcollected.joined _ (mem_keys_collect hkey) o ho with rfl | hedge
      · rfl
      · exact hclosed _ (hcollected.graph.key_lt _ (hcollected.graph.neighbour o _
          (hcollected.graph.symm _ o hedge))) o hedge
    induction hpath with
    | refl => rfl
    | tail _ hshare ih =>
        obtain ⟨key, hkey, hb, hc⟩ := hshare
        exact ih.trans ((hfirst key hkey _ hb).trans (hfirst key hkey _ hc).symm)

theorem regionObjects_components_two : ∃ labels n,
    regionObjects ⟨id, fun l => .refl l⟩ (collectPointsToSets (fun _ => [4, 5]) [(0, 1)]).coPointeeGraph 6 =
      some (labels, n) ∧ entry labels 4 = entry labels 5 := by
  obtain ⟨labels, n, hrun, -, -, -, -, hiff⟩ := regionObjects_components ⟨id, fun l => .refl l⟩ (fun _ => [4, 5]) [(0, 1)] 6
    (by decide) (by decide) (by decide)
  exact ⟨labels, n, hrun, (hiff 4 (by decide) 5).mpr (.single ⟨(0, 1), by simp, by simp, by simp⟩)⟩

end SVF.Util.RegionComponents
