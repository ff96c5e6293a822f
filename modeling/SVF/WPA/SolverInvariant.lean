import SVF.Graphs.ReachableGraphs
import SVF.Util.Folds
import SVF.WPA.AndersenSolver

namespace SVF.WPA.SolverInvariant

open Graphs.ConsG Graphs.FieldObjects Graphs.Registration Graphs.Retargeting
open Graphs.ReachableGraphs MemoryModel.MutablePointsToDS AndersenSolver Andersen

/-- A field object of a field-insensitive object that nothing points to any more. -/
def Gone (s : Andersen) (x : NodeID) : Prop :=
  IsCollapsed s.pag x ∧ ∀ k, x ∉ s.ptD.getPts k

structure Basic (s : Andersen) : Prop where
  graph : WellFormed s.consCG
  pag : Consistent s.pag
  inverse : s.ptD.mutPTData.Inverse
  known : ∀ k x, x ∈ s.ptD.getPts k → x ∈ s.pag.nodes

/-- What every step does to the points-to sets: only objects that are gone leave
them, and those do not come back. -/
structure Evolves (s t : Andersen) : Prop where
  gone : ∀ x, Gone s x → Gone t x
  pts : ∀ k x, x ∈ s.ptD.getPts k → x ∈ t.ptD.getPts k ∨ Gone t x

structure Grows (s t : Andersen) : Prop where
  ext : Extends s.pag t.pag
  edges : edges t.consCG = edges s.consCG
  rep : ∀ id, t.sccRepNode id = s.sccRepNode id
  gone : ∀ x, Gone s x → Gone t x
  pts : ∀ k x, x ∈ s.ptD.getPts k → x ∈ t.ptD.getPts k
  diff : t.ptD.diffPtsMap = s.ptD.diffPtsMap
  propa : t.ptD.propaPtsMap = s.ptD.propaPtsMap

variable {opts : Options} {alloc : NodeIDAllocator} {s t u : Andersen}

theorem Evolves.refl (s : Andersen) : Evolves s s := ⟨fun _ h => h, fun _ _ h => .inl h⟩

theorem Evolves.trans (h : Evolves s t) (h' : Evolves t u) : Evolves s u := by
  refine ⟨fun x hx => h'.gone x (h.gone x hx), fun k x hx => ?_⟩
  rcases h.pts k x hx with hx | hx
  · exact h'.pts k x hx
  · exact .inr (h'.gone x hx)

theorem Evolves.or_gone (h : Evolves s t) {k x : NodeID} (hx : x ∈ s.ptD.getPts k ∨ Gone s x) :
    x ∈ t.ptD.getPts k ∨ Gone t x := by
  rcases hx with hx | hx
  · exact h.pts k x hx
  · exact .inr (h.gone x hx)

theorem Grows.refl (s : Andersen) : Grows s s :=
  ⟨Extends.refl s.pag, rfl, fun _ => rfl, fun _ h => h, fun _ _ h => h, rfl, rfl⟩

theorem Grows.trans (h : Grows s t) (h' : Grows t u) : Grows s u where
  ext := h.ext.trans h'.ext
  edges := h'.edges.trans h.edges
  rep := fun id => (h'.rep id).trans (h.rep id)
  gone := fun x hx => h'.gone x (h.gone x hx)
  pts := fun k x hx => h'.pts k x (h.pts k x hx)
  diff := h'.diff.trans h.diff
  propa := h'.propa.trans h.propa

theorem Grows.evolves (h : Grows s t) : Evolves s t := ⟨h.gone, fun k x hx => .inl (h.pts k x hx)⟩

theorem not_gone_of_mem {k x : NodeID} (h : x ∈ s.ptD.getPts k) : ¬ Gone s x :=
  fun hgone => hgone.2 k h

theorem not_gone_of_base {x : NodeID} (h : s.pag.gepObjVar x = none) : ¬ Gone s x :=
  fun hgone => not_isCollapsed_of_base h hgone.1

theorem gone_of_subset (hext : Extends s.pag t.pag)
    (h : ∀ k x, x ∈ t.ptD.getPts k → x ∈ s.ptD.getPts k ∨ ¬ Gone s x) (x : NodeID) (hx : Gone s x) :
    Gone t x := by
  refine ⟨hx.1.mono hext, fun k hk => ?_⟩
  rcases h k x hk with hk | hk
  · exact hx.2 k hk
  · exact hk hx

def Live (s : Andersen) (x : NodeID) : Prop := x ∈ s.pag.nodes ∧ ¬ Gone s x

theorem Basic.live (hs : Basic s) {k x : NodeID} (h : x ∈ s.ptD.getPts k) : Live s x :=
  ⟨hs.known k x h, not_gone_of_mem h⟩

theorem mem_getPts_unionPts (s : Andersen) (id : NodeID) (target : List NodeID) (k x : NodeID) :
    x ∈ (s.unionPts id target).1.ptD.getPts k ↔
      x ∈ s.ptD.getPts k ∨ k = s.sccRepNode id ∧ x ∈ target :=
  mem_unionPts s.ptD.mutPTData (s.sccRepNode id) target k x

theorem basic_unionPts (hs : Basic s) (id : NodeID) {target : List NodeID}
    (h : ∀ x ∈ target, Live s x) : Basic (s.unionPts id target).1 := by
  refine ⟨hs.graph, hs.pag, inverse_unionPts hs.inverse _ _, fun k x hx => ?_⟩
  rcases (mem_getPts_unionPts s id target k x).mp hx with hx | ⟨-, hx⟩
  · exact hs.known k x hx
  · exact (h x hx).1

theorem grows_unionPts (id : NodeID) {target : List NodeID} (h : ∀ x ∈ target, Live s x) :
    Grows s (s.unionPts id target).1 := by
  refine ⟨Extends.refl s.pag, rfl, fun _ => rfl, ?_, ?_, rfl, rfl⟩
  · refine gone_of_subset (t := (s.unionPts id target).1) (Extends.refl s.pag) fun k x hx => ?_
    exact ((mem_getPts_unionPts s id target k x).mp hx).imp_right fun hx => (h x hx.2).2
  · intro k x hx
    exact (mem_getPts_unionPts s id target k x).mpr (.inl hx)

theorem pushIntoWorklist_eq (s : Andersen) (id : NodeID) :
    ∃ worklist, s.pushIntoWorklist id = { s with worklist := worklist } := by
  rw [pushIntoWorklist]
  split
  · exact ⟨s.worklist, rfl⟩
  · exact ⟨_, rfl⟩

theorem unionAndPush_eq (s : Andersen) (dst : NodeID) (pts : List NodeID) :
    ∃ worklist, s.unionAndPush dst pts = { (s.unionPts dst pts).1 with worklist := worklist } := by
  rw [unionAndPush]
  split
  · rename_i s' h
    obtain ⟨worklist, hpush⟩ := pushIntoWorklist_eq s' dst
    exact ⟨worklist, by rw [hpush, h]⟩
  · rename_i s' h
    exact ⟨s'.worklist, by rw [h]⟩

theorem unionAndPush_spec (hs : Basic s) (dst : NodeID) (pts : List NodeID)
    (h : ∀ x ∈ pts, Live s x) : Basic (s.unionAndPush dst pts) ∧ Grows s (s.unionAndPush dst pts) ∧
      ∀ x ∈ pts, x ∈ (s.unionAndPush dst pts).ptD.getPts (s.sccRepNode dst) := by
  obtain ⟨worklist, heq⟩ := unionAndPush_eq s dst pts
  have hbasic := basic_unionPts hs dst h
  have hgrows := grows_unionPts dst h
  rw [heq]
  refine ⟨⟨hbasic.graph, hbasic.pag, hbasic.inverse, hbasic.known⟩, ⟨hgrows.ext, hgrows.edges,
    hgrows.rep, hgrows.gone, hgrows.pts, hgrows.diff, hgrows.propa⟩, fun x hx => ?_⟩
  exact (mem_getPts_unionPts s dst pts _ x).mpr (.inr ⟨rfl, hx⟩)

theorem setObjFieldInsensitive_spec (hs : Basic s) (o : NodeID) :
    Basic { s with pag := s.pag.setObjFieldInsensitive o } ∧
      Grows s { s with pag := s.pag.setObjFieldInsensitive o } := by
  have hext := extends_setObjFieldInsensitive s.pag o
  exact ⟨⟨hs.graph, consistent_setObjFieldInsensitive hs.pag o, hs.inverse, hs.known⟩,
    ⟨hext, rfl, fun _ => rfl, fun _ hx => ⟨hx.1.mono hext, hx.2⟩, fun _ _ hx => hx, rfl, rfl⟩⟩

theorem wellFormed_addNodeToBeCollapsed {g : ConstraintGraph} (hg : WellFormed g) (id : NodeID) :
    WellFormed (g.addNodeToBeCollapsed id) := by
  rw [ConstraintGraph.addNodeToBeCollapsed]
  split
  · exact hg
  · exact wellFormed_nodesToBeCollapsed hg _

theorem sccRepNode_addNodeToBeCollapsed (g : ConstraintGraph) (id j : NodeID) :
    (g.addNodeToBeCollapsed id).sccRepNode j = g.sccRepNode j := by
  rw [ConstraintGraph.addNodeToBeCollapsed]
  split <;> rfl

theorem edges_addNodeToBeCollapsed (g : ConstraintGraph) (id : NodeID) :
    edges (g.addNodeToBeCollapsed id) = edges g := by
  rw [ConstraintGraph.addNodeToBeCollapsed]
  split <;> rfl

/-- What a loop over objects has done to the state `s`, and collected for the gep edge. -/
structure Collected (C : Andersen → NodeID → Prop) (s : Andersen) (p : Andersen × List NodeID) :
    Prop where
  basic : Basic p.1
  grows : Grows s p.1
  mem : ∀ x ∈ p.2, C p.1 x

theorem Collected.nil (C : Andersen → NodeID → Prop) (hs : Basic s) : Collected C s (s, []) :=
  ⟨hs, Grows.refl s, fun _ hx => absurd hx List.not_mem_nil⟩

theorem Collected.insert {C : Andersen → NodeID → Prop} {tmp : List NodeID} {x : NodeID}
    (h : Collected C s (t, tmp)) (hu : Basic u) (hgrows : Grows t u) (hC : ∀ y, C t y → C u y)
    (hx : C u x) : Collected C s (u, tmp.insert x) := by
  refine ⟨hu, h.grows.trans hgrows, fun y hy => ?_⟩
  rcases List.mem_insert_iff.mp hy with rfl | hy
  · exact hx
  · exact hC y (h.mem y hy)

/-- Setting objects field-insensitive does not collapse a base or an object that is pointed to. -/
def Kept (s : Andersen) (x : NodeID) : Prop :=
  x ∈ s.pag.nodes ∧ (s.pag.gepObjVar x = none ∨ ∃ k, x ∈ s.ptD.getPts k)

theorem Kept.live {x : NodeID} (h : Kept s x) : Live s x := by
  obtain ⟨hnode, hbase | ⟨k, hk⟩⟩ := h
  · exact ⟨hnode, not_gone_of_base hbase⟩
  · exact ⟨hnode, not_gone_of_mem hk⟩

theorem variantGepObj_collected {p : Andersen × List NodeID} (h : Collected Kept s p) {k o : NodeID}
    (ho : o ∈ s.ptD.getPts k) : Collected Kept s (variantGepObj p o) := by
  obtain ⟨t, tmp⟩ := p
  have ho := h.grows.pts k o ho
  have hnode := h.basic.known k o ho
  rw [variantGepObj]
  split
  · exact h.insert h.basic (Grows.refl t) (fun _ hy => hy) ⟨hnode, .inr ⟨k, ho⟩⟩
  · have hbase : t.pag.getBaseObjVar o ∈ t.pag.nodes ∧
        t.pag.gepObjVar (t.pag.getBaseObjVar o) = none :=
      ⟨getBaseObjVar_mem h.basic.pag hnode, gepObjVar_getBaseObjVar h.basic.pag o⟩
    simp only
    split
    · exact h.insert h.basic (Grows.refl t) (fun _ hy => hy) ⟨hbase.1, .inl hbase.2⟩
    · obtain ⟨hbasic, hgrows⟩ := setObjFieldInsensitive_spec h.basic o
      refine h.insert ?_ ?_ (fun _ hy => hy) ⟨hbase.1, .inl hbase.2⟩
      · exact ⟨wellFormed_addNodeToBeCollapsed hbasic.graph _, hbasic.pag, hbasic.inverse,
          hbasic.known⟩
      · exact ⟨hgrows.ext, edges_addNodeToBeCollapsed _ _,
          fun id => sccRepNode_addNodeToBeCollapsed _ _ id, hgrows.gone, hgrows.pts, rfl, rfl⟩

theorem getGepObjVar_collected {p : Andersen × List NodeID} (h : Collected Live s p) {o : NodeID}
    (ho : o ∈ p.1.pag.nodes) (apOffset : APOffset) :
    Collected Live s ((p.1.getGepObjVar opts alloc o apOffset).1,
      p.2.insert (p.1.getGepObjVar opts alloc o apOffset).2) := by
  obtain ⟨t, tmp⟩ := p
  obtain ⟨hpag, hext, hlimit, hold, hmem, hsens⟩ :=
    getGepObjVar_spec h.basic.pag opts alloc ho apOffset
  rw [Andersen.getGepObjVar]
  generalize t.pag.getGepObjVar opts alloc o apOffset = r at *
  obtain ⟨pag, gep⟩ := r
  simp only at *
  have hgone : ∀ (y : NodeID) (v : Andersen), v.pag = pag → v.ptD = t.ptD → Live t y → Live v y := by
    rintro y v rfl hpts ⟨hy, hlive⟩
    refine ⟨hext.nodes y hy, fun hgone => hlive ⟨?_, hpts ▸ hgone.2⟩⟩
    obtain ⟨b, i, hgep, hb⟩ := hgone.1
    exact ⟨b, i, hold y hy ▸ hgep, hlimit ▸ hb⟩
  have hmono : ∀ x, Gone t x → IsCollapsed pag x := fun x hx => hx.1.mono hext
  have hknown : ∀ k x, x ∈ t.ptD.getPts k → x ∈ pag.nodes := fun k x hx =>
    hext.nodes x (h.basic.known k x hx)
  split
  · rename_i hnew
    have hfresh : t.consCG.hasGNode gep = false := by
      have hnode := hnew.2
      rwa [ConstraintGraph.hasConstraintNode, hnew.1] at hnode
    refine h.insert ⟨wellFormed_addConstraintNode h.basic.graph hnew.1 hfresh, hpag,
      h.basic.inverse, hknown⟩ ⟨hext, rfl, fun _ => rfl, fun x hx => ⟨hmono x hx, hx.2⟩,
      fun _ _ hx => hx, rfl, rfl⟩ (fun y hy => hgone y _ rfl rfl hy) ⟨hmem, fun hx => hsens hx.1⟩
  · exact h.insert ⟨h.basic.graph, hpag, h.basic.inverse, hknown⟩ ⟨hext, rfl, fun _ => rfl,
      fun x hx => ⟨hmono x hx, hx.2⟩, fun _ _ hx => hx, rfl, rfl⟩
      (fun y hy => hgone y _ rfl rfl hy) ⟨hmem, fun hx => hsens hx.1⟩

theorem normalGepObj_collected (opts : Options) (alloc : NodeIDAllocator) (ap : AccessPath) {p : Andersen × List NodeID}
    (h : Collected Live s p) {k o : NodeID} (ho : o ∈ s.ptD.getPts k) :
    Collected Live s (normalGepObj opts alloc ap p o) := by
  obtain ⟨t, tmp⟩ := p
  have ho := h.grows.pts k o ho
  rw [normalGepObj]
  split
  · exact h.insert h.basic (Grows.refl t) (fun _ hy => hy) (h.basic.live ho)
  · exact getGepObjVar_collected h (h.basic.known k o ho) ap.fldIdx

theorem foldl_collected {C : Andersen → NodeID → Prop} {f : Andersen × List NodeID → NodeID →
    Andersen × List NodeID} (hs : Basic s) {k : NodeID} {pts : List NodeID}
    (hpts : ∀ o ∈ pts, o ∈ s.ptD.getPts k)
    (hf : ∀ p o, Collected C s p → o ∈ s.ptD.getPts k → Collected C s (f p o)) :
    Collected C s (pts.foldl f (s, [])) :=
  Util.Folds.foldl_invariant (fun o ho p hp => hf p o hp (hpts o ho)) (Collected.nil C hs)

theorem processGepPts_spec (opts : Options) (alloc : NodeIDAllocator) (hs : Basic s) {k : NodeID} {pts : List NodeID}
    (hpts : ∀ o ∈ pts, o ∈ s.ptD.getPts k) (edge : ConstraintEdge) :
    Basic (s.processGepPts opts alloc pts edge) ∧ Grows s (s.processGepPts opts alloc pts edge) := by
  rw [processGepPts]
  split
  · have h := foldl_collected hs hpts fun p o hp ho => variantGepObj_collected hp ho
    obtain ⟨hbasic, hgrows, -⟩ := unionAndPush_spec h.basic edge.dst _ fun x hx => (h.mem x hx).live
    exact ⟨hbasic, h.grows.trans hgrows⟩
  · rename_i ap _
    have h := foldl_collected hs hpts fun p o hp ho =>
      normalGepObj_collected opts alloc ap hp ho
    obtain ⟨hbasic, hgrows, -⟩ := unionAndPush_spec h.basic edge.dst _ h.mem
    exact ⟨hbasic, h.grows.trans hgrows⟩
  · exact ⟨hs, Grows.refl s⟩

end SVF.WPA.SolverInvariant
