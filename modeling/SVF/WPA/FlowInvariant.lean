import SVF.WPA.FlowPropagation

namespace SVF.WPA.FlowInvariant

open Graphs.ConsG Graphs.FieldObjects Graphs.FieldLookup Graphs.ValueFlowGraph
open MemoryModel.DataFlowPTData MemoryModel.LawfulPTData FlowSensitiveSolver FlowObjects FlowStep
open FlowPropagation Util.Folds
open FlowEquations (NodeClosed EdgeClosed Satisfies FactOver mapFact_id Reads EdgeReads
  edgeClosed_direct)
open UpdatedVars (newIn newOut)

/-- A node is waiting for one that stands for the definition of a pointer it uses. -/
def Pending (svfg : SVFG) (worklist : List NodeID) (n : NodeID) : Prop :=
  ∃ d ∈ worklist, d ∈ svfg.nodes ∧ (svfg.node d).isInterprocedural = true ∧
    ∃ v ∈ (svfg.node n).uses, (svfg.node d).def? = some v

def Settled (inp : Input) (pag : SVFIR) (F : Set Fact) (n : NodeID) : Prop :=
  NodeClosed (pagObjects inp pag) (inp.svfg.node n) n F F ∧
    ∀ e ∈ inp.svfg.edges, e.src = n → (inp.svfg.node n).isStore = false →
      EdgeClosed (pagObjects inp pag) inp.svfg.node e F F

structure Inv {D : Type} [DFPTData D] [UpdatedVars D] (inp : Input) (s : FlowSensitive D) : Prop
    extends Ready inp s where
  known : s.worklist ⊆ inp.svfg.nodes
  stored : ∀ e ∈ inp.svfg.edges, (inp.svfg.node e.src).isStore = true →
    EdgeClosed (pagObjects inp s.pag) inp.svfg.node e (facts s.ptD) (facts s.ptD)
  settled : ∀ n ∈ inp.svfg.nodes, n ∉ s.worklist →
    Settled inp s.pag (facts s.ptD) n ∨ Pending inp.svfg s.worklist n

theorem wellFormed_grown {svfg : SVFG} {pag pag' : SVFIR} (h : WellFormed svfg pag)
    (hgrown : Grown pag pag') : WellFormed svfg pag' where
  src := h.src
  dst := h.dst
  defUse := h.defUse
  indirect := h.indirect
  loaded n hn dst src hnode := by
    rw [hgrown.pointer]
    exact h.loaded n hn dst src hnode
  stored n hn dst src hnode := by
    rw [hgrown.pointer]
    exact h.stored n hn dst src hnode
  object n hn dst src hnode := hgrown.nodes _ (h.object n hn dst src hnode)
  label e he pts hkind c hc := hgrown.nodes _ (h.label e he pts hkind c hc)

section

variable {inp : Input} {pag pag' : SVFIR} {F : Set Fact} (hwf : WellFormed inp.svfg pag)
  (hsound : Sound pag) (hgrown : Grown pag pag') (hover : ∀ f ∈ F, FactOver (nodeSet pag) f)

include hwf hsound hgrown hover

theorem nodeClosed_grown {n : NodeID} (hn : n ∈ inp.svfg.nodes)
    (h : NodeClosed (pagObjects inp pag) (inp.svfg.node n) n F F) :
    NodeClosed (pagObjects inp pag') (inp.svfg.node n) n F F := by
  have hmap := NodeClosed.map (renaming_grown hsound hgrown hwf.object hwf.label)
    hover hn h
  rwa [mapFact_id] at hmap

theorem edgeClosed_grown {e : SVFGEdge} (he : e ∈ inp.svfg.edges)
    (h : EdgeClosed (pagObjects inp pag) inp.svfg.node e F F) :
    EdgeClosed (pagObjects inp pag') inp.svfg.node e F F := by
  have hmap := EdgeClosed.map (renaming_grown hsound hgrown hwf.object hwf.label)
    hover he h
  rwa [mapFact_id] at hmap

end

/-- What an equation adds is about objects of the graph. -/
theorem nodeClosed_over {inp : Input} {pag : SVFIR} {n : NodeID} {F F' : Set Fact}
    (hsound : Sound pag) (hobj : ∀ dst src, inp.svfg.node n = .addr dst src → src ∈ pag.nodes)
    (hF : ∀ f ∈ F, FactOver (nodeSet pag) f)
    (h : NodeClosed (pagObjects inp pag) (inp.svfg.node n) n F F') :
    NodeClosed (pagObjects inp pag) (inp.svfg.node n) n F {f | FactOver (nodeSet pag) f} := by
  cases hnode : inp.svfg.node n with
  | addr dst src => exact addr_mem hsound (hobj dst src hnode)
  | copy dst src => exact fun o ho => hF _ ho
  | gep dst src idx =>
      rw [hnode] at h
      intro o ho
      obtain ⟨o', hgep, -⟩ := h o ho
      exact ⟨o', hgep, gepTarget_mem hsound (hF _ ho) hgep⟩
  | load dst src => exact fun _ _ _ _ _ _ hx => (hF _ hx).2
  | store dst src => exact ⟨fun _ ho _ _ hx => ⟨hF _ ho, hF _ hx⟩, fun _ _ _ _ hx => hF _ hx⟩
  | phi res opVers => exact fun _ _ _ ho => hF _ ho
  | _ => trivial

theorem edgeClosed_over {inp : Input} {pag : SVFIR} {e : SVFGEdge} {F : Set Fact}
    (hF : ∀ f ∈ F, FactOver (nodeSet pag) f) :
    EdgeClosed (pagObjects inp pag) inp.svfg.node e F {f | FactOver (nodeSet pag) f} := by
  rw [EdgeClosed]
  cases e.kind with
  | direct =>
      simp only
      split
      · exact fun o ho => hF _ ho
      · exact fun o ho => hF _ ho
      · trivial
  | indirect pts =>
      intro c hc v hv x hx
      have hover := hF _ hx
      rw [FlowEquations.sourceFact] at hover
      split at hover
      · exact hover
      · exact hover

section

variable {D : Type} [DFPTData D] [UpdatedVars D] [LawfulDFPTData D] {inp : Input}
  {s : FlowSensitive D} {n : NodeID}

theorem propagateEdge_propagates {e : SVFGEdge} (hdst : e.dst ∈ inp.svfg.nodes) (s : FlowSensitive D) :
    Propagates inp s (s.propagateEdge inp e) := by
  cases hkind : e.kind with
  | direct => exact (propagated_direct hkind hdst).propagates
  | indirect pts =>
      rw [FlowSensitive.propagateEdge, FlowSensitive.propFromSrcToDst, hkind]
      exact flow_propagates (propVarPtsFromSrcToDst_transfers inp e.src e.dst) hdst s _

variable (hwf : WellFormed inp.svfg s.pag) (hflags : Flags inp.svfg.node s.ptD)
  (hpasses : ∀ e ∈ inp.svfg.outEdges n, Passes inp s e)

include hwf

theorem propagate_propagates : Propagates inp s (s.propagate inp n) :=
  foldl_rel (Propagates inp)
    (fun e he t => propagateEdge_propagates (hwf.dst e (mem_outEdges.mp he).1) t) s

include hflags hpasses

theorem propagated_later {e : SVFGEdge} (he : e ∈ inp.svfg.outEdges n) {t : FlowSensitive D}
    (hst : Propagates inp s t) : Propagated inp e t (t.propagateEdge inp e) := by
  have hedge := (mem_outEdges.mp he).1
  cases hkind : e.kind with
  | direct => exact propagated_direct hkind (hwf.dst e hedge)
  | indirect pts =>
      exact propagated_indirect hkind (hwf.dst e hedge) (hwf.indirect e hedge pts hkind)
        (hst.flags hflags) ((hpasses e he).mono hst)

theorem propagate_closed {e : SVFGEdge} (he : e ∈ inp.svfg.outEdges n) :
    EdgeClosed (pagObjects inp s.pag) inp.svfg.node e (facts s.ptD)
      (facts (s.propagate inp n).ptD) := by
  refine foldl_covers (Propagates inp)
    (fun e he t => propagateEdge_propagates (hwf.dst e (mem_outEdges.mp he).1) t)
    (Q := fun t => EdgeClosed (pagObjects inp s.pag) inp.svfg.node e (facts s.ptD) (facts t.ptD))
    (fun t u htu h => h.mono (fun _ hf _ => hf) htu.mono) he (fun t hst => ?_)
  have hclosed := (propagated_later hwf hflags hpasses he hst).closed
  rw [hst.pag] at hclosed
  exact hclosed.mono (fun _ hf _ => hst.mono hf) (fun _ hf => hf)

theorem propagate_direct {m : NodeID} (he : ⟨n, m, .direct⟩ ∈ inp.svfg.edges)
    (hparm : ∀ p, inp.svfg.node n ≠ .actualParm p) (hret : ∀ p, inp.svfg.node n ≠ .formalRet p) :
    m ∈ (s.propagate inp n).worklist := by
  have hmem : (⟨n, m, .direct⟩ : SVFGEdge) ∈ inp.svfg.outEdges n := mem_outEdges.mpr ⟨he, rfl⟩
  exact foldl_covers (Propagates inp)
    (fun e he t => propagateEdge_propagates (hwf.dst e (mem_outEdges.mp he).1) t)
    (Q := fun t => m ∈ t.worklist) (fun t u htu h => htu.worklist h) hmem
    (fun t hst => (propagated_later hwf hflags hpasses hmem hst).direct rfl hparm hret)

theorem propagate_least {T : Set Fact} (hT : facts s.ptD ⊆ T)
    (hclosed : ∀ F ⊆ T, ∀ e ∈ inp.svfg.outEdges n,
      EdgeClosed (pagObjects inp s.pag) inp.svfg.node e F T) :
    facts (s.propagate inp n).ptD ⊆ T := by
  have hfold : ∀ (l : List SVFGEdge) (t : FlowSensitive D), l ⊆ inp.svfg.outEdges n →
      Propagates inp s t → facts t.ptD ⊆ T →
      facts (l.foldl (fun s e => s.propagateEdge inp e) t).ptD ⊆ T := by
    intro l
    induction l with
    | nil => exact fun _ _ _ h => h
    | cons e l ih =>
        intro t hl hst ht
        have he : e ∈ inp.svfg.outEdges n := hl List.mem_cons_self
        have hstep := propagated_later hwf hflags hpasses he hst
        refine ih _ (fun e' he' => hl (List.mem_cons_of_mem e he'))
          (hst.trans hstep.propagates) (hstep.least T ht ?_)
        rw [hst.pag]
        exact hclosed _ ht e he
  exact hfold _ s (fun _ he => he) (Propagates.refl s) hT

end

section

variable {D : Type} [DFPTData D] [UpdatedVars D] [LawfulDFPTData D] {inp : Input}
  {s : FlowSensitive D} {n : NodeID}

/-- The state after a node has been processed, before its OUT flags are cleared. -/
def afterPropagation (inp : Input) (n : NodeID) (r : FlowSensitive D × Bool) : FlowSensitive D :=
  if r.2 then r.1.propagate inp n else r.1

omit [UpdatedVars D] [LawfulDFPTData D] in
theorem processNode_eq : s.processNode inp n =
    (afterPropagation inp n (s.processSVFGNode inp n)).clearAllDFOutVarFlag n := rfl

theorem Inv.clear (h : Inv inp s) : Inv inp (s.clearAllDFOutVarFlag n) := by
  have hfacts : facts (s.clearAllDFOutVarFlag n).ptD = facts s.ptD :=
    LawfulDFPTData.facts_clear s.ptD n
  refine ⟨⟨h.wellFormed, h.sound, ?_, fun m v x hx => ?_⟩, h.known, ?_, ?_⟩
  · rw [hfacts]
    exact h.factsOver
  · rw [hfacts] at hx ⊢
    exact (h.flags m v x hx).imp (LawfulDFPTData.newIn_clear s.ptD n m v).mpr id
  · rw [hfacts]
    exact h.stored
  · rw [hfacts]
    exact h.settled

variable (h : Inv inp s) (hn : n ∈ inp.svfg.nodes) {r : FlowSensitive D × Bool}
  (hr : Processed inp n (s.popFromWorklist n) r)
  (htransit : IsTransit (inp.svfg.node n) → r.2 = true)

include h hr

omit [LawfulDFPTData D] in
/-- What the node has written is flagged, and what it had written has arrived. -/
theorem passes_processed {e : SVFGEdge} (he : e ∈ inp.svfg.outEdges n) : Passes inp r.1 e := by
  intro hstore pts hkind c hc v hv x hx
  by_cases hold : .dfOut e.src v x ∈ facts s.ptD
  · have hclosed := h.stored e (mem_outEdges.mp he).1 hstore
    rw [EdgeClosed, hkind] at hclosed
    have hlabel := h.wellFormed.label e (mem_outEdges.mp he).1 pts hkind c hc
    rw [objAndFields_grown hr.grown hlabel] at hv
    refine .inr (hr.mono (hclosed c hc v hv x ?_))
    rw [sourceFact_store hstore]
    exact hold
  · exact .inl (hr.flagOut _ _ _ hx hold)

include hn

omit [LawfulDFPTData D] in
theorem ready_processed : Ready inp r.1 where
  wellFormed := wellFormed_grown h.wellFormed hr.grown
  sound := hr.sound
  flags := hr.flags
  factsOver := by
    have hold : facts s.ptD ⊆ {f | FactOver (nodeSet r.1.pag) f} := by
      intro f hf
      have hover := h.factsOver f hf
      cases f with
      | pts v x => exact hr.grown.nodes _ hover
      | dfIn l v x => exact ⟨hr.grown.nodes _ hover.1, hr.grown.nodes _ hover.2⟩
      | dfOut l v x => exact ⟨hr.grown.nodes _ hover.1, hr.grown.nodes _ hover.2⟩
    exact hr.least _ hold (nodeClosed_over hr.sound
      (fun dst src hnode => hr.grown.nodes _ (h.wellFormed.object n hn dst src hnode)) hold hr.closed)

theorem afterPropagation_propagates : Propagates inp r.1 (afterPropagation inp n r) := by
  rw [afterPropagation]
  split
  · exact propagate_propagates (ready_processed h hn hr).wellFormed
  · exact Propagates.refl r.1

/-- A new fact that a node reads puts the node, or the one it waits for, into the worklist. -/
theorem reads_old {m : NodeID} (hm : m ∈ inp.svfg.nodes)
    (hmem : m ∉ (afterPropagation inp n r).worklist)
    (hpending : ¬ Pending inp.svfg (afterPropagation inp n r).worklist m) {f : Fact}
    (hf : f ∈ facts (afterPropagation inp n r).ptD) (hreads : Reads (inp.svfg.node m) m f) :
    f ∈ facts s.ptD := by
  have hready := ready_processed h hn hr
  have hprop := afterPropagation_propagates h hn hr
  by_contra hnew
  by_cases hmid : f ∈ facts r.1.ptD
  · -- the node has added it
    obtain ⟨hout, hchanged⟩ := hr.output f hmid hnew
    cases f with
    | pts v x =>
        have hedge := h.wellFormed.defUse n hn m hm v hout hreads
        rw [afterPropagation, if_pos hchanged] at hmem
        refine hmem (propagate_direct hready.wellFormed hready.flags
          (fun e he => passes_processed h hr he) hedge (fun p hp => ?_) (fun p hp => ?_))
        · simp [Output, hp, SVFGNode.def?] at hout
        · simp [Output, hp, SVFGNode.def?] at hout
    | dfIn l v x => exact hout
    | dfOut l v x => exact hreads
  · -- propagation has added it
    have hnotified := hprop.notified f hf hmid
    cases f with
    | pts v x =>
        obtain ⟨d, hd, hdn, hinter, hdef⟩ := hnotified
        exact hpending ⟨d, hd, hdn, hinter, v, hreads, hdef⟩
    | dfIn l v x =>
        subst hreads
        exact hmem hnotified
    | dfOut l v x => exact hreads

include htransit

theorem settled_self (hmem : n ∉ (afterPropagation inp n r).worklist)
    (hpending : ¬ Pending inp.svfg (afterPropagation inp n r).worklist n) :
    Settled inp r.1.pag (facts (afterPropagation inp n r).ptD) n := by
  have hready := ready_processed h hn hr
  have hprop := afterPropagation_propagates h hn hr
  have hreads : ∀ f ∈ facts (afterPropagation inp n r).ptD, Reads (inp.svfg.node n) n f →
      f ∈ facts s.ptD := fun f => reads_old h hn hr hn hmem hpending
  refine ⟨hr.closed.mono hreads hprop.mono, ?_⟩
  rintro e he rfl hstore
  by_cases hchanged : r.2 = true
  · have hclosed := propagate_closed hready.wellFormed hready.flags
      (fun e he => passes_processed h hr he) (mem_outEdges.mpr ⟨he, rfl⟩)
    have heq : afterPropagation inp e.src r = r.1.propagate inp e.src := if_pos hchanged
    rw [← heq] at hclosed
    exact hclosed.mono (fun f hf hedge => hr.mono (hreads f hf (hedge.reads hstore)))
      (fun _ hf => hf)
  · -- only edges of nodes that always propagate have an equation
    cases hkind : e.kind with
    | direct =>
        refine edgeClosed_direct hkind (fun p hp => hchanged ?_) (fun p hp => hchanged ?_) _ _
        · exact htransit (.inr (.inr (.inl ⟨p, hp⟩)))
        · exact htransit (.inr (.inr (.inr ⟨p, hp⟩)))
    | indirect pts =>
        have hmssa := (h.wellFormed.indirect e he pts hkind).resolve_left (by simp [hstore])
        exact absurd (htransit (.inl hmssa)) hchanged

theorem settled_other {m : NodeID} (hm : m ∈ inp.svfg.nodes) (hne : m ≠ n)
    (hmem : m ∉ (afterPropagation inp n r).worklist)
    (hpending : ¬ Pending inp.svfg (afterPropagation inp n r).worklist m) :
    Settled inp r.1.pag (facts (afterPropagation inp n r).ptD) m := by
  have hready := ready_processed h hn hr
  have hprop := afterPropagation_propagates h hn hr
  have hreads : ∀ f ∈ facts (afterPropagation inp n r).ptD, Reads (inp.svfg.node m) m f →
      f ∈ facts s.ptD := fun f => reads_old h hn hr hm hmem hpending
  have hgrow : facts s.ptD ⊆ facts (afterPropagation inp n r).ptD :=
    fun f hf => hprop.mono (hr.mono hf)
  have hkept : ∀ d ∈ s.worklist, d ≠ n → d ∈ (afterPropagation inp n r).worklist := by
    intro d hd hdn
    refine hprop.worklist ?_
    rw [hr.worklist]
    exact List.mem_filter.mpr ⟨hd, by simpa using hdn⟩
  rcases h.settled m hm (fun hw => hmem (hkept m hw hne)) with ⟨hnode, hedges⟩ | ⟨d, hd, hrest⟩
  · refine ⟨?_, fun e he hsrc hstore => ?_⟩
    · exact (nodeClosed_grown h.wellFormed h.sound hr.grown h.factsOver hm hnode).mono hreads hgrow
    · subst hsrc
      have hclosed := hedges e he rfl hstore
      exact (edgeClosed_grown h.wellFormed h.sound hr.grown h.factsOver he hclosed).mono
        (fun f hf hedge => hreads f hf (hedge.reads hstore)) hgrow
  · exfalso
    by_cases hdn : d = n
    · -- the node it waited for has notified it
      subst hdn
      obtain ⟨hdn, hinter, v, hv, hdef⟩ := hrest
      have hchanged := htransit (.inr (.inl hinter))
      rw [afterPropagation, if_pos hchanged] at hmem
      refine hmem (propagate_direct hready.wellFormed hready.flags
        (fun e he => passes_processed h hr he) (h.wellFormed.defUse d hdn m hm v hdef hv)
        (fun p hp => ?_) (fun p hp => ?_))
      · simp [hp, SVFGNode.def?] at hdef
      · simp [hp, SVFGNode.def?] at hdef
    · exact hpending ⟨d, hkept d hd hdn, hrest⟩

omit htransit in
theorem stored_after {e : SVFGEdge} (he : e ∈ inp.svfg.edges)
    (hstore : (inp.svfg.node e.src).isStore = true) :
    EdgeClosed (pagObjects inp r.1.pag) inp.svfg.node e (facts (afterPropagation inp n r).ptD)
      (facts (afterPropagation inp n r).ptD) := by
  have hready := ready_processed h hn hr
  have hprop := afterPropagation_propagates h hn hr
  have hout : ∀ f ∈ facts (afterPropagation inp n r).ptD, EdgeReads (inp.svfg.node e.src) e.src f →
      f ∈ facts r.1.ptD := by
    intro f hf hreads
    obtain ⟨v, x, rfl⟩ := hreads.store hstore
    by_contra hnew
    exact hprop.notified _ hf hnew
  by_cases hwrote : e.src = n ∧ r.2 = true
  · obtain ⟨rfl, hchanged⟩ := hwrote
    have hclosed := propagate_closed hready.wellFormed hready.flags
      (fun e he => passes_processed h hr he) (mem_outEdges.mpr ⟨he, rfl⟩)
    have heq : afterPropagation inp e.src r = r.1.propagate inp e.src := if_pos hchanged
    rw [← heq] at hclosed
    exact hclosed.mono hout (fun _ hf => hf)
  · have hclosed := edgeClosed_grown h.wellFormed h.sound hr.grown h.factsOver he (h.stored e he hstore)
    refine hclosed.mono (fun f hf hreads => ?_) (fun f hf => hprop.mono (hr.mono hf))
    have hmid := hout f hf hreads
    obtain ⟨v, x, rfl⟩ := hreads.store hstore
    by_contra hnew
    obtain ⟨⟨hsrc, -⟩, hchanged⟩ := hr.output _ hmid hnew
    exact hwrote ⟨hsrc, hchanged⟩

omit htransit in
theorem ready_after : Ready inp (afterPropagation inp n r) := by
  have hready := ready_processed h hn hr
  have hprop := afterPropagation_propagates h hn hr
  refine ⟨hprop.pag ▸ hready.wellFormed, hprop.pag ▸ hready.sound, ?_, hprop.flags hready.flags⟩
  rw [hprop.pag, afterPropagation]
  split
  · exact propagate_least hready.wellFormed hready.flags (fun e he => passes_processed h hr he)
      hready.factsOver (fun F hF e _ => edgeClosed_over hF)
  · exact hready.factsOver

theorem Inv.after : Inv inp (afterPropagation inp n r) := by
  have hprop := afterPropagation_propagates h hn hr
  refine ⟨ready_after h hn hr, ?_, ?_, ?_⟩
  · apply hprop.known
    rw [hr.worklist]
    exact fun x hx => h.known (List.mem_filter.mp hx).1
  · rw [hprop.pag]
    exact fun e he hstore => stored_after h hn hr he hstore
  · intro m hm hmem
    rw [hprop.pag]
    by_cases hpending : Pending inp.svfg (afterPropagation inp n r).worklist m
    · exact .inr hpending
    · by_cases hmn : m = n
      · subst hmn
        exact .inl (settled_self h hn hr htransit hmem hpending)
      · exact .inl (settled_other h hn hr htransit hm hmn hmem hpending)

end

section

variable {D : Type} [DFPTData D] {inp : Input} {s t : FlowSensitive D}

omit [DFPTData D] in
theorem pag_pushIfChanged (r : FlowSensitive D × Bool) (id : NodeID) :
    (FlowSensitive.pushIfChanged r id).pag = r.1.pag := by
  obtain ⟨l, heq, -⟩ := pushIfChanged_eq (r := r)
  rw [heq]

theorem pag_propFromSrcToDst (s : FlowSensitive D) (e : SVFGEdge) :
    (s.propFromSrcToDst inp e).1.pag = s.pag := by
  unfold FlowSensitive.propFromSrcToDst FlowSensitive.propAlongDirectEdge
  split
  · split
    · split <;> rfl
    · split <;> rfl
    · rfl
  · rfl

theorem pag_processNode (s : FlowSensitive D) (n : NodeID) :
    (s.processNode inp n).pag = (s.processSVFGNode inp n).1.pag := by
  change (afterPropagation inp n (s.processSVFGNode inp n)).pag = _
  rw [afterPropagation]
  split
  · refine foldl_invariant (I := fun t : FlowSensitive D => t.pag = (s.processSVFGNode inp n).1.pag)
      (fun e _ t ht => ?_) rfl
    rw [FlowSensitive.propagateEdge, pag_pushIfChanged, pag_propFromSrcToDst, ht]
  · rfl

theorem pag_processSVFGNode (s : FlowSensitive D) {n : NodeID}
    (h : ∀ dst src idx, inp.svfg.node n ≠ .gep dst src idx) :
    (s.processSVFGNode inp n).1.pag = s.pag := by
  rw [FlowSensitive.processSVFGNode]
  cases hnode : inp.svfg.node n with
  | gep dst src idx => exact absurd hnode (h dst src idx)
  | load dst src =>
      change (FlowSensitive.processLoad s n dst src).1.pag = s.pag
      rw [FlowSensitive.processLoad]
      split <;> rfl
  | store dst src =>
      change (FlowSensitive.processStore inp s n dst src).1.pag = s.pag
      rw [FlowSensitive.processStore]
      split
      · rfl
      · have hwritten : (s.storePts n dst src).1.pag = s.pag := by
          rw [FlowSensitive.storePts]
          split <;> rfl
        change ((s.storePts n dst src).1.mergeInToOut inp n dst).1.pag = s.pag
        rw [← hwritten]
        unfold FlowSensitive.mergeInToOut
        split <;> rfl
  | _ => rfl

theorem processSVFGNode_shrinks (s : FlowSensitive D) (n : NodeID) :
    Shrinks s.pag.maxFieldOffsetLimit (s.processSVFGNode inp n).1.pag.maxFieldOffsetLimit := by
  by_cases hgep : ∃ dst src idx, inp.svfg.node n = .gep dst src idx
  · obtain ⟨dst, src, idx, hnode⟩ := hgep
    rw [FlowSensitive.processSVFGNode, hnode]
    exact gepObjs_shrinks _ (s.pag, ∅)
  · rw [pag_processSVFGNode s (fun dst src idx hnode => hgep ⟨dst, src, idx, hnode⟩)]
    exact fun _ => .inl rfl

theorem step_shrinks (h : Step inp s t) :
    Shrinks s.pag.maxFieldOffsetLimit t.pag.maxFieldOffsetLimit := by
  cases h with
  | @node id _ =>
      rw [pag_processNode]
      exact processSVFGNode_shrinks (s.popFromWorklist id) id

variable [UpdatedVars D] [LawfulDFPTData D]

theorem Inv.step (h : Inv inp s) (hst : Step inp s t)
    (hfix : t.pag.maxFieldOffsetLimit = s.pag.maxFieldOffsetLimit) :
    Inv inp t ∧ Grown s.pag t.pag := by
  cases hst with
  | @node n hid =>
      have hn := h.known hid
      rw [pag_processNode] at hfix ⊢
      have hready : Ready inp (s.popFromWorklist n) := ⟨h.wellFormed, h.sound, h.factsOver, h.flags⟩
      have hr := processSVFGNode_processed hready hn hfix
      exact ⟨(h.after hn hr (processSVFGNode_transit)).clear, hr.grown⟩

end

end SVF.WPA.FlowInvariant
