import Mathlib.Order.Bounds.Basic
import SVF.WPA.FlowSolution

namespace SVF.WPA.FlowLeastSolution

open Graphs.ConsG Graphs.FieldObjects Graphs.FieldLookup Graphs.ValueFlowGraph
open MemoryModel.DataFlowPTData MemoryModel.LawfulPTData MemoryModel.DataFlowStores
open FlowSensitiveSolver FlowObjects FlowStep FlowPropagation FlowInvariant FlowSolution Util.Folds Relation
open FlowEquations (NodeClosed EdgeClosed Satisfies FactOver mapFact edgeClosed_grows isStore_grows
  edgeClosed_direct)
open MemoryModel.PointsToSets (PointsTo)

section

variable {D : Type} [DFPTData D] [UpdatedVars D] [LawfulDFPTData D] {inp : Input}
  {s : FlowSensitive D} {e : SVFGEdge}

structure Connected (inp : Input) (e : SVFGEdge) (s t : FlowSensitive D) : Prop where
  propagates : Propagates inp s t
  least : ∀ T, facts s.ptD ⊆ T →
    EdgeClosed (pagObjects inp s.pag) inp.svfg.node e (facts s.ptD) T → facts t.ptD ⊆ T
  closed : inp.svfg.node e.dst = .formalIN ∨ inp.svfg.node e.dst = .actualOUT →
    ∀ pts, e.kind = .indirect pts →
      EdgeClosed (pagObjects inp s.pag) inp.svfg.node e (facts s.ptD) (facts t.ptD)

theorem connected_indirect {pts : PointsTo} (hkind : e.kind = .indirect pts)
    (hdst : e.dst ∈ inp.svfg.nodes) :
    Connected inp e s (FlowSensitive.pushIfChanged
      (s.update (unionEach (FlowSensitive.propVarPtsAfterCGUpdated inp e.src e.dst)
        (pts.elems.flatMap (objAndFields s.pag)) s.ptD)) e.dst) := by
  have hup := propVarPtsAfterCGUpdated_transfers (D := D) inp e.src e.dst
  refine ⟨flow_propagates hup hdst s _, fun T hT hcl => ?_, fun _ pts' hkind' => ?_⟩
  · rw [EdgeClosed, hkind] at hcl
    rw [facts_pushIfChanged]
    refine (flow_adds hup _ s.ptD).subset hT ?_
    rintro f ⟨v, hv, x, hx, rfl⟩
    obtain ⟨c, hc, hvc⟩ := mem_labelVars.mp hv
    exact hcl c hc v hvc x hx
  · rw [facts_pushIfChanged, EdgeClosed, hkind]
    exact fun c hc v hv x hx => unionEach_covers (K := fun _ => True) (fun d v _ => hup d v)
      (fun _ _ _ _ => trivial) (fun _ _ _ _ _ _ => .inl trivial) trivial
      (mem_labelVars.mpr ⟨c, hc, hv⟩) hx

theorem updateConnectedNode_connected (hdst : e.dst ∈ inp.svfg.nodes) :
    Connected inp e s (s.updateConnectedNode inp e) := by
  rw [FlowSensitive.updateConnectedNode]
  cases hkind : e.kind with
  | indirect pts =>
      cases hnode : inp.svfg.node e.dst with
      | phi res ops =>
          refine ⟨propagates_push s true hdst, fun T hT _ => ?_, fun h => ?_⟩
          · exact (facts_pushIfChanged (s, true) e.dst).symm ▸ hT
          · rw [hnode] at h
            exact h.elim (fun h => by cases h) (fun h => by cases h)
      | formalIN => exact connected_indirect hkind hdst
      | actualOUT => exact connected_indirect hkind hdst
      | _ => exact ⟨Propagates.refl s, fun T hT _ => hT, fun h => by rw [hnode] at h; simp at h⟩
  | direct =>
      cases hnode : inp.svfg.node e.dst with
      | phi res ops =>
          refine ⟨propagates_push s true hdst, fun T hT _ => ?_, fun _ pts hp => ?_⟩
          · exact (facts_pushIfChanged (s, true) e.dst).symm ▸ hT
          · rw [hkind] at hp
            cases hp
      | _ => exact ⟨Propagates.refl s, fun T hT _ => hT, fun _ pts hp => by rw [hkind] at hp; cases hp⟩

variable {edges : List SVFGEdge} (hedges : ∀ e ∈ edges, e.dst ∈ inp.svfg.nodes)

include hedges

theorem updateConnectedNodes_propagates (s : FlowSensitive D) :
    Propagates inp s (s.updateConnectedNodes inp edges) :=
  foldl_rel (Propagates inp)
    (fun e he _ => (updateConnectedNode_connected (hedges e he)).propagates) s

theorem updateConnectedNodes_closed (he : e ∈ edges) {pts : PointsTo} (hkind : e.kind = .indirect pts)
    (hnode : inp.svfg.node e.dst = .formalIN ∨ inp.svfg.node e.dst = .actualOUT) :
    EdgeClosed (pagObjects inp s.pag) inp.svfg.node e (facts s.ptD)
      (facts (s.updateConnectedNodes inp edges).ptD) := by
  refine foldl_covers (Propagates inp)
    (fun e he _ => (updateConnectedNode_connected (hedges e he)).propagates)
    (Q := fun t : FlowSensitive D =>
      EdgeClosed (pagObjects inp s.pag) inp.svfg.node e (facts s.ptD) (facts t.ptD))
    (fun t u htu h => h.mono (fun _ hf _ => hf) htu.mono) he (fun t hst => ?_)
  have hclosed := (updateConnectedNode_connected (s := t) (hedges e he)).closed hnode pts hkind
  rw [hst.pag] at hclosed
  exact hclosed.mono (fun _ hf _ => hst.mono hf) (fun _ hf => hf)

theorem updateConnectedNodes_least {T : Set Fact} (hT : facts s.ptD ⊆ T)
    (hclosed : ∀ F ⊆ T, ∀ e ∈ edges, EdgeClosed (pagObjects inp s.pag) inp.svfg.node e F T) :
    facts (s.updateConnectedNodes inp edges).ptD ⊆ T := by
  have hinv := foldl_invariant (f := fun s e => FlowSensitive.updateConnectedNode inp s e)
    (I := fun t : FlowSensitive D => t.pag = s.pag ∧ facts t.ptD ⊆ T) (l := edges)
    (fun e he t ht => ?_) ⟨rfl, hT⟩
  · exact hinv.2
  · have hstep := updateConnectedNode_connected (s := t) (hedges e he)
    refine ⟨hstep.propagates.pag.trans ht.1, hstep.least T ht.2 ?_⟩
    rw [ht.1]
    exact hclosed _ ht.2 e he

end

section

variable {D : Type} [DFPTData D] [UpdatedVars D] [LawfulDFPTData D]

omit [LawfulDFPTData D] in
theorem flags_grows {node node' : NodeID → SVFGNode} (hnode : ∀ n, (node n).Grows (node' n)) {d : D}
    (h : Flags node d) : Flags node' d := by
  intro n v x hx
  refine (h n v x hx).imp_right (fun hcons => ?_)
  have hn := hnode n
  generalize node n = a at hn hcons
  generalize node' n = b at hn ⊢
  cases hn with
  | same => exact hcons
  | phi => exact hcons

/-- The invariant holds on the new graph when the solver starts again. -/
theorem inv_update {inp inp' : Input} {s : FlowSensitive D} (h : Inv inp s)
    (hempty : s.worklist = []) (hext : inp.Extends inp') (hwf : WellFormed inp'.svfg s.pag) :
    Inv inp' (FlowSensitive.initWorklist inp' (s.updateConnectedNodes inp'
      (inp'.svfg.edges.filter (· ∉ inp.svfg.edges)))) := by
  have hedges : ∀ e ∈ inp'.svfg.edges.filter (· ∉ inp.svfg.edges), e.dst ∈ inp'.svfg.nodes :=
    fun e he => hwf.dst e (List.mem_filter.mp he).1
  have hprop := updateConnectedNodes_propagates hedges s
  obtain ⟨l, heq, hall, hback⟩ := initWorklist_eq
    (s.updateConnectedNodes inp' (inp'.svfg.edges.filter (· ∉ inp.svfg.edges)))
  rw [heq]
  refine ⟨⟨?_, ?_, ?_, ?_⟩, ?_, fun e he hstore => ?_, fun n hn hmem => absurd (hall hn) hmem⟩
  · exact hprop.pag ▸ hwf
  · exact hprop.pag ▸ h.sound
  · simp only [hprop.pag]
    exact updateConnectedNodes_least hedges h.factsOver (fun F hF e _ => edgeClosed_over hF)
  · exact hprop.flags (flags_grows hext.svfg.node h.flags)
  · intro x hx
    rcases hback x hx with hx | hx
    · exact hprop.known (by simp [hempty]) hx
    · exact hx
  · -- no OUT set has changed, and the new edges from stores have been closed
    simp only [hprop.pag]
    have hclosed : EdgeClosed (pagObjects inp' s.pag) inp'.svfg.node e (facts s.ptD)
        (facts (s.updateConnectedNodes inp' (inp'.svfg.edges.filter (· ∉ inp.svfg.edges))).ptD) := by
      by_cases hold : e ∈ inp.svfg.edges
      · have hstore' := hstore
        rw [isStore_grows hext.svfg.node] at hstore'
        have hclosed : EdgeClosed (pagObjects inp' s.pag) inp.svfg.node e (facts s.ptD)
          (facts s.ptD) := h.stored e hold hstore'
        exact ((edgeClosed_grows hext.svfg.node).mpr hclosed).mono (fun _ hf _ => hf) hprop.mono
      · cases hkind : e.kind with
        | indirect pts =>
            exact updateConnectedNodes_closed hedges (List.mem_filter.mpr ⟨he, by simpa using hold⟩)
              hkind (hext.svfg.indirect e he hold pts hkind)
        | direct =>
            refine edgeClosed_direct hkind (fun p hp => ?_) (fun p hp => ?_) _ _
            · simp [hp, SVFGNode.isStore] at hstore
            · simp [hp, SVFGNode.isStore] at hstore
    refine hclosed.mono (fun f hf hreads => ?_) (fun _ hf => hf)
    obtain ⟨v, x, rfl⟩ := hreads.store hstore
    by_contra hnew
    exact hprop.notified _ hf hnew

def namedFacts (s : FlowSensitive D) : Set (FactOf Name) := mapFact (name s.pag) '' facts s.ptD

def Below (s : FlowSensitive D) (S : Set (FactOf Name)) : Prop :=
  facts s.ptD ⊆ {f | mapFact (name s.pag) f ∈ S}

theorem mapFact_grown {pag pag' : SVFIR} (hgrown : Grown pag pag') {f : Fact}
    (hf : FactOver (nodeSet pag) f) : mapFact (name pag') f = mapFact (name pag) f := by
  cases f with
  | pts v x => simp only [mapFact, name_grown hgrown hf]
  | dfIn l v x => simp only [mapFact, name_grown hgrown hf.1, name_grown hgrown hf.2]
  | dfOut l v x => simp only [mapFact, name_grown hgrown hf.1, name_grown hgrown hf.2]

variable {inp : Input} {pag : SVFIR} {s t : FlowSensitive D} {S : Set (FactOf Name)}

section

variable (hpag : Sound pag) (hwf : WellFormed inp.svfg pag)
  (hS : Satisfies (namedObjects inp pag) inp.svfg S)

include hpag hwf hS

theorem Below.step (h : Inv inp s) (hgrown : Grown pag s.pag) (hbelow : Below s S)
    (hst : Step inp s t) (hfix : t.pag.maxFieldOffsetLimit = s.pag.maxFieldOffsetLimit) :
    Below t S := by
  cases hst with
  | @node n hid =>
      have hn := h.known hid
      rw [pag_processNode] at hfix
      have hready : Ready inp (s.popFromWorklist n) := ⟨h.wellFormed, h.sound, h.factsOver, h.flags⟩
      have hr := processSVFGNode_processed hready hn hfix
      generalize hreq : (s.popFromWorklist n).processSVFGNode inp n = r at hr
      have hgrown' := hgrown.trans hr.grown
      have hren := renaming_name hpag hr.sound hgrown' inp hwf.object hwf.label
      have hold : facts s.ptD ⊆ {f | mapFact (name r.1.pag) f ∈ S} := by
        intro f hf
        change mapFact (name r.1.pag) f ∈ S
        rw [mapFact_grown hr.grown (h.factsOver f hf)]
        exact hbelow hf
      have hover : ∀ f ∈ facts s.ptD, FactOver (nodeSet r.1.pag) f := fun f hf =>
        (ready_processed h hn hr).factsOver f (hr.mono hf)
      have hmid : facts r.1.ptD ⊆ {f | mapFact (name r.1.pag) f ∈ S} :=
        hr.least _ hold (NodeClosed.pull hren hn hover (fun _ _ _ _ => namedGep_unique) hr.closed hold
          (hS.node n hn))
      have hafter : facts (afterPropagation inp n r).ptD ⊆ {f | mapFact (name r.1.pag) f ∈ S} := by
        have hready' := ready_processed h hn hr
        rw [afterPropagation]
        split
        · exact propagate_least hready'.wellFormed hready'.flags
            (fun e he => passes_processed h hr he) hmid
            (fun F hF e he => EdgeClosed.pull hren (mem_outEdges.mp he).1 hF
              (hS.edge e (mem_outEdges.mp he).1))
        · exact hmid
      have hclear : facts ((afterPropagation inp n r).clearAllDFOutVarFlag n).ptD =
          facts (afterPropagation inp n r).ptD := LawfulDFPTData.facts_clear _ n
      rw [Below, pag_processNode, processNode_eq, hreq, hclear]
      exact hafter

end

theorem Below.update {inp' : Input} (hpag : Sound pag) (hwf : WellFormed inp'.svfg pag)
    (hgrown : Grown pag s.pag) (hsound : Sound s.pag) (hbelow : Below s S)
    (hS : Satisfies (namedObjects inp' pag) inp'.svfg S) :
    Below (FlowSensitive.initWorklist inp' (s.updateConnectedNodes inp'
      (inp'.svfg.edges.filter (· ∉ inp.svfg.edges)))) S := by
  have hedges : ∀ e ∈ inp'.svfg.edges.filter (· ∉ inp.svfg.edges), e.dst ∈ inp'.svfg.nodes :=
    fun e he => hwf.dst e (List.mem_filter.mp he).1
  have hren := renaming_name hpag hsound hgrown inp' hwf.object hwf.label
  obtain ⟨l, heq, -⟩ := initWorklist_eq
    (s.updateConnectedNodes inp' (inp'.svfg.edges.filter (· ∉ inp.svfg.edges)))
  rw [heq, Below]
  simp only [(updateConnectedNodes_propagates hedges s).pag]
  exact updateConnectedNodes_least hedges hbelow (fun F hF e he =>
    EdgeClosed.pull hren (List.mem_filter.mp he).1 hF (hS.edge e (List.mem_filter.mp he).1))

theorem run_shrinks {inp₀ : Input} (hrun : Run inp₀ pag inp s) :
    Shrinks pag.maxFieldOffsetLimit s.pag.maxFieldOffsetLimit := by
  induction hrun with
  | start =>
      obtain ⟨l, heq, -⟩ := initial_eq (D := D) pag
      rw [heq]
      exact fun _ => .inl rfl
  | step _ hst ih => exact ih.trans (step_shrinks hst)
  | @update inp' inp'' s _ _ _ hwf ih =>
      have hedges : ∀ e ∈ inp''.svfg.edges.filter (· ∉ inp'.svfg.edges), e.dst ∈ inp''.svfg.nodes :=
        fun e he => hwf.dst e (List.mem_filter.mp he).1
      obtain ⟨l, heq, -⟩ := initWorklist_eq
        (s.updateConnectedNodes inp'' (inp''.svfg.edges.filter (· ∉ inp'.svfg.edges)))
      rw [heq]
      simp only [(updateConnectedNodes_propagates hedges s).pag]
      exact ih

theorem run_inv {inp₀ : Input} (hwf : WellFormed inp₀.svfg pag) (hpag : Sound pag)
    (hrun : Run inp₀ pag inp s) (hfix : s.pag.maxFieldOffsetLimit = pag.maxFieldOffsetLimit) :
    Inv inp s ∧ WellFormed inp.svfg pag ∧ Grown pag s.pag ∧
      ∀ S, Satisfies (namedObjects inp pag) inp.svfg S → Below s S := by
  induction hrun with
  | start =>
      obtain ⟨l, heq, -⟩ := initial_eq (D := D) pag
      have hinv := inv_initial (D := D) hwf hpag
      rw [heq] at hinv ⊢
      refine ⟨hinv, hwf, Grown.refl pag, fun S _ f hf => ?_⟩
      have hempty : facts (DFPTData.empty : D) = ∅ := LawfulDFPTData.facts_empty
      rw [hempty] at hf
      exact hf.elim
  | @step inp s t hrun hst ih =>
      have hmid := (run_shrinks hrun).between (step_shrinks hst) hfix
      obtain ⟨hinv, hwf', hgrown, hbelow⟩ := ih hmid
      have hlimit := hfix.trans hmid.symm
      obtain ⟨hinv', hgrown'⟩ := hinv.step hst hlimit
      exact ⟨hinv', hwf', hgrown.trans hgrown', fun S hS =>
        (hbelow S hS).step hpag hwf' hS hinv hgrown hst hlimit⟩
  | @update inp' inp'' s hrun hempty hext hwf'' ih =>
      have hedges : ∀ e ∈ inp''.svfg.edges.filter (· ∉ inp'.svfg.edges), e.dst ∈ inp''.svfg.nodes :=
        fun e he => hwf''.dst e (List.mem_filter.mp he).1
      obtain ⟨l, heq, -⟩ := initWorklist_eq
        (s.updateConnectedNodes inp'' (inp''.svfg.edges.filter (· ∉ inp'.svfg.edges)))
      have hsame : (FlowSensitive.initWorklist inp'' (s.updateConnectedNodes inp''
          (inp''.svfg.edges.filter (· ∉ inp'.svfg.edges)))).pag = s.pag := by
        rw [heq]
        exact (updateConnectedNodes_propagates hedges s).pag
      rw [hsame] at hfix ⊢
      obtain ⟨hinv, -, hgrown, hbelow⟩ := ih hfix
      exact ⟨inv_update hinv hempty hext (wellFormed_grown hwf'' hgrown), hwf'', hgrown,
        fun S hS => Below.update hpag hwf'' hgrown hinv.sound
          (hbelow S (satisfies_of_extends hext hS)) hS⟩

theorem run_least {inp₀ : Input} (hwf : WellFormed inp₀.svfg pag) (hpag : Sound pag)
    (hrun : Run inp₀ pag inp s) (hfix : s.pag.maxFieldOffsetLimit = pag.maxFieldOffsetLimit)
    (hempty : s.worklist = []) :
    IsLeast {S | Satisfies (namedObjects inp pag) inp.svfg S} (namedFacts s) := by
  obtain ⟨hinv, hwf', hgrown, hbelow⟩ := run_inv hwf hpag hrun hfix
  have hren := renaming_name hpag hinv.sound hgrown inp hwf'.object hwf'.label
  constructor
  · exact Satisfies.map hren hinv.factsOver (inv_satisfies hinv hempty)
  · rintro S hS g ⟨f, hf, rfl⟩
    exact hbelow S hS hf

end

/-- Whatever the order of the nodes, the incremental data end with the sets of
the non-incremental data, with objects told apart by base object and offset. -/
theorem incremental_runs_agree {inp₀ inp : Input} {pag : SVFIR} (hwf : WellFormed inp₀.svfg pag)
    (hpag : Sound pag) {s : FlowSensitive MutableDFPTData} {t : FlowSensitive MutableIncDFPTData}
    {u : FlowSensitive PersistentIncDFPTData} (hs : Run inp₀ pag inp s) (ht : Run inp₀ pag inp t)
    (hu : Run inp₀ pag inp u) (hfixs : s.pag.maxFieldOffsetLimit = pag.maxFieldOffsetLimit)
    (hfixt : t.pag.maxFieldOffsetLimit = pag.maxFieldOffsetLimit)
    (hfixu : u.pag.maxFieldOffsetLimit = pag.maxFieldOffsetLimit) (hends : s.worklist = [])
    (hendt : t.worklist = []) (hendu : u.worklist = []) :
    namedFacts t = namedFacts s ∧ namedFacts u = namedFacts s := by
  have hleast := run_least hwf hpag hs hfixs hends
  exact ⟨(run_least hwf hpag ht hfixt hendt).unique hleast,
    (run_least hwf hpag hu hfixu hendu).unique hleast⟩

theorem run_of_steps {D : Type} [DFPTData D] {inp : Input} {pag : SVFIR} {s : FlowSensitive D}
    (h : ReflTransGen (Step inp) (initial inp pag) s) : Run inp pag inp s := by
  induction h with
  | refl => exact .start
  | tail _ hst ih => exact .step ih hst

theorem sample_runs_agree : ∃ (s : FlowSensitive MutableDFPTData)
    (t : FlowSensitive MutableIncDFPTData) (u : FlowSensitive PersistentIncDFPTData),
    s.worklist = [] ∧ t.worklist = [] ∧ u.worklist = [] ∧
      namedFacts t = namedFacts s ∧ namedFacts u = namedFacts s := by
  obtain ⟨s, hs, hpags, hends⟩ := sample_run MutableDFPTData (by decide +kernel)
  obtain ⟨t, ht, hpagt, hendt⟩ := sample_run MutableIncDFPTData (by decide +kernel)
  obtain ⟨u, hu, hpagu, hendu⟩ := sample_run PersistentIncDFPTData (by decide +kernel)
  exact ⟨s, t, u, hends, hendt, hendu, incremental_runs_agree sampleGraph_wellFormed samplePag_sound
    (run_of_steps hs) (run_of_steps ht) (run_of_steps hu) (by rw [hpags]) (by rw [hpagt])
    (by rw [hpagu]) hends hendt hendu⟩

section

open FlowEquations (Objects)

variable {O : Type}

/-- A solution of the inclusion constraints of the statements, with one set for
every variable and one for every object. -/
structure Insensitive (ob : Objects O) (svfg : SVFG) (top : NodeID → Set O) (mem : O → Set O) :
    Prop where
  addr : ∀ n ∈ svfg.nodes, ∀ dst src, svfg.node n = .addr dst src → ob.addr src ∈ top dst
  copy : ∀ n ∈ svfg.nodes, ∀ dst src, svfg.node n = .copy dst src → top src ⊆ top dst
  gep : ∀ n ∈ svfg.nodes, ∀ dst src idx, svfg.node n = .gep dst src idx →
    ∀ o ∈ top src, ∃ o', ob.gep idx o o' ∧ o' ∈ top dst
  load : ∀ n ∈ svfg.nodes, ∀ dst src, svfg.node n = .load dst src →
    ∀ o ∈ top src, ¬ ob.constant o → ∀ v ∈ ob.parts o, mem v ⊆ top dst
  store : ∀ n ∈ svfg.nodes, ∀ dst src, svfg.node n = .store dst src →
    ∀ o ∈ top dst, ¬ ob.constant o → top src ⊆ mem o
  phi : ∀ n ∈ svfg.nodes, ∀ res opVers, svfg.node n = .phi res opVers →
    ∀ v ∈ opVers, top v ⊆ top res
  parm : ∀ e ∈ svfg.edges, e.kind = .direct → ∀ ap fp, svfg.node e.src = .actualParm ap →
    svfg.node e.dst = .formalParm fp → top ap ⊆ top fp
  ret : ∀ e ∈ svfg.edges, e.kind = .direct → ∀ fr ar, svfg.node e.src = .formalRet fr →
    svfg.node e.dst = .actualRet ar → top fr ⊆ top ar

def FactIn (top : NodeID → Set O) (mem : O → Set O) : FactOf O → Prop
  | .pts v o => o ∈ top v
  | .dfIn _ v x => x ∈ mem v
  | .dfOut _ v x => x ∈ mem v

/-- With the set of an object at every place, an insensitive solution is a flow-sensitive one. -/
theorem Insensitive.satisfies {ob : Objects O} {svfg : SVFG} {top : NodeID → Set O}
    {mem : O → Set O} (h : Insensitive ob svfg top mem) : Satisfies ob svfg {f | FactIn top mem f} where
  node n hn := by
    cases hnode : svfg.node n with
    | addr dst src => exact h.addr n hn dst src hnode
    | copy dst src => exact fun o ho => h.copy n hn dst src hnode ho
    | gep dst src idx => exact fun o ho => h.gep n hn dst src idx hnode o ho
    | load dst src =>
        exact fun o ho hc v hv x hx => h.load n hn dst src hnode o ho hc v hv hx
    | store dst src =>
        exact ⟨fun o ho hc x hx => h.store n hn dst src hnode o ho hc hx, fun _ _ _ x hx => hx⟩
    | phi res opVers => exact fun v hv o ho => h.phi n hn res opVers hnode v hv ho
    | _ => trivial
  edge e he := by
    rw [EdgeClosed]
    cases hkind : e.kind with
    | direct =>
        simp only
        split
        · rename_i ap fp hsrc hdst
          exact fun o ho => h.parm e he hkind ap fp hsrc hdst ho
        · rename_i fr ar hsrc hdst
          exact fun o ho => h.ret e he hkind fr ar hsrc hdst ho
        · trivial
    | indirect pts =>
        intro c _ v _ x hx
        rw [FlowEquations.sourceFact] at hx
        split at hx
        · exact hx
        · exact hx

end

end SVF.WPA.FlowLeastSolution
