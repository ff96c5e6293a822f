import SVF.Util.Folds
import SVF.WPA.FlowStep

namespace SVF.WPA.FlowPropagation

open Graphs.ConsG Graphs.FieldObjects Graphs.FieldLookup Graphs.ValueFlowGraph
open MemoryModel.DataFlowPTData MemoryModel.LawfulPTData FlowSensitiveSolver FlowObjects FlowStep
open FlowEquations (EdgeClosed sourceFact)
open UpdatedVars (newIn newOut)
open MemoryModel.PointsToSets (PointsTo)

/-- The worklist has a node because of the fact: the node that reads an IN set,
or the node that stands for the definition of a pointer. -/
def Notified (svfg : SVFG) (worklist : List NodeID) : Fact → Prop
  | .pts v _ => ∃ d ∈ worklist, d ∈ svfg.nodes ∧ (svfg.node d).isInterprocedural = true ∧
      (svfg.node d).def? = some v
  | .dfIn l _ _ => l ∈ worklist
  | .dfOut _ _ _ => False

theorem Notified.mono {svfg : SVFG} {l l' : List NodeID} (hl : l ⊆ l') {f : Fact}
    (h : Notified svfg l f) : Notified svfg l' f := by
  cases f with
  | pts v x =>
      obtain ⟨d, hd, hnode⟩ := h
      exact ⟨d, hl hd, hnode⟩
  | dfIn l v x => exact hl h
  | dfOut l v x => exact h

section

variable {D : Type} {s : FlowSensitive D} {id : NodeID}

theorem pushIntoWorklist_eq : ∃ l, s.pushIntoWorklist id = { s with worklist := l } ∧
    ∀ x, x ∈ l ↔ x ∈ s.worklist ∨ x = id := by
  rw [FlowSensitive.pushIntoWorklist]
  split
  · rename_i hmem
    exact ⟨s.worklist, rfl, fun x => ⟨.inl, fun hx => hx.elim (fun hx => hx) (fun hx => hx ▸ hmem)⟩⟩
  · exact ⟨_, rfl, fun x => by simp⟩

theorem pushIfChanged_eq {r : FlowSensitive D × Bool} :
    ∃ l, FlowSensitive.pushIfChanged r id = { r.1 with worklist := l } ∧ r.1.worklist ⊆ l ∧
      (∀ x ∈ l, x ∈ r.1.worklist ∨ x = id) ∧ (r.2 = true → id ∈ l) := by
  rw [FlowSensitive.pushIfChanged]
  split
  · obtain ⟨l, heq, hmem⟩ := pushIntoWorklist_eq (s := r.1)
    exact ⟨l, heq, fun x hx => (hmem x).mpr (.inl hx), fun x => (hmem x).mp,
      fun _ => (hmem id).mpr (.inr rfl)⟩
  · rename_i hr
    exact ⟨r.1.worklist, rfl, fun _ hx => hx, fun _ => .inl, fun h => absurd h hr⟩

end

variable {D : Type} [DFPTData D] [UpdatedVars D] {inp : Input}

/-- What propagation does to the state: new facts put a node into the worklist. -/
structure Propagates (inp : Input) (s t : FlowSensitive D) : Prop where
  pag : t.pag = s.pag
  worklist : s.worklist ⊆ t.worklist
  known : s.worklist ⊆ inp.svfg.nodes → t.worklist ⊆ inp.svfg.nodes
  mono : facts s.ptD ⊆ facts t.ptD
  notified : ∀ f ∈ facts t.ptD, f ∉ facts s.ptD → Notified inp.svfg t.worklist f
  keepOut : ∀ l v, newOut s.ptD l v → newOut t.ptD l v
  flags : Flags inp.svfg.node s.ptD → Flags inp.svfg.node t.ptD

theorem Propagates.refl (s : FlowSensitive D) : Propagates inp s s :=
  ⟨rfl, fun _ h => h, fun h => h, fun _ h => h, fun _ h hn => absurd h hn, fun _ _ h => h,
    fun h => h⟩

theorem Propagates.trans {s t u : FlowSensitive D} (h : Propagates inp s t)
    (h' : Propagates inp t u) : Propagates inp s u where
  pag := h'.pag.trans h.pag
  worklist _ hx := h'.worklist (h.worklist hx)
  known hs := h'.known (h.known hs)
  mono _ hf := h'.mono (h.mono hf)
  notified f hf hn := by
    by_cases ht : f ∈ facts t.ptD
    · exact (h.notified f ht hn).mono h'.worklist
    · exact h'.notified f hf ht
  keepOut l v hl := h'.keepOut l v (h.keepOut l v hl)
  flags hs := h'.flags (h.flags hs)

instance : Std.Refl (Propagates (D := D) inp) := ⟨Propagates.refl⟩

instance : IsTrans (FlowSensitive D) (Propagates inp) := ⟨fun _ _ _ => Propagates.trans⟩

theorem known_cons {svfg : SVFG} {l l' : List NodeID} {id : NodeID} (hid : id ∈ svfg.nodes)
    (hl' : ∀ x ∈ l', x ∈ l ∨ x = id) (hl : l ⊆ svfg.nodes) : l' ⊆ svfg.nodes := by
  intro x hx
  rcases hl' x hx with hx | rfl
  · exact hl hx
  · exact hid

theorem propagates_update {s : FlowSensitive D} {r : D × Bool} {new : Set Fact} {id : NodeID}
    (hid : id ∈ inp.svfg.nodes) (hadds : Adds s.ptD r new (fun _ _ => False)) (hnew : ∀ f ∈ new, Notified inp.svfg [id] f) :
    Propagates inp s (FlowSensitive.pushIfChanged (s.update r) id) := by
  obtain ⟨l, heq, hsub, hback, hpush⟩ := pushIfChanged_eq (r := s.update r)
  rw [heq]
  refine ⟨rfl, hsub, known_cons hid hback, hadds.mono, fun f hf hn => ?_, hadds.keepOut, fun hflags =>
    hflags.adds hadds (fun _ _ _ hu => hu.elim)⟩
  have hid : id ∈ l := hpush (hadds.changed f hf hn)
  exact (hnew f ((hadds.sound f hf).resolve_left hn)).mono (by simpa using hid)

theorem propagates_push (s : FlowSensitive D) (b : Bool) {id : NodeID} (hid : id ∈ inp.svfg.nodes) :
    Propagates inp s (FlowSensitive.pushIfChanged (s, b) id) := by
  obtain ⟨l, heq, hsub, hback, -⟩ := pushIfChanged_eq (r := (s, b))
  rw [heq]
  exact ⟨rfl, hsub, known_cons hid hback, fun _ h => h, fun _ h hn => absurd h hn, fun _ _ h => h, fun h => h⟩

/-- The flags let everything through that an edge has to propagate: what is new
in an OUT set counts as updated. -/
def Passes (inp : Input) (s : FlowSensitive D) (e : SVFGEdge) : Prop :=
  (inp.svfg.node e.src).isStore = true → ∀ pts, e.kind = .indirect pts → ∀ c ∈ pts,
    ∀ v ∈ objAndFields s.pag c, ∀ x, .dfOut e.src v x ∈ facts s.ptD →
      newOut s.ptD e.src v ∨ .dfIn e.dst v x ∈ facts s.ptD

theorem Passes.mono {s t : FlowSensitive D} {e : SVFGEdge} (h : Passes inp s e)
    (hst : Propagates inp s t) : Passes inp t e := by
  intro hstore pts hkind c hc v hv x hx
  have hold : .dfOut e.src v x ∈ facts s.ptD := by
    by_contra hn
    exact hst.notified _ hx hn
  rw [hst.pag] at hv
  exact (h hstore pts hkind c hc v hv x hold).imp (hst.keepOut _ _) (fun hx => hst.mono hx)

section

variable {node : SVFGNode} {src dst : NodeID} {update : D → NodeID → D × Bool}
  {cond : D → NodeID → Prop} (hup : ∀ d v, Transfers d (update d v) (sourceFact node src v)
    (.dfIn dst v) (cond d v) (fun _ _ => False))

include hup

theorem flow_adds (vars : List NodeID) (d : D) : Adds d (unionEach update vars d)
    {f | ∃ v ∈ vars, ∃ x, sourceFact node src v x ∈ facts d ∧ f = .dfIn dst v x}
    (fun _ _ => False) := by
  refine (unionEach_adds (fun d v _ => hup d v) (fun v w x y heq => ?_)
    (fun _ _ _ _ _ _ _ => id) d).weaken (fun _ hf => hf) (fun _ _ ⟨_, _, hu⟩ => hu)
  rw [sourceFact] at heq
  split at heq
  · cases heq
  · cases heq
    rfl

theorem flow_propagates (hdst : dst ∈ inp.svfg.nodes) (s : FlowSensitive D) (vars : List NodeID) :
    Propagates inp s (FlowSensitive.pushIfChanged (s.update (unionEach update vars s.ptD)) dst) := by
  refine propagates_update hdst (flow_adds hup vars s.ptD) ?_
  rintro f ⟨v, -, x, -, rfl⟩
  exact List.mem_singleton.mpr rfl

end

theorem mem_labelVars {pag : SVFIR} {pts : PointsTo} {v : NodeID} :
    v ∈ pts.elems.flatMap (objAndFields pag) ↔ ∃ c ∈ pts, v ∈ objAndFields pag c := List.mem_flatMap

section

variable [LawfulDFPTData D]

theorem sourceFact_store {node : SVFGNode} (h : node.isStore = true) (n v : NodeID) :
    sourceFact node n v = (.dfOut n v : NodeID → Fact) := by
  funext x
  rw [sourceFact, if_pos h]

theorem sourceFact_other {node : SVFGNode} (h : node.isStore = false) (n v : NodeID) :
    sourceFact node n v = (.dfIn n v : NodeID → Fact) := by
  funext x
  rw [sourceFact, h]
  rfl

theorem propVarPtsFromSrcToDst_transfers (inp : Input) (src dst : NodeID) (d : D) (v : NodeID) :
    Transfers d (FlowSensitive.propVarPtsFromSrcToDst inp src dst d v)
      (sourceFact (inp.svfg.node src) src v) (.dfIn dst v)
      (if (inp.svfg.node src).isStore then newOut d src v else newIn d src v)
      (fun _ _ => False) := by
  rw [FlowSensitive.propVarPtsFromSrcToDst]
  cases hstore : (inp.svfg.node src).isStore with
  | true =>
      rw [sourceFact_store hstore]
      exact LawfulDFPTData.updateDFInFromOut d src v dst v
  | false =>
      rw [sourceFact_other hstore]
      exact LawfulDFPTData.updateDFInFromIn d src v dst v

theorem propVarPtsAfterCGUpdated_transfers (inp : Input) (src dst : NodeID) (d : D) (v : NodeID) :
    Transfers d (FlowSensitive.propVarPtsAfterCGUpdated inp src dst d v)
      (sourceFact (inp.svfg.node src) src v) (.dfIn dst v) True (fun _ _ => False) := by
  rw [FlowSensitive.propVarPtsAfterCGUpdated]
  cases hstore : (inp.svfg.node src).isStore with
  | true =>
      rw [sourceFact_store hstore]
      exact LawfulDFPTData.updateAllDFInFromOut d src v dst v
  | false =>
      rw [sourceFact_other hstore]
      exact LawfulDFPTData.updateAllDFInFromIn d src v dst v

end

/-- Propagation along an edge leads to the least sets that satisfy its equation. -/
structure Propagated (inp : Input) (e : SVFGEdge) (s t : FlowSensitive D) : Prop where
  propagates : Propagates inp s t
  closed : EdgeClosed (pagObjects inp s.pag) inp.svfg.node e (facts s.ptD) (facts t.ptD)
  least : ∀ T, facts s.ptD ⊆ T →
    EdgeClosed (pagObjects inp s.pag) inp.svfg.node e (facts s.ptD) T → facts t.ptD ⊆ T
  direct : e.kind = .direct → (∀ p, inp.svfg.node e.src ≠ .actualParm p) →
    (∀ p, inp.svfg.node e.src ≠ .formalRet p) → e.dst ∈ t.worklist

omit [UpdatedVars D] in
theorem facts_pushIfChanged (r : FlowSensitive D × Bool) (id : NodeID) :
    facts (FlowSensitive.pushIfChanged r id).ptD = facts r.1.ptD := by
  obtain ⟨l, heq, -⟩ := pushIfChanged_eq (r := r)
  rw [heq]

section

variable [LawfulDFPTData D] {s : FlowSensitive D} {e : SVFGEdge}

theorem propagated_parameter {src dst : NodeID} {id : NodeID} (hid : id ∈ inp.svfg.nodes)
    (hinter : (inp.svfg.node id).isInterprocedural = true)
    (hdef : (inp.svfg.node id).def? = some dst) :
    Propagates inp s (FlowSensitive.pushIfChanged
      (s.update (DFPTData.unionPts s.ptD dst (s.getPts src))) id) ∧
    (∀ o, .pts src o ∈ facts s.ptD → .pts dst o ∈
      facts (DFPTData.unionPts s.ptD dst (s.getPts src)).1) ∧
    ∀ T, facts s.ptD ⊆ T → (∀ o, .pts src o ∈ facts s.ptD → .pts dst o ∈ T) →
      facts (DFPTData.unionPts s.ptD dst (s.getPts src)).1 ⊆ T := by
  have hadds := LawfulDFPTData.unionPts s.ptD dst (s.getPts src)
  refine ⟨propagates_update hid hadds ?_, LawfulDFPTData.unionPts_covers s.ptD dst _,
    fun T hT hcl => hadds.subset hT ?_⟩
  · rintro f ⟨x, -, rfl⟩
    exact ⟨id, List.mem_singleton.mpr rfl, hid, hinter, hdef⟩
  · rintro f ⟨x, hx, rfl⟩
    exact hcl x hx

theorem propagated_direct (hkind : e.kind = .direct) (hdst : e.dst ∈ inp.svfg.nodes) :
    Propagated inp e s (s.propagateEdge inp e) := by
  have hskip : ∀ b : Bool, (∀ F T : Set Fact,
      EdgeClosed (pagObjects inp s.pag) inp.svfg.node e F T) →
      ((∀ p, inp.svfg.node e.src ≠ .actualParm p) →
        (∀ p, inp.svfg.node e.src ≠ .formalRet p) → b = true) →
      Propagated inp e s (FlowSensitive.pushIfChanged (s, b) e.dst) := by
    intro b hclosed hb
    refine ⟨propagates_push s b hdst, hclosed _ _, fun T hT _ => ?_, fun _ hp hr => ?_⟩
    · rwa [facts_pushIfChanged]
    · obtain ⟨l, heq, -, -, hpush⟩ := pushIfChanged_eq (r := (s, b))
      rw [heq]
      exact hpush (hb hp hr)
  rw [FlowSensitive.propagateEdge, FlowSensitive.propFromSrcToDst, hkind]
  simp only [FlowSensitive.propAlongDirectEdge]
  cases hsrc : inp.svfg.node e.src with
  | actualParm ap =>
      cases hnode : inp.svfg.node e.dst with
      | formalParm fp =>
          obtain ⟨hprop, hclosed, hleast⟩ := propagated_parameter (s := s)
            hdst (by rw [hnode]; rfl) (by rw [hnode]; rfl)
          refine ⟨hprop, ?_, fun T hT hcl => ?_, fun _ hp => absurd hsrc (hp ap)⟩
          · rw [facts_pushIfChanged, EdgeClosed, hkind, hsrc, hnode]
            exact hclosed
          · rw [EdgeClosed, hkind, hsrc, hnode] at hcl
            rw [facts_pushIfChanged]
            exact hleast T hT hcl
      | _ => exact hskip false (fun F T => by rw [EdgeClosed, hkind, hsrc, hnode]; trivial)
              (fun hp => absurd hsrc (hp ap))
  | formalRet fr =>
      cases hnode : inp.svfg.node e.dst with
      | actualRet ar =>
          obtain ⟨hprop, hclosed, hleast⟩ := propagated_parameter (s := s)
            hdst (by rw [hnode]; rfl) (by rw [hnode]; rfl)
          refine ⟨hprop, ?_, fun T hT hcl => ?_, fun _ _ hr => absurd hsrc (hr fr)⟩
          · rw [facts_pushIfChanged, EdgeClosed, hkind, hsrc, hnode]
            exact hclosed
          · rw [EdgeClosed, hkind, hsrc, hnode] at hcl
            rw [facts_pushIfChanged]
            exact hleast T hT hcl
      | _ => exact hskip false (fun F T => by rw [EdgeClosed, hkind, hsrc, hnode]; trivial)
              (fun _ hr => absurd hsrc (hr fr))
  | _ => exact hskip true (fun F T => by rw [EdgeClosed, hkind, hsrc]; trivial) (fun _ _ => rfl)

theorem propagated_indirect {pts : PointsTo} (hkind : e.kind = .indirect pts)
    (hdst : e.dst ∈ inp.svfg.nodes)
    (hsource : (inp.svfg.node e.src).isStore = true ∨ (inp.svfg.node e.src).isMSSA = true)
    (hflags : Flags inp.svfg.node s.ptD) (hpasses : Passes inp s e) :
    Propagated inp e s (s.propagateEdge inp e) := by
  have hup := propVarPtsFromSrcToDst_transfers (D := D) inp e.src e.dst
  rw [FlowSensitive.propagateEdge, FlowSensitive.propFromSrcToDst, hkind]
  have hprop := flow_propagates hup hdst s (pts.elems.flatMap (objAndFields s.pag))
  refine ⟨hprop, ?_, fun T hT hcl => ?_, fun hdirect => by cases hkind.symm.trans hdirect⟩
  · rw [facts_pushIfChanged, EdgeClosed, hkind]
    intro c hc v hv x hx
    have hvar := mem_labelVars.mpr ⟨c, hc, hv⟩
    cases hstore : (inp.svfg.node e.src).isStore with
    | true =>
        simp only [hstore, if_true] at hup
        refine unionEach_covers (K := fun d => ∀ v ∈ pts.elems.flatMap (objAndFields s.pag), ∀ x,
          sourceFact (inp.svfg.node e.src) e.src v x ∈ facts d → newOut d e.src v ∨
            .dfIn e.dst v x ∈ facts d) (fun d v _ => hup d v) (fun d u hu hd w hw y hy => ?_)
          (fun d u hu hd => hd u hu) ?_ hvar hx
        · rw [sourceFact_store hstore] at hy
          have hold : .dfOut e.src w y ∈ facts d := by
            refine ((hup d u).adds.sound _ hy).resolve_right ?_
            rintro ⟨_, _, heq⟩
            cases heq
          rw [← sourceFact_store hstore] at hold
          exact (hd w hw y hold).imp ((hup d u).adds.keepOut _ _) (fun hin => (hup d u).adds.mono hin)
        · intro w hw y hy
          rw [sourceFact_store hstore] at hy
          obtain ⟨c', hc', hw'⟩ := mem_labelVars.mp hw
          exact hpasses hstore pts hkind c' hc' w hw' y hy
    | false =>
        have hmssa := hsource.resolve_left (by simp [hstore])
        simp only [hstore] at hup
        refine unionEach_covers (K := Flags inp.svfg.node) (fun d v _ => hup d v)
          (fun d u _ hd => hd.adds (hup d u).adds (fun _ _ _ hu => hu.elim))
          (fun d u _ hd y hy => .inl ?_) hflags hvar hx
        rw [sourceFact_other hstore] at hy
        refine (hd e.src u y hy).resolve_right (fun hcons => ?_)
        cases hnode : inp.svfg.node e.src with
        | load dst src => simp [hnode, SVFGNode.isMSSA] at hmssa
        | store dst src => simp [hnode, SVFGNode.isMSSA] at hmssa
        | _ => simp [hnode, Consumed] at hcons
  · rw [EdgeClosed, hkind] at hcl
    rw [facts_pushIfChanged]
    refine (flow_adds hup _ s.ptD).subset hT ?_
    rintro f ⟨v, hv, x, hx, rfl⟩
    obtain ⟨c, hc, hvc⟩ := mem_labelVars.mp hv
    exact hcl c hc v hvc x hx

end

end SVF.WPA.FlowPropagation
