import SVF.Graphs.InterElimination
import SVF.Util.Loops

namespace SVF.Graphs.IntraElimination

open Relation
open MemoryModel.PointsToSets SVFGOPT IndirectFlows InterElimination Util.Elimination Util.Folds
  Util.Loops

section

variable {g : SVFG} {n : NodeID} {keep : SelfCycles} {l : List IndirectSVFGEdge} {has : Bool}

theorem checkSelfCycleEdges_all (hkeep : keep.keepAllSelfCycle = true) :
    checkSelfCycleEdges keep l g has = (g, has || l.any fun e => e.src = e.dst) := by
  induction l with
  | nil => simp [checkSelfCycleEdges]
  | cons e l ih =>
      rw [checkSelfCycleEdges, ih, List.any_cons]
      by_cases hself : e.src = e.dst
      · simp [hself, hkeep]
      · simp [hself]

theorem checkSelfCycleEdges_removes (hkeep : keep.keepAllSelfCycle = false)
    (hl : ∀ e ∈ l, e.src = e.dst → e.kind.isInter = false) :
    checkSelfCycleEdges keep l g has =
      ({ g with edges := g.edges.filter fun e => ¬ (e ∈ l ∧ e.src = e.dst) }, has) := by
  induction l generalizing g with
  | nil => simp [checkSelfCycleEdges]
  | cons e l ih =>
      have hl' : ∀ f ∈ l, f.src = f.dst → f.kind.isInter = false :=
        fun f hf => hl f (List.mem_cons_of_mem e hf)
      rw [checkSelfCycleEdges]
      by_cases hself : e.src = e.dst
      · rw [if_pos hself, hkeep, if_neg Bool.false_ne_true, hl e List.mem_cons_self hself,
          Bool.and_false, if_neg Bool.false_ne_true, ih hl', SVFG.removeSVFGEdge, List.filter_filter]
        congr 2
        apply List.filter_congr
        intro f _
        rw [← Bool.decide_and, decide_eq_decide, List.mem_cons]
        constructor
        · rintro ⟨hnot, hne⟩ ⟨rfl | hf, hloop⟩
          · exact hne rfl
          · exact hnot ⟨hf, hloop⟩
        · intro hnot
          refine ⟨fun h => hnot ⟨.inr h.1, h.2⟩, ?_⟩
          rintro rfl
          exact hnot ⟨.inl rfl, hself⟩
      · rw [if_neg hself, ih hl']
        congr 2
        apply List.filter_congr
        intro f _
        rw [decide_eq_decide, List.mem_cons]
        apply not_congr
        constructor
        · exact fun h => ⟨.inr h.1, h.2⟩
        · rintro ⟨rfl | hf, hloop⟩
          · exact absurd hloop hself
          · exact ⟨hf, hloop⟩

def withoutSelf (g : SVFG) (n : NodeID) : SVFG :=
  { g with edges := g.edges.filter fun e => ¬ (e ∈ g.inEdges n ∧ e.src = e.dst) }

theorem arc_withoutSelf {a b : NodeID} {k : IndirectEdgeK} {x : Option NodeID} :
    Arc (withoutSelf g n) a k b x ↔ Arc g a k b x ∧ ¬ (a = n ∧ b = n) := by
  constructor
  · rintro ⟨e, he, rfl, rfl, rfl, hx⟩
    obtain ⟨he, hnot⟩ := List.mem_filter.mp he
    refine ⟨⟨e, he, rfl, rfl, rfl, hx⟩, fun h => of_decide_eq_true hnot ?_⟩
    exact ⟨mem_inEdges.mpr ⟨he, h.2⟩, h.1.trans h.2.symm⟩
  · rintro ⟨⟨e, he, rfl, rfl, rfl, hx⟩, hnot⟩
    refine ⟨e, List.mem_filter.mpr ⟨he, decide_eq_true fun h => hnot ?_⟩, rfl, rfl, rfl, hx⟩
    have hdst := (mem_inEdges.mp h.1).2
    exact ⟨h.2.trans hdst, hdst⟩

theorem eliminates_of_withoutSelf {opt : Options} {keep : NodeID → NodeID → Prop} {g₁ g' : SVFG}
    (harcs : ∀ a k b x, Arc g₁ a k b x ↔ Arc g a k b x ∧ ¬ (a = n ∧ b = n))
    (h : Eliminates opt keep n g₁ g') : Eliminates opt keep n g g' where
  labelled a k b o := by
    rw [h.labelled]
    apply and_congr_right
    intro ha
    apply and_congr_right
    intro hb
    simp only [harcs, ha, hb, and_false, not_false_eq_true, and_true]
  edges a k b harc := by
    obtain ⟨ha, hb, hrest⟩ := h.edges a k b harc
    simp only [harcs, ha, hb, and_false, not_false_eq_true, and_true] at hrest
    exact ⟨ha, hb, hrest⟩

end

section

variable {nodes : SVFGNodes} {M : NodeID → Prop} {N N' : IndirectSVFGEdge → Prop} {s t u : State}
  {opt : Options} {n : NodeID}

/-- The loops around one node: edges with `N` come, and the worklist gains nodes with `M`. -/
structure Grows (nodes : SVFGNodes) (M : NodeID → Prop) (N : IndirectSVFGEdge → Prop) (s t : State) :
    Prop where
  adds : Adds s.svfg t.svfg N
  defs : t.defNodes = s.defNodes
  nodup : s.worklist.Nodup → t.worklist.Nodup
  mem : ∀ m ∈ t.worklist, m ∈ s.worklist ∨ M m ∧ nodes.kind m = .mssaPhi ∧ m ∉ s.defNodes

theorem Grows.refl (hN : ∀ e, ¬ N e) : Grows nodes M N s s :=
  ⟨.refl hN, rfl, id, fun _ hm => .inl hm⟩

theorem Grows.trans (h : Grows nodes M N s t) (h' : Grows nodes M N' t u) :
    Grows nodes M (fun e => N e ∨ N' e) s u := by
  refine ⟨h.adds.trans h'.adds, h'.defs.trans h.defs, fun hs => h'.nodup (h.nodup hs),
    fun m hm => ?_⟩
  rcases h'.mem m hm with hm | ⟨hM, hkind, hdef⟩
  · exact h.mem m hm
  · exact .inr ⟨hM, hkind, h.defs ▸ hdef⟩

theorem Grows.congr (h : Grows nodes M N s t) (hN : ∀ e, N e ↔ N' e) : Grows nodes M N' s t :=
  ⟨h.adds.congr hN, h.defs, h.nodup, h.mem⟩

theorem grows_addIntoWorklist (hM : M n) (s : State) :
    Grows nodes M (fun _ => False) s (s.addIntoWorklist nodes n) := by
  rw [State.addIntoWorklist]
  split
  · rename_i hpush
    simp only [Bool.and_eq_true, decide_eq_true_eq, Bool.not_eq_true', decide_eq_false_iff_not] at hpush
    obtain ⟨⟨⟨hkind, -⟩, hdef⟩, hnew⟩ := hpush
    refine ⟨.refl fun _ h => h, rfl, fun hs => ?_, fun m hm => ?_⟩
    · exact List.nodup_append_comm.mp (List.nodup_cons.mpr ⟨hnew, hs⟩)
    · rcases List.mem_append.mp hm with hm | hm
      · exact .inl hm
      · rw [List.mem_singleton.mp hm]
        exact .inr ⟨hM, hkind, of_decide_eq_false hdef⟩
  · exact .refl fun _ h => h

theorem grows_pushes {ι : Type*} {l : List ι} (f : ι → NodeID) (hM : ∀ i ∈ l, M (f i)) (s : State) :
    Grows nodes M (fun _ => False) s (l.foldl (fun s i => s.addIntoWorklist nodes (f i)) s) := by
  apply foldl_invariant (I := fun t => Grows nodes M (fun _ => False) s t)
  · intro i hi t ht
    exact (ht.trans (grows_addIntoWorklist (hM i hi) t)).congr fun _ => or_self_iff
  · exact .refl fun _ h => h

theorem grows_foldlM {σ ι : Type*} (view : σ → State) {l : List ι} {f : σ → ι → Option σ}
    {N : ι → IndirectSVFGEdge → Prop}
    (hf : ∀ i ∈ l, ∀ a, ∃ b, f a i = some b ∧ Grows nodes M (N i) (view a) (view b)) (a : σ) :
    ∃ b, l.foldlM f a = some b ∧ Grows nodes M (fun e => ∃ i ∈ l, N i e) (view a) (view b) := by
  induction l generalizing a with
  | nil => exact ⟨a, rfl, .refl fun e ⟨i, hi, _⟩ => List.not_mem_nil hi⟩
  | cons i l ih =>
      obtain ⟨b, hb, hfirst⟩ := hf i List.mem_cons_self a
      obtain ⟨c, hc, hrest⟩ := ih (fun j hj => hf j (List.mem_cons_of_mem i hj)) b
      refine ⟨c, ?_, ?_⟩
      · rw [List.foldlM_cons, hb]
        exact hc
      · apply (hfirst.trans hrest).congr
        intro e
        rw [List.exists_mem_cons_iff]

end

section

variable {nodes : SVFGNodes} {M : NodeID → Prop} {opt : Options} {s t : State} {n : NodeID}

theorem addNewSVFGEdge_adds (opt : Options) {pre succ : IndirectSVFGEdge} (g : SVFG)
    (hone : bothInterEdges pre succ = false) : ∃ r, addNewSVFGEdge opt g pre succ = some r ∧
      Adds g r.1 (fun e => pre.cpts.inter succ.cpts ≠ ∅ ∧ e = joined opt pre succ) := by
  rw [addNewSVFGEdge]
  by_cases hempty : pre.cpts.inter succ.cpts = ∅
  · refine ⟨(g, false), if_pos hempty, .refl fun e he => he.1 hempty⟩
  · refine ⟨_, (if_neg hempty).trans (if_neg (by simp [hone])), ?_⟩
    exact (adds_addIndirectVFEdge g _).congr fun e => (and_iff_right hempty).symm

theorem bypassEdge_grows {pre succ : IndirectSVFGEdge} (hone : bothInterEdges pre succ = false)
    (hM : M succ.dst) (r : State × Bool) : ∃ r', State.bypassEdge opt nodes pre r succ = some r' ∧
      Grows nodes M (fun e => pre.src ≠ succ.dst ∧ pre.cpts.inter succ.cpts ≠ ∅ ∧
        e = joined opt pre succ) r.1 r'.1 := by
  rw [State.bypassEdge]
  by_cases hne : pre.src ≠ succ.dst
  · obtain ⟨⟨g, isNew⟩, hnew, hadds⟩ := addNewSVFGEdge_adds opt r.1.svfg hone
    have hfirst : Grows nodes M (fun e => pre.src ≠ succ.dst ∧ pre.cpts.inter succ.cpts ≠ ∅ ∧
        e = joined opt pre succ) r.1 { r.1 with svfg := g } :=
      ⟨hadds.congr fun e => (and_iff_right hne).symm, rfl, id, fun _ hm => .inl hm⟩
    rw [if_pos hne, hnew]
    cases isNew with
    | true => exact ⟨_, rfl, hfirst⟩
    | false =>
        refine ⟨_, rfl, ?_⟩
        exact (hfirst.trans (grows_addIntoWorklist hM _)).congr fun e => by rw [or_false]
  · refine ⟨_, if_neg hne, (grows_addIntoWorklist hM r.1).congr fun e => ?_⟩
    exact iff_of_false id fun h => hne h.1

/-- The assertion in the bypass holds at every pair of edges that it joins. -/
theorem bypassMSSAPHINode_grows (hone : NotConnecting s.svfg n)
    (hout : ∀ e ∈ s.svfg.outEdges n, M e.dst) (hin : ∀ e ∈ s.svfg.inEdges n, M e.src) :
    ∃ u, s.bypassMSSAPHINode opt nodes n = some { u with svfg := u.svfg.removeAllEdges n } ∧
      Grows nodes M (Joins opt (· ≠ ·) s.svfg n) s u := by
  have hpair : ∀ pre ∈ s.svfg.inEdges n, ∀ succ ∈ s.svfg.outEdges n,
      bothInterEdges pre succ = false := by
    intro pre hpre succ hsucc
    obtain ⟨hpre, hdst⟩ := mem_inEdges.mp hpre
    obtain ⟨hsucc, hsrc⟩ := mem_outEdges.mp hsucc
    have hnot := hone pre.src pre.kind succ.dst succ.kind ⟨pre, hpre, rfl, rfl, hdst, trivial⟩
      ⟨succ, hsucc, hsrc, rfl, rfl, trivial⟩
    rw [bothInterEdges, ← Bool.not_eq_true, Bool.and_eq_true]
    exact hnot
  have hloop : ∀ pre ∈ s.svfg.inEdges n, ∀ t, ∃ u,
      ((s.svfg.outEdges n).foldlM (State.bypassEdge opt nodes pre) (t, false)).bind (fun r =>
        some (if r.2 then r.1 else r.1.addIntoWorklist nodes pre.src)) = some u ∧
      Grows nodes M (fun e => ∃ succ ∈ s.svfg.outEdges n, pre.src ≠ succ.dst ∧
        pre.cpts.inter succ.cpts ≠ ∅ ∧ e = joined opt pre succ) t u := by
    intro pre hpre t
    have hsuccs : ∀ succ ∈ s.svfg.outEdges n, ∀ r, ∃ r',
        State.bypassEdge opt nodes pre r succ = some r' ∧ Grows nodes M (fun e =>
          pre.src ≠ succ.dst ∧ pre.cpts.inter succ.cpts ≠ ∅ ∧ e = joined opt pre succ) r.1 r'.1 :=
      fun succ hsucc => bypassEdge_grows (hpair pre hpre succ hsucc) (hout succ hsucc)
    obtain ⟨⟨t', added⟩, hfold, hgrows⟩ := grows_foldlM Prod.fst hsuccs (t, false)
    rw [hfold, Option.bind_some]
    cases added with
    | true => exact ⟨t', rfl, hgrows⟩
    | false =>
        refine ⟨_, rfl, ?_⟩
        exact (hgrows.trans (grows_addIntoWorklist (hin pre hpre) t')).congr fun e => by rw [or_false]
  obtain ⟨u, hu, hgrows⟩ := grows_foldlM id hloop s
  refine ⟨u, ?_, hgrows.congr fun e => ?_⟩
  · rw [State.bypassMSSAPHINode]
    exact (congrArg (Option.bind · _) hu).trans rfl
  · exact exists_congr fun pre => and_congr_right fun _ => Iff.rfl

end

section

variable {nodes : SVFGNodes} {M : NodeID → Prop} {opt : Options} {g : SVFG} {s t : State} {n : NodeID}

theorem hasIncomingEdge_eq_false : g.hasIncomingEdge n = false ↔ g.inEdges n = [] := by
  simp [SVFG.hasIncomingEdge]

theorem hasOutgoingEdge_eq_false : g.hasOutgoingEdge n = false ↔ g.outEdges n = [] := by
  simp [SVFG.hasOutgoingEdge]

theorem inEdges_eq_nil : g.inEdges n = [] ↔ ∀ a k, ¬ Arc g a k n none := by
  constructor
  · rintro h a k ⟨e, he, -, -, hdst, -⟩
    have hmem : e ∈ g.inEdges n := mem_inEdges.mpr ⟨he, hdst⟩
    rw [h] at hmem
    exact List.not_mem_nil hmem
  · intro h
    apply List.eq_nil_iff_forall_not_mem.mpr
    intro e he
    obtain ⟨hmem, hdst⟩ := mem_inEdges.mp he
    exact h e.src e.kind ⟨e, hmem, rfl, rfl, hdst, trivial⟩

theorem outEdges_eq_nil : g.outEdges n = [] ↔ ∀ k b, ¬ Arc g n k b none := by
  constructor
  · rintro h k b ⟨e, he, hsrc, -, -, -⟩
    have hmem : e ∈ g.outEdges n := mem_outEdges.mpr ⟨he, hsrc⟩
    rw [h] at hmem
    exact List.not_mem_nil hmem
  · intro h
    apply List.eq_nil_iff_forall_not_mem.mpr
    intro e he
    obtain ⟨hmem, hsrc⟩ := mem_outEdges.mp he
    exact h e.kind e.dst ⟨e, hmem, hsrc, rfl, rfl, trivial⟩

structure Detaches (opt : Options) (nodes : SVFGNodes) (M : NodeID → Prop) (n : NodeID) (s t : State) :
    Prop where
  adds : ∃ g₁, Adds s.svfg g₁ (Joins opt (· ≠ ·) s.svfg n) ∧
    ∀ a k b x, Arc t.svfg a k b x ↔ a ≠ n ∧ b ≠ n ∧ Arc g₁ a k b x
  same : t.svfg.nodes = s.svfg.nodes
  defs : t.defNodes = s.defNodes
  nodup : s.worklist.Nodup → t.worklist.Nodup
  mem : ∀ m ∈ t.worklist, m ∈ s.worklist ∨ M m ∧ nodes.kind m = .mssaPhi ∧ m ∉ s.defNodes

theorem Detaches.no_edges (h : Detaches opt nodes M n s t) :
    t.svfg.hasIncomingEdge n = false ∧ t.svfg.hasOutgoingEdge n = false := by
  obtain ⟨g₁, -, harcs⟩ := h.adds
  rw [hasIncomingEdge_eq_false, hasOutgoingEdge_eq_false, inEdges_eq_nil, outEdges_eq_nil]
  constructor
  · exact fun a k harc => ((harcs a k n none).mp harc).2.1 rfl
  · exact fun k b harc => ((harcs n k b none).mp harc).1 rfl

theorem Arc.ne_of_inEdges {a b : NodeID} {k : IndirectEdgeK} {x : Option NodeID}
    (h : Arc g a k b x) (hin : g.inEdges n = []) : b ≠ n := by
  rintro rfl
  obtain ⟨e, he, -, -, hdst, -⟩ := h
  have hmem : e ∈ g.inEdges b := mem_inEdges.mpr ⟨he, hdst⟩
  rw [hin] at hmem
  exact List.not_mem_nil hmem

theorem Arc.ne_of_outEdges {a b : NodeID} {k : IndirectEdgeK} {x : Option NodeID}
    (h : Arc g a k b x) (hout : g.outEdges n = []) : a ≠ n := by
  rintro rfl
  obtain ⟨e, he, hsrc, -⟩ := h
  have hmem : e ∈ g.outEdges a := mem_outEdges.mpr ⟨he, hsrc⟩
  rw [hout] at hmem
  exact List.not_mem_nil hmem

/-- A node with edges on one side only is joined to nothing. -/
theorem detaches_of_dead {u : State} (hdead : s.svfg.inEdges n = [] ∨ s.svfg.outEdges n = [])
    (hu : Grows nodes M (fun _ => False) s u) {g' : SVFG} (hnodes : g'.nodes = u.svfg.nodes)
    (harcs : ∀ a k b x, Arc g' a k b x ↔ a ≠ n ∧ b ≠ n ∧ Arc u.svfg a k b x) :
    Detaches opt nodes M n s { u with svfg := g' } := by
  refine ⟨⟨u.svfg, hu.adds.congr fun e => iff_of_false id ?_, harcs⟩, hnodes.trans hu.adds.nodes,
    hu.defs, hu.nodup, hu.mem⟩
  rintro ⟨pre, hpre, succ, hsucc, -⟩
  rcases hdead with hin | hout
  · rw [hin] at hpre
    exact List.not_mem_nil hpre
  · rw [hout] at hsucc
    exact List.not_mem_nil hsucc

theorem arc_of_pushes {u : State} (hu : Grows nodes M (fun _ => False) s u) (a : NodeID)
    (k : IndirectEdgeK) (b : NodeID) (x : Option NodeID) : Arc u.svfg a k b x ↔ Arc s.svfg a k b x := by
  rw [hu.adds.arcs, or_iff_left]
  rintro ⟨e, he, -⟩
  exact he

theorem removeDeadEdges_detaches (hdead : s.svfg.inEdges n = [] ∨ s.svfg.outEdges n = [])
    (hout : ∀ e ∈ s.svfg.outEdges n, M e.dst) (hin : ∀ e ∈ s.svfg.inEdges n, M e.src) :
    Detaches opt nodes M n s (s.removeDeadEdges nodes n) := by
  rw [State.removeDeadEdges]
  split
  · rename_i hcase
    rw [Bool.and_eq_true, Bool.not_eq_true', hasOutgoingEdge_eq_false] at hcase
    have hu : Grows nodes M (fun _ => False) s _ := grows_pushes IndirectSVFGEdge.src hin s
    refine detaches_of_dead hdead hu (by rfl) fun a k b x => ?_
    rw [arc_removeInEdges, arc_of_pushes hu]
    exact ⟨fun h => ⟨Arc.ne_of_outEdges h.2 hcase.2, h⟩, fun h => h.2⟩
  · split
    · rename_i hcase
      rw [Bool.and_eq_true, Bool.not_eq_true', hasIncomingEdge_eq_false] at hcase
      have hu : Grows nodes M (fun _ => False) s _ := grows_pushes IndirectSVFGEdge.dst hout s
      refine detaches_of_dead hdead hu (by rfl) fun a k b x => ?_
      rw [arc_removeOutEdges, arc_of_pushes hu]
      exact ⟨fun h => ⟨h.1, Arc.ne_of_inEdges h.2 hcase.2, h.2⟩, fun h => ⟨h.1, h.2.2⟩⟩
    · rename_i hin' hout'
      have hboth : s.svfg.inEdges n = [] ∧ s.svfg.outEdges n = [] := by
        rw [← hasIncomingEdge_eq_false, ← hasOutgoingEdge_eq_false]
        rw [← hasIncomingEdge_eq_false, ← hasOutgoingEdge_eq_false] at hdead
        cases hI : s.svfg.hasIncomingEdge n <;> cases hO : s.svfg.hasOutgoingEdge n <;>
          simp_all
      refine detaches_of_dead hdead (.refl fun _ h => h) rfl fun a k b x => ?_
      exact ⟨fun h => ⟨Arc.ne_of_outEdges h hboth.2, Arc.ne_of_inEdges h hboth.1, h⟩, fun h => h.2.2⟩

theorem bypass_detaches (opt : Options) (nodes : SVFGNodes) (M : NodeID → Prop)
    (hone : NotConnecting s.svfg n) (hout : ∀ e ∈ s.svfg.outEdges n, M e.dst)
    (hin : ∀ e ∈ s.svfg.inEdges n, M e.src) :
    ∃ t, (if s.svfg.hasOutgoingEdge n && s.svfg.hasIncomingEdge n then
        s.bypassMSSAPHINode opt nodes n else some s) = some t ∧
      Detaches opt nodes M n s (t.removeDeadEdges nodes n) := by
  by_cases hboth : (s.svfg.hasOutgoingEdge n && s.svfg.hasIncomingEdge n) = true
  · obtain ⟨u, hu, hgrows⟩ := bypassMSSAPHINode_grows hone hout hin
    refine ⟨_, (if_pos hboth).trans hu, ?_⟩
    have hdetach : Detaches opt nodes M n s { u with svfg := u.svfg.removeAllEdges n } :=
      ⟨⟨u.svfg, hgrows.adds, fun a k b x => arc_removeAllEdges⟩, hgrows.adds.nodes, hgrows.defs,
        hgrows.nodup, hgrows.mem⟩
    obtain ⟨hnoin, hnoout⟩ := hdetach.no_edges
    rw [State.removeDeadEdges, hnoin, hnoout]
    exact hdetach
  · refine ⟨s, if_neg hboth, removeDeadEdges_detaches ?_ hout hin⟩
    rw [← hasIncomingEdge_eq_false, ← hasOutgoingEdge_eq_false]
    rw [Bool.and_eq_true, not_and_or, Bool.not_eq_true, Bool.not_eq_true] at hboth
    exact hboth.symm

end

section

variable {opt : Options} {nodes : SVFGNodes} {g₀ : SVFG} {s t : State} {n : NodeID}

structure Pending (nodes : SVFGNodes) (s : State) : Prop where
  nodup : s.worklist.Nodup
  mem : ∀ m ∈ s.worklist, m ∈ s.svfg.nodes ∧ nodes.kind m = .mssaPhi ∧ m ∉ s.defNodes

/-- The self cycles of a node that waits cross no call site. -/
theorem checkSelfCycleEdges_eq (h : Inv opt nodes g₀ s) (hp : Pending nodes s) (hn : n ∈ s.worklist) :
    ∃ g, (checkSelfCycleEdges (parseSelfCycleHandleOption opt.selfCycle) (s.svfg.inEdges n) s.svfg
        false = (s.svfg, true) ∨
      checkSelfCycleEdges (parseSelfCycleHandleOption opt.selfCycle) (s.svfg.inEdges n) s.svfg
        false = (g, false)) ∧ g.nodes = s.svfg.nodes ∧
      ∀ a k b x, Arc g a k b x ↔ Arc s.svfg a k b x ∧ ¬ (a = n ∧ b = n) := by
  refine ⟨withoutSelf s.svfg n, ?_, rfl, fun a k b x => arc_withoutSelf⟩
  cases hkeep : (parseSelfCycleHandleOption opt.selfCycle).keepAllSelfCycle with
  | true =>
      rw [checkSelfCycleEdges_all hkeep, Bool.false_or]
      cases hany : (s.svfg.inEdges n).any fun e => e.src = e.dst with
      | true => exact .inl rfl
      | false =>
          right
          have hsame : withoutSelf s.svfg n = s.svfg := by
            rw [withoutSelf]
            congr 1
            apply List.filter_eq_self.mpr
            intro e _
            apply decide_eq_true
            rintro ⟨he, hself⟩
            have hnot := List.any_eq_false.mp hany e he
            simp [hself] at hnot
          rw [hsame]
  | false =>
      right
      refine checkSelfCycleEdges_removes hkeep fun e he hself => ?_
      obtain ⟨he, hdst⟩ := mem_inEdges.mp he
      by_contra hinter
      have harc : Arc s.svfg n e.kind n none := ⟨e, he, hself.trans hdst, rfl, hdst, trivial⟩
      exact (hp.mem n hn).2.2 (h.inter n e.kind n harc (Bool.not_eq_false _ ▸ hinter)).2

/-- A node of the worklist is skipped, or eliminated. The assertion does not fail. -/
theorem handleMSSAPHINode_spec (hwf : WellFormed nodes g₀) (h : Inv opt nodes g₀ s)
    (hp : Pending nodes s) (hn : n ∈ s.worklist) :
    ∃ t, s.handleMSSAPHINode opt nodes n = some t ∧
      (t = { s with worklist := s.worklist.erase n } ∨
        t.svfg.nodes = s.svfg.nodes.erase n ∧ Inv opt nodes g₀ t ∧ Pending nodes t) := by
  obtain ⟨g, hcheck, hnodes, harcs⟩ := checkSelfCycleEdges_eq h hp hn
  obtain ⟨hlive, hkind, hdefs⟩ := hp.mem n hn
  have hdef : ¬ IsDef nodes g₀ n := fun hd => hdefs ((h.defs n).mpr hd)
  rw [State.handleMSSAPHINode]
  rcases hcheck with hcheck | hcheck
  · rw [hcheck]
    exact ⟨_, rfl, .inl rfl⟩
  · rw [hcheck]
    set s₁ : State := { s with svfg := g, worklist := s.worklist.erase n } with hs₁
    have hone : NotConnecting s₁.svfg n := fun a k₁ b k₂ h₁ h₂ =>
      h.notConnecting hdef a k₁ b k₂ ((harcs _ _ _ _).mp h₁).1 ((harcs _ _ _ _).mp h₂).1
    have hout : ∀ e ∈ s₁.svfg.outEdges n, e.dst ∈ s.svfg.nodes ∧ e.dst ≠ n := by
      intro e he
      obtain ⟨he, hsrc⟩ := mem_outEdges.mp he
      have harc := (harcs n e.kind e.dst none).mp ⟨e, he, hsrc, rfl, rfl, trivial⟩
      exact ⟨(h.ends _ _ _ harc.1).2.1, fun heq => harc.2 ⟨rfl, heq⟩⟩
    have hin : ∀ e ∈ s₁.svfg.inEdges n, e.src ∈ s.svfg.nodes ∧ e.src ≠ n := by
      intro e he
      obtain ⟨he, hdst⟩ := mem_inEdges.mp he
      have harc := (harcs e.src e.kind n none).mp ⟨e, he, rfl, rfl, hdst, trivial⟩
      exact ⟨(h.ends _ _ _ harc.1).1.1, fun heq => harc.2 ⟨heq, rfl⟩⟩
    have hbypass := bypass_detaches opt nodes (fun m => m ∈ s.svfg.nodes ∧ m ≠ n) hone hout hin
    obtain ⟨u, hu, hdetach⟩ := hbypass
    obtain ⟨hnoin, hnoout⟩ := hdetach.no_edges
    have hresult : ((if s₁.svfg.hasOutgoingEdge n && s₁.svfg.hasIncomingEdge n then
          s₁.bypassMSSAPHINode opt nodes n else some s₁).map fun s =>
        let s := s.removeDeadEdges nodes n
        if !s.svfg.hasIncomingEdge n && !s.svfg.hasOutgoingEdge n then
          { s with svfg := s.svfg.removeSVFGNode n } else s) =
        some { u.removeDeadEdges nodes n with
          svfg := (u.removeDeadEdges nodes n).svfg.removeSVFGNode n } := by
      rw [hu]
      change some (if _ then _ else _) = _
      rw [hnoin, hnoout]
      rfl
    refine ⟨_, (if_neg Bool.false_ne_true).trans hresult, .inr ⟨?_, ?_, ?_⟩⟩
    · exact congrArg (List.erase · n) (hdetach.same.trans hnodes)
    · obtain ⟨g₁, hadds, hrest⟩ := hdetach.adds
      have helim : Eliminates opt (· ≠ ·) n s.svfg
          ((u.removeDeadEdges nodes n).svfg.removeSVFGNode n) :=
        eliminates_of_withoutSelf harcs (.of_adds hadds hrest)
      have hnot : (nodes.kind n).isAInFOut = false := by rw [hkind]; rfl
      have hnew : n ∉ eliminated nodes g₀ s := by
        rintro ⟨-, hk | hgone⟩
        · rw [hnot] at hk
          contradiction
        · exact hgone hlive
      refine h.eliminates hlive hdef ?_ hdetach.defs helim fun o => ?_
      · exact congrArg (List.erase · n) (hdetach.same.trans hnodes)
      · have hphi : n ∈ phis nodes g₀ := ⟨h.subset n hlive, hkind⟩
        refine (flows_bypassed helim (h.notConnecting hdef) o).trans ?_
        rw [h.flows, contracted_insert_bypassed hnew hphi]
        exact h.quiet hwf hnot hdef o
    · have hkept : ∀ m, m ∈ s.svfg.nodes ∧ m ≠ n →
          m ∈ (u.removeDeadEdges nodes n).svfg.nodes.erase n := by
        intro m hm
        rw [hdetach.same, hs₁, hnodes]
        exact h.nodup.mem_erase_iff.mpr hm.symm
      refine ⟨hdetach.nodup (hp.nodup.erase n), fun m hm => ?_⟩
      rcases hdetach.mem m hm with hm | ⟨hlive', hk, hnot⟩
      · obtain ⟨hne, hm⟩ := hp.nodup.mem_erase_iff.mp hm
        obtain ⟨hmlive, hk, hnot⟩ := hp.mem m hm
        exact ⟨hkept m ⟨hmlive, hne⟩, hk, hdetach.defs ▸ hnot⟩
      · exact ⟨hkept m hlive', hk, hdetach.defs ▸ hnot⟩

theorem Inv.congr (h : Inv opt nodes g₀ s) (hsvfg : t.svfg = s.svfg)
    (hdefs : t.defNodes = s.defNodes) : Inv opt nodes g₀ t := by
  obtain ⟨nodup, subset, ends, inter, flows, defs, defsKept⟩ := h
  refine ⟨hsvfg ▸ nodup, hsvfg ▸ subset, hsvfg ▸ ends, ?_, ?_, hdefs ▸ defs, hsvfg ▸ defsKept⟩
  · rw [hsvfg, hdefs]
    exact inter
  · rw [eliminated, hsvfg]
    exact flows

def rank (s : State) : ℕ ×ₗ ℕ := toLex (s.svfg.nodes.length, s.worklist.length)

theorem step_inv (hwf : WellFormed nodes g₀) (h : Inv opt nodes g₀ s ∧ Pending nodes s)
    (hstep : Step opt nodes s t) : (Inv opt nodes g₀ t ∧ Pending nodes t) ∧ rank t < rank s := by
  obtain ⟨hinv, hp⟩ := h
  cases hstep with
  | pop mem handled =>
      obtain ⟨t', ht', hcase⟩ := handleMSSAPHINode_spec hwf hinv hp mem
      cases handled.symm.trans ht'
      rcases hcase with rfl | ⟨hnodes, hinv', hp'⟩
      · refine ⟨⟨Inv.congr hinv rfl rfl, hp.nodup.erase _, fun m hm =>
          hp.mem m (List.mem_of_mem_erase hm)⟩, ?_⟩
        apply Prod.Lex.toLex_lt_toLex.mpr
        refine .inr ⟨rfl, ?_⟩
        change (s.worklist.erase _).length < s.worklist.length
        rw [List.length_erase_of_mem mem]
        have hpos := List.length_pos_of_mem mem
        omega
      · refine ⟨⟨hinv', hp'⟩, ?_⟩
        apply Prod.Lex.toLex_lt_toLex.mpr
        left
        have hlive := (hp.mem _ mem).1
        rw [hnodes, List.length_erase_of_mem hlive]
        have hpos := List.length_pos_of_mem hlive
        omega

theorem steps_inv (hwf : WellFormed nodes g₀) (h : Inv opt nodes g₀ s ∧ Pending nodes s)
    (hrun : ReflTransGen (Step opt nodes) s t) : Inv opt nodes g₀ t ∧ Pending nodes t := by
  induction hrun with
  | refl => exact h
  | tail _ hstep ih => exact (step_inv hwf ih hstep).1

theorem initialWorkList_inv (h : Inv opt nodes g₀ s) (hempty : s.worklist = []) :
    Inv opt nodes g₀ (s.initialWorkList nodes) ∧ Pending nodes (s.initialWorkList nodes) := by
  have hgrows : Grows nodes (· ∈ s.svfg.nodes) (fun _ => False) s (s.initialWorkList nodes) :=
    grows_pushes id (fun _ hn => hn) s
  have hsvfg : (s.initialWorkList nodes).svfg = s.svfg := by
    apply foldl_invariant (I := fun t : State => t.svfg = s.svfg)
    · intro n _ t ht
      rw [State.addIntoWorklist]
      split <;> exact ht
    · rfl
  refine ⟨Inv.congr h hsvfg hgrows.defs, hgrows.nodup (hempty ▸ List.nodup_nil), fun m hm => ?_⟩
  rcases hgrows.mem m hm with hm | ⟨hlive, hkind, hdef⟩
  · rw [hempty] at hm
    exact absurd hm List.not_mem_nil
  · exact ⟨hsvfg ▸ hlive, hkind, hgrows.defs ▸ hdef⟩

end

section

variable {opt : Options} {nodes : SVFGNodes} {g₀ : SVFG}

/-- A recursive function: the store 0 reaches the call at 1, the entry 2 of the function and the
phi node 3 of the loop, whose value the store kills only weakly. 4 loads after the store. -/
def sampleNodes : SVFGNodes where
  kind
    | 1 => .actualIN
    | 2 => .formalIN
    | 3 => .mssaPhi
    | _ => .other
  isIndirectCallSites _ := false
  hasAddressTaken _ := false

def sampleSVFG : SVFG where
  nodes := [0, 1, 2, 3, 4]
  edges :=
    let pts := PointsTo.set ∅ 10
    [⟨0, 1, .intra, pts⟩, ⟨1, 2, .call 7, pts⟩, ⟨2, 3, .intra, pts⟩, ⟨0, 3, .intra, pts⟩,
      ⟨3, 0, .intra, pts⟩, ⟨0, 4, .intra, pts⟩]

def sampleOptions : Options := ⟨false, false, ""⟩

theorem wellFormed_sample : WellFormed sampleNodes sampleSVFG where
  nodup := by decide
  src := by decide
  dst := by decide
  call e he csid hk := by
    simp only [sampleSVFG, List.mem_cons, List.not_mem_nil, or_false] at he
    rcases he with rfl | rfl | rfl | rfl | rfl | rfl <;> simp_all [sampleNodes]
  ret e he csid hk := by
    simp only [sampleSVFG, List.mem_cons, List.not_mem_nil, or_false] at he
    rcases he with rfl | rfl | rfl | rfl | rfl | rfl <;> simp_all
  intra := by decide +kernel
  defEdge n hn hk := by
    simp only [sampleSVFG, List.mem_cons, List.not_mem_nil, or_false] at hn
    rcases hn with rfl | rfl | rfl | rfl | rfl
    · contradiction
    · exact ⟨⟨0, 1, .intra, PointsTo.set ∅ 10⟩, by decide +kernel⟩
    · contradiction
    · contradiction
    · contradiction

theorem flows_sample {e : IndirectSVFGEdge} (he : e ∈ sampleSVFG.edges) (ho : 10 ∈ e.cpts) :
    flows sampleOptions sampleSVFG 10 e.src (word sampleOptions e.kind) e.dst :=
  ⟨e.kind, ⟨e, he, rfl, rfl, rfl, ho⟩, rfl⟩

end

end SVF.Graphs.IntraElimination
