import Mathlib.Order.CompletePartialOrder
import SVF.Graphs.IndirectFlows
import SVF.Util.Folds

namespace SVF.Graphs.InterElimination

open MemoryModel.PointsToSets SVFGOPT IndirectFlows Util.Elimination Util.Folds

section

variable {nodes : SVFGNodes} {g₀ : SVFG} {e : IndirectSVFGEdge}

theorem isInter_src (hwf : WellFormed nodes g₀) (he : e ∈ g₀.edges) :
    (nodes.kind e.src).isAInFOut = e.kind.isInter := by
  cases hk : e.kind with
  | intra => exact hwf.intra e he hk
  | call csid => rw [(hwf.call e he csid hk).1]; rfl
  | ret csid => rw [(hwf.ret e he csid hk).1]; rfl

theorem isAOutFIn_dst (hwf : WellFormed nodes g₀) (he : e ∈ g₀.edges) (hk : e.kind.isInter = true) :
    (nodes.kind e.dst).isAOutFIn = true := by
  cases hkind : e.kind with
  | intra => rw [hkind] at hk; contradiction
  | call csid => rw [(hwf.call e he csid hkind).2]; rfl
  | ret csid => rw [(hwf.ret e he csid hkind).2]; rfl

theorem not_both {k : SVFGNodeK} (h : k.isAInFOut = true) : k.isAOutFIn = false := by
  cases k <;> simp_all [SVFGNodeK.isAInFOut, SVFGNodeK.isAOutFIn]

theorem intra_of_dst (hwf : WellFormed nodes g₀) (he : e ∈ g₀.edges)
    (hdst : (nodes.kind e.dst).isAInFOut = true) : e.kind = .intra := by
  rw [← isInter_eq_false]
  by_contra hk
  rw [Bool.not_eq_false] at hk
  have hinto := isAOutFIn_dst hwf he hk
  rw [not_both hdst] at hinto
  contradiction

/-- The definitions that `setActualINDef` and `setFormalOUTDef` are to record. -/
def IsDef (nodes : SVFGNodes) (g₀ : SVFG) (x : NodeID) : Prop :=
  ∃ e ∈ g₀.edges, e.src = x ∧ (nodes.kind e.dst).isAInFOut = true

theorem IsDef.not_isAInFOut (hwf : WellFormed nodes g₀) {x : NodeID} (h : IsDef nodes g₀ x) :
    (nodes.kind x).isAInFOut = false := by
  obtain ⟨e, he, rfl, hdst⟩ := h
  rw [isInter_src hwf he, intra_of_dst hwf he hdst]
  rfl

/-- A walk through eliminated nodes that starts at no definition crosses no call site. -/
theorem through_word (hwf : WellFormed nodes g₀) {opt : Options} {o : NodeID} {R : Set NodeID}
    (hR : ∀ x ∈ R, ¬ IsDef nodes g₀ x) {a b : NodeID} {w : List IndirectEdgeK}
    (ha : (nodes.kind a).isAInFOut = false) (hdef : ¬ IsDef nodes g₀ a)
    (h : Through (flows opt g₀ o) R a w b) : w = [] := by
  have hone : ∀ a u c, (nodes.kind a).isAInFOut = false → flows opt g₀ o a u c → u = [] := by
    rintro a u c ha ⟨k, ⟨e, he, rfl, rfl, rfl, -⟩, rfl⟩
    rw [isInter_src hwf he, isInter_eq_false] at ha
    rw [ha, word_intra]
  induction h with
  | edge edge => exact hone _ _ _ ha edge
  | @cons a b c u w edge inner rest ih =>
      have hc : (nodes.kind c).isAInFOut = false := by
        by_contra hc
        obtain ⟨k, ⟨e, he, hsrc, -, rfl, -⟩, -⟩ := edge
        exact hdef ⟨e, he, hsrc, Bool.not_eq_false _ ▸ hc⟩
      rw [hone _ _ _ ha edge, ih hc (hR c inner), List.append_nil]

end

section

variable {opt : Options} {nodes : SVFGNodes} {g₀ : SVFG} {s : State} {n m : NodeID}
  {e : IndirectSVFGEdge}

def retarget (opt : Options) (inEdge : IndirectSVFGEdge) (svfg : SVFG) (outEdge : IndirectSVFGEdge) :
    SVFG :=
  if inEdge.cpts.inter outEdge.cpts = ∅ then svfg
  else (svfg.addIndirectVFEdge ⟨inEdge.src, outEdge.dst, interKind opt outEdge.kind,
    inEdge.cpts.inter outEdge.cpts⟩).1

theorem adds_retarget (hintra : e.kind = .intra) (g : SVFG) (outEdge : IndirectSVFGEdge) :
    Adds g (retarget opt e g outEdge)
      (fun new => e.cpts.inter outEdge.cpts ≠ ∅ ∧ new = joined opt e outEdge) := by
  rw [retarget, joined, hintra, newEdgeKind_intra_left]
  split
  · rename_i hempty
    exact .refl fun new h => h.1 hempty
  · rename_i hne
    exact (adds_addIndirectVFEdge g _).congr fun new => (and_iff_right hne).symm

theorem retargetEdgesOfAInFOut_eq (hin : s.svfg.inEdges n = [e])
    (hout : ∀ f ∈ s.svfg.outEdges n, f.kind.isInter = true) :
    s.retargetEdgesOfAInFOut opt nodes n = some { s.setDef nodes n e.src with
      svfg := ((s.svfg.outEdges n).foldl (retarget opt e) s.svfg).removeAllEdges n } := by
  rw [State.retargetEdgesOfAInFOut, hin]
  have hloop := foldlM_eq_some (f := fun svfg outEdge =>
      if e.cpts.inter outEdge.cpts = ∅ then
        some svfg
      else if outEdge.kind.isInter then
        some (svfg.addIndirectVFEdge
          ⟨e.src, outEdge.dst, interKind opt outEdge.kind, e.cpts.inter outEdge.cpts⟩).1
      else
        none) (l := s.svfg.outEdges n) (retarget opt e) (fun f hf svfg => ?_) s.svfg
  · exact (congrArg (Option.bind · _) hloop).trans rfl
  · rw [retarget, if_pos (hout f hf)]
    split <;> rfl

theorem adds_retargeted (hin : s.svfg.inEdges n = [e]) (hintra : e.kind = .intra) :
    Adds s.svfg ((s.svfg.outEdges n).foldl (retarget opt e) s.svfg)
      (Joins opt (fun _ _ => True) s.svfg n) := by
  apply (adds_foldl (fun f _ g => adds_retarget hintra g f) s.svfg).congr
  intro new
  rw [Joins, hin]
  constructor
  · rintro ⟨f, hf, hne, rfl⟩
    exact ⟨e, List.mem_singleton.mpr rfl, f, hf, trivial, hne, rfl⟩
  · rintro ⟨pre, hpre, f, hf, -, hne, rfl⟩
    rw [List.mem_singleton.mp hpre] at hne ⊢
    exact ⟨f, hf, hne, rfl⟩

theorem retarget_edgesAt {p : IndirectSVFGEdge → Bool} {l : List IndirectSVFGEdge}
    (hp : ∀ f pts, p { f with cpts := pts } = p f)
    (hsame : ∀ f ∈ l, ∀ k pts e', SVFG.sameEdge e' ⟨e.src, f.dst, k, pts⟩ → p e' = false) (g : SVFG) :
    (l.foldl (retarget opt e) g).edges.filter p = g.edges.filter p := by
  apply foldl_invariant (I := fun g' : SVFG => g'.edges.filter p = g.edges.filter p)
  · intro f hf g' hg'
    rw [retarget]
    split
    · exact hg'
    · rw [filter_addIndirectVFEdge hp (hsame f hf _ _), hg']
      exact hsame f hf _ _ _ (sameEdge_iff.mpr ⟨rfl, rfl, rfl⟩)
  · rfl

theorem setDef_worklist : (s.setDef nodes n m).worklist = s.worklist := by
  rw [State.setDef]
  split <;> rfl

theorem mem_defNodes_setDef (hn : (nodes.kind n).isAInFOut = true) (x : NodeID) :
    x ∈ (s.setDef nodes n m).defNodes ↔ x ∈ s.defNodes ∨ x = m := by
  rw [State.setDef]
  cases hk : nodes.kind n <;> simp_all [SVFGNodeK.isAInFOut]

end

section

variable {opt : Options} {nodes : SVFGNodes} {g₀ : SVFG} {done : Set NodeID} {s : State} {n : NodeID}

/-- The MSSA phi nodes. Only their elimination leaves returning edges out. -/
def phis (nodes : SVFGNodes) (g₀ : SVFG) : Set NodeID :=
  {x | x ∈ g₀.nodes ∧ nodes.kind x = .mssaPhi}

structure Retargeted (opt : Options) (nodes : SVFGNodes) (g₀ : SVFG) (done : Set NodeID) (s : State) :
    Prop where
  same : s.svfg.nodes = g₀.nodes
  inEdges : ∀ n, (nodes.kind n).isAInFOut = true → n ∉ done → s.svfg.inEdges n = g₀.inEdges n
  outEdges : ∀ n, (nodes.kind n).isAInFOut = true → n ∉ done → s.svfg.outEdges n = g₀.outEdges n
  ends : ∀ a k b, Arc s.svfg a k b none → (a ∈ g₀.nodes ∧ a ∉ done) ∧ b ∈ g₀.nodes ∧ b ∉ done
  inter : ∀ a k b, Arc s.svfg a k b none → k.isInter = true → (nodes.kind a).isAInFOut = true ∨
    opt.contextInsensitive = false ∧ a ∈ s.defNodes
  flows : ∀ o, flows opt s.svfg o = Contracted (flows opt g₀ o) done (phis nodes g₀)
  defs : ∀ x, x ∈ s.defNodes ↔ ∃ e ∈ g₀.edges, e.src = x ∧ e.dst ∈ done

/-- The one edge into an actual-in or formal-out, and the nodes it comes from. -/
theorem Retargeted.defEdge (hwf : WellFormed nodes g₀) (h : Retargeted opt nodes g₀ done s)
    (hmem : n ∈ g₀.nodes) (hn : (nodes.kind n).isAInFOut = true) (hdone : n ∉ done) :
    ∃ e ∈ g₀.edges, e.dst = n ∧ s.svfg.inEdges n = [e] ∧ e.kind = .intra ∧ e.src ≠ n ∧
      (nodes.kind e.src).isAInFOut = false := by
  obtain ⟨e, hin⟩ := hwf.defEdge n hmem hn
  have hself : e ∈ g₀.inEdges n := by
    rw [hin]
    exact List.mem_singleton.mpr rfl
  obtain ⟨he, rfl⟩ := mem_inEdges.mp hself
  have hintra := intra_of_dst hwf he hn
  have hsrc := hwf.intra e he hintra
  refine ⟨e, he, rfl, (h.inEdges e.dst hn hdone).trans hin, hintra, fun heq => ?_, hsrc⟩
  rw [heq, hn] at hsrc
  contradiction

theorem interKind_isInter {k : IndirectEdgeK} (h : (interKind opt k).isInter = true) :
    opt.contextInsensitive = false ∧ interKind opt k = k := by
  rw [interKind] at h ⊢
  split at h
  · contradiction
  · rename_i hci
    exact ⟨by simpa using hci, if_neg hci⟩

theorem removeAllEdges_edgesAt {p : IndirectSVFGEdge → Bool} {g : SVFG}
    (hp : ∀ e ∈ g.edges, p e = true → e.dst ≠ n ∧ e.src ≠ n) :
    (g.removeAllEdges n).edges.filter p = g.edges.filter p := by
  rw [SVFG.removeAllEdges, SVFG.removeOutEdges, SVFG.removeInEdges, List.filter_filter,
    List.filter_filter]
  apply List.filter_congr
  intro e he
  cases hpe : p e with
  | false => rfl
  | true => simp [hp e he hpe]

theorem first_flow (hwf : WellFormed nodes g₀) (hn : (nodes.kind n).isAInFOut = true) {o c : NodeID}
    {u : List IndirectEdgeK} (h : IndirectFlows.flows opt g₀ o n u c) :
    (nodes.kind c).isAInFOut = false := by
  obtain ⟨k, ⟨f, hf, rfl, -, rfl, -⟩, -⟩ := h
  have hinto := isAOutFIn_dst hwf hf ((isInter_src hwf hf).symm.trans hn)
  by_contra hc
  rw [not_both (Bool.not_eq_false _ ▸ hc)] at hinto
  contradiction

/-- A call or return edge leads out of the nodes that are met here. -/
theorem no_return (hwf : WellFormed nodes g₀) (hdone : ∀ x ∈ done, (nodes.kind x).isAInFOut = true)
    (hn : (nodes.kind n).isAInFOut = true) (o : NodeID) (w : List IndirectEdgeK) :
    ¬ Through (IndirectFlows.flows opt g₀ o) done n w n := by
  intro h
  cases h with
  | edge edge =>
      rw [first_flow hwf hn edge] at hn
      contradiction
  | cons edge inner rest =>
      have hc := hdone _ inner
      rw [first_flow hwf hn edge] at hc
      contradiction

/-- The lists of the nodes that are not met yet stay as the builder left them. -/
theorem Retargeted.edgesAt (hwf : WellFormed nodes g₀) (h : Retargeted opt nodes g₀ done s)
    (hn : (nodes.kind n).isAInFOut = true) {e : IndirectSVFGEdge}
    (hsrc : (nodes.kind e.src).isAInFOut = false)
    (hout : ∀ f ∈ s.svfg.outEdges n, (nodes.kind f.dst).isAOutFIn = true) {m : NodeID}
    (hm : (nodes.kind m).isAInFOut = true) (hmn : m ≠ n) (hmdone : m ∉ done) :
    let g := (s.svfg.outEdges n).foldl (retarget opt e) s.svfg
    (g.removeAllEdges n).inEdges m = g₀.inEdges m ∧ (g.removeAllEdges n).outEdges m = g₀.outEdges m := by
  intro g
  have hto : g.inEdges m = g₀.inEdges m := by
    rw [← h.inEdges m hm hmdone]
    apply retarget_edgesAt (fun _ _ => rfl)
    intro f hf k pts e' hsame
    rw [(sameEdge_iff.mp hsame).2.1]
    apply decide_eq_false
    rintro rfl
    have hinto := hout f hf
    rw [not_both hm] at hinto
    contradiction
  have hfrom : g.outEdges m = g₀.outEdges m := by
    rw [← h.outEdges m hm hmdone]
    apply retarget_edgesAt (fun _ _ => rfl)
    intro f hf k pts e' hsame
    rw [(sameEdge_iff.mp hsame).1]
    apply decide_eq_false
    rintro rfl
    rw [hm] at hsrc
    contradiction
  constructor
  · refine (removeAllEdges_edgesAt fun f hf hfm => ?_).trans hto
    have hmem : f ∈ g₀.inEdges m := by
      rw [← hto]
      exact List.mem_filter.mpr ⟨hf, hfm⟩
    obtain ⟨hf₀, rfl⟩ := mem_inEdges.mp hmem
    refine ⟨hmn, fun heq => ?_⟩
    have hsrcf := hwf.intra f hf₀ (intra_of_dst hwf hf₀ hm)
    rw [heq, hn] at hsrcf
    contradiction
  · refine (removeAllEdges_edgesAt fun f hf hfm => ?_).trans hfrom
    have hmem : f ∈ g₀.outEdges m := by
      rw [← hfrom]
      exact List.mem_filter.mpr ⟨hf, hfm⟩
    obtain ⟨hf₀, rfl⟩ := mem_outEdges.mp hmem
    refine ⟨fun heq => ?_, hmn⟩
    have hinto := isAOutFIn_dst hwf hf₀ ((isInter_src hwf hf₀).symm.trans hm)
    rw [heq, not_both hn] at hinto
    contradiction

theorem retargeted_step (hwf : WellFormed nodes g₀) (h : Retargeted opt nodes g₀ done s)
    (hdone : ∀ x ∈ done, (nodes.kind x).isAInFOut = true) (hmem : n ∈ g₀.nodes)
    (hn : (nodes.kind n).isAInFOut = true) (hnew : n ∉ done) :
    ∃ t, s.retargetEdgesOfAInFOut opt nodes n = some t ∧
      Retargeted opt nodes g₀ (insert n done) t ∧ t.worklist = s.worklist := by
  obtain ⟨e, he, hdst, hin, hintra, hsrc, hsrcK⟩ := h.defEdge hwf hmem hn hnew
  have hout : ∀ f ∈ s.svfg.outEdges n, f ∈ g₀.edges ∧ f.kind.isInter = true ∧
      (nodes.kind f.dst).isAOutFIn = true := by
    intro f hf
    rw [h.outEdges n hn hnew] at hf
    obtain ⟨hedge, rfl⟩ := mem_outEdges.mp hf
    have hinter := (isInter_src hwf hedge).symm.trans hn
    exact ⟨hedge, hinter, isAOutFIn_dst hwf hedge hinter⟩
  have hadds : Adds s.svfg ((s.svfg.outEdges n).foldl (retarget opt e) s.svfg)
    (Joins opt (fun _ _ => True) s.svfg n) := adds_retargeted hin hintra
  refine ⟨_, retargetEdgesOfAInFOut_eq hin fun f hf => (hout f hf).2.1, ?_, setDef_worklist⟩
  set g := (s.svfg.outEdges n).foldl (retarget opt e) s.svfg with hg
  have helim : Eliminates opt (fun _ _ => True) n s.svfg (g.removeAllEdges n) :=
    .of_adds hadds fun _ _ _ _ => arc_removeAllEdges
  have hpre : ∀ a k₁, Arc s.svfg a k₁ n none → a = e.src ∧ k₁ = .intra := by
    rintro a k₁ ⟨f, hf, rfl, rfl, hfn, -⟩
    have hmem : f ∈ s.svfg.inEdges n := mem_inEdges.mpr ⟨hf, hfn⟩
    rw [hin, List.mem_singleton] at hmem
    rw [hmem]
    exact ⟨rfl, hintra⟩
  have hone : NotConnecting s.svfg n := by
    intro a k₁ b k₂ h₁ _ hboth
    rw [(hpre a k₁ h₁).2] at hboth
    exact absurd hboth.1 Bool.false_ne_true
  refine ⟨?_, fun m hm hnot => ?_, fun m hm hnot => ?_, fun a k b harc => ?_, fun a k b harc hk => ?_,
    fun o => ?_, fun x => ?_⟩
  · exact hadds.nodes.trans h.same
  · rw [not_mem_insert] at hnot
    exact (h.edgesAt hwf hn hsrcK (fun f hf => (hout f hf).2.2) hm hnot.1 hnot.2).1
  · rw [not_mem_insert] at hnot
    exact (h.edgesAt hwf hn hsrcK (fun f hf => (hout f hf).2.2) hm hnot.1 hnot.2).2
  · obtain ⟨ha, hb, harc | ⟨k₁, k₂, h₁, h₂, -⟩⟩ := helim.edges a k b harc
    · obtain ⟨⟨ha₀, ha'⟩, hb₀, hb'⟩ := h.ends a k b harc
      exact ⟨⟨ha₀, (not_mem_insert done a n).mpr ⟨ha, ha'⟩⟩, hb₀,
        (not_mem_insert done b n).mpr ⟨hb, hb'⟩⟩
    · obtain ⟨ha₀, ha'⟩ := (h.ends a k₁ n h₁).1
      obtain ⟨hb₀, hb'⟩ := (h.ends n k₂ b h₂).2
      exact ⟨⟨ha₀, (not_mem_insert done a n).mpr ⟨ha, ha'⟩⟩, hb₀,
        (not_mem_insert done b n).mpr ⟨hb, hb'⟩⟩
  · change _ ∨ _ ∧ a ∈ (s.setDef nodes n e.src).defNodes
    rw [mem_defNodes_setDef hn]
    obtain ⟨ha, hb, harc | ⟨k₁, k₂, h₁, h₂, rfl⟩⟩ := helim.edges a k b harc
    · exact (h.inter a k b harc hk).imp_right (And.imp_right .inl)
    · obtain ⟨rfl, rfl⟩ := hpre a k₁ h₁
      rw [newEdgeKind_intra_left] at hk
      exact .inr ⟨(interKind_isInter hk).1, .inr rfl⟩
  · have hphi : n ∉ phis nodes g₀ := by
      rintro ⟨-, hk⟩
      rw [hk] at hn
      contradiction
    have hdis : Disjoint done (phis nodes g₀) := by
      rw [Set.disjoint_left]
      rintro x hx ⟨-, hk⟩
      have hxK := hdone x hx
      rw [hk] at hxK
      contradiction
    change IndirectFlows.flows opt (g.removeAllEdges n) o = _
    rw [flows_spliced helim hone, h.flows, contracted_insert_spliced hnew hphi hdis]
    exact fun w hw => absurd hw (no_return hwf hdone hn o w)
  · change x ∈ (s.setDef nodes n e.src).defNodes ↔ _
    rw [mem_defNodes_setDef hn, h.defs]
    constructor
    · rintro (⟨f, hf, hfx, hfd⟩ | rfl)
      · exact ⟨f, hf, hfx, Set.mem_insert_of_mem n hfd⟩
      · exact ⟨e, he, rfl, hdst ▸ Set.mem_insert n done⟩
    · rintro ⟨f, hf, rfl, hfd⟩
      rcases Set.mem_insert_iff.mp hfd with hfd | hfd
      · have hmem : f ∈ s.svfg.inEdges n := by
          rw [h.inEdges n hn hnew]
          exact mem_inEdges.mpr ⟨hf, hfd⟩
        rw [hin, List.mem_singleton] at hmem
        exact .inr (by rw [hmem])
      · exact .inl ⟨f, hf, rfl, hfd⟩

def start (g₀ : SVFG) : State := ⟨g₀, fun _ => none, fun _ => none, ∅, []⟩

theorem retargeted_start (hwf : WellFormed nodes g₀) : Retargeted opt nodes g₀ ∅ (start g₀) where
  same := rfl
  inEdges _ _ _ := rfl
  outEdges _ _ _ := rfl
  ends a k b harc := by
    obtain ⟨e, he, rfl, rfl, rfl, -⟩ := harc
    exact ⟨⟨hwf.src e he, id⟩, hwf.dst e he, id⟩
  inter a k b harc hk := by
    obtain ⟨e, he, rfl, rfl, rfl, -⟩ := harc
    exact .inl ((isInter_src hwf he).trans hk)
  flows o := contracted_empty.symm
  defs x := by
    constructor
    · exact fun hx => absurd hx (notMem_empty x)
    · rintro ⟨e, -, -, hdst⟩
      exact hdst.elim

theorem retargeted_run (hwf : WellFormed nodes g₀) {l : List NodeID} (hnodup : l.Nodup)
    (hl : ∀ n ∈ l, n ∈ g₀.nodes ∧ n ∉ done) (hdone : ∀ x ∈ done, (nodes.kind x).isAInFOut = true)
    (h : Retargeted opt nodes g₀ done s) :
    ∃ t, l.foldlM (fun s n => s.handleCandidate opt nodes n) s = some t ∧
      Retargeted opt nodes g₀ (done ∪ {n | n ∈ l ∧ (nodes.kind n).isAInFOut = true}) t ∧
      t.worklist = s.worklist := by
  induction l generalizing done s with
  | nil =>
      refine ⟨s, rfl, ?_, rfl⟩
      have hnone : {n | n ∈ ([] : List NodeID) ∧ (nodes.kind n).isAInFOut = true} = ∅ := by
        ext n
        simp
      rwa [hnone, Set.union_empty]
  | cons n l ih =>
      obtain ⟨hnl, hnodup⟩ := List.nodup_cons.mp hnodup
      obtain ⟨hmem, hnew⟩ := hl n List.mem_cons_self
      have hl' : ∀ m ∈ l, m ∈ g₀.nodes ∧ m ∉ done := fun m hm => hl m (List.mem_cons_of_mem n hm)
      rw [List.foldlM_cons, State.handleCandidate]
      by_cases hn : (nodes.kind n).isAInFOut = true
      · obtain ⟨t, ht, hret, hwork⟩ := retargeted_step hwf h hdone hmem hn hnew
        have hin : ∀ m ∈ l, m ∈ g₀.nodes ∧ m ∉ insert n done := by
          intro m hm
          refine ⟨(hl' m hm).1, (not_mem_insert done m n).mpr ⟨?_, (hl' m hm).2⟩⟩
          rintro rfl
          exact hnl hm
        have hdone' : ∀ x ∈ insert n done, (nodes.kind x).isAInFOut = true := by
          rintro x (rfl | hx)
          · exact hn
          · exact hdone x hx
        obtain ⟨t', ht', hret', hwork'⟩ := ih hnodup hin hdone' hret
        have hset : done ∪ {m | m ∈ n :: l ∧ (nodes.kind m).isAInFOut = true} =
            insert n done ∪ {m | m ∈ l ∧ (nodes.kind m).isAInFOut = true} := by
          ext m
          simp only [Set.mem_union, Set.mem_insert_iff, Set.mem_ofPred_eq, List.mem_cons]
          constructor
          · rintro (hm | ⟨rfl | hm, hk⟩)
            · exact .inl (.inr hm)
            · exact .inl (.inl rfl)
            · exact .inr ⟨hm, hk⟩
          · rintro ((rfl | hm) | ⟨hm, hk⟩)
            · exact .inr ⟨.inl rfl, hn⟩
            · exact .inl hm
            · exact .inr ⟨.inr hm, hk⟩
        rw [if_pos hn, ht, hset]
        exact ⟨t', ht', hret', hwork'.trans hwork⟩
      · obtain ⟨t', ht', hret', hwork'⟩ := ih hnodup hl' hdone h
        have hset : {m | m ∈ n :: l ∧ (nodes.kind m).isAInFOut = true} =
            {m | m ∈ l ∧ (nodes.kind m).isAInFOut = true} := by
          ext m
          simp only [Set.mem_ofPred_eq, List.mem_cons]
          constructor
          · rintro ⟨rfl | hm, hk⟩
            · exact absurd hk hn
            · exact ⟨hm, hk⟩
          · exact fun ⟨hm, hk⟩ => ⟨.inr hm, hk⟩
        rw [if_neg hn, hset]
        exact ⟨t', ht', hret', hwork'⟩

end

section

variable {opt : Options} {nodes : SVFGNodes} {g₀ : SVFG} {s t : State} {n : NodeID}

/-- The nodes that no path of the optimised graph goes through. -/
def eliminated (nodes : SVFGNodes) (g₀ : SVFG) (s : State) : Set NodeID :=
  {x | x ∈ g₀.nodes ∧ ((nodes.kind x).isAInFOut = true ∨ x ∉ s.svfg.nodes)}

structure Inv (opt : Options) (nodes : SVFGNodes) (g₀ : SVFG) (s : State) : Prop where
  nodup : s.svfg.nodes.Nodup
  subset : ∀ x ∈ s.svfg.nodes, x ∈ g₀.nodes
  ends : ∀ a k b, Arc s.svfg a k b none →
    (a ∈ s.svfg.nodes ∧ (nodes.kind a).isAInFOut = false) ∧
      b ∈ s.svfg.nodes ∧ (nodes.kind b).isAInFOut = false
  inter : ∀ a k b, Arc s.svfg a k b none → k.isInter = true →
    opt.contextInsensitive = false ∧ a ∈ s.defNodes
  flows : ∀ o, flows opt s.svfg o =
    Contracted (flows opt g₀ o) (eliminated nodes g₀ s) (phis nodes g₀)
  defs : ∀ x, x ∈ s.defNodes ↔ IsDef nodes g₀ x
  defsKept : ∀ x, IsDef nodes g₀ x → x ∈ s.svfg.nodes

theorem Retargeted.inv (hwf : WellFormed nodes g₀)
    (h : Retargeted opt nodes g₀ {n | n ∈ g₀.nodes ∧ (nodes.kind n).isAInFOut = true} s) :
    Inv opt nodes g₀ s := by
  have hlive : ∀ x, x ∈ g₀.nodes ∧
      x ∉ {n | n ∈ g₀.nodes ∧ (nodes.kind n).isAInFOut = true} →
      x ∈ s.svfg.nodes ∧ (nodes.kind x).isAInFOut = false := by
    rintro x ⟨hx, hnot⟩
    exact ⟨h.same ▸ hx, Bool.eq_false_iff.mpr fun hk => hnot ⟨hx, hk⟩⟩
  refine ⟨?_, fun x hx => ?_, fun a k b harc => ?_, fun a k b harc hk => ?_, fun o => ?_, fun x => ?_,
    fun x hx => ?_⟩
  · exact h.same ▸ hwf.nodup
  · exact h.same ▸ hx
  · exact (h.ends a k b harc).imp (hlive a) (hlive b)
  · refine (h.inter a k b harc hk).resolve_left fun ha => ?_
    exact (h.ends a k b harc).1.2 ⟨(h.ends a k b harc).1.1, ha⟩
  · rw [h.flows]
    congr 1
    ext x
    constructor
    · exact fun hx => ⟨hx.1, .inl hx.2⟩
    · exact fun hx => ⟨hx.1, hx.2.resolve_right fun hnot => hnot (h.same ▸ hx.1)⟩
  · rw [h.defs]
    constructor
    · exact fun ⟨e, he, hsrc, hdst⟩ => ⟨e, he, hsrc, hdst.2⟩
    · exact fun ⟨e, he, hsrc, hdst⟩ => ⟨e, he, hsrc, hwf.dst e he, hdst⟩
  · obtain ⟨e, he, rfl, -⟩ := hx
    exact h.same ▸ hwf.src e he

theorem Inv.notConnecting (h : Inv opt nodes g₀ s) (hdef : ¬ IsDef nodes g₀ n) :
    NotConnecting s.svfg n :=
  fun _ _ b k₂ _ h₂ hboth => hdef ((h.defs n).mp (h.inter n k₂ b h₂ hboth.2).2)

theorem Inv.quiet (hwf : WellFormed nodes g₀) (h : Inv opt nodes g₀ s)
    (hn : (nodes.kind n).isAInFOut = false) (hdef : ¬ IsDef nodes g₀ n) (o : NodeID)
    (w : List IndirectEdgeK)
    (hw : Through (IndirectFlows.flows opt g₀ o) (eliminated nodes g₀ s) n w n) : w = [] := by
  refine through_word hwf (fun x hx hxdef => ?_) hn hdef hw
  rcases hx.2 with hk | hgone
  · rw [hxdef.not_isAInFOut hwf] at hk
    contradiction
  · exact hgone (h.defsKept x hxdef)

theorem eliminated_erase (h : Inv opt nodes g₀ s) (hn : n ∈ s.svfg.nodes)
    (hnodes : t.svfg.nodes = s.svfg.nodes.erase n) :
    eliminated nodes g₀ t = insert n (eliminated nodes g₀ s) := by
  ext x
  rw [Set.mem_insert_iff, eliminated, eliminated, Set.mem_ofPred_eq, Set.mem_ofPred_eq, hnodes,
    h.nodup.mem_erase_iff]
  by_cases hxn : x = n
  · subst hxn
    simp [h.subset x hn]
  · simp [hxn]

theorem Inv.eliminates (h : Inv opt nodes g₀ s) {keep : NodeID → NodeID → Prop}
    (hn : n ∈ s.svfg.nodes) (hdef : ¬ IsDef nodes g₀ n)
    (hnodes : t.svfg.nodes = s.svfg.nodes.erase n) (hdefs : t.defNodes = s.defNodes)
    (helim : Eliminates opt keep n s.svfg t.svfg)
    (hflows : ∀ o, IndirectFlows.flows opt t.svfg o =
      Contracted (IndirectFlows.flows opt g₀ o) (insert n (eliminated nodes g₀ s)) (phis nodes g₀)) :
    Inv opt nodes g₀ t := by
  have hkept : ∀ x, x ≠ n → x ∈ s.svfg.nodes → x ∈ t.svfg.nodes := by
    intro x hxn hx
    rw [hnodes]
    exact h.nodup.mem_erase_iff.mpr ⟨hxn, hx⟩
  refine ⟨?_, fun x hx => ?_, fun a k b harc => ?_, fun a k b harc hk => ?_, fun o => ?_, fun x => ?_,
    fun x hx => ?_⟩
  · rw [hnodes]
    exact h.nodup.erase n
  · rw [hnodes] at hx
    exact h.subset x (List.mem_of_mem_erase hx)
  · obtain ⟨ha, hb, harc | ⟨k₁, k₂, h₁, h₂, -⟩⟩ := helim.edges a k b harc
    · exact (h.ends a k b harc).imp (And.imp_left (hkept a ha)) (And.imp_left (hkept b hb))
    · exact ⟨(h.ends a k₁ n h₁).1.imp_left (hkept a ha), (h.ends n k₂ b h₂).2.imp_left (hkept b hb)⟩
  · rw [hdefs]
    obtain ⟨-, -, harc | ⟨k₁, k₂, h₁, h₂, rfl⟩⟩ := helim.edges a k b harc
    · exact h.inter a k b harc hk
    · by_cases hk₁ : k₁.isInter = true
      · exact h.inter a k₁ n h₁ hk₁
      · have hk₂ : k₂ = .intra := by
          rw [← isInter_eq_false]
          by_contra hk₂
          exact hdef ((h.defs n).mp (h.inter n k₂ b h₂ (Bool.not_eq_false _ ▸ hk₂)).2)
        rw [Bool.not_eq_true, isInter_eq_false] at hk₁
        rw [hk₁, hk₂] at hk
        contradiction
  · rw [hflows, eliminated_erase h hn hnodes]
  · rw [hdefs]
    exact h.defs x
  · refine hkept x (fun heq => ?_) (h.defsKept x hx)
    exact hdef (heq ▸ hx)

end

section

variable {opt : Options} {nodes : SVFGNodes} {g₀ : SVFG} {s t : State} {n : NodeID}

/-- What `retargetEdgesOfAOutFIn` adds, when no call or return edge leaves the node. -/
theorem adds_retargetAOutFIn (opt : Options) (hout : ∀ f ∈ s.svfg.outEdges n, f.kind = .intra) :
    ∃ g, s.retargetEdgesOfAOutFIn opt n = { s with svfg := g.removeAllEdges n } ∧
      Adds s.svfg g (Joins opt (fun _ _ => True) s.svfg n) := by
  refine ⟨_, rfl, ?_⟩
  have hinner : ∀ pre ∈ s.svfg.inEdges n, ∀ g, Adds g ((s.svfg.outEdges n).foldl
      (fun svfg outEdge =>
        if pre.cpts.inter outEdge.cpts = ∅ then svfg
        else (svfg.addIndirectVFEdge ⟨pre.src, outEdge.dst, interKind opt pre.kind,
          pre.cpts.inter outEdge.cpts⟩).1) g)
      (fun e => ∃ succ ∈ s.svfg.outEdges n, pre.cpts.inter succ.cpts ≠ ∅ ∧ e = joined opt pre succ) := by
    intro pre _ g
    apply adds_foldl
    intro succ hsucc g
    rw [joined, hout succ hsucc, newEdgeKind_intra_right]
    split
    · rename_i hempty
      exact .refl fun e he => he.1 hempty
    · rename_i hne
      exact (adds_addIndirectVFEdge g _).congr fun e => (and_iff_right hne).symm
  apply (adds_foldl hinner s.svfg).congr
  intro e
  constructor
  · rintro ⟨pre, hpre, succ, hsucc, hne, rfl⟩
    exact ⟨pre, hpre, succ, hsucc, trivial, hne, rfl⟩
  · rintro ⟨pre, hpre, succ, hsucc, -, hne, rfl⟩
    exact ⟨pre, hpre, succ, hsucc, hne, rfl⟩

theorem disjoint_phis (hphis : ∀ x ∈ phis nodes g₀, x ∈ s.svfg.nodes) :
    Disjoint (eliminated nodes g₀ s) (phis nodes g₀) := by
  rw [Set.disjoint_left]
  rintro x ⟨-, hk | hgone⟩ hx
  · rw [hx.2] at hk
    contradiction
  · exact hgone (hphis x hx)

theorem inv_eraseAInFOut (h : Inv opt nodes g₀ s) (hwf : WellFormed nodes g₀)
    (hn : (nodes.kind n).isAInFOut = true) :
    Inv opt nodes g₀ { s with svfg := (s.svfg.removeAllEdges n).removeSVFGNode n } := by
  have hne : ∀ x, (nodes.kind x).isAInFOut = false → x ≠ n := by
    rintro x hx rfl
    rw [hn] at hx
    contradiction
  have hkept : ∀ x, x ∈ s.svfg.nodes ∧ (nodes.kind x).isAInFOut = false →
      x ∈ s.svfg.nodes.erase n ∧ (nodes.kind x).isAInFOut = false :=
    fun x hx => ⟨h.nodup.mem_erase_iff.mpr ⟨hne x hx.2, hx.1⟩, hx.2⟩
  have harcs : ∀ a k b x, Arc ((s.svfg.removeAllEdges n).removeSVFGNode n) a k b x ↔
      Arc s.svfg a k b x := by
    intro a k b x
    refine (arc_removeAllEdges (g := s.svfg)).trans ⟨fun harc => harc.2.2, fun harc => ?_⟩
    obtain ⟨e, he, rfl, rfl, rfl, hx⟩ := harc
    have hends := h.ends e.src e.kind e.dst ⟨e, he, rfl, rfl, rfl, trivial⟩
    exact ⟨hne _ hends.1.2, hne _ hends.2.2, e, he, rfl, rfl, rfl, hx⟩
  refine ⟨h.nodup.erase n, fun x hx => h.subset x (List.mem_of_mem_erase hx), fun a k b harc => ?_,
    fun a k b harc hk => h.inter a k b ((harcs a k b none).mp harc) hk, fun o => ?_, h.defs,
    fun x hx => ?_⟩
  · exact (h.ends a k b ((harcs a k b none).mp harc)).imp (hkept a) (hkept b)
  · have hsame : eliminated nodes g₀ { s with
        svfg := (s.svfg.removeAllEdges n).removeSVFGNode n } = eliminated nodes g₀ s := by
      ext x
      apply and_congr_right
      intro _
      change _ ∨ x ∉ s.svfg.nodes.erase n ↔ _ ∨ x ∉ s.svfg.nodes
      rw [h.nodup.mem_erase_iff]
      by_cases hxn : x = n
      · exact iff_of_true (.inl (hxn ▸ hn)) (.inl (hxn ▸ hn))
      · simp [hxn]
    rw [hsame, ← h.flows]
    funext a w b
    exact propext (exists_congr fun k => and_congr_left fun _ => harcs a k b (some o))
  · exact h.nodup.mem_erase_iff.mpr ⟨hne x (hx.not_isAInFOut hwf), h.defsKept x hx⟩

theorem inv_deleteNode (hwf : WellFormed nodes g₀) (h : Inv opt nodes g₀ s) (hn : n ∈ s.svfg.nodes)
    (hphis : ∀ x ∈ phis nodes g₀, x ∈ s.svfg.nodes) :
    Inv opt nodes g₀ (s.deleteNode opt nodes n) := by
  rw [State.deleteNode]
  split
  · rename_i hremove
    by_cases hk : (nodes.kind n).isAOutFIn = true
    · have hdef : ¬ IsDef nodes g₀ n := by
        rw [← h.defs]
        intro hmem
        have hisDef : s.isDefOfAInFOut n = true := decide_eq_true hmem
        cases hkind : nodes.kind n <;>
          simp_all [State.canBeRemoved, SVFGNodeK.isAOutFIn]
      have hout : ∀ f ∈ s.svfg.outEdges n, f.kind = .intra := by
        intro f hf
        obtain ⟨hf, hsrc⟩ := mem_outEdges.mp hf
        rw [← isInter_eq_false]
        by_contra hinter
        have harc : Arc s.svfg n f.kind f.dst none := ⟨f, hf, hsrc, rfl, rfl, trivial⟩
        exact hdef ((h.defs n).mp (h.inter _ _ _ harc (Bool.not_eq_false _ ▸ hinter)).2)
      obtain ⟨g, heq, hadds⟩ := adds_retargetAOutFIn opt hout
      have helim : Eliminates opt (fun _ _ => True) n s.svfg
          (((g.removeAllEdges n).removeAllEdges n).removeSVFGNode n) := by
        refine .of_adds hadds fun a k b x => (arc_removeAllEdges (n := n)).trans ?_
        rw [arc_removeAllEdges]
        exact ⟨fun harc => harc.2.2, fun harc => ⟨harc.1, harc.2.1, harc⟩⟩
      have hAInFOut : (nodes.kind n).isAInFOut = false := by
        by_contra hboth
        rw [not_both (Bool.not_eq_false _ ▸ hboth)] at hk
        contradiction
      have hnew : n ∉ eliminated nodes g₀ s := by
        rintro ⟨-, hk' | hgone⟩
        · rw [hAInFOut] at hk'
          contradiction
        · exact hgone hn
      have hphi : n ∉ phis nodes g₀ := by
        rintro ⟨-, hkind⟩
        rw [hkind] at hk
        contradiction
      rw [if_pos hk, heq]
      refine h.eliminates hn hdef ?_ rfl helim fun o => ?_
      · exact congrArg (List.erase · n) hadds.nodes
      · refine (flows_spliced helim (h.notConnecting hdef) o).trans ?_
        rw [h.flows, contracted_insert_spliced hnew hphi (disjoint_phis hphis)]
        exact h.quiet hwf hAInFOut hdef o
    · have hAInFOut : (nodes.kind n).isAInFOut = true := by
        cases hkind : nodes.kind n <;>
          simp_all [State.canBeRemoved, SVFGNodeK.isAOutFIn, SVFGNodeK.isAInFOut]
      rw [if_neg hk]
      exact inv_eraseAInFOut h hwf hAInFOut
  · exact h

theorem nodes_retargetAOutFIn (s : State) :
    (s.retargetEdgesOfAOutFIn opt n).svfg.nodes = s.svfg.nodes := by
  change (List.foldl _ s.svfg (s.svfg.inEdges n)).nodes = _
  apply foldl_invariant (I := fun g : SVFG => g.nodes = s.svfg.nodes)
  · intro pre _ g hg
    apply foldl_invariant (I := fun g : SVFG => g.nodes = s.svfg.nodes)
    · intro succ _ g hg
      dsimp only
      split
      · exact hg
      · exact nodes_addIndirectVFEdge.trans hg
    · exact hg
  · rfl

theorem nodes_deleteNode (s : State) (n : NodeID) :
    (s.deleteNode opt nodes n).svfg.nodes = s.svfg.nodes ∨
      (s.deleteNode opt nodes n).svfg.nodes = s.svfg.nodes.erase n := by
  rw [State.deleteNode]
  split
  · right
    split
    · exact congrArg (List.erase · n) (nodes_retargetAOutFIn s)
    · rfl
  · exact .inl rfl

theorem worklist_deleteNode (s : State) (n : NodeID) :
    (s.deleteNode opt nodes n).worklist = s.worklist := by
  rw [State.deleteNode]
  split
  · split <;> rfl
  · rfl

theorem mem_deleteNode {x : NodeID} (hx : x ≠ n) (h : x ∈ s.svfg.nodes) :
    x ∈ (s.deleteNode opt nodes n).svfg.nodes := by
  have hnodes : (s.deleteNode opt nodes n).svfg.nodes = s.svfg.nodes ∨
      (s.deleteNode opt nodes n).svfg.nodes = s.svfg.nodes.erase n := nodes_deleteNode s n
  rcases hnodes with heq | heq
  · rwa [heq]
  · rw [heq]
    exact (List.mem_erase_of_ne hx).mpr h

theorem inv_deleteNodes (hwf : WellFormed nodes g₀) {l : List NodeID} (hnodup : l.Nodup)
    (hl : ∀ n ∈ l, n ∈ s.svfg.nodes ∧ nodes.kind n ≠ .mssaPhi) (h : Inv opt nodes g₀ s)
    (hphis : ∀ x ∈ phis nodes g₀, x ∈ s.svfg.nodes) :
    Inv opt nodes g₀ (l.foldl (fun s n => s.deleteNode opt nodes n) s) ∧
      (l.foldl (fun s n => s.deleteNode opt nodes n) s).worklist = s.worklist := by
  induction l generalizing s with
  | nil => exact ⟨h, rfl⟩
  | cons n l ih =>
      obtain ⟨hnl, hnodup⟩ := List.nodup_cons.mp hnodup
      obtain ⟨hmem, hkind⟩ := hl n List.mem_cons_self
      have hrest : ∀ m ∈ l, m ∈ (s.deleteNode opt nodes n).svfg.nodes ∧ nodes.kind m ≠ .mssaPhi := by
        intro m hm
        obtain ⟨hin, hmk⟩ := hl m (List.mem_cons_of_mem n hm)
        refine ⟨mem_deleteNode ?_ hin, hmk⟩
        rintro rfl
        exact hnl hm
      have hphis' : ∀ x ∈ phis nodes g₀, x ∈ (s.deleteNode opt nodes n).svfg.nodes := by
        intro x hx
        refine mem_deleteNode ?_ (hphis x hx)
        rintro rfl
        exact hkind hx.2
      obtain ⟨hinv, hwork⟩ := ih hnodup hrest (inv_deleteNode hwf h hmem hphis) hphis'
      exact ⟨hinv, hwork.trans (worklist_deleteNode s n)⟩

end

section

variable {opt : Options} {nodes : SVFGNodes} {g₀ : SVFG} {cands dels : List NodeID}

theorem mem_candidates {n : NodeID} : n ∈ candidates nodes g₀ ↔
    n ∈ g₀.nodes ∧ ((nodes.kind n).isAInFOut = true ∨ (nodes.kind n).isAOutFIn = true) := by
  rw [candidates, List.mem_filter, Bool.or_eq_true]

theorem handleInterValueFlow_inv (hwf : WellFormed nodes g₀)
    (hcands : cands.Perm (candidates nodes g₀)) (hdels : dels.Perm (nodesToBeDeleted opt nodes cands)) :
    ∃ s, handleInterValueFlow opt nodes cands dels (start g₀) = some s ∧ Inv opt nodes g₀ s ∧
      s.worklist = [] := by
  have hnodup : cands.Nodup := hcands.nodup_iff.mpr (hwf.nodup.filter _)
  have hmem : ∀ n, n ∈ cands ↔ n ∈ g₀.nodes ∧
      ((nodes.kind n).isAInFOut = true ∨ (nodes.kind n).isAOutFIn = true) :=
    fun n => hcands.mem_iff.trans mem_candidates
  have hstart : Retargeted opt nodes g₀ ∅ (start g₀) := retargeted_start hwf
  have hfirst : ∀ n ∈ cands, n ∈ g₀.nodes ∧ n ∉ (∅ : Set NodeID) :=
    fun n hn => ⟨((hmem n).mp hn).1, id⟩
  have hnone : ∀ x ∈ (∅ : Set NodeID), (nodes.kind x).isAInFOut = true := fun x hx => hx.elim
  obtain ⟨s, hs, hret, hwork⟩ := retargeted_run hwf hnodup hfirst hnone hstart
  have hset : ∅ ∪ {n | n ∈ cands ∧ (nodes.kind n).isAInFOut = true} =
      {n | n ∈ g₀.nodes ∧ (nodes.kind n).isAInFOut = true} := by
    ext n
    simp only [Set.empty_union, Set.mem_ofPred_eq, hmem]
    constructor
    · exact fun h => ⟨h.1.1, h.2⟩
    · exact fun h => ⟨⟨h.1, .inl h.2⟩, h.2⟩
  rw [hset] at hret
  have hdel : ∀ n ∈ dels, n ∈ s.svfg.nodes ∧ nodes.kind n ≠ .mssaPhi := by
    intro n hn
    obtain ⟨hn, -⟩ := List.mem_filter.mp (hdels.mem_iff.mp hn)
    obtain ⟨hin, hk⟩ := (hmem n).mp hn
    refine ⟨hret.same ▸ hin, fun hphi => ?_⟩
    rw [hphi] at hk
    rcases hk with hk | hk <;> contradiction
  have hdelsNodup : dels.Nodup := hdels.nodup_iff.mpr (hnodup.filter _)
  obtain ⟨hinv, hwork'⟩ := inv_deleteNodes hwf hdelsNodup hdel (hret.inv hwf)
    (fun x hx => hret.same ▸ hx.1)
  refine ⟨_, ?_, hinv, hwork'.trans hwork⟩
  rw [handleInterValueFlow, hs]
  rfl

end

end SVF.Graphs.InterElimination
