import SVF.Graphs.ReachableGraphs

namespace SVF.Graphs.MergeExact

open ConsG Registration Retargeting Merging ReachableGraphs Util.OrderedSets

/-- What an edge says: its kind, its ends and its field offset. The identifier
that a load or store records is no part of it. -/
structure Constraint where
  kind : ConstraintEdgeK
  src : NodeID
  dst : NodeID
  fldIdx : Option APOffset
  deriving DecidableEq

def fldIdx : EdgeClass → Option APOffset
  | .NormalGepCGEdge ap => some ap.fldIdx
  | _ => none

def constraint (e : ConstraintEdge) : Constraint :=
  ⟨e.cls.getEdgeKind, e.src, e.dst, fldIdx e.cls⟩

def Unambiguous (g : ConstraintGraph) (node rep src dst : NodeID) : Prop :=
  ∀ e ∈ edges g, ∀ e' ∈ edges g, ∀ ap ap', e.cls = .NormalGepCGEdge ap →
    e'.cls = .NormalGepCGEdge ap' →
    (replaceEnds node rep e).src = src → (replaceEnds node rep e).dst = dst →
    (replaceEnds node rep e').src = src → (replaceEnds node rep e').dst = dst →
    ap.fldIdx = ap'.fldIdx

variable {g : ConstraintGraph} {node rep : NodeID}

theorem constraint_eq_of_key {e e' : ConstraintEdge} (hkey : e.key = e'.key)
    (hfld : ∀ ap ap', e.cls = .NormalGepCGEdge ap → e'.cls = .NormalGepCGEdge ap' →
      ap.fldIdx = ap'.fldIdx) : constraint e = constraint e' := by
  obtain ⟨hkind, hsrc, hdst⟩ := edgeKey_inj hkey
  obtain ⟨src, dst, cls⟩ := e
  obtain ⟨src', dst', cls'⟩ := e'
  simp only at hkind hsrc hdst hfld
  subst hsrc hdst
  cases cls <;> cases cls' <;> first | rfl | contradiction | skip
  rename_i ap ap'
  rw [constraint, constraint, fldIdx, fldIdx, hfld ap ap' rfl rfl]
  rfl

theorem critical_eq (e : ConstraintEdge) : critical e =
    (holds .gep (constraint e).kind && decide ((constraint e).fldIdx ≠ some 0)) := by
  obtain ⟨src, dst, cls⟩ := e
  cases cls <;>
    simp [critical, constraint, fldIdx, isZeroOffsettedGepCGEdge, holds, EdgeClass.getEdgeKind]

theorem critical_of_constraint {e e' : ConstraintEdge} (hkind : (constraint e).kind = (constraint e').kind)
    (hfld : (constraint e).fldIdx = (constraint e').fldIdx) : critical e = critical e' := by
  rw [critical_eq, critical_eq, hkind, hfld]

/-- A critical gep that a merge drops is reported, unless another offset hides it. -/
theorem reported_of_critical (hg : WellFormed g) (hnode : g.hasGNode node = true)
    (hrep : g.hasGNode rep = true) (hne : node ≠ rep) {e : ConstraintEdge} (he : e ∈ edges g)
    (hself : BecomesSelf node rep e) (hcrit : critical e = true)
    (hfld : e.cls.getEdgeKind = .NormalGep → Unambiguous g node rep rep rep) :
    (g.moveEdgesToRepNode node rep).2 = true := by
  obtain ⟨-, -, -, hpwc⟩ := moveEdgesToRepNode_spec hg hnode hrep hne
  rw [hpwc]
  obtain ⟨htouch, hends⟩ := hself
  rw [replaceEnds] at hends
  simp only at hends
  by_cases hdst : e.dst = node
  · rw [if_pos hdst] at hends
    by_cases hsrc : e.src = node
    · -- the self-edge at `node` becomes, or meets, a gep from `node` to `rep`
      right
      have haddr : e.cls ≠ .AddrCGEdge := by
        intro h
        rw [critical, h] at hcrit
        contradiction
      obtain ⟨y, hy, hkey⟩ := exists_movedEdges .dst rep he hdst haddr
        (fun _ heq => hne (hsrc.symm.trans heq))
      obtain ⟨hkind, hysrc, hydst⟩ := edgeKey_inj hkey
      refine ⟨y, hy, hysrc.trans hsrc, hydst, ?_⟩
      have hsame : constraint y = constraint (Side.dst.withHere e rep) := by
        refine constraint_eq_of_key hkey fun ap ap' hap hap' => ?_
        have hap' : e.cls = .NormalGepCGEdge ap' := hap'
        have hall := hfld (by rw [hap']; rfl)
        rcases hy with ⟨hy, hyne⟩ | ⟨e', he', hdst', hmoved, -⟩
        · exact hall y hy e he ap ap' hap hap' (if_pos (hysrc.trans hsrc))
            ((if_neg hyne).trans hydst) (if_pos hsrc) (if_pos hdst)
        · obtain ⟨-, rfl⟩ := (moved_eq_some _ e' y).mp hmoved
          exact hall e' he' e he ap ap' hap hap' (if_pos (hysrc.trans hsrc)) (if_pos hdst')
            (if_pos hsrc) (if_pos hdst)
      have hcrit' : critical (Side.dst.withHere e rep) = critical e := critical_of_constraint rfl rfl
      rw [critical_eq, hsame, ← critical_eq, hcrit', hcrit]
    · rw [if_neg hsrc] at hends
      exact .inl ⟨e, he, hdst, hends, hcrit⟩
  · rw [if_neg hdst] at hends
    have hsrc : e.src = node := htouch.resolve_right hdst
    rw [if_pos hsrc] at hends
    exact .inr ⟨e, mem_movedEdges_of_ne .dst rep he hdst, hsrc, hends.symm, hcrit⟩

theorem critical_of_reported (hg : WellFormed g) (hnode : g.hasGNode node = true)
    (hrep : g.hasGNode rep = true) (hne : node ≠ rep)
    (h : (g.moveEdgesToRepNode node rep).2 = true) :
    ∃ e ∈ edges g, BecomesSelf node rep e ∧ critical e = true := by
  obtain ⟨-, -, -, hpwc⟩ := moveEdgesToRepNode_spec hg hnode hrep hne
  rcases hpwc.mp h with ⟨e, he, hdst, hsrc, hcrit⟩ | ⟨e, he, hsrc, hdst, hcrit⟩
  · refine ⟨e, he, ⟨.inr hdst, ?_⟩, hcrit⟩
    rw [replaceEnds, if_pos hdst, hsrc, if_neg hne.symm]
  · rcases he with ⟨he, -⟩ | ⟨e', he', hdst', hmoved, -⟩
    · refine ⟨e, he, ⟨.inl hsrc, ?_⟩, hcrit⟩
      rw [replaceEnds, if_pos hsrc, hdst, if_neg hne.symm]
    · obtain ⟨-, rfl⟩ := (moved_eq_some _ e' e).mp hmoved
      have hsrc' : e'.src = node := hsrc
      have hdst' : e'.dst = node := hdst'
      refine ⟨e', he', ⟨.inl hsrc', ?_⟩, ?_⟩
      · rw [replaceEnds, if_pos hsrc', if_pos hdst']
      · exact hcrit

/-- A merge keeps every edge that it does not drop, with its ends replaced.
Where it brings normal geps with several offsets between two nodes, the theorem
says nothing of these. -/
theorem moveEdgesToRepNode_exact (hg : Reachable g) (hnode : g.hasGNode node = true)
    (hrep : g.hasGNode rep = true) (hne : node ≠ rep) :
    Registered (g.moveEdgesToRepNode node rep).1 ∧
      (∀ c : Constraint, (c.kind = .NormalGep → Unambiguous g node rep c.src c.dst) →
        ((∃ x ∈ edges (g.moveEdgesToRepNode node rep).1, constraint x = c) ↔
          ∃ e ∈ edges g, ¬ Dropped node rep e ∧ constraint (replaceEnds node rep e) = c)) ∧
      ((g.moveEdgesToRepNode node rep).2 = true →
        ∃ e ∈ edges g, BecomesSelf node rep e ∧ critical e = true) ∧
      ∀ e ∈ edges g, BecomesSelf node rep e → critical e = true →
        (e.cls.getEdgeKind = .NormalGep → Unambiguous g node rep rep rep) →
        (g.moveEdgesToRepNode node rep).2 = true := by
  have hwf := hg.wellFormed
  obtain ⟨hwf', -, hedges, -⟩ := moveEdgesToRepNode_spec hwf hnode hrep hne
  refine ⟨hwf'.registered, ?_, critical_of_reported hwf hnode hrep hne,
    fun e he hself hcrit => reported_of_critical hwf hnode hrep hne he hself hcrit⟩
  intro c hfld
  rw [hedges]
  constructor
  · rintro ⟨x, hx, rfl⟩
    obtain ⟨e, he, hkeep, rfl⟩ := movedEdges_sound hx
    exact ⟨e, he, hkeep, rfl⟩
  · rintro ⟨e, he, hkeep, rfl⟩
    obtain ⟨x, hx, hkey⟩ := movedEdges_complete he hkeep
    refine ⟨x, hx, constraint_eq_of_key hkey fun ap ap' hap hap' => ?_⟩
    obtain ⟨e', he', -, rfl⟩ := movedEdges_sound hx
    have hap : e'.cls = .NormalGepCGEdge ap := hap
    have hap' : e.cls = .NormalGepCGEdge ap' := hap'
    obtain ⟨-, hsrc, hdst⟩ := edgeKey_inj hkey
    have hkind : (constraint (replaceEnds node rep e)).kind = .NormalGep :=
      congrArg EdgeClass.getEdgeKind hap'
    exact hfld hkind e' he' e he ap ap' hap hap' hsrc hdst rfl rfl

/-- The address edge `3 → 1`, the gep `2 → 1` with offset zero and the load `1 → 3`. -/
def sample : ConstraintGraph :=
  let g := ((ConstraintGraph.empty.addConstraintNode 1).addConstraintNode 2).addConstraintNode 3
  let g := (g.addAddrCGEdge 3 1).getD g
  let g := (g.addNormalGepCGEdge 2 1 ⟨0⟩).getD g
  (g.addLoadCGEdge 1 3 0).getD g

theorem reachable_sample : Reachable sample := by
  have hnodes : Reachable
      (((ConstraintGraph.empty.addConstraintNode 1).addConstraintNode 2).addConstraintNode 3) := by
    apply Reachable.addConstraintNode _ 3
    · apply Reachable.addConstraintNode _ 2
      · exact .addConstraintNode _ 1 .empty rfl rfl
      · rfl
      · rfl
    · rfl
    · rfl
  have haddr := Reachable.addEdge _ _ .AddrCGEdge 3 1 hnodes rfl
  have hgep := Reachable.addEdge _ _ (.NormalGepCGEdge ⟨0⟩) 2 1 haddr rfl
  exact Reachable.addEdge _ _ (.LoadCGEdge 0) 1 3 hgep rfl

theorem moveEdgesToRepNode_exact_sample : Registered (sample.moveEdgesToRepNode 1 2).1 ∧
    ∃ x ∈ edges (sample.moveEdgesToRepNode 1 2).1, constraint x = ⟨.Load, 2, 3, none⟩ := by
  obtain ⟨hreg, hedges, -⟩ := moveEdgesToRepNode_exact reachable_sample
    (show sample.hasGNode 1 = true by decide) (show sample.hasGNode 2 = true by decide) (by decide)
  refine ⟨hreg, (hedges ⟨.Load, 2, 3, none⟩ (by simp)).mpr ⟨⟨1, 3, .LoadCGEdge 0⟩, ?_, ?_, rfl⟩⟩
  · decide
  · rintro (⟨-, h⟩ | ⟨-, h⟩)
    · contradiction
    · contradiction

/-- The edge is kept, or it is a copy or a reported gep that becomes a self-edge. -/
def KeptOrReported (g : ConstraintGraph) (node rep : NodeID) (e : ConstraintEdge) : Prop :=
  (∃ x ∈ edges (g.moveEdgesToRepNode node rep).1,
    constraint x = constraint (replaceEnds node rep e)) ∨
  BecomesSelf node rep e ∧ (e.cls = .CopyCGEdge ∨
    holds .gep e.cls.getEdgeKind = true ∧ (g.moveEdgesToRepNode node rep).2 = true)

/-- The merge of `1` into `2` drops the address edge, and drops the gep without a report. -/
theorem moveEdgesToRepNode_not_exact :
    Reachable sample ∧ sample.hasGNode 1 = true ∧ sample.hasGNode 2 = true ∧
      (⟨3, 1, .AddrCGEdge⟩ ∈ edges sample ∧ ¬ KeptOrReported sample 1 2 ⟨3, 1, .AddrCGEdge⟩) ∧
      ⟨2, 1, .NormalGepCGEdge ⟨0⟩⟩ ∈ edges sample ∧
        ¬ KeptOrReported sample 1 2 ⟨2, 1, .NormalGepCGEdge ⟨0⟩⟩ := by
  have haddr : ((sample.moveEdgesToRepNode 1 2).1.edgeSets .AddrCGEdgeSet).elems = [] := by
    decide +kernel
  have hdirect : ((sample.moveEdgesToRepNode 1 2).1.edgeSets .directEdgeSet).elems = [] := by
    decide +kernel
  have hpwc : (sample.moveEdgesToRepNode 1 2).2 = false := by decide +kernel
  refine ⟨reachable_sample, by decide, by decide, ⟨by decide, ?_⟩, by decide, ?_⟩
  · rintro (⟨x, hx, hc⟩ | ⟨-, hcopy | ⟨hgep, -⟩⟩)
    · have hkind : x.cls.getEdgeKind = .Addr := congrArg Constraint.kind hc
      rw [mem_edges, hkind, ← mem_elems] at hx
      exact List.not_mem_nil (haddr ▸ hx)
    · exact absurd hcopy (by decide)
    · exact absurd hgep (by decide)
  · rintro (⟨x, hx, hc⟩ | ⟨-, hcopy | ⟨-, hreport⟩⟩)
    · have hkind : x.cls.getEdgeKind = .NormalGep := congrArg Constraint.kind hc
      rw [mem_edges, hkind, ← mem_elems] at hx
      exact List.not_mem_nil (hdirect ▸ hx)
    · exact absurd hcopy (by decide)
    · exact Bool.false_ne_true (hpwc.symm.trans hreport)

end SVF.Graphs.MergeExact
