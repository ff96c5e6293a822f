import SVF.Graphs.CopyEdges

namespace SVF.Graphs.PairEncoding

open ConsG FlowSensitiveConsG CopyEdges Util.Numberings

/-- What the translation starts from, and the field objects that the analysis
asks for afterwards, each as its base and offset. -/
structure Input where
  pag : SVFIR
  svfg : SVFG
  allocator : NodeIDAllocator
  maxFieldLimit : ℕ
  fieldObjects : List (ℕ × ℕ)

def stmtFlows : SVFStmt → List (NodeID × NodeID)
  | .CallPE rhs lhs | .RetPE rhs lhs | .TDForkPE rhs lhs | .TDJoinPE rhs lhs => [(rhs, lhs)]
  | _ => []

def nodeFlows : SVFGNode → List (NodeID × NodeID)
  | .Copy src dst => [(src, dst)]
  | .IntraPHI res opVers => opVers.map fun op => (op, res)
  | _ => []

/-- The operands of a memory PHI and its result, as the pairs they become. -/
def phiFlows (entry : NodeID × SVFGNode) : List (NodePair × NodePair) :=
  match entry.2 with
  | .MSSAPHI resVer opVers => opVers.map fun pos => ((pos, entry.1), (resVer, entry.1))
  | _ => []

def phiPairs (entry : NodeID × SVFGNode) : List NodePair :=
  match entry.2 with
  | .MSSAPHI resVer opVers => (resVer, entry.1) :: opVers.map fun pos => (pos, entry.1)
  | _ => []

def edgeFlows (edge : IndirectSVFGEdge) : List (NodePair × NodePair) :=
  edge.pointsTo.map fun o => ((o, edge.src), (o, edge.dst))

def backFlows : SVFGNode → List (NodeID × NodeID)
  | .FormalRet ret retPEs => retPEs.map fun actual => (actual, ret)
  | _ => []

namespace Input

variable (inp : Input)

def size : ℕ := inp.pag.getTotalNodeNum

def topFlows : List (NodeID × NodeID) :=
  inp.pag.stmts.flatMap stmtFlows ++ inp.svfg.nodes.flatMap fun entry => nodeFlows entry.2

def backEdges : List (NodeID × NodeID) := inp.svfg.nodes.flatMap fun entry => backFlows entry.2

def visitedFlows : List (NodePair × NodePair) :=
  inp.svfg.nodes.flatMap phiFlows ++ inp.svfg.indirectEdgeSet.flatMap edgeFlows

def pairs : List NodePair :=
  inp.svfg.nodes.flatMap phiPairs ++
    (inp.svfg.indirectEdgeSet.flatMap edgeFlows).flatMap fun f => [f.1, f.2]

def IsTop (p : NodePair) : Prop :=
  ∃ node, (p.2, node) ∈ inp.svfg.nodes ∧ .node p.1 ∈ node.actions p.2

structure WellFormed : Prop where
  ids : inp.pag.ids.Nodup
  nodeIds : (inp.svfg.nodes.map Prod.fst).Nodup
  stmts : ∀ s ∈ inp.pag.stmts, ∀ e ∈ s.constraintEdges, e.src ∈ inp.pag.ids ∧ e.dst ∈ inp.pag.ids
  vars : ∀ p, inp.IsTop p → p.1 ∈ inp.pag.ids
  /-- Each copy, PHI and select has its node. -/
  copies : ∀ s ∈ inp.pag.stmts, ∀ a b, ⟨a, b, .CopyCGEdge⟩ ∈ s.constraintEdges →
    (a, b) ∈ inp.topFlows
  returns : ∀ n ret retPEs, (n, .FormalRet ret retPEs) ∈ inp.svfg.nodes → ∀ actual ∈ retPEs,
    .RetPE ret actual ∈ inp.pag.stmts
  positions : ∀ n resVer opVers, (n, .MSSAPHI resVer opVers) ∈ inp.svfg.nodes → opVers.Nodup
  /-- No object is a variable of a statement at either end of its flow. -/
  objects : ∀ e ∈ inp.svfg.indirectEdges, ∀ f ∈ edgeFlows e, ¬ inp.IsTop f.1 ∧ ¬ inp.IsTop f.2

end Input

structure Extends (s t : FSConsG) : Prop where
  node : ∀ x, s.consG.hasGNode x = true → t.consG.hasGNode x = true
  value : ∀ x p, s.maps.value x = some p → t.maps.value x = some p
  number : ∀ p x, s.maps.number p = some x → t.maps.number p = some x
  copy : copyEdges s.consG ⊆ copyEdges t.consG

theorem Extends.refl (s : FSConsG) : Extends s s :=
  ⟨fun _ h => h, fun _ _ h => h, fun _ _ h => h, subset_rfl⟩

theorem Extends.trans {s t u : FSConsG} (h : Extends s t) (h' : Extends t u) : Extends s u :=
  ⟨fun x hx => h'.node x (h.node x hx), fun x p hx => h'.value x p (h.value x p hx),
    fun p x hx => h'.number p x (h.number p x hx), h.copy.trans h'.copy⟩

/-- The invariant of the translation, as long as the ids it takes are free. -/
structure Encodes (inp : Input) (s : FSConsG) : Prop where
  graph : Unmerged s.consG
  le : inp.size ≤ s.totalCGNode
  node : ∀ x, s.consG.hasGNode x = true →
    x ∈ inp.pag.ids ∨ inp.size < x ∧ x ≤ s.totalCGNode
  mapped : ∀ x, inp.size < x → x ≤ s.totalCGNode → ∃ p ∈ inp.pairs, s.maps.value x = some p
  value_node : ∀ x p, s.maps.value x = some p → s.consG.hasGNode x = true
  half : ∀ p x, s.maps.number p = some x → s.maps.value x = some p
  kind : ∀ x p, s.maps.value x = some p →
    inp.IsTop p ∧ x = p.1 ∨ p ∈ inp.pairs ∧ inp.size < x ∧ x ≤ s.totalCGNode
  copy : ∀ a b, (a, b) ∈ copyEdges s.consG →
    a ∈ inp.pag.ids ∧ b ∈ inp.pag.ids ∧ ((a, b) ∈ inp.topFlows ∨ (a, b) ∈ inp.backEdges) ∨
      ∃ f ∈ inp.visitedFlows, s.maps.value a = some f.1 ∧ s.maps.value b = some f.2

variable {inp : Input} {M : ℕ} {s t : FSConsG}

theorem Encodes.addMapped (hs : Encodes inp s) {x total : ℕ} {p : NodePair}
    (hx : s.consG.hasGNode x = false)
    (hcase : total = s.totalCGNode ∧ inp.IsTop p ∧ x = p.1 ∧ x ∈ inp.pag.ids ∨
      total = s.totalCGNode + 1 ∧ x = total ∧ p ∈ inp.pairs) :
    Encodes inp ⟨s.consG.addConstraintNode x, total, s.maps.insert x p⟩ ∧
      Extends s ⟨s.consG.addConstraintNode x, total, s.maps.insert x p⟩ ∧
      (s.maps.insert x p).value x = some p := by
  have hfree : s.maps.value x = none := by
    cases hv : s.maps.value x with
    | none => rfl
    | some q => exact absurd (hs.value_node x q hv) (by simp [hx])
  have hself := Numbering.value_insert_self hfree (a := p)
  have hle : s.totalCGNode ≤ total := by
    rcases hcase with h | h
    · exact h.1.ge
    · exact h.1 ▸ Nat.le_succ _
  have hlt : total = s.totalCGNode + 1 → x = total → inp.size < x := fun htotal hxt => by
    rw [hxt, htotal]
    exact Nat.lt_succ_of_le hs.le
  refine ⟨⟨unmerged_addConstraintNode hs.graph hx, hs.le.trans hle, ?_, ?_, ?_, ?_, ?_, ?_⟩,
    ⟨?_, ?_, ?_, subset_rfl⟩, hself⟩
  · intro y hy
    rcases (hasGNode_addConstraintNode _ _ _).mp hy with rfl | hy
    · rcases hcase with ⟨-, -, -, hid⟩ | ⟨htotal, hxt, -⟩
      · exact .inl hid
      · exact .inr ⟨hlt htotal hxt, hxt.le⟩
    · exact (hs.node y hy).imp id fun h => ⟨h.1, h.2.trans hle⟩
  · intro y hsize hy
    by_cases hys : y ≤ s.totalCGNode
    · obtain ⟨q, hq, hv⟩ := hs.mapped y hsize hys
      exact ⟨q, hq, Numbering.value_insert_of_some hv⟩
    · rcases hcase with ⟨htotal, -⟩ | ⟨htotal, hxt, hp⟩
      · exact absurd (htotal ▸ hy) hys
      · have hyx : y = x := by
          rw [hxt]
          exact le_antisymm hy (htotal ▸ Nat.lt_of_not_le hys)
        exact ⟨p, hp, hyx ▸ hself⟩
  · intro y q hv
    refine (hasGNode_addConstraintNode _ _ _).mpr ?_
    exact (Numbering.value_insert_eq_some hv).elim (fun h => .inr (hs.value_node y q h))
      fun h => .inl h.1
  · intro q y hn
    rcases Numbering.number_insert_eq_some hn with hn | ⟨rfl, rfl⟩
    · exact Numbering.value_insert_of_some (hs.half q y hn)
    · exact hself
  · intro y q hv
    rcases Numbering.value_insert_eq_some hv with hv | ⟨rfl, rfl⟩
    · exact (hs.kind y q hv).imp id fun h => ⟨h.1, h.2.1, h.2.2.trans hle⟩
    · rcases hcase with ⟨-, htop, hp, -⟩ | ⟨htotal, hxt, hp⟩
      · exact .inl ⟨htop, hp⟩
      · exact .inr ⟨hp, hlt htotal hxt, hxt.le⟩
  · intro a b hab
    exact (hs.copy a b hab).imp id fun ⟨f, hf, ha, hb⟩ =>
      ⟨f, hf, Numbering.value_insert_of_some ha, Numbering.value_insert_of_some hb⟩
  · exact fun y hy => (hasGNode_addConstraintNode _ _ _).mpr (.inr hy)
  · exact fun y q hv => Numbering.value_insert_of_some hv
  · exact fun q y hn => Numbering.number_insert_of_some hn

theorem Encodes.addCopies (hs : Encodes inp s) {g : ConstraintGraph}
    {new : Set (NodeID × NodeID)} (hg : AddsCopies s.consG g new)
    (hnew : ∀ a b, (a, b) ∈ new → a ∈ inp.pag.ids ∧ b ∈ inp.pag.ids ∧
        ((a, b) ∈ inp.topFlows ∨ (a, b) ∈ inp.backEdges) ∨
      ∃ f ∈ inp.visitedFlows, s.maps.value a = some f.1 ∧ s.maps.value b = some f.2) :
    Encodes inp { s with consG := g } ∧ Extends s { s with consG := g } := by
  refine ⟨⟨hg.unmerged, hs.le, ?_, hs.mapped, ?_, hs.half, hs.kind, ?_⟩,
    ⟨?_, fun _ _ h => h, fun _ _ h => h, hg.keeps⟩⟩
  · exact fun x hx => hs.node x (hg.node x ▸ hx)
  · exact fun x p hx => (hg.node x).trans (hs.value_node x p hx)
  · exact fun a b hab => (hg.bound hab).elim (hs.copy a b) (hnew a b)
  · exact fun x hx => (hg.node x).trans hx

/-- A loop of the translation whose counter ends within the bound. `P a` is what
the iteration for `a` establishes. -/
theorem foldl_encodes {ι : Type} {f : FSConsG → ι → FSConsG} {l : List ι} {P : ι → FSConsG → Prop}
    (htotal : ∀ a s, s.totalCGNode ≤ (f s a).totalCGNode)
    (hP : ∀ a s t, Extends s t → P a s → P a t) (hs : Encodes inp s)
    (hstep : ∀ a ∈ l, ∀ t, Encodes inp t → Extends s t → (f t a).totalCGNode ≤ M →
      Encodes inp (f t a) ∧ Extends t (f t a) ∧ P a (f t a))
    (hM : (l.foldl f s).totalCGNode ≤ M) :
    Encodes inp (l.foldl f s) ∧ Extends s (l.foldl f s) ∧ ∀ a ∈ l, P a (l.foldl f s) := by
  have hgrows : ∀ (l : List ι) s, s.totalCGNode ≤ (l.foldl f s).totalCGNode := by
    intro l
    induction l with
    | nil => exact fun s => le_rfl
    | cons a l ih => exact fun s => (htotal a s).trans (ih (f s a))
  induction l generalizing s with
  | nil => exact ⟨hs, .refl s, fun a ha => absurd ha List.not_mem_nil⟩
  | cons a l ih =>
      obtain ⟨hs', hext, hPa⟩ := hstep a List.mem_cons_self s hs (.refl s)
        ((hgrows l (f s a)).trans hM)
      obtain ⟨hend, hext', hPl⟩ := ih hs' (fun b hb t ht hst =>
        hstep b (List.mem_cons_of_mem a hb) t ht (hext.trans hst)) hM
      refine ⟨hend, hext.trans hext', fun b hb => ?_⟩
      rcases List.mem_cons.mp hb with rfl | hb
      · exact hP b _ _ hext' hPa
      · exact hPl b hb

/-- The copies of a branch are flows of its node, or go against a return. -/
theorem copy_of_action (hinp : inp.WellFormed) {n : NodeID} {node : SVFGNode}
    (hnode : (n, node) ∈ inp.svfg.nodes) {a b : NodeID}
    (h : .edge ⟨a, b, .CopyCGEdge⟩ ∈ node.actions n) :
    a ∈ inp.pag.ids ∧ b ∈ inp.pag.ids ∧ ((a, b) ∈ inp.topFlows ∨ (a, b) ∈ inp.backEdges) := by
  have hvar : ∀ v, .node v ∈ node.actions n → v ∈ inp.pag.ids := fun v hv =>
    hinp.vars (v, n) ⟨node, hnode, hv⟩
  have htop : (a, b) ∈ nodeFlows node → (a, b) ∈ inp.topFlows := fun hab =>
    List.mem_append_right _ (List.mem_flatMap.mpr ⟨_, hnode, hab⟩)
  cases node with
  | Copy src dst =>
      simp only [SVFGNode.actions, List.mem_cons, reduceCtorEq, Action.edge.injEq,
        ConstraintEdge.mk.injEq, and_true, List.not_mem_nil, or_false, false_or] at h
      obtain ⟨rfl, rfl⟩ := h
      exact ⟨hvar a (by simp [SVFGNode.actions]), hvar b (by simp [SVFGNode.actions]),
        .inl (htop (by simp [nodeFlows]))⟩
  | IntraPHI res opVers =>
      simp only [SVFGNode.actions, List.mem_cons, reduceCtorEq, List.mem_flatMap,
        Action.edge.injEq, ConstraintEdge.mk.injEq, and_true, List.not_mem_nil, or_false,
        false_or] at h
      obtain ⟨op, hop, rfl, rfl⟩ := h
      refine ⟨hvar a ?_, hvar b (by simp [SVFGNode.actions]), .inl (htop ?_)⟩
      · exact List.mem_cons_of_mem _ (List.mem_flatMap.mpr ⟨a, hop, List.mem_cons_self⟩)
      · exact List.mem_map.mpr ⟨a, hop, rfl⟩
  | FormalRet ret retPEs =>
      simp only [SVFGNode.actions, List.mem_cons, reduceCtorEq, List.mem_map,
        Action.edge.injEq, ConstraintEdge.mk.injEq, and_true, false_or] at h
      obtain ⟨actual, hactual, rfl, rfl⟩ := h
      have hstmt := hinp.stmts _ (hinp.returns n ret retPEs hnode actual hactual) _
        List.mem_cons_self
      refine ⟨hstmt.2, hstmt.1, .inr (List.mem_flatMap.mpr ⟨_, hnode, ?_⟩)⟩
      exact List.mem_map.mpr ⟨actual, hactual, rfl⟩
  | Gep src dst ap variantField =>
      cases variantField <;> simp [SVFGNode.actions, SVFStmt.gepEdge] at h
  | _ => simp [SVFGNode.actions] at h

theorem runAction_total (n : NodeID) (s : FSConsG) (a : Action) :
    (s.runAction n a).totalCGNode = s.totalCGNode := by
  cases a with
  | node v =>
      rw [FSConsG.runAction]
      split <;> rfl
  | edge e => rfl

theorem runAction_encodes (hinp : inp.WellFormed) {n : NodeID} {node : SVFGNode}
    (hnode : (n, node) ∈ inp.svfg.nodes) {a : Action} (ha : a ∈ node.actions n)
    (hs : Encodes inp s) :
    Encodes inp (s.runAction n a) ∧ Extends s (s.runAction n a) ∧
      ∀ v, a = .node v → (s.runAction n a).consG.hasGNode v = true := by
  cases a with
  | node v =>
      rw [FSConsG.runAction, hs.graph.hasConstraintNode]
      split
      · rename_i hhas
        exact ⟨hs, .refl s, fun w hw => (Action.node.inj hw) ▸ hhas⟩
      · rename_i hhas
        have htop : inp.IsTop (v, n) := ⟨node, hnode, ha⟩
        obtain ⟨hs', hext, hv⟩ := hs.addMapped (Bool.eq_false_iff.mpr hhas)
          (.inl ⟨rfl, htop, rfl, hinp.vars _ htop⟩)
        exact ⟨hs', hext, fun w hw => (Action.node.inj hw) ▸ hs'.value_node v _ hv⟩
  | edge e =>
      obtain ⟨src, dst, cls⟩ := e
      obtain ⟨hs', hext⟩ := hs.addCopies (addOrUpdateCGEdge_addsCopies hs.graph ⟨src, dst, cls⟩)
        (fun a b ⟨hcls, hends⟩ => by
          obtain ⟨rfl, rfl⟩ := Prod.mk.inj hends
          exact .inl (copy_of_action hinp hnode (hcls ▸ ha)))
      exact ⟨hs', hext, nofun⟩

theorem actions_encodes (hinp : inp.WellFormed) {n : NodeID} {node : SVFGNode}
    (hnode : (n, node) ∈ inp.svfg.nodes) {l : List Action} (hl : ∀ a ∈ l, a ∈ node.actions n)
    (hs : Encodes inp s) :
    Encodes inp (l.foldl (FSConsG.runAction n) s) ∧ Extends s (l.foldl (FSConsG.runAction n) s) ∧
      ∀ a ∈ l, ∀ v, a = .node v → (l.foldl (FSConsG.runAction n) s).consG.hasGNode v = true :=
  foldl_encodes (P := fun (a : Action) t => ∀ v, a = .node v → t.consG.hasGNode v = true)
    (fun a s => (runAction_total n s a).ge) (fun _ _ _ hext h v hv => hext.node v (h v hv)) hs
    (fun a ha _ ht _ _ => runAction_encodes hinp hnode (hl a ha) ht) le_rfl

/-- A copy whose ends exist, or are added before it, is in the graph at the end. -/
theorem mem_copyEdges_actions (hinp : inp.WellFormed) {n : NodeID} {node : SVFGNode}
    (hnode : (n, node) ∈ inp.svfg.nodes) {l₁ l₂ : List Action} {a b : NodeID}
    (hl : node.actions n = l₁ ++ .edge ⟨a, b, .CopyCGEdge⟩ :: l₂)
    (ha : s.consG.hasGNode a = true ∨ .node a ∈ l₁) (hb : s.consG.hasGNode b = true ∨ .node b ∈ l₁)
    (hne : a ≠ b) (hs : Encodes inp s) :
    (a, b) ∈ copyEdges ((node.actions n).foldl (FSConsG.runAction n) s).consG := by
  have hmem : ∀ x, x ∈ l₁ ∨ x ∈ l₂ → x ∈ node.actions n := by
    intro x hx
    rw [hl, List.mem_append, List.mem_cons]
    exact hx.imp id .inr
  obtain ⟨hs₁, hext₁, hnodes⟩ := actions_encodes hinp hnode (fun x hx => hmem x (.inl hx)) hs
  have hedge : .edge ⟨a, b, .CopyCGEdge⟩ ∈ node.actions n :=
    hl ▸ List.mem_append_right l₁ List.mem_cons_self
  obtain ⟨hs₂, -, -⟩ := runAction_encodes hinp hnode hedge hs₁
  obtain ⟨-, hext₃, -⟩ := actions_encodes hinp hnode (fun x hx => hmem x (.inr hx)) hs₂
  rw [hl, List.foldl_append]
  refine hext₃.copy (mem_copyEdges_addCGEdge hs₁.graph ?_ ?_ hne)
  · exact ha.elim (hext₁.node a) fun h => hnodes _ h a rfl
  · exact hb.elim (hext₁.node b) fun h => hnodes _ h b rfl

theorem nodeFlows_encoded (hinp : inp.WellFormed) {n : NodeID} {node : SVFGNode}
    (hnode : (n, node) ∈ inp.svfg.nodes) (hs : Encodes inp s) {a b : NodeID}
    (h : (a, b) ∈ nodeFlows node) (hne : a ≠ b) :
    (a, b) ∈ copyEdges ((node.actions n).foldl (FSConsG.runAction n) s).consG := by
  cases node with
  | Copy src dst =>
      obtain ⟨rfl, rfl⟩ := Prod.mk.inj (List.mem_singleton.mp h)
      have hl : (SVFGNode.Copy a b).actions n =
          [.node a, .node b] ++ .edge ⟨a, b, .CopyCGEdge⟩ :: [] := rfl
      exact mem_copyEdges_actions hinp hnode hl (.inr (by simp)) (.inr (by simp)) hne hs
  | IntraPHI res opVers =>
      obtain ⟨op, hop, hends⟩ := List.mem_map.mp h
      obtain ⟨rfl, rfl⟩ := Prod.mk.inj hends
      obtain ⟨l₁, l₂, rfl⟩ := List.append_of_mem hop
      have hl : (SVFGNode.IntraPHI res (l₁ ++ op :: l₂)).actions n =
          (.node res :: (l₁.flatMap (fun src => [.node src, .edge ⟨src, res, .CopyCGEdge⟩]) ++
            [.node op])) ++ .edge ⟨op, res, .CopyCGEdge⟩ ::
            l₂.flatMap (fun src => [.node src, .edge ⟨src, res, .CopyCGEdge⟩]) := by
        simp [SVFGNode.actions]
      exact mem_copyEdges_actions hinp hnode hl (.inr (by simp)) (.inr (by simp)) hne hs
  | _ => exact absurd h List.not_mem_nil

theorem backFlows_added (hinp : inp.WellFormed) {n : NodeID} {node : SVFGNode}
    (hnode : (n, node) ∈ inp.svfg.nodes) (hs : Encodes inp s) {a b : NodeID}
    (h : (a, b) ∈ backFlows node) (hne : a ≠ b) (ha : s.consG.hasGNode a = true) :
    (a, b) ∈ copyEdges ((node.actions n).foldl (FSConsG.runAction n) s).consG := by
  cases node with
  | FormalRet ret retPEs =>
      obtain ⟨actual, hactual, hends⟩ := List.mem_map.mp h
      obtain ⟨rfl, rfl⟩ := Prod.mk.inj hends
      obtain ⟨l₁, l₂, rfl⟩ := List.append_of_mem hactual
      have hl : (SVFGNode.FormalRet ret (l₁ ++ actual :: l₂)).actions n =
          (.node ret :: l₁.map fun id => .edge ⟨id, ret, .CopyCGEdge⟩) ++
            .edge ⟨actual, ret, .CopyCGEdge⟩ :: l₂.map fun id => .edge ⟨id, ret, .CopyCGEdge⟩ := by
        simp [SVFGNode.actions]
      exact mem_copyEdges_actions hinp hnode hl (.inl ha) (.inr (by simp)) hne hs
  | _ => exact absurd h List.not_mem_nil

def Known (s : FSConsG) (p : NodePair) : Prop := ∃ x, s.maps.value x = some p

/-- The flow has a copy edge, unless it ends where it starts. -/
def Represented (s : FSConsG) (f : NodePair × NodePair) : Prop :=
  ∃ a b, s.maps.value a = some f.1 ∧ s.maps.value b = some f.2 ∧
    (f.1 ≠ f.2 → (a, b) ∈ copyEdges s.consG)

theorem Known.mono (hext : Extends s t) {p : NodePair} : Known s p → Known t p :=
  fun ⟨x, hx⟩ => ⟨x, hext.value x p hx⟩

theorem Represented.mono (hext : Extends s t) {f : NodePair × NodePair} :
    Represented s f → Represented t f :=
  fun ⟨a, b, ha, hb, hcopy⟩ => ⟨a, b, hext.value a _ ha, hext.value b _ hb,
    fun hne => hext.copy (hcopy hne)⟩

theorem addPHIVersion_total (s : FSConsG) (pos n : NodeID) :
    (s.addPHIVersion pos n).totalCGNode = s.totalCGNode + 1 := by
  rw [FSConsG.addPHIVersion]
  split <;> rfl

theorem addPHIOperand_total (n dst : NodeID) (s : FSConsG) (pos : NodeID) :
    (s.addPHIOperand n dst pos).totalCGNode = s.totalCGNode + 1 := addPHIVersion_total s pos n

theorem addPairNode_total_le (s : FSConsG) (i n : NodeID) :
    s.totalCGNode ≤ (s.addPairNode i n).totalCGNode := by
  rw [FSConsG.addPairNode]
  split
  · exact le_rfl
  · exact Nat.le_succ _

theorem connectObject_total_le (edge : IndirectSVFGEdge) (s : FSConsG) (i : NodeID) :
    s.totalCGNode ≤ (s.connectObject edge i).totalCGNode :=
  (addPairNode_total_le s i edge.src).trans (addPairNode_total_le _ i edge.dst)

theorem foldl_total_le {ι : Type} {f : FSConsG → ι → FSConsG}
    (htotal : ∀ a s, s.totalCGNode ≤ (f s a).totalCGNode) (l : List ι) (s : FSConsG) :
    s.totalCGNode ≤ (l.foldl f s).totalCGNode :=
  Util.Folds.foldl_invariant (I := fun t : FSConsG => s.totalCGNode ≤ t.totalCGNode)
    (fun a _ t ht => ht.trans (htotal a t)) le_rfl

theorem actions_total (n : NodeID) (l : List Action) (s : FSConsG) :
    (l.foldl (FSConsG.runAction n) s).totalCGNode = s.totalCGNode :=
  Util.Folds.foldl_invariant (I := fun t : FSConsG => t.totalCGNode = s.totalCGNode)
    (fun a _ t ht => (runAction_total n t a).trans ht) rfl

theorem buildSVFGNode_of_phi (s : FSConsG) (n res : NodeID) (opVers : List NodeID) :
    s.buildSVFGNode (n, .MSSAPHI res opVers) =
      opVers.foldl (FSConsG.addPHIOperand n (s.totalCGNode + 1)) (s.addPHIVersion res n) := by
  rw [← addPHIVersion_total s res n]
  rfl

theorem buildSVFGNode_total_le (entry : NodeID × SVFGNode) (s : FSConsG) :
    s.totalCGNode ≤ (s.buildSVFGNode entry).totalCGNode := by
  obtain ⟨n, node⟩ := entry
  cases node with
  | MSSAPHI res opVers =>
      rw [buildSVFGNode_of_phi]
      have hle := foldl_total_le (fun pos t => (addPHIOperand_total n (s.totalCGNode + 1) t pos).ge.trans'
        (Nat.le_succ _)) opVers (s.addPHIVersion res n)
      exact ((Nat.le_succ _).trans (addPHIVersion_total s res n).ge).trans hle
  | _ => exact (actions_total n _ s).ge

theorem connectEdge_total_le (edge : IndirectSVFGEdge) (s : FSConsG) :
    s.totalCGNode ≤ (s.connectEdge edge).totalCGNode :=
  foldl_total_le (fun i t => connectObject_total_le edge t i) edge.pointsTo s

/-- What the branch for a node leaves in the graph: the flows of the node, and
the copies against its returns. -/
structure NodeEncoded (s : FSConsG) (entry : NodeID × SVFGNode) (t : FSConsG) : Prop where
  known : ∀ p ∈ phiPairs entry, Known t p
  phi : ∀ f ∈ phiFlows entry, Represented t f
  top : ∀ a b, (a, b) ∈ nodeFlows entry.2 → a ≠ b → (a, b) ∈ copyEdges t.consG
  back : ∀ a b, (a, b) ∈ backFlows entry.2 → a ≠ b → s.consG.hasGNode a = true →
    (a, b) ∈ copyEdges t.consG

theorem NodeEncoded.mono {u : FSConsG} {entry : NodeID × SVFGNode} (hext : Extends t u)
    (h : NodeEncoded s entry t) : NodeEncoded s entry u where
  known := fun p hp => (h.known p hp).mono hext
  phi := fun f hf => (h.phi f hf).mono hext
  top := fun a b hab hne => hext.copy (h.top a b hab hne)
  back := fun a b hab hne ha => hext.copy (h.back a b hab hne ha)

theorem NodeEncoded.of_extends {u : FSConsG} {entry : NodeID × SVFGNode} (hext : Extends s t)
    (h : NodeEncoded t entry u) : NodeEncoded s entry u :=
  ⟨h.known, h.phi, h.top, fun a b hab hne ha => h.back a b hab hne (hext.node a ha)⟩

structure EdgeEncoded (edge : IndirectSVFGEdge) (t : FSConsG) : Prop where
  known : ∀ f ∈ edgeFlows edge, Known t f.1 ∧ Known t f.2
  flow : ∀ f ∈ edgeFlows edge, Represented t f

theorem EdgeEncoded.mono {edge : IndirectSVFGEdge} (hext : Extends s t) (h : EdgeEncoded edge s) :
    EdgeEncoded edge t where
  known := fun f hf => ⟨(h.known f hf).1.mono hext, (h.known f hf).2.mono hext⟩
  flow := fun f hf => (h.flow f hf).mono hext

section

-- No id up to the bound is in use in the SVFIR.
variable (hM : ∀ x, inp.size < x → x ≤ M → x ∉ inp.pag.ids)
include hM

theorem Encodes.free_next (hs : Encodes inp s) (htotal : s.totalCGNode + 1 ≤ M) :
    s.consG.hasGNode (s.totalCGNode + 1) = false := by
  refine Bool.eq_false_iff.mpr fun hnode => ?_
  rcases hs.node _ hnode with hid | ⟨-, hle⟩
  · exact hM _ (Nat.lt_succ_of_le hs.le) htotal hid
  · exact absurd hle (Nat.not_succ_le_self _)

theorem addPHIVersion_encodes {pos n : NodeID} (hp : (pos, n) ∈ inp.pairs)
    (hs : Encodes inp s) (htotal : s.totalCGNode + 1 ≤ M) :
    Encodes inp (s.addPHIVersion pos n) ∧ Extends s (s.addPHIVersion pos n) ∧
      (s.addPHIVersion pos n).maps.value (s.totalCGNode + 1) = some (pos, n) := by
  have hfree := hs.free_next hM htotal
  have hnot : ¬ s.consG.hasConstraintNode (s.totalCGNode + 1) = true := by
    rw [hs.graph.hasConstraintNode, hfree]
    exact Bool.false_ne_true
  rw [FSConsG.addPHIVersion]
  simp only [hnot]
  exact hs.addMapped hfree (.inr ⟨rfl, rfl, hp⟩)

theorem addPHIOperand_encodes {pos res n dst : NodeID} (hp : (pos, n) ∈ inp.pairs)
    (hflow : ((pos, n), (res, n)) ∈ inp.visitedFlows) (hs : Encodes inp s)
    (hdst : s.maps.value dst = some (res, n)) (htotal : s.totalCGNode + 1 ≤ M) :
    Encodes inp (s.addPHIOperand n dst pos) ∧ Extends s (s.addPHIOperand n dst pos) ∧
      Known (s.addPHIOperand n dst pos) (pos, n) ∧
      Represented (s.addPHIOperand n dst pos) ((pos, n), (res, n)) := by
  obtain ⟨hs₁, hext₁, hvalue⟩ := addPHIVersion_encodes hM hp hs htotal
  have hdst₁ := hext₁.value dst _ hdst
  have hne : s.totalCGNode + 1 ≠ dst := fun heq =>
    Bool.false_ne_true ((hs.free_next hM htotal).symm.trans (heq ▸ hs.value_node dst _ hdst))
  have hadds := addCGEdge_addsCopies hs₁.graph ⟨s.totalCGNode + 1, dst, .CopyCGEdge⟩
  obtain ⟨hs₂, hext₂⟩ := hs₁.addCopies hadds (fun a b ⟨_, hends⟩ => by
    obtain ⟨rfl, rfl⟩ := Prod.mk.inj hends
    exact .inr ⟨_, hflow, hvalue, hdst₁⟩)
  have heq : s.addPHIOperand n dst pos =
      { s.addPHIVersion pos n with
        consG := FlowSensitiveConsG.addCGEdge (s.addPHIVersion pos n).consG
          ⟨s.totalCGNode + 1, dst, .CopyCGEdge⟩ } := by
    simp only [FSConsG.addPHIOperand, FSConsG.addCGEdge, addPHIVersion_total]
  rw [heq]
  refine ⟨hs₂, hext₁.trans hext₂, ⟨_, hvalue⟩, _, _, hvalue, hdst₁, fun _ => ?_⟩
  exact mem_copyEdges_addCGEdge hs₁.graph (hs₁.value_node _ _ hvalue)
    (hs₁.value_node _ _ hdst₁) hne

theorem addPairNode_encodes {i n : NodeID} (hp : (i, n) ∈ inp.pairs) (hs : Encodes inp s)
    (htotal : (s.addPairNode i n).totalCGNode ≤ M) :
    Encodes inp (s.addPairNode i n) ∧ Extends s (s.addPairNode i n) ∧
      ∃ x, (s.addPairNode i n).maps.number (i, n) = some x := by
  rw [FSConsG.addPairNode] at htotal ⊢
  split
  · rename_i hhas
    exact ⟨hs, .refl s, Option.isSome_iff_exists.mp hhas⟩
  · rename_i hhas
    rw [if_neg hhas] at htotal
    obtain ⟨hs', hext, hvalue⟩ := hs.addMapped (hs.free_next hM htotal) (.inr ⟨rfl, rfl, hp⟩)
    exact ⟨hs', hext, _, Numbering.number_insert_self (Option.not_isSome_iff_eq_none.mp hhas)⟩

theorem connectObject_encodes {edge : IndirectSVFGEdge} (hedge : edge ∈ inp.svfg.indirectEdgeSet)
    {i : NodeID} (hi : i ∈ edge.pointsTo) (hs : Encodes inp s)
    (htotal : (s.connectObject edge i).totalCGNode ≤ M) :
    Encodes inp (s.connectObject edge i) ∧ Extends s (s.connectObject edge i) ∧
      Known (s.connectObject edge i) (i, edge.src) ∧ Known (s.connectObject edge i) (i, edge.dst) ∧
      Represented (s.connectObject edge i) ((i, edge.src), (i, edge.dst)) := by
  have hflow : ((i, edge.src), (i, edge.dst)) ∈ inp.svfg.indirectEdgeSet.flatMap edgeFlows :=
    List.mem_flatMap.mpr ⟨edge, hedge, List.mem_map.mpr ⟨i, hi, rfl⟩⟩
  have hpair : ∀ p, p = (i, edge.src) ∨ p = (i, edge.dst) → p ∈ inp.pairs := by
    intro p hp
    refine List.mem_append_right _ (List.mem_flatMap.mpr ⟨_, hflow, ?_⟩)
    rcases hp with rfl | rfl <;> simp
  obtain ⟨hs₁, hext₁, a, ha⟩ := addPairNode_encodes hM (hpair _ (.inl rfl)) hs
    ((addPairNode_total_le _ i edge.dst).trans htotal)
  obtain ⟨hs₂, hext₂, b, hb⟩ := addPairNode_encodes hM (hpair _ (.inr rfl)) hs₁ htotal
  have ha₂ := hext₂.number _ a ha
  have hva := hs₂.half _ a ha₂
  have hvb := hs₂.half _ b hb
  have hadds := addCGEdge_addsCopies hs₂.graph ⟨a, b, .CopyCGEdge⟩
  obtain ⟨hs₃, hext₃⟩ := hs₂.addCopies hadds (fun x y ⟨_, hends⟩ => by
    obtain ⟨rfl, rfl⟩ := Prod.mk.inj hends
    exact .inr ⟨_, List.mem_append_right _ hflow, hva, hvb⟩)
  have heq : s.connectObject edge i =
      { (s.addPairNode i edge.src).addPairNode i edge.dst with
        consG := FlowSensitiveConsG.addCGEdge
          ((s.addPairNode i edge.src).addPairNode i edge.dst).consG ⟨a, b, .CopyCGEdge⟩ } := by
    rw [FSConsG.connectObject, ha₂, hb]
    rfl
  rw [heq]
  refine ⟨hs₃, (hext₁.trans hext₂).trans hext₃, ⟨a, hva⟩, ⟨b, hvb⟩, a, b, hva, hvb, fun hne => ?_⟩
  refine mem_copyEdges_addCGEdge hs₂.graph (hs₂.value_node _ _ hva) (hs₂.value_node _ _ hvb) ?_
  intro hab
  rw [hab, hvb] at hva
  exact hne (Option.some.inj hva).symm

theorem buildSVFGNode_encodes (hinp : inp.WellFormed) {entry : NodeID × SVFGNode}
    (hentry : entry ∈ inp.svfg.nodes) (hs : Encodes inp s)
    (htotal : (s.buildSVFGNode entry).totalCGNode ≤ M) :
    Encodes inp (s.buildSVFGNode entry) ∧ Extends s (s.buildSVFGNode entry) ∧
      NodeEncoded s entry (s.buildSVFGNode entry) := by
  obtain ⟨n, node⟩ := entry
  have htop : phiPairs (n, node) = [] → phiFlows (n, node) = [] →
      Encodes inp ((node.actions n).foldl (FSConsG.runAction n) s) ∧
        Extends s ((node.actions n).foldl (FSConsG.runAction n) s) ∧
        NodeEncoded s (n, node) ((node.actions n).foldl (FSConsG.runAction n) s) := by
    intro hpairs hflows
    obtain ⟨hs', hext, -⟩ := actions_encodes hinp hentry (fun _ h => h) hs
    refine ⟨hs', hext, ?_, ?_, fun a b => nodeFlows_encoded hinp hentry hs,
      fun a b => backFlows_added hinp hentry hs⟩
    · rw [hpairs]
      exact fun p hp => absurd hp List.not_mem_nil
    · rw [hflows]
      exact fun f hf => absurd hf List.not_mem_nil
  cases node with
  | MSSAPHI res opVers =>
      rw [buildSVFGNode_of_phi] at htotal ⊢
      have hpair : ∀ pos ∈ res :: opVers, (pos, n) ∈ inp.pairs := by
        intro pos hpos
        refine List.mem_append_left _ (List.mem_flatMap.mpr ⟨_, hentry, ?_⟩)
        exact (List.mem_cons.mp hpos).elim (fun h => h ▸ List.mem_cons_self)
          fun h => List.mem_cons_of_mem _ (List.mem_map.mpr ⟨pos, h, rfl⟩)
      have hmono : ∀ (pos : NodeID) (t : FSConsG),
          t.totalCGNode ≤ (t.addPHIOperand n (s.totalCGNode + 1) pos).totalCGNode :=
        fun pos t => (addPHIOperand_total n _ t pos).ge.trans' (Nat.le_succ _)
      have hfirst := (foldl_total_le hmono opVers (s.addPHIVersion res n)).trans htotal
      rw [addPHIVersion_total] at hfirst
      obtain ⟨hs₁, hext₁, hres⟩ := addPHIVersion_encodes hM (hpair res List.mem_cons_self) hs hfirst
      obtain ⟨hs₂, hext₂, hops⟩ := foldl_encodes (P := fun pos t => Known t (pos, n) ∧
          Represented t ((pos, n), (res, n))) hmono
        (fun pos t u htu h => ⟨h.1.mono htu, h.2.mono htu⟩) hs₁
        (fun pos hpos t ht hst hle => by
          rw [addPHIOperand_total] at hle
          refine addPHIOperand_encodes hM (hpair pos (List.mem_cons_of_mem _ hpos)) ?_ ht
            (hst.value _ _ hres) hle
          exact List.mem_append_left _ (List.mem_flatMap.mpr
            ⟨_, hentry, List.mem_map.mpr ⟨pos, hpos, rfl⟩⟩)) htotal
      refine ⟨hs₂, hext₁.trans hext₂, ?_, ?_, fun a b h => absurd h List.not_mem_nil,
        fun a b h => absurd h List.not_mem_nil⟩
      · intro p hp
        rcases List.mem_cons.mp hp with rfl | hp
        · exact ⟨_, hext₂.value _ _ hres⟩
        · obtain ⟨pos, hpos, rfl⟩ := List.mem_map.mp hp
          exact (hops pos hpos).1
      · intro f hf
        obtain ⟨pos, hpos, rfl⟩ := List.mem_map.mp hf
        exact (hops pos hpos).2
  | _ => exact htop rfl rfl

theorem connectEdge_encodes {edge : IndirectSVFGEdge} (hedge : edge ∈ inp.svfg.indirectEdgeSet)
    (hs : Encodes inp s) (htotal : (s.connectEdge edge).totalCGNode ≤ M) :
    Encodes inp (s.connectEdge edge) ∧ Extends s (s.connectEdge edge) ∧
      EdgeEncoded edge (s.connectEdge edge) := by
  obtain ⟨hs', hext, hobj⟩ := foldl_encodes (P := fun i t => Known t (i, edge.src) ∧
      Known t (i, edge.dst) ∧ Represented t ((i, edge.src), (i, edge.dst)))
    (fun i t => connectObject_total_le edge t i)
    (fun i t u htu h => ⟨h.1.mono htu, h.2.1.mono htu, h.2.2.mono htu⟩) hs
    (fun i hi t ht _ hle => connectObject_encodes hM hedge hi ht hle) htotal
  refine ⟨hs', hext, fun f hf => ?_, fun f hf => ?_⟩
  · obtain ⟨i, hi, rfl⟩ := List.mem_map.mp hf
    exact ⟨(hobj i hi).1, (hobj i hi).2.1⟩
  · obtain ⟨i, hi, rfl⟩ := List.mem_map.mp hf
    exact (hobj i hi).2.2

end

namespace Input

variable (inp : Input)

def new : FSConsG := .new inp.pag

def build : FSConsG := inp.new.buildSVFG2CG inp.svfg

end Input

theorem copyEdges_new (hinp : inp.WellFormed) (a b : NodeID) :
    (a, b) ∈ copyEdges inp.new.consG ↔
      a ≠ b ∧ ∃ s ∈ inp.pag.stmts, ⟨a, b, .CopyCGEdge⟩ ∈ s.constraintEdges :=
  (buildCG_spec hinp.ids hinp.stmts).2.2 a b

theorem new_encodes (hinp : inp.WellFormed) : Encodes inp inp.new := by
  obtain ⟨hgraph, hnode, hcopy⟩ := buildCG_spec hinp.ids hinp.stmts
  refine ⟨hgraph, le_rfl, fun x hx => .inl (hnode x hx), ?_, nofun, nofun, nofun, ?_⟩
  · exact fun x hlt hle => absurd hle (Nat.not_le_of_lt hlt)
  · intro a b hab
    obtain ⟨-, s, hs, he⟩ := (hcopy a b).mp hab
    obtain ⟨ha, hb⟩ := hinp.stmts s hs _ he
    exact .inl ⟨ha, hb, .inl (hinp.copies s hs a b he)⟩

/-- What the whole translation leaves, as long as the ids it takes are free. -/
structure BuildEncoded (inp : Input) (t : FSConsG) : Prop where
  encodes : Encodes inp t
  top : ∀ a b, (a, b) ∈ inp.topFlows → a ≠ b → (a, b) ∈ copyEdges t.consG
  back : ∀ a b, (a, b) ∈ inp.backEdges → a ≠ b → (a, b) ∈ copyEdges t.consG
  visited : ∀ f ∈ inp.visitedFlows, Represented t f
  known : ∀ p ∈ inp.pairs, Known t p

theorem mem_constraintEdges_of_stmtFlows {s : SVFStmt} {a b : NodeID} (h : (a, b) ∈ stmtFlows s) :
    ⟨a, b, .CopyCGEdge⟩ ∈ s.constraintEdges := by
  cases s with
  | CallPE | RetPE | TDForkPE | TDJoinPE =>
      obtain ⟨rfl, rfl⟩ := Prod.mk.inj (List.mem_singleton.mp h)
      exact List.mem_singleton_self _
  | _ => exact absurd h List.not_mem_nil

theorem build_encoded (hinp : inp.WellFormed)
    (hM : ∀ x, inp.size < x → x ≤ inp.build.totalCGNode → x ∉ inp.pag.ids) :
    BuildEncoded inp inp.build := by
  have hle := foldl_total_le connectEdge_total_le inp.svfg.indirectEdgeSet
    (inp.svfg.nodes.foldl FSConsG.buildSVFGNode inp.new)
  obtain ⟨hs₁, hext₁, hnodes⟩ := foldl_encodes (P := fun entry t => NodeEncoded inp.new entry t)
    buildSVFGNode_total_le (fun entry t u htu h => h.mono htu) (new_encodes hinp)
    (fun entry hentry t ht hst hle => by
      obtain ⟨ht', hext, henc⟩ := buildSVFGNode_encodes hM hinp hentry ht hle
      exact ⟨ht', hext, henc.of_extends hst⟩) hle
  obtain ⟨hs₂, hext₂, hedges⟩ := foldl_encodes (P := EdgeEncoded) connectEdge_total_le
    (fun edge t u htu h => h.mono htu) hs₁
    (fun edge hedge t ht _ hle => connectEdge_encodes hM hedge ht hle) le_rfl
  have hnode : ∀ entry ∈ inp.svfg.nodes, NodeEncoded inp.new entry inp.build :=
    fun entry hentry => (hnodes entry hentry).mono hext₂
  refine ⟨hs₂, fun a b hab hne => ?_, fun a b hab hne => ?_, fun f hf => ?_, fun p hp => ?_⟩
  · rcases List.mem_append.mp hab with hab | hab
    · obtain ⟨s, hs, hab⟩ := List.mem_flatMap.mp hab
      refine (hext₁.trans hext₂).copy ((copyEdges_new hinp a b).mpr ⟨hne, s, hs, ?_⟩)
      exact mem_constraintEdges_of_stmtFlows hab
    · obtain ⟨entry, hentry, hab⟩ := List.mem_flatMap.mp hab
      exact (hnode entry hentry).top a b hab hne
  · obtain ⟨⟨n, node⟩, hentry, hab⟩ := List.mem_flatMap.mp hab
    refine (hnode _ hentry).back a b hab hne ?_
    cases node with
    | FormalRet ret retPEs =>
        obtain ⟨actual, hactual, hends⟩ := List.mem_map.mp hab
        obtain ⟨rfl, rfl⟩ := Prod.mk.inj hends
        have hcopy := (copyEdges_new hinp ret actual).mpr ⟨hne.symm, _,
          hinp.returns n ret retPEs hentry actual hactual, List.mem_singleton_self _⟩
        exact (new_encodes hinp).graph.wellFormed.registered.dst _ hcopy
    | _ => exact absurd hab List.not_mem_nil
  · rcases List.mem_append.mp hf with hf | hf
    · obtain ⟨entry, hentry, hf⟩ := List.mem_flatMap.mp hf
      exact (hnode entry hentry).phi f hf
    · obtain ⟨edge, hedge, hf⟩ := List.mem_flatMap.mp hf
      exact (hedges edge hedge).flow f hf
  · rcases List.mem_append.mp hp with hp | hp
    · obtain ⟨entry, hentry, hp⟩ := List.mem_flatMap.mp hp
      exact (hnode entry hentry).known p hp
    · obtain ⟨f, hf, hp⟩ := List.mem_flatMap.mp hp
      obtain ⟨edge, hedge, hf⟩ := List.mem_flatMap.mp hf
      have hknown := (hedges edge hedge).known f hf
      rcases List.mem_cons.mp hp with rfl | hp
      · exact hknown.1
      · exact List.mem_singleton.mp hp ▸ hknown.2

end SVF.Graphs.PairEncoding
