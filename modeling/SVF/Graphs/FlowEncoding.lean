import SVF.Graphs.PairNumbering

namespace SVF.Graphs.FlowEncoding

open ConsG FlowSensitiveConsG CopyEdges PairEncoding PairNumbering Util.Numberings

variable {inp : Input} {s t : FSConsG}

inductive End
  | top (v : NodeID)
  | pair (p : NodePair)
  deriving DecidableEq

def Resolves (s : FSConsG) : End → NodeID → Prop
  | .top v, x => x = v
  | .pair p, x => s.maps.number p = some x

namespace Input

variable (inp : Input)

def pairFlows : List (NodePair × NodePair) :=
  inp.svfg.nodes.flatMap phiFlows ++ inp.svfg.indirectEdges.flatMap edgeFlows

def flows : List (End × End) :=
  (inp.topFlows.map fun f => (.top f.1, .top f.2)) ++
    (pairFlows inp).map fun f => (.pair f.1, .pair f.2)

def laterIds : List NodeID :=
  inp.allocator.allocateGepObjectIds inp.maxFieldLimit inp.fieldObjects

end Input

/-- The graph and its maps say what the SVFG says. -/
structure Faithful (inp : Input) (s : FSConsG) : Prop where
  inverse : s.maps.Inverse
  apart : ∀ id, inp.size < id → id ≤ s.totalCGNode → id ∉ inp.pag.ids ∧ id ∉ Input.laterIds inp
  encoded : ∀ f ∈ Input.flows inp, f.1 ≠ f.2 →
    ∃ a b, Resolves s f.1 a ∧ Resolves s f.2 b ∧ (a, b) ∈ copyEdges s.consG
  flow : ∀ a b, (a, b) ∈ copyEdges s.consG → ∃ f ∈ Input.flows inp,
    Resolves s f.1 a ∧ Resolves s f.2 b

/-- The SVFGs that the translation encodes: no version of a memory PHI has the
number of one of its operands, as many ids as there are pairs stay free, the
copies against the returns are flows anyway, and the edges between functions and
threads add nothing to the others. -/
structure Encodable (inp : Input) : Prop where
  phi : ∀ n resVer opVers, (n, .MSSAPHI resVer opVers) ∈ inp.svfg.nodes → resVer ∉ opVers
  free : ∀ id, inp.size < id → id ≤ inp.size + inp.pairs.toFinset.card →
    id ∉ inp.pag.ids ∧ id ∉ Input.laterIds inp
  back : ∀ f ∈ inp.backEdges, f.1 = f.2 ∨ f ∈ inp.topFlows
  indirect : ∀ e ∈ inp.svfg.indirectEdges, ∀ f ∈ edgeFlows e,
    f.1 = f.2 ∨ f ∈ inp.svfg.indirectEdgeSet.flatMap edgeFlows

/-- An operand with the number of the result has its pair numbered twice. -/
theorem not_mem_opVers (hinp : inp.WellFormed)
    (hM : ∀ x, inp.size < x → x ≤ inp.build.totalCGNode → x ∉ inp.pag.ids)
    (hinv : inp.build.maps.Inverse) {n res : NodeID} {opVers : List NodeID}
    (hnode : (n, .MSSAPHI res opVers) ∈ inp.svfg.nodes) : res ∉ opVers := by
  intro hres
  obtain ⟨l₁, l₂, hl⟩ := List.append_of_mem hnode
  obtain ⟨ops₁, ops₂, rfl⟩ := List.append_of_mem hres
  let s₁ := l₁.foldl FSConsG.buildSVFGNode inp.new
  let dst := s₁.totalCGNode + 1
  let u := ops₁.foldl (FSConsG.addPHIOperand n dst) (s₁.addPHIVersion res n)
  let v := u.addPHIOperand n dst res
  have hbuild : inp.build = inp.svfg.indirectEdgeSet.foldl FSConsG.connectEdge
      (l₂.foldl FSConsG.buildSVFGNode (ops₂.foldl (FSConsG.addPHIOperand n dst) v)) := by
    rw [Input.build, FSConsG.buildSVFG2CG, hl, List.foldl_append, List.foldl_cons,
      buildSVFGNode_of_phi, List.foldl_append, List.foldl_cons]
  have hmono : ∀ (pos : NodeID) (t : FSConsG),
      t.totalCGNode ≤ (t.addPHIOperand n dst pos).totalCGNode :=
    fun pos t => (addPHIOperand_total n _ t pos).ge.trans' (Nat.le_succ _)
  have hv : v.maps.Inverse := by
    rw [hbuild] at hinv
    exact foldl_inverse (inverse_of_addPHIOperand n dst)
      (foldl_inverse inverse_of_buildSVFGNode (foldl_inverse inverse_of_connectEdge hinv))
  have htotal_v : v.totalCGNode ≤ inp.build.totalCGNode := by
    rw [hbuild]
    exact ((foldl_total_le hmono ops₂ v).trans (foldl_total_le buildSVFGNode_total_le l₂ _)).trans
      (foldl_total_le connectEdge_total_le inp.svfg.indirectEdgeSet _)
  have htotal_u : u.totalCGNode + 1 ≤ inp.build.totalCGNode :=
    (addPHIOperand_total n dst u res).ge.trans htotal_v
  have htotal₁ : s₁.totalCGNode + 1 ≤ inp.build.totalCGNode :=
    ((addPHIVersion_total s₁ res n).ge.trans (foldl_total_le hmono ops₁ _)).trans
      ((Nat.le_succ _).trans htotal_u)
  have hmem : ∀ entry ∈ l₁, entry ∈ inp.svfg.nodes := fun entry he =>
    hl ▸ List.mem_append_left _ he
  obtain ⟨hs₁, -, -⟩ := foldl_encodes (P := fun _ _ => True) buildSVFGNode_total_le
    (fun _ _ _ _ h => h) (new_encodes hinp) (fun entry he t ht _ hle => by
      obtain ⟨ht', hext, -⟩ := buildSVFGNode_encodes hM hinp (hmem entry he) ht hle
      exact ⟨ht', hext, trivial⟩) ((Nat.le_succ _).trans htotal₁)
  have hpair : ∀ pos ∈ res :: ops₁ ++ res :: ops₂, (pos, n) ∈ inp.pairs := by
    intro pos hpos
    refine List.mem_append_left _ (List.mem_flatMap.mpr ⟨_, hnode, ?_⟩)
    exact (List.mem_cons.mp hpos).elim (fun h => h ▸ List.mem_cons_self)
      fun h => List.mem_cons_of_mem _ (List.mem_map.mpr ⟨pos, h, rfl⟩)
  obtain ⟨hs₂, -, hvalue⟩ := addPHIVersion_encodes hM (hpair res List.mem_cons_self) hs₁ htotal₁
  obtain ⟨hu, hext, -⟩ := foldl_encodes (P := fun _ _ => True) hmono (fun _ _ _ _ h => h) hs₂
    (fun pos hpos t ht hst hle => by
      rw [addPHIOperand_total] at hle
      obtain ⟨ht', hext, -⟩ := addPHIOperand_encodes hM
        (hpair pos (List.mem_cons_of_mem res (List.mem_append_left _ hpos)))
        (List.mem_append_left _ (List.mem_flatMap.mpr ⟨_, hnode,
          List.mem_map.mpr ⟨pos, List.mem_append_left _ hpos, rfl⟩⟩)) ht
        (hst.value _ _ hvalue) hle
      exact ⟨ht', hext, trivial⟩) ((Nat.le_succ _).trans htotal_u)
  have hfree := hu.free_next hM htotal_u
  have hdst := hext.value _ _ hvalue
  have hnumber := (inverse_of_addPHIOperand n dst res u hv _ _).mp hdst
  have hne : dst ≠ u.totalCGNode + 1 := fun heq =>
    Bool.false_ne_true (hfree.symm.trans (heq ▸ hu.value_node _ _ hdst))
  refine Numbering.not_inverse_insert (Encodes.value_next hu hfree) hnumber hne ?_
  rw [← addPHIVersion_maps hu res n hfree]
  exact hv

theorem mem_flows_top {a b : NodeID} (h : (a, b) ∈ inp.topFlows) :
    (.top a, .top b) ∈ Input.flows inp :=
  List.mem_append_left _ (List.mem_map.mpr ⟨(a, b), h, rfl⟩)

theorem mem_flows_pair {f : NodePair × NodePair} (h : f ∈ Input.pairFlows inp) :
    (.pair f.1, .pair f.2) ∈ Input.flows inp :=
  List.mem_append_right _ (List.mem_map.mpr ⟨f, h, rfl⟩)

theorem mem_pairFlows_of_visited {f : NodePair × NodePair} (h : f ∈ inp.visitedFlows) :
    f ∈ Input.pairFlows inp := by
  rcases List.mem_append.mp h with h | h
  · exact List.mem_append_left _ h
  · obtain ⟨e, he, hf⟩ := List.mem_flatMap.mp h
    exact List.mem_append_right _ (List.mem_flatMap.mpr ⟨e, List.mem_of_mem_filter he, hf⟩)

theorem Represented.resolves {f : NodePair × NodePair} (hinv : s.maps.Inverse)
    (h : Represented s f) (hne : f.1 ≠ f.2) :
    ∃ a b, Resolves s (.pair f.1) a ∧ Resolves s (.pair f.2) b ∧ (a, b) ∈ copyEdges s.consG := by
  obtain ⟨a, b, ha, hb, hcopy⟩ := h
  exact ⟨a, b, (hinv a _).mp ha, (hinv b _).mp hb, hcopy hne⟩

theorem faithful_of_encodable (hinp : inp.WellFormed) (h : Encodable inp) :
    Faithful inp inp.build := by
  have hs := build_sound (fun x hlt hle => (h.free x hlt hle).1) hinp h.phi
  have henc := build_encoded hinp fun x hlt hle => (h.free x hlt (hle.trans hs.bound)).1
  refine ⟨hs.inverse, fun id hlt hle => h.free id hlt (hle.trans hs.bound), ?_, ?_⟩
  · intro f hf hne
    rcases List.mem_append.mp hf with hf | hf
    · obtain ⟨⟨a, b⟩, hab, rfl⟩ := List.mem_map.mp hf
      exact ⟨a, b, rfl, rfl, henc.top a b hab fun heq => hne (congrArg End.top heq)⟩
    · obtain ⟨f', hf', rfl⟩ := List.mem_map.mp hf
      have hends : f'.1 ≠ f'.2 := fun heq => hne (congrArg End.pair heq)
      refine Represented.resolves hs.inverse (henc.visited f' ?_) hends
      rcases List.mem_append.mp hf' with hphi | hedge
      · exact List.mem_append_left _ hphi
      · obtain ⟨e, he, hf'⟩ := List.mem_flatMap.mp hedge
        exact List.mem_append_right _ ((h.indirect e he f' hf').resolve_left hends)
  · intro a b hab
    rcases henc.encodes.copy a b hab with ⟨-, -, htop⟩ | ⟨f, hf, ha, hb⟩
    · have hne := henc.encodes.graph.wellFormed.noSelfCopy _ hab rfl
      have hmem := htop.elim id fun hback => (h.back (a, b) hback).resolve_left hne
      exact ⟨_, mem_flows_top hmem, rfl, rfl⟩
    · exact ⟨_, mem_flows_pair (mem_pairFlows_of_visited hf), (hs.inverse a _).mp ha,
        (hs.inverse b _).mp hb⟩

/-- The ends of flows between objects are not the pairs of the branches for variables. -/
theorem not_isTop_of_mem_pairFlows (hinp : inp.WellFormed) {f : NodePair × NodePair}
    (hf : f ∈ Input.pairFlows inp) : ¬ inp.IsTop f.1 ∧ ¬ inp.IsTop f.2 := by
  rcases List.mem_append.mp hf with hf | hf
  · obtain ⟨⟨n, node⟩, hentry, hf⟩ := List.mem_flatMap.mp hf
    cases node with
    | MSSAPHI res opVers =>
        obtain ⟨pos, hpos, rfl⟩ := List.mem_map.mp hf
        exact ⟨not_isTop_of_mem_phiPairs hinp hentry
          (List.mem_cons_of_mem _ (List.mem_map.mpr ⟨pos, hpos, rfl⟩)),
          not_isTop_of_mem_phiPairs hinp hentry List.mem_cons_self⟩
    | _ => exact absurd hf List.not_mem_nil
  · obtain ⟨e, he, hf⟩ := List.mem_flatMap.mp hf
    exact hinp.objects e he f hf

/-- An id of a pair that no branch for variables maps is not one of the SVFIR. -/
theorem not_mem_ids (hM : ∀ x, inp.size < x → x ≤ s.totalCGNode → x ∉ inp.pag.ids)
    (hs : Encodes inp s) {p : NodePair} (hp : ¬ inp.IsTop p) {x : NodeID}
    (hx : s.maps.number p = some x) : x ∉ inp.pag.ids := by
  have hkind := (hs.kind x p (hs.half p x hx)).resolve_left fun h => hp h.1
  exact hM x hkind.2.1 hkind.2.2

theorem backEdges_ids (hinp : inp.WellFormed) {a b : NodeID} (h : (a, b) ∈ inp.backEdges) :
    a ∈ inp.pag.ids := by
  obtain ⟨⟨n, node⟩, hentry, hab⟩ := List.mem_flatMap.mp h
  cases node with
  | FormalRet ret retPEs =>
      obtain ⟨actual, hactual, hends⟩ := List.mem_map.mp hab
      obtain ⟨rfl, rfl⟩ := Prod.mk.inj hends
      exact (hinp.stmts _ (hinp.returns n ret retPEs hentry actual hactual) _
        (List.mem_singleton_self _)).2
  | _ => exact absurd hab List.not_mem_nil

theorem encodable_of_faithful (hinp : inp.WellFormed) (h : Faithful inp inp.build) :
    Encodable inp := by
  have hM : ∀ x, inp.size < x → x ≤ inp.build.totalCGNode → x ∉ inp.pag.ids :=
    fun x hlt hle => (h.apart x hlt hle).1
  have henc := build_encoded hinp hM
  refine ⟨fun n res opVers hnode => not_mem_opVers hinp hM h.inverse hnode, ?_, ?_, ?_⟩
  · have hall : (inp.pairs.toFinset.filter fun p => (inp.build.maps.number p).isSome) =
        inp.pairs.toFinset := by
      refine Finset.filter_true_of_mem fun p hp => ?_
      obtain ⟨x, hx⟩ := henc.known p (List.mem_toFinset.mp hp)
      exact inp.build.maps.number_isSome x p hx
    have htotal := total_eq hinp henc.encodes h.inverse
    rw [hall] at htotal
    exact fun id hlt hle => h.apart id hlt (hle.trans htotal.ge)
  · intro ⟨a, b⟩ hab
    by_cases hne : a = b
    · exact .inl hne
    obtain ⟨f, hf, ha, hb⟩ := h.flow a b (henc.back a b hab hne)
    rcases List.mem_append.mp hf with hf | hf
    · obtain ⟨⟨c, d⟩, hcd, rfl⟩ := List.mem_map.mp hf
      have hac : a = c := ha
      have hbd : b = d := hb
      exact .inr (hac ▸ hbd ▸ hcd)
    · obtain ⟨f', hf', rfl⟩ := List.mem_map.mp hf
      exact absurd (backEdges_ids hinp hab)
        (not_mem_ids hM henc.encodes (not_isTop_of_mem_pairFlows hinp hf').1 ha)
  · intro e he f hf
    by_cases hne : f.1 = f.2
    · exact .inl hne
    have hmem : f ∈ Input.pairFlows inp :=
      List.mem_append_right _ (List.mem_flatMap.mpr ⟨e, he, hf⟩)
    obtain ⟨a, b, ha, hb, hcopy⟩ := h.encoded _ (mem_flows_pair hmem)
      fun heq => hne (End.pair.inj heq)
    rcases henc.encodes.copy a b hcopy with ⟨hid, -⟩ | ⟨f', hf', ha', hb'⟩
    · exact absurd hid (not_mem_ids hM henc.encodes (not_isTop_of_mem_pairFlows hinp hmem).1 ha)
    · rw [henc.encodes.half _ a ha] at ha'
      rw [henc.encodes.half _ b hb] at hb'
      have hsame : f = f' := Prod.ext (Option.some.inj ha') (Option.some.inj hb')
      rcases List.mem_append.mp hf' with hphi | hedge
      · obtain ⟨o, -, rfl⟩ := List.mem_map.mp hf
        obtain ⟨⟨n, node⟩, -, hphi⟩ := List.mem_flatMap.mp hphi
        cases node with
        | MSSAPHI res opVers =>
            obtain ⟨pos, -, heq⟩ := List.mem_map.mp hphi
            rw [← hsame] at heq
            simp only [Prod.mk.injEq] at heq hne
            exact absurd ⟨trivial, heq.1.2.symm.trans heq.2.2⟩ hne
        | _ => exact absurd hphi List.not_mem_nil
      · exact .inr (hsame ▸ hedge)

/-- The translation encodes the value flows of an SVFG exactly when the SVFG is
one of the encodable ones. -/
theorem buildSVFG2CG_faithful_iff (hinp : inp.WellFormed) :
    Faithful inp inp.build ↔ Encodable inp :=
  ⟨encodable_of_faithful hinp, faithful_of_encodable hinp⟩

def storeLoad : Input where
  pag :=
    { vars := [⟨1, true⟩, ⟨2, true⟩, ⟨3, true⟩, ⟨4, true⟩, ⟨5, false⟩]
      stmts := [.AddrStmt 5 1, .CopyStmt .BITCAST 1 2, .StoreStmt 3 2, .LoadStmt 2 4]
      retFromIndCalls := [] }
  svfg :=
    { nodes := [(1, .Addr 5 1), (2, .Copy 1 2), (3, .Store 3 2), (4, .Load 2 4),
        (5, .MSSAPHI 7 [0, 1])]
      indirectEdges := [⟨.IntraIndirectVF, 3, 4, [5]⟩] }
  allocator := ⟨4, 6, 6, .SEQ⟩
  maxFieldLimit := 512
  fieldObjects := []

theorem storeLoad_isTop (p : NodePair) : storeLoad.IsTop p ↔
    p ∈ [(5, 1), (1, 1), (1, 2), (2, 2), (3, 3), (2, 3), (2, 4), (4, 4)] := by
  obtain ⟨v, n⟩ := p
  simp only [Input.IsTop, storeLoad, List.mem_cons, Prod.mk.injEq, List.not_mem_nil, or_false]
  constructor
  · rintro ⟨node, hnode, h⟩
    rcases hnode with ⟨rfl, rfl⟩ | ⟨rfl, rfl⟩ | ⟨rfl, rfl⟩ | ⟨rfl, rfl⟩ | ⟨rfl, rfl⟩
    · simpa [SVFGNode.actions] using h
    · simpa [SVFGNode.actions] using h
    · simpa [SVFGNode.actions] using h
    · simpa [SVFGNode.actions] using h
    · exact absurd h List.not_mem_nil
  · rintro (⟨rfl, rfl⟩ | ⟨rfl, rfl⟩ | ⟨rfl, rfl⟩ | ⟨rfl, rfl⟩ | ⟨rfl, rfl⟩ | ⟨rfl, rfl⟩ | ⟨rfl, rfl⟩ |
      ⟨rfl, rfl⟩) <;> simp [SVFGNode.actions]

theorem storeLoad_wellFormed : storeLoad.WellFormed where
  ids := by decide
  nodeIds := by decide
  stmts := by decide
  vars := by
    intro p hp
    revert p
    simp only [storeLoad_isTop]
    decide
  copies := by
    intro s hs a b h
    simp only [storeLoad, List.mem_cons, List.not_mem_nil, or_false] at hs
    rcases hs with rfl | rfl | rfl | rfl <;> simp [SVFStmt.constraintEdges] at h
    obtain ⟨rfl, rfl⟩ := h
    decide
  returns := by
    intro n ret retPEs h
    simp [storeLoad] at h
  positions := by
    intro n resVer opVers h
    simp only [storeLoad, List.mem_cons, Prod.mk.injEq, reduceCtorEq, and_false, false_or,
      SVFGNode.MSSAPHI.injEq, List.not_mem_nil, or_false] at h
    rw [h.2.2]
    decide
  objects := by
    simp only [storeLoad_isTop]
    decide

theorem buildSVFG2CG_faithful_iff_storeLoad :
    storeLoad.WellFormed ∧ (Faithful storeLoad storeLoad.build ↔ Encodable storeLoad) :=
  ⟨storeLoad_wellFormed, buildSVFG2CG_faithful_iff storeLoad_wellFormed⟩

def usedReturn : Input where
  pag :=
    { vars := [⟨1, true⟩, ⟨2, true⟩]
      stmts := [.RetPE 1 2]
      retFromIndCalls := [] }
  svfg := { nodes := [(1, .FormalRet 1 [2]), (2, .ActualRet 2)], indirectEdges := [] }
  allocator := ⟨4, 6, 6, .SEQ⟩
  maxFieldLimit := 512
  fieldObjects := []

theorem usedReturn_isTop (p : NodePair) : usedReturn.IsTop p ↔ p ∈ [(1, 1), (2, 2)] := by
  obtain ⟨v, n⟩ := p
  simp only [Input.IsTop, usedReturn, List.mem_cons, Prod.mk.injEq, List.not_mem_nil, or_false]
  constructor
  · rintro ⟨node, hnode, h⟩
    rcases hnode with ⟨rfl, rfl⟩ | ⟨rfl, rfl⟩
    · simpa [SVFGNode.actions] using h
    · simpa [SVFGNode.actions] using h
  · rintro (⟨rfl, rfl⟩ | ⟨rfl, rfl⟩) <;> simp [SVFGNode.actions]

theorem usedReturn_wellFormed : usedReturn.WellFormed where
  ids := by decide
  nodeIds := by decide
  stmts := by decide
  vars := by
    intro p hp
    revert p
    simp only [usedReturn_isTop]
    decide
  copies := by
    intro s hs a b h
    cases List.mem_singleton.mp hs
    cases List.mem_singleton.mp h
    decide
  returns := by
    intro n ret retPEs h actual hactual
    simp only [usedReturn, List.mem_cons, Prod.mk.injEq, SVFGNode.FormalRet.injEq, reduceCtorEq,
      and_false, List.not_mem_nil, or_false] at h
    obtain ⟨-, rfl, rfl⟩ := h
    cases List.mem_singleton.mp hactual
    exact List.mem_singleton_self _
  positions := by
    intro n resVer opVers h
    simp [usedReturn] at h
  objects := fun e he => absurd he List.not_mem_nil

/-- The graph lets the result of the call flow back into the function. -/
theorem usedReturn_not_faithful :
    usedReturn.WellFormed ∧ ¬ Faithful usedReturn usedReturn.build := by
  refine ⟨usedReturn_wellFormed, fun h => ?_⟩
  obtain ⟨f, hf, ha, hb⟩ := h.flow 2 1 (by decide +kernel)
  have hflows : Input.flows usedReturn = [(.top 1, .top 2)] := by decide
  rw [hflows] at hf
  cases List.mem_singleton.mp hf
  have hends : (2 : NodeID) = 1 := ha
  exact absurd hends (by decide)

end SVF.Graphs.FlowEncoding
