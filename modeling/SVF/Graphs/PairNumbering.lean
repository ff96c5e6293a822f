import Mathlib.Order.Interval.Finset.Nat
import SVF.Graphs.PairEncoding

namespace SVF.Graphs.PairNumbering

open ConsG FlowSensitiveConsG CopyEdges PairEncoding Util.Numberings

variable {inp : Input} {M : ℕ} {s t : FSConsG}

theorem foldl_inverse {ι : Type} {f : FSConsG → ι → FSConsG}
    (hf : ∀ a s, (f s a).maps.Inverse → s.maps.Inverse) {l : List ι}
    (h : (l.foldl f s).maps.Inverse) : s.maps.Inverse := by
  induction l generalizing s with
  | nil => exact h
  | cons a l ih => exact hf a s (ih h)

theorem inverse_of_runAction (n : NodeID) (a : Action) (s : FSConsG)
    (h : (s.runAction n a).maps.Inverse) : s.maps.Inverse := by
  cases a with
  | node v =>
      rw [FSConsG.runAction] at h
      split at h
      · exact h
      · exact Numbering.inverse_of_insert h
  | edge e => exact h

theorem inverse_of_addPHIVersion (pos n : NodeID) (h : (s.addPHIVersion pos n).maps.Inverse) :
    s.maps.Inverse := by
  rw [FSConsG.addPHIVersion] at h
  split at h
  · exact h
  · exact Numbering.inverse_of_insert h

theorem inverse_of_addPHIOperand (n dst pos : NodeID) (s : FSConsG)
    (h : (s.addPHIOperand n dst pos).maps.Inverse) : s.maps.Inverse :=
  inverse_of_addPHIVersion pos n h

theorem inverse_of_addPairNode (i n : NodeID) (h : (s.addPairNode i n).maps.Inverse) :
    s.maps.Inverse := by
  rw [FSConsG.addPairNode] at h
  split at h
  · exact h
  · exact Numbering.inverse_of_insert h

theorem inverse_of_buildSVFGNode (entry : NodeID × SVFGNode) (s : FSConsG)
    (h : (s.buildSVFGNode entry).maps.Inverse) : s.maps.Inverse := by
  obtain ⟨n, node⟩ := entry
  cases node with
  | MSSAPHI res opVers =>
      rw [buildSVFGNode_of_phi] at h
      exact inverse_of_addPHIVersion res n (foldl_inverse (inverse_of_addPHIOperand n _) h)
  | _ => exact foldl_inverse (inverse_of_runAction n) h

theorem inverse_of_connectEdge (edge : IndirectSVFGEdge) (s : FSConsG)
    (h : (s.connectEdge edge).maps.Inverse) : s.maps.Inverse := by
  refine foldl_inverse (f := FSConsG.connectObject edge) (fun i t hi => ?_) h
  exact inverse_of_addPairNode i edge.src (inverse_of_addPairNode i edge.dst hi)

theorem not_isTop_of_mem_phiPairs (hinp : inp.WellFormed) {entry : NodeID × SVFGNode}
    (hentry : entry ∈ inp.svfg.nodes) {p : NodePair} (hp : p ∈ phiPairs entry) : ¬ inp.IsTop p := by
  obtain ⟨n, node⟩ := entry
  cases node with
  | MSSAPHI res opVers =>
      have hsame : p.2 = n := by
        rcases List.mem_cons.mp hp with rfl | hp
        · rfl
        · obtain ⟨pos, -, rfl⟩ := List.mem_map.mp hp
          rfl
      intro ⟨node', hnode', haction⟩
      have heq := List.inj_on_of_nodup_map hinp.nodeIds hnode' hentry hsame
      rw [(Prod.mk.inj heq).2] at haction
      exact List.not_mem_nil haction
  | _ => exact absurd hp List.not_mem_nil

theorem not_isTop_of_mem_pairs (hinp : inp.WellFormed) {p : NodePair} (hp : p ∈ inp.pairs) :
    ¬ inp.IsTop p := by
  rcases List.mem_append.mp hp with hp | hp
  · obtain ⟨entry, hentry, hp⟩ := List.mem_flatMap.mp hp
    exact not_isTop_of_mem_phiPairs hinp hentry hp
  · obtain ⟨f, hf, hp⟩ := List.mem_flatMap.mp hp
    obtain ⟨edge, hedge, hf⟩ := List.mem_flatMap.mp hf
    have hends := hinp.objects edge (List.mem_of_mem_filter hedge) f hf
    rcases List.mem_cons.mp hp with rfl | hp
    · exact hends.1
    · exact List.mem_singleton.mp hp ▸ hends.2

/-- The ids that were taken are as many as the pairs that have one. -/
theorem total_eq (hinp : inp.WellFormed) (hs : Encodes inp s) (hinv : s.maps.Inverse) :
    s.totalCGNode = inp.size +
      (inp.pairs.toFinset.filter fun p => (s.maps.number p).isSome).card := by
  have hcard := Numbering.Inverse.card_eq hinv (T := Finset.Ioc inp.size s.totalCGNode)
    (S := inp.pairs.toFinset) (fun i hi => by
      obtain ⟨hlt, hle⟩ := Finset.mem_Ioc.mp hi
      obtain ⟨p, hp, hv⟩ := hs.mapped i hlt hle
      exact ⟨p, List.mem_toFinset.mpr hp, hv⟩) (fun p hp i hi => by
      have hkind := hs.kind i p (hs.half p i hi)
      have hpair := List.mem_toFinset.mp hp
      have hbounds := hkind.resolve_left fun h => not_isTop_of_mem_pairs hinp hpair h.1
      exact Finset.mem_Ioc.mpr hbounds.2)
  rw [Nat.card_Ioc] at hcard
  rw [← hcard]
  exact (Nat.add_sub_cancel' hs.le).symm

theorem room (hinp : inp.WellFormed) (hs : Encodes inp s) (hinv : s.maps.Inverse) {p : NodePair}
    (hp : p ∈ inp.pairs) (hnew : s.maps.number p = none) :
    s.totalCGNode + 1 ≤ inp.size + inp.pairs.toFinset.card := by
  have hlt : (inp.pairs.toFinset.filter fun p => (s.maps.number p).isSome).card <
      inp.pairs.toFinset.card := by
    refine Finset.card_lt_card (Finset.filter_ssubset.mpr ⟨p, List.mem_toFinset.mpr hp, ?_⟩)
    rw [hnew]
    exact Bool.false_ne_true
  rw [total_eq hinp hs hinv]
  exact Nat.add_lt_add_left hlt inp.size

structure Sound (inp : Input) (s : FSConsG) : Prop where
  encodes : Encodes inp s
  inverse : s.maps.Inverse
  bound : s.totalCGNode ≤ inp.size + inp.pairs.toFinset.card

theorem new_sound (hinp : inp.WellFormed) : Sound inp inp.new :=
  ⟨new_encodes hinp, Numbering.inverse_empty, Nat.le_add_right _ _⟩

def OnlyAt (n : NodeID) (s t : FSConsG) : Prop :=
  ∀ p x, t.maps.number p = some x → s.maps.number p = some x ∨ p.2 = n

theorem OnlyAt.refl (n : NodeID) (s : FSConsG) : OnlyAt n s s := fun _ _ h => .inl h

theorem OnlyAt.trans {n : NodeID} {u : FSConsG} (h : OnlyAt n s t) (h' : OnlyAt n t u) :
    OnlyAt n s u := fun p x hx => (h' p x hx).elim (h p x) .inr

theorem runAction_sound (hinp : inp.WellFormed) {n : NodeID} {node : SVFGNode}
    (hnode : (n, node) ∈ inp.svfg.nodes) {a : Action} (ha : a ∈ node.actions n)
    (hs : Sound inp s) : Sound inp (s.runAction n a) ∧ OnlyAt n s (s.runAction n a) := by
  have hs' := (runAction_encodes hinp hnode ha hs.encodes).1
  have hbound := (runAction_total n s a).trans_le hs.bound
  cases a with
  | edge e => exact ⟨⟨hs', hs.inverse, hbound⟩, .refl n s⟩
  | node v =>
      by_cases hhas : s.consG.hasConstraintNode v = true
      · rw [FSConsG.runAction, if_pos hhas]
        exact ⟨hs, .refl n s⟩
      · have htop : inp.IsTop (v, n) := ⟨node, hnode, ha⟩
        rw [hs.encodes.graph.hasConstraintNode] at hhas
        have hnumber : s.maps.number (v, n) = none := by
          cases hv : s.maps.number (v, n) with
          | none => rfl
          | some x =>
              have hvalue := hs.encodes.half _ x hv
              rcases hs.encodes.kind x _ hvalue with ⟨-, rfl⟩ | ⟨hp, -⟩
              · exact absurd (hs.encodes.value_node _ _ hvalue) hhas
              · exact absurd htop (not_isTop_of_mem_pairs hinp hp)
        have hvalue : s.maps.value v = none := by
          cases hv : s.maps.value v with
          | none => rfl
          | some q => exact absurd (hs.encodes.value_node v q hv) hhas
        rw [← hs.encodes.graph.hasConstraintNode] at hhas
        have heq : (s.runAction n (.node v)).maps = s.maps.insert v (v, n) := by
          rw [FSConsG.runAction, if_neg hhas]
          rfl
        refine ⟨⟨hs', heq ▸ hs.inverse.insert hvalue hnumber, hbound⟩, fun p x hx => ?_⟩
        rw [heq] at hx
        rcases Numbering.number_insert_eq_some hx with hx | ⟨-, rfl⟩
        · exact .inl hx
        · exact .inr rfl

def OnlyNew (q : NodePair) (s t : FSConsG) : Prop :=
  ∀ p x, t.maps.number p = some x → s.maps.number p = some x ∨ p = q

theorem OnlyNew.onlyAt {q : NodePair} (h : OnlyNew q s t) : OnlyAt q.2 s t :=
  fun p x hx => (h p x hx).imp id (congrArg Prod.snd)

theorem OnlyNew.number_eq_none {p q : NodePair} (h : OnlyNew q s t) (hne : p ≠ q)
    (hp : s.maps.number p = none) : t.maps.number p = none := by
  cases ht : t.maps.number p with
  | none => rfl
  | some x =>
      have hs := (h p x ht).resolve_right hne
      rw [hp] at hs
      contradiction

theorem Encodes.value_next (hs : Encodes inp s)
    (hfree : s.consG.hasGNode (s.totalCGNode + 1) = false) :
    s.maps.value (s.totalCGNode + 1) = none := by
  cases hv : s.maps.value (s.totalCGNode + 1) with
  | none => rfl
  | some q => exact absurd (hs.value_node _ q hv) (by simp [hfree])

theorem addPHIVersion_maps (hs : Encodes inp s) (pos n : NodeID)
    (hfree : s.consG.hasGNode (s.totalCGNode + 1) = false) :
    (s.addPHIVersion pos n).maps = s.maps.insert (s.totalCGNode + 1) (pos, n) := by
  have hnot : ¬ s.consG.hasConstraintNode (s.totalCGNode + 1) = true := by
    rw [hs.graph.hasConstraintNode, hfree]
    exact Bool.false_ne_true
  rw [FSConsG.addPHIVersion]
  simp only [hnot]
  rfl

theorem addPairNode_maps {i n : NodeID} (hnew : s.maps.number (i, n) = none) :
    (s.addPairNode i n).maps = s.maps.insert (s.totalCGNode + 1) (i, n) ∧
      (s.addPairNode i n).totalCGNode = s.totalCGNode + 1 := by
  have hnot : ¬ s.hasConstraintNodePair i n = true := by
    rw [FSConsG.hasConstraintNodePair, hnew]
    exact Bool.false_ne_true
  rw [FSConsG.addPairNode, if_neg hnot]
  exact ⟨rfl, rfl⟩

section

variable (hM : ∀ x, inp.size < x → x ≤ inp.size + inp.pairs.toFinset.card → x ∉ inp.pag.ids)
include hM

theorem addPHIVersion_sound (hinp : inp.WellFormed) {pos n : NodeID} (hp : (pos, n) ∈ inp.pairs)
    (hnew : s.maps.number (pos, n) = none) (hs : Sound inp s) :
    Sound inp (s.addPHIVersion pos n) ∧ OnlyNew (pos, n) s (s.addPHIVersion pos n) := by
  have hroom := room hinp hs.encodes hs.inverse hp hnew
  have hfree := hs.encodes.free_next hM hroom
  have hmaps := addPHIVersion_maps hs.encodes pos n hfree
  refine ⟨⟨(addPHIVersion_encodes hM hp hs.encodes hroom).1, ?_, ?_⟩, fun p x hx => ?_⟩
  · rw [hmaps]
    exact hs.inverse.insert (Encodes.value_next hs.encodes hfree) hnew
  · exact (addPHIVersion_total s pos n).trans_le hroom
  · rw [hmaps] at hx
    exact (Numbering.number_insert_eq_some hx).imp id And.right

theorem addPHIOperands_sound (hinp : inp.WellFormed) {res n dst : NodeID} {opVers : List NodeID}
    (hp : ∀ pos ∈ opVers, (pos, n) ∈ inp.pairs)
    (hflow : ∀ pos ∈ opVers, ((pos, n), (res, n)) ∈ inp.visitedFlows) (hnodup : opVers.Nodup)
    (hnew : ∀ pos ∈ opVers, s.maps.number (pos, n) = none)
    (hdst : s.maps.value dst = some (res, n)) (hs : Sound inp s) :
    Sound inp (opVers.foldl (FSConsG.addPHIOperand n dst) s) ∧
      OnlyAt n s (opVers.foldl (FSConsG.addPHIOperand n dst) s) := by
  induction opVers generalizing s with
  | nil => exact ⟨hs, .refl n s⟩
  | cons pos opVers ih =>
      obtain ⟨hpos, hnodup⟩ := List.nodup_cons.mp hnodup
      have hnone := hnew pos List.mem_cons_self
      have hpair := hp pos List.mem_cons_self
      have hroom := room hinp hs.encodes hs.inverse hpair hnone
      obtain ⟨hs₁, honly⟩ := addPHIVersion_sound hM hinp hpair hnone hs
      obtain ⟨henc, hext, -⟩ := addPHIOperand_encodes hM hpair (hflow pos List.mem_cons_self)
        hs.encodes hdst hroom
      have hs₂ : Sound inp (s.addPHIOperand n dst pos) := ⟨henc, hs₁.inverse, hs₁.bound⟩
      have hnew₂ : ∀ q ∈ opVers, (s.addPHIOperand n dst pos).maps.number (q, n) = none :=
        fun q hq => honly.number_eq_none (fun heq => hpos ((Prod.mk.inj heq).1 ▸ hq))
          (hnew q (List.mem_cons_of_mem pos hq))
      obtain ⟨hend, hrest⟩ := ih (fun q hq => hp q (List.mem_cons_of_mem pos hq))
        (fun q hq => hflow q (List.mem_cons_of_mem pos hq)) hnodup hnew₂ (hext.value _ _ hdst) hs₂
      exact ⟨hend, OnlyAt.trans (t := s.addPHIOperand n dst pos) honly.onlyAt hrest⟩

theorem buildSVFGNode_sound (hinp : inp.WellFormed) {n : NodeID} {node : SVFGNode}
    (hnode : (n, node) ∈ inp.svfg.nodes)
    (hphi : ∀ res opVers, node = .MSSAPHI res opVers → res ∉ opVers)
    (hnew : ∀ v, s.maps.number (v, n) = none) (hs : Sound inp s) :
    Sound inp (s.buildSVFGNode (n, node)) ∧ OnlyAt n s (s.buildSVFGNode (n, node)) := by
  have htop : Sound inp ((node.actions n).foldl (FSConsG.runAction n) s) ∧
      OnlyAt n s ((node.actions n).foldl (FSConsG.runAction n) s) := by
    refine Util.Folds.foldl_invariant (I := fun t => Sound inp t ∧ OnlyAt n s t) ?_ ⟨hs, .refl n s⟩
    intro a ha t ⟨ht, honly⟩
    obtain ⟨ht', honly'⟩ := runAction_sound hinp hnode ha ht
    exact ⟨ht', honly.trans honly'⟩
  cases node with
  | MSSAPHI res opVers =>
      have hres := hphi res opVers rfl
      have hpair : ∀ pos ∈ res :: opVers, (pos, n) ∈ inp.pairs := by
        intro pos hpos
        refine List.mem_append_left _ (List.mem_flatMap.mpr ⟨_, hnode, ?_⟩)
        exact (List.mem_cons.mp hpos).elim (fun h => h ▸ List.mem_cons_self)
          fun h => List.mem_cons_of_mem _ (List.mem_map.mpr ⟨pos, h, rfl⟩)
      have hroom := room hinp hs.encodes hs.inverse (hpair res List.mem_cons_self) (hnew res)
      obtain ⟨hs₁, honly⟩ := addPHIVersion_sound hM hinp (hpair res List.mem_cons_self)
        (hnew res) hs
      obtain ⟨-, -, hvalue⟩ := addPHIVersion_encodes hM (hpair res List.mem_cons_self)
        hs.encodes hroom
      obtain ⟨hs₂, honly'⟩ := addPHIOperands_sound hM hinp
        (fun pos hpos => hpair pos (List.mem_cons_of_mem res hpos)) (fun pos hpos =>
          List.mem_append_left _ (List.mem_flatMap.mpr
            ⟨_, hnode, List.mem_map.mpr ⟨pos, hpos, rfl⟩⟩)) (hinp.positions n res opVers hnode)
        (fun pos hpos => honly.number_eq_none (fun heq => hres ((Prod.mk.inj heq).1 ▸ hpos))
          (hnew pos)) hvalue hs₁
      rw [buildSVFGNode_of_phi]
      exact ⟨hs₂, honly.onlyAt.trans honly'⟩
  | _ => exact htop

theorem nodes_sound (hinp : inp.WellFormed)
    (hphi : ∀ n res opVers, (n, .MSSAPHI res opVers) ∈ inp.svfg.nodes → res ∉ opVers)
    {l : List (NodeID × SVFGNode)} (hl : ∀ entry ∈ l, entry ∈ inp.svfg.nodes)
    (hnodup : (l.map Prod.fst).Nodup)
    (hnew : ∀ n ∈ l.map Prod.fst, ∀ v, s.maps.number (v, n) = none) (hs : Sound inp s) :
    Sound inp (l.foldl FSConsG.buildSVFGNode s) := by
  induction l generalizing s with
  | nil => exact hs
  | cons entry l ih =>
      obtain ⟨n, node⟩ := entry
      obtain ⟨hn, hnodup⟩ := List.nodup_cons.mp hnodup
      have hnode := hl _ List.mem_cons_self
      obtain ⟨hs', honly⟩ := buildSVFGNode_sound hM hinp hnode
        (fun res opVers heq => hphi n res opVers (heq ▸ hnode))
        (hnew n List.mem_cons_self) hs
      refine ih (fun e he => hl e (List.mem_cons_of_mem _ he)) hnodup ?_ hs'
      intro m hm v
      cases hv : (s.buildSVFGNode (n, node)).maps.number (v, m) with
      | none => rfl
      | some x =>
          rcases honly _ x hv with hold | rfl
          · rw [hnew m (List.mem_cons_of_mem n hm) v] at hold
            contradiction
          · exact absurd hm hn

theorem addPairNode_sound (hinp : inp.WellFormed) {i n : NodeID} (hp : (i, n) ∈ inp.pairs)
    (hs : Sound inp s) : Sound inp (s.addPairNode i n) := by
  cases hnumber : s.maps.number (i, n) with
  | some x =>
      have hhas : s.hasConstraintNodePair i n = true := by
        rw [FSConsG.hasConstraintNodePair, hnumber]
        rfl
      rw [FSConsG.addPairNode, if_pos hhas]
      exact hs
  | none =>
      have hroom := room hinp hs.encodes hs.inverse hp hnumber
      have hfree := hs.encodes.free_next hM hroom
      obtain ⟨hmaps, htotal⟩ := addPairNode_maps hnumber
      have hbound := htotal.trans_le hroom
      refine ⟨(addPairNode_encodes hM hp hs.encodes hbound).1, ?_, hbound⟩
      rw [hmaps]
      exact hs.inverse.insert (Encodes.value_next hs.encodes hfree) hnumber

theorem connectEdge_sound (hinp : inp.WellFormed) {edge : IndirectSVFGEdge}
    (hedge : edge ∈ inp.svfg.indirectEdgeSet) (hs : Sound inp s) :
    Sound inp (s.connectEdge edge) := by
  refine Util.Folds.foldl_invariant (I := Sound inp) ?_ hs
  intro i hi t ht
  have hpair : ∀ n, n = edge.src ∨ n = edge.dst → (i, n) ∈ inp.pairs := by
    intro n hn
    refine List.mem_append_right _ (List.mem_flatMap.mpr ⟨((i, edge.src), (i, edge.dst)), ?_, ?_⟩)
    · exact List.mem_flatMap.mpr ⟨edge, hedge, List.mem_map.mpr ⟨i, hi, rfl⟩⟩
    · rcases hn with rfl | rfl <;> simp
  have ht₁ := addPairNode_sound hM hinp (hpair _ (.inl rfl)) ht
  have ht₂ := addPairNode_sound hM hinp (hpair _ (.inr rfl)) ht₁
  exact ⟨(connectObject_encodes hM hedge hi ht.encodes ht₂.bound).1, ht₂.inverse, ht₂.bound⟩

theorem build_sound (hinp : inp.WellFormed)
    (hphi : ∀ n res opVers, (n, .MSSAPHI res opVers) ∈ inp.svfg.nodes → res ∉ opVers) :
    Sound inp inp.build := by
  have hnodes := nodes_sound hM hinp hphi (fun _ h => h) hinp.nodeIds (fun _ _ _ => rfl)
    (new_sound hinp)
  exact Util.Folds.foldl_invariant (I := Sound inp)
    (fun edge hedge t ht => connectEdge_sound hM hinp hedge ht) hnodes

end

end SVF.Graphs.PairNumbering
