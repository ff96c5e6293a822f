import Mathlib.Data.Set.Finite.List
import SVF.SABER.SrcSnkDDA

namespace SVF.SABER.SliceReachability

open Relation Util.ContextConds Util.Loops Util.Traversals SrcSnkDDA
open SrcSnkDDA.State

variable {Node : Type} [DecidableEq Node] {g : SVFG Node} {C : Checker Node} {maximumCxtLen : ℕ}
  {s : State Node} {item : CxtDPItem Node}

def forwardView (s : State Node) : Traversal (CxtDPItem Node) (Node × List NodeID) :=
  ⟨s.worklist, s.nodeToDPItemsMap⟩

def backwardView (s : State Node) : Traversal (CxtDPItem Node) Node := ⟨s.worklist, s.visitedSet⟩

theorem key_eq_of_same (a b : CxtDPItem Node) (h : a.same b = true) : a.key = b.key := beq_iff_eq.mp h

theorem cur_eq_of_same (a b : CxtDPItem Node) (h : a.same b = true) : a.cur = b.cur :=
  congrArg Prod.fst (key_eq_of_same a b h)

omit [DecidableEq Node] in
theorem worklist_eq_nil (h : s.hasWork = false) : s.worklist = [] := by
  simpa [hasWork] using h

section

omit [DecidableEq Node]

def nextCalls (maximumCxtLen : ℕ) (calls : List NodeID) : EdgeKind → Option (List NodeID)
  | .intra => some calls
  | .call csId =>
      some (if calls.length < maximumCxtLen then calls ++ [csId] else if calls = [] then [] else calls.tail ++ [csId])
  | .ret csId =>
      if calls = [] then some [] else if calls.getLast? = some csId then some calls.dropLast else none

theorem nextContexts_context (contexts : ContextCond) (kind : EdgeKind) :
    (nextContexts maximumCxtLen contexts kind).map (·.context) = nextCalls maximumCxtLen contexts.context kind := by
  cases kind with
  | intra => rfl
  | call csId =>
      by_cases hlt : contexts.context.length < maximumCxtLen
      · simp [nextContexts, nextCalls, ContextCond.pushContext, ContextCond.copy, hlt]
      · by_cases hnil : contexts.context = []
        · rw [hnil, List.length_nil] at hlt
          simp [nextContexts, nextCalls, ContextCond.pushContext, ContextCond.copy, hlt, hnil]
        · simp [nextContexts, nextCalls, ContextCond.pushContext, ContextCond.copy, hlt, hnil]
  | ret csId =>
      by_cases hnil : contexts.context = []
      · simp [nextContexts, nextCalls, ContextCond.matchContext, ContextCond.copy, hnil]
      · by_cases hlast : contexts.context.getLast? = some csId
        · simp [nextContexts, nextCalls, ContextCond.matchContext, ContextCond.copy, hnil, hlast]
        · simp [nextContexts, nextCalls, ContextCond.matchContext, ContextCond.copy, hnil, hlast]

theorem nextCalls_suffix (maximumCxtLen : ℕ) {kind : EdgeKind} {calls calls' kept : List NodeID}
    (hmatch : Matches kind calls calls') (hkept : kept <:+ calls) : ∃ kept', nextCalls maximumCxtLen kept kind = some kept' ∧ kept' <:+ calls' := by
  cases hmatch with
  | intra => exact ⟨kept, rfl, hkept⟩
  | call csId =>
      obtain ⟨lost, rfl⟩ := hkept
      refine ⟨_, rfl, ?_⟩
      split
      · exact ⟨lost, by rw [List.append_assoc]⟩
      · split
        · exact List.nil_suffix
        · rename_i hne
          obtain ⟨first, rest, rfl⟩ := List.exists_cons_of_ne_nil hne
          exact ⟨lost ++ [first], by simp⟩
  | ret csId =>
      rcases List.eq_nil_or_concat kept with rfl | ⟨front, last, rfl⟩
      · exact ⟨[], rfl, List.nil_suffix⟩
      · rw [List.concat_eq_append] at hkept ⊢
        obtain ⟨lost, heq⟩ := hkept
        rw [← List.append_assoc] at heq
        obtain ⟨rfl, hlast⟩ := List.append_inj' heq rfl
        obtain rfl := List.head_eq_of_cons_eq hlast
        exact ⟨front, by simp [nextCalls], lost, rfl⟩
  | retUnbalanced csId =>
      rw [List.suffix_nil] at hkept
      subst hkept
      exact ⟨[], rfl, List.suffix_rfl⟩

variable (g maximumCxtLen) in
def Next (p q : Node × List NodeID) : Prop :=
  ∃ edge ∈ g.outEdges p.1, edge.dst = q.1 ∧ nextCalls maximumCxtLen p.2 edge.kind = some q.2

theorem next_of_matched {p q : Node × List NodeID} {kept : List NodeID} (h : MatchedEdge g p q) (hkept : kept <:+ p.2) :
    ∃ kept', Next g maximumCxtLen (p.1, kept) (q.1, kept') ∧ kept' <:+ q.2 := by
  obtain ⟨edge, hedge, hdst, hmatch⟩ := h
  obtain ⟨kept', hnext, hkept'⟩ := nextCalls_suffix maximumCxtLen hmatch hkept
  exact ⟨kept', ⟨edge, hedge, hdst, hnext⟩, hkept'⟩

/-- The traversal follows every matched path, with the ends of its call strings. -/
theorem next_of_path (maximumCxtLen : ℕ) {src : Node} {p : Node × List NodeID}
    (h : ReflTransGen (MatchedEdge g) (src, []) p) :
    ∃ kept, ReflTransGen (Next g maximumCxtLen) (src, []) (p.1, kept) ∧ kept <:+ p.2 := by
  induction h with
  | refl => exact ⟨[], .refl, List.suffix_rfl⟩
  | tail _ hstep ih =>
      obtain ⟨kept, hpath, hkept⟩ := ih
      obtain ⟨kept', hnext, hkept'⟩ := next_of_matched hstep hkept
      exact ⟨kept', hpath.tail hnext, hkept'⟩

theorem next_of_path_again (maximumCxtLen : ℕ) {src : Node} {p : Node × List NodeID}
    (h : TransGen (MatchedEdge g) (src, []) p) :
    ∃ kept, TransGen (Next g maximumCxtLen) (src, []) (p.1, kept) := by
  obtain ⟨q, hpath, hstep⟩ := TransGen.tail'_iff.mp h
  obtain ⟨kept, hpath, hkept⟩ := next_of_path maximumCxtLen hpath
  obtain ⟨kept', hnext, -⟩ := next_of_matched hstep hkept
  exact ⟨kept', TransGen.tail'_iff.mpr ⟨_, hpath, hnext⟩⟩

end

section

variable (g maximumCxtLen)

omit [DecidableEq Node]

def callSites : Set NodeID := {csId | ∃ n, ∃ edge ∈ g.outEdges n, edge.kind = .call csId}

def strings : Set (List NodeID) := {calls | calls.length ≤ maximumCxtLen ∧ ∀ csId ∈ calls, csId ∈ callSites g}

theorem callSites_finite : (callSites g).Finite := by
  have hedges : {edge | ∃ n, edge ∈ g.outEdges n}.Finite := by
    apply (Set.Finite.biUnion g.nodes.finite_toSet fun n _ => List.finite_toSet (g.outEdges n)).subset
    rintro edge ⟨n, hedge⟩
    exact Set.mem_biUnion (g.ends n edge hedge).1 hedge
  apply (hedges.image fun edge => match edge.kind with | .call csId => csId | _ => 0).subset
  rintro csId ⟨n, edge, hedge, hkind⟩
  refine ⟨edge, ⟨n, hedge⟩, ?_⟩
  dsimp only
  rw [hkind]

theorem strings_finite : (strings g maximumCxtLen).Finite := by
  have : Finite (callSites g) := (callSites_finite g).to_subtype
  apply ((List.finite_length_le (callSites g) maximumCxtLen).image (List.map Subtype.val)).subset
  rintro calls ⟨hlength, hmem⟩
  lift calls to List (callSites g) using hmem
  rw [List.length_map] at hlength
  exact ⟨calls, hlength, rfl⟩

noncomputable def keys : Finset (Node × List NodeID) :=
  (g.nodes.finite_toSet.prod (strings_finite g maximumCxtLen)).toFinset

theorem mem_keys (p : Node × List NodeID) :
    p ∈ keys g maximumCxtLen ↔ p.1 ∈ g.nodes ∧ p.2 ∈ strings g maximumCxtLen := by
  rw [keys, Set.Finite.mem_toFinset, Set.mem_prod, Finset.mem_coe]

variable {g maximumCxtLen}

theorem nextCalls_strings {calls calls' : List NodeID} {n : Node} {edge : SVFGEdge Node}
    (hedge : edge ∈ g.outEdges n) (h : calls ∈ strings g maximumCxtLen)
    (hnext : nextCalls maximumCxtLen calls edge.kind = some calls') : calls' ∈ strings g maximumCxtLen := by
  obtain ⟨hlength, hmem⟩ := h
  cases hkind : edge.kind with
  | intra =>
      rw [hkind] at hnext
      obtain rfl := Option.some.inj hnext
      exact ⟨hlength, hmem⟩
  | call csId =>
      rw [hkind] at hnext
      have hcall : ∀ c ∈ [csId], c ∈ callSites g := by
        intro c hc
        rw [List.mem_singleton.mp hc]
        exact ⟨n, edge, hedge, hkind⟩
      obtain rfl := Option.some.inj hnext
      split
      · rename_i hlt
        exact ⟨by simpa using hlt, List.forall_mem_append.mpr ⟨hmem, hcall⟩⟩
      · split
        · exact ⟨Nat.zero_le _, List.forall_mem_nil _⟩
        · rename_i hne
          have hpos := List.length_pos_of_ne_nil hne
          refine ⟨?_, List.forall_mem_append.mpr ⟨fun c hc => hmem c (List.mem_of_mem_tail hc), hcall⟩⟩
          rw [List.length_append, List.length_tail, List.length_singleton]
          omega
  | ret csId =>
      rw [hkind, nextCalls] at hnext
      split at hnext
      · obtain rfl := Option.some.inj hnext
        exact ⟨Nat.zero_le _, List.forall_mem_nil _⟩
      · split at hnext
        · obtain rfl := Option.some.inj hnext
          refine ⟨?_, fun c hc => hmem c (List.mem_of_mem_dropLast hc)⟩
          rw [List.length_dropLast]
          omega
        · cases hnext

end

section

def accepted (maximumCxtLen : ℕ) (item : CxtDPItem Node) (edge : SVFGEdge Node) : Option (CxtDPItem Node) :=
  (nextContexts maximumCxtLen item.context edge.kind).map fun contexts => ⟨edge.dst, contexts⟩

omit [DecidableEq Node] in
theorem accepted_spec {edge : SVFGEdge Node} {newItem : CxtDPItem Node}
    (h : accepted maximumCxtLen item edge = some newItem) : newItem.cur = edge.dst ∧
      nextCalls maximumCxtLen item.context.context edge.kind = some newItem.context.context := by
  obtain ⟨contexts, hnext, rfl⟩ := Option.map_eq_some_iff.mp h
  refine ⟨rfl, ?_⟩
  rw [← nextContexts_context, hnext, Option.map_some]

omit [DecidableEq Node] in
theorem exists_accepted {edge : SVFGEdge Node} {calls : List NodeID}
    (h : nextCalls maximumCxtLen item.context.context edge.kind = some calls) :
    ∃ newItem, accepted maximumCxtLen item edge = some newItem ∧ newItem.key = (edge.dst, calls) := by
  rw [← nextContexts_context] at h
  obtain ⟨contexts, hnext, rfl⟩ := Option.map_eq_some_iff.mp h
  exact ⟨⟨edge.dst, contexts⟩, by rw [accepted, hnext, Option.map_some], rfl⟩

theorem FWProcessOutgoingEdge_global {edge : SVFGEdge Node}
    (h : (C.isGlobalSVFGNode edge.dst || s.curSlice.reachGlobal) = true) :
    FWProcessOutgoingEdge C maximumCxtLen item s edge =
      { s with curSlice := { s.curSlice with reachGlobal := true } } := if_pos h

theorem FWProcessOutgoingEdge_none {edge : SVFGEdge Node}
    (h : ¬ (C.isGlobalSVFGNode edge.dst || s.curSlice.reachGlobal) = true) (hnone : accepted maximumCxtLen item edge = none) :
    FWProcessOutgoingEdge C maximumCxtLen item s edge = s := by
  rw [accepted, Option.map_eq_none_iff] at hnone
  rw [FWProcessOutgoingEdge, if_neg h, hnone]

theorem FWProcessOutgoingEdge_some {edge : SVFGEdge Node} {newItem : CxtDPItem Node}
    (h : ¬ (C.isGlobalSVFGNode edge.dst || s.curSlice.reachGlobal) = true)
    (hsome : accepted maximumCxtLen item edge = some newItem) :
    (FWProcessOutgoingEdge C maximumCxtLen item s edge).curSlice = s.curSlice ∧
      (FWProcessOutgoingEdge C maximumCxtLen item s edge).visitedSet = s.visitedSet ∧
      forwardView (FWProcessOutgoingEdge C maximumCxtLen item s edge) =
        (forwardView s).visit CxtDPItem.same CxtDPItem.key newItem := by
  obtain ⟨contexts, hnext, rfl⟩ := Option.map_eq_some_iff.mp hsome
  rw [FWProcessOutgoingEdge, if_neg h, hnext, Traversal.visit]
  dsimp only
  by_cases hvisited : (⟨edge.dst, contexts⟩ : CxtDPItem Node).key ∈ s.nodeToDPItemsMap
  · rw [if_pos hvisited]
    exact ⟨rfl, rfl, (if_pos hvisited).symm⟩
  · rw [if_neg hvisited]
    exact ⟨rfl, rfl, (if_neg hvisited).symm⟩

theorem outgoing_spec (C : Checker Node) (maximumCxtLen : ℕ) (item : CxtDPItem Node) (l : List (SVFGEdge Node))
    (s : State Node) :
    (l.foldl (FWProcessOutgoingEdge C maximumCxtLen item) s).curSlice = { s.curSlice with
        reachGlobal := s.curSlice.reachGlobal || l.any fun edge => C.isGlobalSVFGNode edge.dst } ∧
    (l.foldl (FWProcessOutgoingEdge C maximumCxtLen item) s).visitedSet = s.visitedSet ∧
    ∃ items, forwardView (l.foldl (FWProcessOutgoingEdge C maximumCxtLen item) s) =
        (forwardView s).visitAll CxtDPItem.same CxtDPItem.key items ∧
      (∀ newItem ∈ items, ∃ edge ∈ l, C.isGlobalSVFGNode edge.dst = false ∧
        accepted maximumCxtLen item edge = some newItem) ∧
      ((s.curSlice.reachGlobal || l.any fun edge => C.isGlobalSVFGNode edge.dst) = false →
        items = l.filterMap (accepted maximumCxtLen item)) := by
  induction l generalizing s with
  | nil => exact ⟨by simp, rfl, [], rfl, by simp, fun _ => rfl⟩
  | cons edge l ih =>
      rw [List.foldl_cons]
      obtain ⟨hslice, hvisited, items, hview, hitems, hall⟩ :=
        ih (FWProcessOutgoingEdge C maximumCxtLen item s edge)
      have hlater : ∀ newItem ∈ items, ∃ edge' ∈ edge :: l, C.isGlobalSVFGNode edge'.dst = false ∧
          accepted maximumCxtLen item edge' = some newItem := by
        intro newItem hnew
        obtain ⟨edge', hedge', h⟩ := hitems newItem hnew
        exact ⟨edge', List.mem_cons_of_mem edge hedge', h⟩
      by_cases hglobal : (C.isGlobalSVFGNode edge.dst || s.curSlice.reachGlobal) = true
      · rw [FWProcessOutgoingEdge_global hglobal] at hslice hvisited hview hall ⊢
        have hflag : (s.curSlice.reachGlobal || (edge :: l).any fun edge => C.isGlobalSVFGNode edge.dst) = true := by
          rw [List.any_cons, ← Bool.or_assoc, Bool.or_comm s.curSlice.reachGlobal, hglobal, Bool.true_or]
        refine ⟨?_, hvisited, items, hview, hlater, fun h => absurd (hflag.symm.trans h) (by decide)⟩
        rw [hslice, hflag]
        simp
      · have hfalse := hglobal
        rw [Bool.not_eq_true, Bool.or_eq_false_iff] at hfalse
        cases haccept : accepted maximumCxtLen item edge with
        | none =>
            rw [FWProcessOutgoingEdge_none hglobal haccept] at hslice hvisited hview hall ⊢
            rw [List.any_cons, hfalse.1, Bool.false_or, List.filterMap_cons_none haccept]
            exact ⟨hslice, hvisited, items, hview, hlater, hall⟩
        | some newItem =>
            obtain ⟨hslice', hvisited', hview'⟩ := FWProcessOutgoingEdge_some hglobal haccept
            rw [hslice'] at hslice hall
            rw [hvisited'] at hvisited
            rw [hview'] at hview
            rw [List.any_cons, hfalse.1, Bool.false_or, List.filterMap_cons_some haccept]
            refine ⟨hslice, hvisited, newItem :: items, hview, ?_, fun h => by rw [hall h]⟩
            rw [List.forall_mem_cons]
            exact ⟨⟨edge, List.mem_cons_self, hfalse.1, haccept⟩, hlater⟩

def Done (C : Checker Node) (slice : ProgSlice Node) (p : Node × List NodeID) : Prop :=
  p.1 ∈ slice.forwardSlice ∧ (C.isSink p.1 = true → p.1 ∈ slice.sinks)

theorem done_mono {p : Node × List NodeID} (h : Done C s.curSlice p) (item : CxtDPItem Node) :
    Done C (FWProcessCurNode C s item).curSlice p := by
  unfold FWProcessCurNode
  dsimp only
  split
  · exact ⟨List.mem_insert_of_mem h.1, fun hsink => List.mem_insert_of_mem (h.2 hsink)⟩
  · exact ⟨List.mem_insert_of_mem h.1, h.2⟩

theorem done_self (C : Checker Node) (s : State Node) (item : CxtDPItem Node) :
    Done C (FWProcessCurNode C s item).curSlice item.key := by
  unfold FWProcessCurNode
  dsimp only
  split
  · exact ⟨List.mem_insert_self, fun _ => List.mem_insert_self⟩
  · rename_i hsink
    exact ⟨List.mem_insert_self, fun h => absurd h hsink⟩

theorem FWProcessCurNode_frame (C : Checker Node) (s : State Node) (item : CxtDPItem Node) :
    forwardView (FWProcessCurNode C s item) = forwardView s ∧
      (FWProcessCurNode C s item).visitedSet = s.visitedSet ∧
      (FWProcessCurNode C s item).curSlice.reachGlobal = s.curSlice.reachGlobal ∧
      (FWProcessCurNode C s item).curSlice.backwardSlice = s.curSlice.backwardSlice := by
  unfold FWProcessCurNode
  dsimp only
  split
  · exact ⟨rfl, rfl, rfl, rfl⟩
  · exact ⟨rfl, rfl, rfl, rfl⟩

structure ForwardInv (g : SVFG Node) (C : Checker Node) (maximumCxtLen : ℕ) (src : Node) (s : State Node) :
    Prop where
  reached : ∀ item ∈ s.worklist, ReflTransGen g.Edge src item.cur
  bounded : ∀ item ∈ s.worklist, item.context.context ∈ strings g maximumCxtLen
  touched : s.curSlice.reachGlobal = true → ∃ n, C.isGlobalSVFGNode n = true ∧ TransGen g.Edge src n
  visited : ∀ p ∈ s.nodeToDPItemsMap, C.isGlobalSVFGNode p.1 = false
  explored : s.curSlice.reachGlobal = false →
    Explored CxtDPItem.key (Next g maximumCxtLen) (· = (src, [])) (Done C s.curSlice) (forwardView s)
  fresh : s.visitedSet = [] ∧ s.curSlice.backwardSlice = []

variable {src : Node}

theorem forwardStep_inv (h : ForwardInv g C maximumCxtLen src s) (hwork : s.hasWork = true) :
    ∃ t, forwardStep g C maximumCxtLen s = some t ∧ ForwardInv g C maximumCxtLen src t ∧
      (forwardView t).rank (keys g maximumCxtLen) < (forwardView s).rank (keys g maximumCxtLen) := by
  obtain ⟨worklist, visited, visitedSet, slice⟩ := s
  cases worklist with
  | nil => cases hwork
  | cons item rest =>
      obtain ⟨s₁, hs₁⟩ : ∃ s₁, FWProcessCurNode C ⟨rest, visited, visitedSet, slice⟩ item = s₁ := ⟨_, rfl⟩
      obtain ⟨hview₁, hvisited₁, hglobal₁, hback₁⟩ := FWProcessCurNode_frame C ⟨rest, visited, visitedSet, slice⟩ item
      have hmono : ∀ p, Done C slice p → Done C s₁.curSlice p := fun p hp =>
        hs₁ ▸ done_mono (s := ⟨rest, visited, visitedSet, slice⟩) hp item
      have hself : Done C s₁.curSlice item.key := hs₁ ▸ done_self C _ item
      rw [hs₁] at hview₁ hvisited₁ hglobal₁ hback₁
      obtain ⟨hslice, hvisitedSet, items, hview, hitems, hall⟩ :=
        outgoing_spec C maximumCxtLen item (g.outEdges item.cur) s₁
      generalize ht : (g.outEdges item.cur).foldl (FWProcessOutgoingEdge C maximumCxtLen item) s₁ = t at *
      rw [hview₁] at hview
      have hitem : item ∈ (⟨item :: rest, visited, visitedSet, slice⟩ : State Node).worklist := List.mem_cons_self
      have hnew : ∀ newItem ∈ items, g.Edge item.cur newItem.cur ∧ C.isGlobalSVFGNode newItem.cur = false ∧
          newItem.cur ∈ g.nodes ∧ newItem.context.context ∈ strings g maximumCxtLen := by
        intro newItem hmem
        obtain ⟨edge, hedge, hglobal, haccept⟩ := hitems newItem hmem
        obtain ⟨hcur, hcalls⟩ := accepted_spec haccept
        rw [hcur]
        exact ⟨⟨edge, hedge, rfl⟩, hglobal, (g.ends _ edge hedge).2, nextCalls_strings hedge (h.bounded item hitem) hcalls⟩
      have hworklist : ∀ a ∈ t.worklist, a ∈ rest ∨ a ∈ items := by
        intro a ha
        have ha' : a ∈ (forwardView t).worklist := ha
        rw [hview] at ha'
        exact mem_worklist_visitAll ha'
      have hflag : t.curSlice.reachGlobal = (slice.reachGlobal || (g.outEdges item.cur).any fun edge => C.isGlobalSVFGNode edge.dst) := by
        rw [hslice, hglobal₁]
      refine ⟨t, ?_, ?_, ?_⟩
      · rw [← ht, ← hs₁]
        rfl
      · constructor
        case reached =>
          intro a ha
          rcases hworklist a ha with ha | ha
          · exact h.reached a (List.mem_cons_of_mem item ha)
          · exact (h.reached item hitem).tail (hnew a ha).1
        case bounded =>
          intro a ha
          rcases hworklist a ha with ha | ha
          · exact h.bounded a (List.mem_cons_of_mem item ha)
          · exact (hnew a ha).2.2.2
        case touched =>
          intro htouched
          rw [hflag, Bool.or_eq_true, List.any_eq_true] at htouched
          rcases htouched with htouched | ⟨edge, hedge, hglobal⟩
          · exact h.touched htouched
          · exact ⟨edge.dst, hglobal, TransGen.tail'_iff.mpr ⟨item.cur, h.reached item hitem, edge, hedge, rfl⟩⟩
        case visited =>
          intro p hp
          have hp' : p ∈ (forwardView t).visited := hp
          rw [hview, visited_visitAll] at hp'
          rcases hp' with hp' | ⟨a, ha, rfl⟩
          · exact h.visited p hp'
          · exact (hnew a ha).2.1
        case explored =>
          intro hnone
          rw [hflag] at hnone
          have hdone : Done C t.curSlice = Done C s₁.curSlice := by
            funext p
            rw [hslice]
            rfl
          rw [hview, hdone]
          have hold := h.explored (Bool.or_eq_false_iff.mp hnone).1
          apply Explored.processed key_eq_of_same hold hmono hself
          rintro p ⟨edge, hedge, hdst, hnext⟩
          obtain ⟨newItem, haccept, hkey⟩ := exists_accepted hnext
          refine ⟨newItem, ?_, ?_⟩
          · rw [hall (by rw [hglobal₁]; exact hnone)]
            exact List.mem_filterMap.mpr ⟨edge, hedge, haccept⟩
          · rw [hkey, hdst]
        case fresh =>
          rw [hvisitedSet, hslice, hvisited₁]
          exact ⟨h.fresh.1, hback₁.trans h.fresh.2⟩
      · rw [hview]
        apply rank_processed_lt
        intro a ha
        rw [mem_keys]
        exact (hnew a ha).2.2

theorem forwardView_start (hempty : s.worklist = []) (it : CxtDPItem Node) :
    forwardView (s.setCurSlice.pushIntoWorklist it) = ⟨[it], []⟩ := by
  obtain ⟨worklist, visited, visitedSet, slice⟩ := s
  obtain rfl : worklist = [] := hempty
  rfl

theorem forwardInv_start (g : SVFG Node) (C : Checker Node) (maximumCxtLen : ℕ) (src : Node)
    (hempty : s.worklist = []) :
    ForwardInv g C maximumCxtLen src (s.setCurSlice.pushIntoWorklist ⟨src, .new⟩) := by
  have hview := forwardView_start hempty ⟨src, .new⟩
  have hworklist : (s.setCurSlice.pushIntoWorklist ⟨src, .new⟩).worklist = [⟨src, .new⟩] :=
    congrArg Traversal.worklist hview
  constructor
  case reached =>
    intro item hitem
    rw [hworklist, List.mem_singleton] at hitem
    rw [hitem]
  case bounded =>
    intro item hitem
    rw [hworklist, List.mem_singleton] at hitem
    rw [hitem]
    exact ⟨Nat.zero_le _, List.forall_mem_nil _⟩
  case touched =>
    intro h
    cases h
  case visited =>
    intro p hp
    cases hp
  case explored =>
    intro _
    rw [hview]
    rintro p (rfl | hp)
    · exact .inl ⟨⟨src, .new⟩, List.mem_singleton_self _, rfl⟩
    · cases hp
  case fresh => exact ⟨rfl, rfl⟩

theorem forwardTraverse_spec (g : SVFG Node) (C : Checker Node) (maximumCxtLen : ℕ) (src : Node)
    (hempty : s.worklist = []) {fuel : ℕ} (hfuel : 2 * (keys g maximumCxtLen).card + 1 ≤ fuel) :
    ∃ t, forwardTraverse g C maximumCxtLen s.setCurSlice fuel ⟨src, .new⟩ = some t ∧
      ForwardInv g C maximumCxtLen src t ∧ t.worklist = [] := by
  have hrank : (forwardView (s.setCurSlice.pushIntoWorklist ⟨src, .new⟩)).rank (keys g maximumCxtLen) ≤ fuel := by
    rw [forwardView_start hempty]
    exact (rank_le _ _).trans hfuel
  obtain ⟨t, hrun, hinv, hend⟩ := whileLoop_terminates hasWork (fun s hs hwork => forwardStep_inv hs hwork)
    (forwardInv_start g C maximumCxtLen src hempty) hrank
  exact ⟨t, hrun, hinv, worklist_eq_nil hend⟩

omit [DecidableEq Node] in
/-- All that matched paths reach is in the slice, unless a global node has been met. -/
theorem ForwardInv.done (h : ForwardInv g C maximumCxtLen src s) (hempty : s.worklist = [])
    (hnone : s.curSlice.reachGlobal = false) {n : Node} (hn : Reachable g src n) :
    n ∈ s.curSlice.forwardSlice ∧ (C.isSink n = true → n ∈ s.curSlice.sinks) := by
  obtain ⟨calls, hpath⟩ := hn
  obtain ⟨kept, hnext, -⟩ := next_of_path maximumCxtLen hpath
  have hexplored := h.explored hnone
  exact (hexplored.finished hempty (hexplored.reached hempty (.inl rfl) hnext)).1

omit [DecidableEq Node] in
theorem ForwardInv.global (h : ForwardInv g C maximumCxtLen src s) (hempty : s.worklist = []) {n : Node}
    (hglobal : C.isGlobalSVFGNode n = true) (hn : ReachableAgain g src n) : s.curSlice.reachGlobal = true := by
  by_contra hnone
  rw [Bool.not_eq_true] at hnone
  obtain ⟨calls, hpath⟩ := hn
  obtain ⟨kept, hnext⟩ := next_of_path_again maximumCxtLen hpath
  have hvisited := (h.explored hnone).reached_again hempty (.inl rfl) hnext
  rw [h.visited _ hvisited] at hglobal
  cases hglobal

end

section

theorem BWProcessIncomingEdge_spec (s : State Node) (edge : SVFGEdge Node) :
    (BWProcessIncomingEdge s edge).curSlice = s.curSlice ∧
      backwardView (BWProcessIncomingEdge s edge) =
        (backwardView s).visit CxtDPItem.same CxtDPItem.cur ⟨edge.src, .new⟩ := by
  rw [BWProcessIncomingEdge, Traversal.visit]
  by_cases hvisited : edge.src ∈ s.visitedSet
  · rw [if_pos hvisited]
    exact ⟨rfl, (if_pos hvisited).symm⟩
  · rw [if_neg hvisited]
    exact ⟨rfl, (if_neg hvisited).symm⟩

theorem incoming_spec (l : List (SVFGEdge Node)) (s : State Node) :
    (l.foldl BWProcessIncomingEdge s).curSlice = s.curSlice ∧
      backwardView (l.foldl BWProcessIncomingEdge s) =
        (backwardView s).visitAll CxtDPItem.same CxtDPItem.cur (l.map fun edge => ⟨edge.src, .new⟩) := by
  induction l generalizing s with
  | nil => exact ⟨rfl, rfl⟩
  | cons edge l ih =>
      obtain ⟨hslice, hview⟩ := BWProcessIncomingEdge_spec s edge
      obtain ⟨hslice', hview'⟩ := ih (BWProcessIncomingEdge s edge)
      refine ⟨hslice'.trans hslice, ?_⟩
      rw [List.foldl_cons, hview', hview]
      rfl

structure BackwardInv (g : SVFG Node) (slice : ProgSlice Node) (started : Node → Prop) (s : State Node) : Prop where
  frame : s.curSlice = { slice with backwardSlice := s.curSlice.backwardSlice }
  reaches : ∀ item ∈ s.worklist, ∃ sink ∈ slice.sinks, ReflTransGen g.Edge item.cur sink
  sound : ∀ n ∈ s.curSlice.backwardSlice, n ∈ slice.forwardSlice ∧ ∃ sink ∈ slice.sinks, ReflTransGen g.Edge n sink
  explored : Explored CxtDPItem.cur (fun n m => g.Edge m n) started
    (fun n => n ∈ slice.forwardSlice → n ∈ s.curSlice.backwardSlice) (backwardView s)

variable {slice : ProgSlice Node} {started : Node → Prop}

theorem BWProcessCurNode_spec (h : s.curSlice = { slice with backwardSlice := s.curSlice.backwardSlice })
    (item : CxtDPItem Node) :
    (BWProcessCurNode s item).curSlice =
        { slice with backwardSlice := (BWProcessCurNode s item).curSlice.backwardSlice } ∧
      backwardView (BWProcessCurNode s item) = backwardView s ∧
      ∀ n, n ∈ (BWProcessCurNode s item).curSlice.backwardSlice ↔
        n ∈ s.curSlice.backwardSlice ∨ n = item.cur ∧ n ∈ slice.forwardSlice := by
  have hforward : s.curSlice.forwardSlice = slice.forwardSlice := by rw [h]
  unfold BWProcessCurNode
  split
  · rename_i hin
    rw [hforward] at hin
    refine ⟨?_, rfl, fun n => ?_⟩
    · dsimp only
      rw [h]
    · rw [List.mem_insert_iff, or_comm]
      constructor
      · rintro (hn | rfl)
        · exact .inl hn
        · exact .inr ⟨rfl, hin⟩
      · exact Or.imp_right And.left
  · rename_i hout
    rw [hforward] at hout
    refine ⟨h, rfl, fun n => ⟨.inl, ?_⟩⟩
    rintro (hn | ⟨rfl, hn⟩)
    · exact hn
    · exact absurd hn hout

theorem backwardStep_inv (h : BackwardInv g slice started s) (hwork : s.hasWork = true) :
    ∃ t, backwardStep g s = some t ∧ BackwardInv g slice started t ∧
      (backwardView t).rank g.nodes < (backwardView s).rank g.nodes := by
  obtain ⟨worklist, visited, visitedSet, cur⟩ := s
  cases worklist with
  | nil => cases hwork
  | cons item rest =>
      obtain ⟨s₁, hs₁⟩ : ∃ s₁, BWProcessCurNode ⟨rest, visited, visitedSet, cur⟩ item = s₁ := ⟨_, rfl⟩
      obtain ⟨hslice₁, hview₁, hmem₁⟩ := BWProcessCurNode_spec (s := ⟨rest, visited, visitedSet, cur⟩) h.frame item
      rw [hs₁] at hslice₁ hview₁ hmem₁
      obtain ⟨hslice, hview⟩ := incoming_spec (g.inEdges item.cur) s₁
      generalize ht : (g.inEdges item.cur).foldl BWProcessIncomingEdge s₁ = t at *
      rw [hview₁] at hview
      obtain ⟨sink, hsink, hpath⟩ := h.reaches item List.mem_cons_self
      have hedge : ∀ a ∈ (g.inEdges item.cur).map fun edge => (⟨edge.src, .new⟩ : CxtDPItem Node),
          g.Edge a.cur item.cur ∧ a.cur ∈ g.nodes := by
        intro a ha
        obtain ⟨edge, hedge, rfl⟩ := List.mem_map.mp ha
        obtain ⟨hout, hdst⟩ := (g.mem_inEdges _ _).mp hedge
        exact ⟨⟨edge, hout, hdst⟩, (g.ends _ edge hout).1⟩
      refine ⟨t, ?_, ?_, ?_⟩
      · rw [← ht, ← hs₁]
        rfl
      · constructor
        case frame =>
          rw [hslice]
          exact hslice₁
        case reaches =>
          intro a ha
          have ha' : a ∈ (backwardView t).worklist := ha
          rw [hview] at ha'
          rcases mem_worklist_visitAll ha' with ha' | ha'
          · exact h.reaches a (List.mem_cons_of_mem item ha')
          · exact ⟨sink, hsink, hpath.head (hedge a ha').1⟩
        case sound =>
          intro n hn
          rw [hslice, hmem₁] at hn
          rcases hn with hn | ⟨rfl, hn⟩
          · exact h.sound n hn
          · exact ⟨hn, sink, hsink, hpath⟩
        case explored =>
          rw [hview]
          apply Explored.processed cur_eq_of_same h.explored
          · intro n hold hn
            rw [hslice, hmem₁]
            exact .inl (hold hn)
          · intro hn
            rw [hslice, hmem₁]
            exact .inr ⟨rfl, hn⟩
          · rintro n ⟨edge, hout, hdst⟩
            have hsrc := g.src_eq n edge hout
            refine ⟨⟨edge.src, .new⟩, List.mem_map.mpr ⟨edge, ?_, rfl⟩, hsrc.symm⟩
            rw [g.mem_inEdges, hsrc]
            exact ⟨hout, hdst⟩
      · rw [hview]
        apply rank_processed_lt
        intro a ha
        exact (hedge a ha).2

theorem backwardTraverse_spec (h : BackwardInv g slice started s) (hempty : s.worklist = []) {sink : Node}
    (hsink : sink ∈ slice.sinks) {fuel : ℕ} (hfuel : 2 * g.nodes.card + 1 ≤ fuel) :
    ∃ t, backwardTraverse g s fuel ⟨sink, .new⟩ = some t ∧
      BackwardInv g slice (fun n => started n ∨ n = sink) t ∧ t.worklist = [] := by
  have hworklist : (s.pushIntoWorklist ⟨sink, .new⟩).worklist = [⟨sink, .new⟩] := by
    change push CxtDPItem.same s.worklist _ = _
    rw [hempty]
    rfl
  have hstart : BackwardInv g slice (fun n => started n ∨ n = sink) (s.pushIntoWorklist ⟨sink, .new⟩) := by
    constructor
    case frame => exact h.frame
    case reaches =>
      intro item hitem
      rw [hworklist, List.mem_singleton] at hitem
      rw [hitem]
      exact ⟨sink, hsink, .refl⟩
    case sound => exact h.sound
    case explored => exact Explored.start cur_eq_of_same h.explored ⟨sink, .new⟩
  have hrank : (backwardView (s.pushIntoWorklist ⟨sink, .new⟩)).rank g.nodes ≤ fuel := by
    have hle := rank_le g.nodes (backwardView (s.pushIntoWorklist ⟨sink, .new⟩))
    have hlength : (backwardView (s.pushIntoWorklist ⟨sink, .new⟩)).worklist.length = 1 :=
      congrArg List.length hworklist
    omega
  obtain ⟨t, hrun, hinv, hend⟩ := whileLoop_terminates hasWork (fun s hs hwork => backwardStep_inv hs hwork) hstart hrank
  exact ⟨t, hrun, hinv, worklist_eq_nil hend⟩

theorem backwardTraversals_spec {sinks : List Node} (hsinks : ∀ sink ∈ sinks, sink ∈ slice.sinks)
    (h : BackwardInv g slice started s) (hempty : s.worklist = []) {fuel : ℕ} (hfuel : 2 * g.nodes.card + 1 ≤ fuel) :
    ∃ t, sinks.foldlM (fun s sink => backwardTraverse g s fuel ⟨sink, .new⟩) s = some t ∧
      BackwardInv g slice (fun n => started n ∨ n ∈ sinks) t ∧ t.worklist = [] := by
  induction sinks generalizing s started with
  | nil => exact ⟨s, rfl, by simpa using h, hempty⟩
  | cons sink sinks ih =>
      rw [List.forall_mem_cons] at hsinks
      obtain ⟨t, hrun, hinv, hend⟩ := backwardTraverse_spec h hempty hsinks.1 hfuel
      obtain ⟨t', hrest, hinv', hend'⟩ := ih hsinks.2 hinv hend
      refine ⟨t', ?_, ?_, hend'⟩
      · rw [List.foldlM_cons, hrun]
        exact hrest
      · simpa only [List.mem_cons, or_assoc] using hinv'

end

theorem analyzeSource_spec (g : SVFG Node) (C : Checker Node) (maximumCxtLen : ℕ) (src : Node)
    (hempty : s.worklist = []) {fuel : ℕ} (hfuel : 2 * (keys g maximumCxtLen).card + 1 ≤ fuel)
    (hfuel' : 2 * g.nodes.card + 1 ≤ fuel) :
    ∃ t, analyzeSource g C maximumCxtLen s fuel src = some t ∧ Complete g C src t.curSlice ∧ t.worklist = [] := by
  obtain ⟨t, hrun, hinv, hend⟩ := forwardTraverse_spec g C maximumCxtLen src hempty hfuel
  rw [analyzeSource, hrun, Option.bind_some]
  cases hglobal : t.curSlice.reachGlobal with
  | true =>
      refine ⟨t, rfl, ?_, hend⟩
      constructor
      case forward =>
        intro hnone
        obtain ⟨n, hn, hpath⟩ := hinv.touched hglobal
        exact absurd hpath (hnone n hn)
      case global => exact fun _ => hglobal
      case backward =>
        intro hnone
        rw [hglobal] at hnone
        cases hnone
  | false =>
      have hstart : BackwardInv g t.curSlice (fun _ => False) t := by
        constructor
        case frame => rfl
        case reaches =>
          intro item hitem
          rw [hend] at hitem
          cases hitem
        case sound =>
          intro n hn
          rw [hinv.fresh.2] at hn
          cases hn
        case explored =>
          rintro n (hn | hn)
          · exact hn.elim
          · have hvisited : n ∈ t.visitedSet := hn
            rw [hinv.fresh.1] at hvisited
            cases hvisited
      obtain ⟨t', hrest, hback, hend'⟩ := backwardTraversals_spec
        (fun sink hsink => (C.mem_order t.curSlice.sinks sink).mp hsink) hstart hend hfuel'
      have hforward : t'.curSlice.forwardSlice = t.curSlice.forwardSlice := by rw [hback.frame]
      have hsinks : t'.curSlice.sinks = t.curSlice.sinks := by rw [hback.frame]
      refine ⟨t', hrest, ?_, hend'⟩
      constructor
      case forward =>
        intro _ n hn
        rw [hforward, hsinks]
        exact hinv.done hend hglobal hn
      case global =>
        rintro ⟨n, hn, hpath⟩
        have htrue := hinv.global hend hn hpath
        rw [hglobal] at htrue
        cases htrue
      case backward =>
        intro _ n
        rw [hforward, hsinks]
        constructor
        · exact hback.sound n
        · rintro ⟨hn, sink, hsink, hpath⟩
          have hstarted : (False ∨ sink ∈ C.order t.curSlice.sinks) ∨ sink ∈ (backwardView t').visited :=
            .inl (.inr ((C.mem_order _ _).mpr hsink))
          have hreached := hback.explored.reached hend' hstarted hpath.swap
          exact (hback.explored.finished hend' hreached).1 hn

/-- The slice of every source is complete. -/
theorem analyze_complete (g : SVFG Node) (C : Checker Node) (maximumCxtLen : ℕ) (sources : List Node) :
    ∃ enough, ∀ fuel ≥ enough, ∃ slices, analyze g C maximumCxtLen fuel sources .new = some slices ∧
      slices.map Prod.fst = sources ∧ ∀ p ∈ slices, Complete g C p.1 p.2 := by
  refine ⟨2 * (keys g maximumCxtLen).card + 2 * g.nodes.card + 1, fun fuel hfuel => ?_⟩
  have hrun : ∀ s : State Node, s.worklist = [] → ∃ slices, analyze g C maximumCxtLen fuel sources s = some slices ∧
      slices.map Prod.fst = sources ∧ ∀ p ∈ slices, Complete g C p.1 p.2 := by
    induction sources with
    | nil => exact fun s _ => ⟨[], rfl, rfl, List.forall_mem_nil _⟩
    | cons src sources ih =>
        intro s hempty
        obtain ⟨t, hsource, hcomplete, hend⟩ := analyzeSource_spec g C maximumCxtLen src hempty
          (show 2 * (keys g maximumCxtLen).card + 1 ≤ fuel by omega) (show 2 * g.nodes.card + 1 ≤ fuel by omega)
        obtain ⟨slices, hrest, hsources, hall⟩ := ih t hend
        refine ⟨(src, t.curSlice) :: slices, ?_, by rw [List.map_cons, hsources], ?_⟩
        · rw [analyze, hsource, Option.bind_some, hrest, Option.map_some]
        · rw [List.forall_mem_cons]
          exact ⟨hcomplete, hall⟩
  exact hrun .new rfl

def loopGraph : SVFG ℕ where
  nodes := {0, 1}
  outEdges n := if n = 0 then [⟨0, 0, .intra⟩, ⟨0, 1, .intra⟩] else []
  inEdges n := if n = 0 then [⟨0, 0, .intra⟩] else if n = 1 then [⟨0, 1, .intra⟩] else []
  src_eq n edge hedge := by
    split at hedge
    · simp only [List.mem_cons, List.not_mem_nil, or_false] at hedge
      rcases hedge with rfl | rfl
      · simp_all
      · simp_all
    · cases hedge
  mem_inEdges n edge := by
    obtain ⟨src, dst, kind⟩ := edge
    grind
  ends n edge hedge := by
    split at hedge
    · simp only [List.mem_cons, List.not_mem_nil, or_false] at hedge
      rcases hedge with rfl | rfl
      · simp_all
      · simp_all
    · cases hedge

def loopChecker : Checker ℕ := ⟨(· == 0), (· == 1), id, fun _ _ => .rfl⟩

/-- The edge back to a global source is taken for one to a global node, and the sink is not met. -/
theorem global_source_incomplete : ∃ slice, analyze loopGraph loopChecker 3 10 [0] .new = some [(0, slice)] ∧
    (∀ n, loopChecker.isGlobalSVFGNode n = true → n ≠ 0 → ¬ ReflTransGen loopGraph.Edge 0 n) ∧
    Reachable loopGraph 0 1 ∧ 1 ∉ slice.forwardSlice := by
  refine ⟨⟨[0], [], [], false, true⟩, rfl, ?_, ?_, by decide⟩
  · intro n hn hne
    exact absurd (beq_iff_eq.mp hn) hne
  · refine ⟨[], ReflTransGen.single ⟨⟨0, 1, .intra⟩, ?_, rfl, .intra []⟩⟩
    simp [loopGraph]

end SVF.SABER.SliceReachability
