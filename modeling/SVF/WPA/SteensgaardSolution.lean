import SVF.Util.Folds
import SVF.Util.Loops
import SVF.WPA.SteensgaardConstraints

namespace SVF.WPA.SteensgaardSolution

open Relation Graphs.ConsG Graphs.Registration Graphs.Retargeting Graphs.ReachableGraphs
open Util.OrderedSets
open Util.Representatives SteensgaardSolver SteensgaardSolver.Steensgaard
open SteensgaardClasses SteensgaardConstraints
open MemoryModel.PointsToSets (PointsTo mem_set mem_union ne_union_iff union_self notMem_empty)

variable {g : ConstraintGraph} {s t : Steensgaard}

structure Started (g : ConstraintGraph) (s : Steensgaard) : Prop where
  classes : s.nodeToECMap = fun _ => none
  subs : s.nodeToSubsMap = fun _ => []
  calls : s.calls = []
  pushed : ∀ k x, x ∈ s.ptD k → k ∈ s.worklist
  facts : ∀ k x, x ∈ s.ptD k → k ∈ ends g ∧ x ∈ ends g

theorem Started.getEC (h : Started g s) (n : NodeID) : s.getEC n = n := by
  rw [Steensgaard.getEC, h.classes]
  rfl

theorem Started.getPts (h : Started g s) (n : NodeID) : s.getPts n = s.ptD n := by
  rw [Steensgaard.getPts, h.getEC]

theorem addPts_eq (s : Steensgaard) (id ptd : NodeID) : s.addPts id ptd =
    ({ s with ptD := Function.update s.ptD id ((s.ptD id).set ptd) },
      decide (s.ptD id ≠ (s.ptD id).set ptd)) := rfl

theorem processAddr_eq (s : Steensgaard) (e : ConstraintEdge) : ∃ worklist, s.processAddr e =
      { s with
        ptD := Function.update s.ptD e.dst ((s.ptD e.dst).set e.src)
        worklist := worklist } ∧
    (worklist = s.worklist.insert (s.getEC e.dst) ∨
      worklist = s.worklist ∧ s.ptD e.dst = (s.ptD e.dst).set e.src) := by
  rw [processAddr, addPts_eq]
  by_cases h : s.ptD e.dst = (s.ptD e.dst).set e.src
  · rw [decide_eq_false (not_not.mpr h)]
    exact ⟨s.worklist, rfl, .inr ⟨rfl, h⟩⟩
  · rw [decide_eq_true h]
    exact ⟨_, rfl, .inl rfl⟩

theorem mem_ptD_processAddr (s : Steensgaard) (e : ConstraintEdge) (k x : NodeID) :
    x ∈ (s.processAddr e).ptD k ↔ x ∈ s.ptD k ∨ k = e.dst ∧ x = e.src := by
  obtain ⟨worklist, heq, -⟩ := processAddr_eq s e
  rw [heq]
  by_cases hk : k = e.dst
  · subst hk
    simp
  · simp [hk]

theorem started_processAddr (h : Started g s) {e : ConstraintEdge} (he : e ∈ edges g) :
    Started g (s.processAddr e) := by
  have hmem := mem_ptD_processAddr s e
  obtain ⟨worklist, heq, hworklist⟩ := processAddr_eq s e
  rw [heq] at hmem ⊢
  refine ⟨h.classes, h.subs, h.calls, ?_, ?_⟩
  · intro k x hx
    rcases hworklist with rfl | ⟨rfl, hsame⟩
    · rw [h.getEC]
      rcases (hmem k x).mp hx with hx | ⟨rfl, -⟩
      · exact List.mem_insert_of_mem (h.pushed k x hx)
      · exact List.mem_insert_self
    · rcases (hmem k x).mp hx with hx | ⟨rfl, rfl⟩
      · exact h.pushed k x hx
      · apply h.pushed e.dst e.src
        rw [hsame, mem_set]
        exact .inr rfl
  · intro k x hx
    rcases (hmem k x).mp hx with hx | ⟨rfl, rfl⟩
    · exact h.facts k x hx
    · exact ⟨dst_mem_ends he, src_mem_ends he⟩

def addrEdges (g : ConstraintGraph) : List ConstraintEdge :=
  g.IDToNodeMap.entries.flatMap fun node => (node.2.inEdges .address).elems

theorem processAllAddr_eq (s : Steensgaard) (g : ConstraintGraph) :
    s.processAllAddr g = (addrEdges g).foldl processAddr s := by
  rw [processAllAddr, addrEdges, List.foldl_flatMap]

theorem mem_addrEdges (hg : WellFormed g) (e : ConstraintEdge) :
    e ∈ addrEdges g ↔ e ∈ edges g ∧ e.cls.getEdgeKind = .Addr := by
  rw [addrEdges, List.mem_flatMap]
  constructor
  · rintro ⟨⟨n, node⟩, hnode, he⟩
    have hlookup := AList.mem_lookup_iff.mpr hnode
    obtain ⟨he, -, hkind⟩ := (hg.registered.inn n node hlookup .address e).mp he
    exact ⟨he, by simpa [holds] using hkind⟩
  · rintro ⟨he, hkind⟩
    obtain ⟨node, hlookup, -⟩ := getConstraintNode_end hg (hg.registered.dst e he)
    refine ⟨⟨e.dst, node⟩, AList.mem_lookup_iff.mp hlookup, ?_⟩
    exact (hg.registered.inn e.dst node hlookup .address e).mpr ⟨he, rfl, by rw [hkind]; rfl⟩

theorem started_start (hg : WellFormed g) (worklist : List NodeID) :
    Started g (start g worklist) := by
  rw [start, processAllAddr_eq]
  apply Util.Folds.foldl_invariant (I := Started g)
  · intro e he s h
    exact started_processAddr h ((mem_addrEdges hg e).mp he).1
  · exact ⟨rfl, rfl, rfl, fun _ x hx => absurd hx (notMem_empty x),
      fun _ x hx => absurd hx (notMem_empty x)⟩

theorem addr_foldl (l : List ConstraintEdge) (s : Steensgaard) (k x : NodeID) :
    x ∈ (l.foldl processAddr s).ptD k ↔ x ∈ s.ptD k ∨ ∃ e ∈ l, k = e.dst ∧ x = e.src := by
  induction l generalizing s with
  | nil => simp
  | cons e l ih =>
      rw [List.foldl_cons, ih, mem_ptD_processAddr]
      simp [or_assoc]

theorem start_addr (hg : WellFormed g) (worklist : List NodeID) {e : ConstraintEdge}
    (he : e ∈ edges g) (hkind : e.cls.getEdgeKind = .Addr) :
    e.src ∈ (start g worklist).getPts e.dst := by
  rw [(started_start hg worklist).getPts, start, processAllAddr_eq, addr_foldl]
  exact .inr ⟨e, (mem_addrEdges hg e).mpr ⟨he, hkind⟩, rfl, rfl⟩

structure Bounded (g : ConstraintGraph) (s : Steensgaard) : Prop where
  facts : ∀ k x, x ∈ s.ptD k → k ∈ ends g ∧ x ∈ ends g
  classes : ∀ n ∈ ends g, s.getEC n ∈ ends g
  calls : ∀ c ∈ s.calls, c.1 ∈ ends g ∧ c.2 ∈ ends g

theorem Started.bounded (h : Started g s) : Bounded g s where
  facts := h.facts
  classes n hn := by rwa [h.getEC]
  calls c hc := by
    rw [h.calls] at hc
    exact absurd hc List.not_mem_nil

theorem bounded_step (hg : WellFormed g) (h : Bounded g s) (hstep : Step g s t) : Bounded g t := by
  cases hstep with
  | pop n hn hcalls =>
      exact ⟨h.facts, h.classes, fun c hc => nodeCalls_ends hg (fun o ho => (h.facts _ o ho).2) hc⟩
  | union node ec rest hcalls =>
      have hends : node ∈ ends g ∧ ec ∈ ends g :=
        h.calls (node, ec) (by rw [hcalls]; exact List.mem_cons_self)
      refine ⟨fun k x hx => ?_, fun n hn => ?_, fun c hc => ?_⟩
      · rcases (mem_ptD_ecUnion _ node ec k x).mp hx with hx | ⟨hk, hx⟩
        · exact h.facts k x hx
        · rw [hk]
          exact ⟨h.classes ec hends.2, (h.facts _ x hx).2⟩
      · rw [getEC_ecUnion, moveRep]
        split
        · exact h.classes ec hends.2
        · exact h.classes n hn
      · rw [calls_ecUnion] at hc
        exact h.calls c (by rw [hcalls]; exact List.mem_cons_of_mem _ hc)

def missing (g : ConstraintGraph) (s : Steensgaard) : Set (NodeID × NodeID) :=
  {p | p ∈ ends g ×ˢ ends g ∧ p.2 ∉ s.ptD p.1}

/-- Facts still to be found, then nodes to be popped, then calls to be made. -/
noncomputable def rank (g : ConstraintGraph) (s : Steensgaard) : ℕ ×ₗ ℕ ×ₗ ℕ :=
  toLex ((missing g s).ncard, toLex (s.worklist.length, s.calls.length))

theorem missing_finite (g : ConstraintGraph) (s : Steensgaard) : (missing g s).Finite :=
  ((ends_finite g).prod (ends_finite g)).subset fun _ hp => hp.1

theorem missing_ecUnion_lt (h : Bounded g s) {node ec : NodeID} (hec : ec ∈ ends g)
    (hne : s.getPts ec ≠ s.getPts ec ∪ s.getPts node) :
    (missing g (s.ecUnion node ec)).ncard < (missing g s).ncard := by
  obtain ⟨x, hx, hnew⟩ := (ne_union_iff _ _).mp hne
  apply Set.ncard_lt_ncard _ (missing_finite g s)
  constructor
  · intro p hp
    exact ⟨hp.1, fun hmem => hp.2 ((mem_ptD_ecUnion s node ec p.1 p.2).mpr (.inl hmem))⟩
  · intro hsub
    have hold : (s.getEC ec, x) ∈ missing g s :=
      ⟨⟨h.classes ec hec, (h.facts _ x hx).2⟩, hnew⟩
    exact (hsub hold).2 ((mem_ptD_ecUnion s node ec _ x).mpr (.inr ⟨rfl, hx⟩))

theorem rank_step (h : Bounded g s) (hstep : Step g s t) : rank g t < rank g s := by
  cases hstep with
  | pop n hn hcalls =>
      apply Prod.Lex.toLex_lt_toLex.mpr
      refine .inr ⟨rfl, Prod.Lex.toLex_lt_toLex.mpr (.inl ?_)⟩
      have hpos := List.length_pos_of_mem hn
      simp only [popNode, List.length_erase_of_mem hn]
      omega
  | union node ec rest hcalls =>
      have hec : ec ∈ ends g := (h.calls (node, ec) (by rw [hcalls]; exact List.mem_cons_self)).2
      apply Prod.Lex.toLex_lt_toLex.mpr
      rcases worklist_ecUnion { s with calls := rest } node ec with ⟨-, hne⟩ | ⟨hsame, heq⟩
      · have hbounded : Bounded g { s with calls := rest } := ⟨h.facts, h.classes, fun c hc =>
          h.calls c (by rw [hcalls]; exact List.mem_cons_of_mem _ hc)⟩
        exact .inl (missing_ecUnion_lt hbounded hec hne)
      · right
        have hptD : ({ s with calls := rest }.ecUnion node ec).ptD = s.ptD := by
          rw [ptD_ecUnion, ← heq]
          exact Function.update_eq_self _ _
        constructor
        · simp only [missing, hptD]
        · apply Prod.Lex.toLex_lt_toLex.mpr
          right
          rw [hsame, calls_ecUnion, hcalls]
          exact ⟨rfl, Nat.lt_succ_self _⟩

theorem no_infinite_run (hg : WellFormed g) (worklist : List NodeID) :
    ¬ ∃ run : ℕ → Steensgaard, run 0 = start g worklist ∧ ∀ n, Step g (run n) (run (n + 1)) :=
  Util.Loops.no_infinite_run_of_lt (I := Bounded g) (m := rank g)
    (fun _ _ h hstep => ⟨bounded_step hg h hstep, rank_step h hstep⟩)
    (started_start hg worklist).bounded

theorem finished_or_step (g : ConstraintGraph) (s : Steensgaard) :
    Finished s ∨ ∃ t, Step g s t := by
  cases hcalls : s.calls with
  | cons c rest => exact .inr ⟨_, .union s c.1 c.2 rest hcalls⟩
  | nil =>
      cases hworklist : s.worklist with
      | nil => exact .inl ⟨hworklist, hcalls⟩
      | cons n l =>
          exact .inr ⟨_, .pop s n (by rw [hworklist]; exact List.mem_cons_self) hcalls⟩

section

/-- A call that a node asks for has nothing left to join or is still to come, or
the node points to nothing. -/
def Settled (s : Steensgaard) (n : NodeID) (c : NodeID × NodeID) : Prop :=
  s.getEC c.1 = s.getEC c.2 ∨ c ∈ s.calls ∨ (s.getEC n = n ∧ n ∈ s.worklist) ∨ s.getPts n = ∅

structure Inv (g : ConstraintGraph) (s : Steensgaard) : Prop where
  classes : Classes s
  addr : ∀ e ∈ edges g, e.cls.getEdgeKind = .Addr → e.src ∈ s.getPts e.dst
  settled : ∀ n, ∀ c ∈ nodeCalls g n (s.getPts n), Settled s n c

theorem inv_start (hg : WellFormed g) (worklist : List NodeID) : Inv g (start g worklist) := by
  have h := started_start hg worklist
  refine ⟨?_, fun e he hkind => start_addr hg worklist he hkind, fun n c hc => ?_⟩
  · have hec : (start g worklist).getEC = fun n => n := funext h.getEC
    rw [Classes, hec, h.subs]
    exact inverse_id
  · by_cases hempty : (start g worklist).getPts n = ∅
    · exact .inr (.inr (.inr hempty))
    · refine .inr (.inr (.inl ⟨h.getEC n, ?_⟩))
      by_contra hn
      apply hempty
      apply MemoryModel.PointsToSets.ext
      intro x
      refine iff_of_false (fun hx => ?_) (notMem_empty x)
      rw [h.getPts] at hx
      exact hn (h.pushed n x hx)

theorem inv_popNode (h : Inv g s) {n : NodeID} (hcalls : s.calls = []) :
    Inv g (s.popNode g n) := by
  refine ⟨h.classes, h.addr, fun m c hc => ?_⟩
  rcases h.settled m c hc with hjoined | hcall | ⟨hrep, hm⟩ | hempty
  · exact .inl hjoined
  · rw [hcalls] at hcall
    exact absurd hcall List.not_mem_nil
  · by_cases hmn : m = n
    · subst hmn
      right
      left
      change c ∈ nodeCalls g (s.getEC m) (s.getPts (s.getEC m))
      rw [hrep]
      exact hc
    · exact .inr (.inr (.inl ⟨hrep, (List.mem_erase_of_ne hmn).mpr hm⟩))
  · exact .inr (.inr (.inr hempty))

/-- The calls that the loop would make for a node that the union leaves without
its own turn have nothing left to join, or are still to come. -/
def Covered (g : ConstraintGraph) (s : Steensgaard) (node ec : NodeID)
    (rest : List (NodeID × NodeID)) : Prop :=
  s.getEC node ≠ s.getEC ec →
    ∀ n, mergedEC s node ec n = s.getEC ec → n ≠ s.getEC ec →
      ∀ c ∈ nodeCalls g n (s.getPts ec ∪ s.getPts node),
        mergedEC s node ec c.1 = mergedEC s node ec c.2 ∨ c ∈ rest ∨
          s.getPts ec ∪ s.getPts node = ∅

variable {node ec : NodeID} {rest : List (NodeID × NodeID)}

theorem settled_ecUnion (h : Inv g s) (hmove : Movable s node ec)
    (hcalls : s.calls = (node, ec) :: rest) {n : NodeID} {c : NodeID × NodeID}
    (hpts : ({ s with calls := rest }.ecUnion node ec).getPts n = s.getPts n)
    (hrep : s.getEC n = n → mergedEC s node ec n = n)
    (hc : c ∈ nodeCalls g n (({ s with calls := rest }.ecUnion node ec).getPts n)) :
    Settled ({ s with calls := rest }.ecUnion node ec) n c := by
  have hec : ∀ m, ({ s with calls := rest }.ecUnion node ec).getEC m = mergedEC s node ec m :=
    getEC_ecUnion_of_movable (s := { s with calls := rest }) h.classes hmove
  rw [Settled, hec, hec, hec, hpts, calls_ecUnion]
  rw [hpts] at hc
  rcases h.settled n c hc with hjoined | hcall | ⟨hn, hwork⟩ | hempty
  · exact .inl (mergedEC_congr hjoined)
  · rw [hcalls] at hcall
    rcases List.mem_cons.mp hcall with rfl | hcall
    · exact .inl (mergedEC_same s node ec)
    · exact .inr (.inl hcall)
  · refine .inr (.inr (.inl ⟨hrep hn, ?_⟩))
    rcases worklist_ecUnion { s with calls := rest } node ec with ⟨heq, -⟩ | ⟨heq, -⟩
    · rw [heq]
      exact List.mem_insert_of_mem hwork
    · rw [heq]
      exact hwork
  · exact .inr (.inr (.inr hempty))

theorem inv_ecUnion (h : Inv g s) (hcalls : s.calls = (node, ec) :: rest)
    (hmove : Movable s node ec) (hcov : Covered g s node ec rest) :
    Inv g ({ s with calls := rest }.ecUnion node ec) := by
  have hclasses : Classes { s with calls := rest } := h.classes
  have hec : ∀ m, ({ s with calls := rest }.ecUnion node ec).getEC m = mergedEC s node ec m :=
    getEC_ecUnion_of_movable hclasses hmove
  refine ⟨(classes_ecUnion_iff hclasses node ec).mpr hmove,
    fun e he hkind => getPts_ecUnion hclasses hmove (h.addr e he hkind), fun n c hc => ?_⟩
  by_cases hsame : s.getEC node = s.getEC ec
  · have hpts : ({ s with calls := rest }.ecUnion node ec).getPts n = s.getPts n := by
      have hunion : s.getPts ec ∪ s.getPts node = s.ptD (s.getEC ec) := by
        rw [getPts, getPts, hsame, union_self]
      rw [getPts, hec, mergedEC_of_eq hsame, ptD_ecUnion]
      change Function.update s.ptD (s.getEC ec) (s.getPts ec ∪ s.getPts node) (s.getEC n) = _
      rw [hunion, Function.update_eq_self]
      rfl
    apply settled_ecUnion h hmove hcalls hpts _ hc
    intro hn
    rw [mergedEC_of_eq hsame, hn]
  · by_cases hn : mergedEC s node ec n = s.getEC ec
    · have hpts : ({ s with calls := rest }.ecUnion node ec).getPts n =
          s.getPts ec ∪ s.getPts node := getPts_ecUnion_merged hclasses hmove hn
      by_cases hrep : n = s.getEC ec
      · rcases worklist_ecUnion { s with calls := rest } node ec with ⟨heq, -⟩ | ⟨-, heq⟩
        · -- The representative has something new and is pushed.
          refine .inr (.inr (.inl ⟨?_, ?_⟩))
          · rw [hec, hn, hrep]
          · rw [heq, hrep]
            exact List.mem_insert_self
        · apply settled_ecUnion h hmove hcalls _ _ hc
          · rw [hpts]
            change s.getPts ec = s.getPts ec ∪ s.getPts node at heq
            rw [← heq, hrep, getPts, getPts, h.classes.idem]
          · intro _
            rw [hn, hrep]
      · rw [hpts] at hc
        rw [Settled, hec, hec, hpts, calls_ecUnion]
        rcases hcov hsame n hn hrep c hc with hjoined | hcall | hempty
        · exact .inl hjoined
        · exact .inr (.inl hcall)
        · exact .inr (.inr (.inr hempty))
    · apply settled_ecUnion h hmove hcalls (getPts_ecUnion_of_ne hclasses hmove hn) _ hc
      intro hrep
      rw [mergedEC] at hn ⊢
      by_cases hnode : s.getEC n = s.getEC node
      · rw [if_pos hnode] at hn
        exact absurd rfl hn
      · rw [if_neg hnode, hrep]

end

def Safe (g : ConstraintGraph) (s : Steensgaard) : Prop :=
  ∀ node ec rest, s.calls = (node, ec) :: rest → Movable s node ec ∧ Covered g s node ec rest

def SafeStep (g : ConstraintGraph) (s t : Steensgaard) : Prop := Step g s t ∧ Safe g s

theorem inv_step (h : Inv g s) (hstep : SafeStep g s t) : Inv g t := by
  obtain ⟨hstep, hsafe⟩ := hstep
  cases hstep with
  | pop n hn hcalls => exact inv_popNode h hcalls
  | union node ec rest hcalls =>
      obtain ⟨hmove, hcov⟩ := hsafe node ec rest hcalls
      exact inv_ecUnion h hcalls hmove hcov

theorem inv_run (hg : WellFormed g) {worklist : List NodeID}
    (hrun : ReflTransGen (SafeStep g) (start g worklist) s) : Inv g s := by
  induction hrun with
  | refl => exact inv_start hg worklist
  | tail _ hstep ih => exact inv_step ih hstep

theorem Inv.constraints (hg : WellFormed g) (h : Inv g s) (hend : Finished s) :
    ∀ e ∈ edges g, ConstraintHolds s e := by
  apply constraints_of_calls hg h.addr
  intro n c hc
  rcases h.settled n c hc with hjoined | hcall | ⟨-, hwork⟩ | hempty
  · exact .inl hjoined
  · rw [hend.2] at hcall
    exact absurd hcall List.not_mem_nil
  · rw [hend.1] at hwork
    exact absurd hwork List.not_mem_nil
  · exact .inr hempty

def sample : ConstraintGraph :=
  let g := ((ConstraintGraph.empty.addConstraintNode 1).addConstraintNode 2).addConstraintNode 3
  let g := (g.addAddrCGEdge 3 1).getD g
  (g.addCopyCGEdge 1 2).getD g

theorem reachable_sample : Reachable sample := by
  have hnodes : Reachable
      (((ConstraintGraph.empty.addConstraintNode 1).addConstraintNode 2).addConstraintNode 3) := by
    apply Reachable.addConstraintNode _ 3
    · apply Reachable.addConstraintNode _ 2
      · exact .addConstraintNode _ 1 .empty rfl rfl
      · rfl
      · rfl
    · rfl
    · rfl
  have haddr := Reachable.addEdge _ _ .AddrCGEdge 3 1 hnodes rfl
  exact Reachable.addEdge _ _ .CopyCGEdge 1 2 haddr rfl

theorem safe_of_idle (h : s.calls = []) : Safe g s := by
  intro node ec rest hcalls
  rw [h] at hcalls
  contradiction

/-- The union of `1` with `2` brings along a node whose only constraint it settles. -/
theorem sample_safe : Safe sample ((start sample [1, 2, 3]).popNode sample 1) := by
  have hec : ∀ n, ((start sample [1, 2, 3]).popNode sample 1).getEC n = n :=
    (started_start reachable_sample.wellFormed [1, 2, 3]).getEC
  have hcalls : ((start sample [1, 2, 3]).popNode sample 1).calls = [(1, 2)] := by decide +kernel
  intro node ec rest h
  rw [hcalls] at h
  cases h
  refine ⟨⟨fun _ h => ?_, fun h => absurd (hec 1) h⟩, fun _ n hn hne c hc => ?_⟩
  · rw [hec] at h
    contradiction
  · left
    have hn1 : n = 1 := by
      rw [mergedEC, hec, hec, hec] at hn
      split at hn
      · assumption
      · rw [hec] at hne
        exact absurd hn hne
    subst hn1
    have hcall : c = (1, 2) := by
      have hpts : nodeCalls sample 1 (((start sample [1, 2, 3]).popNode sample 1).getPts 2 ∪
          ((start sample [1, 2, 3]).popNode sample 1).getPts 1) = [(1, 2)] := by decide +kernel
      rw [hpts] at hc
      exact List.mem_singleton.mp hc
    rw [hcall]
    exact mergedEC_same _ 1 2

theorem sample_run : ∃ s, ReflTransGen (SafeStep sample) (start sample [1, 2, 3]) s ∧ Finished s ∧
    3 ∈ s.getPts 1 := by
  let s₁ := (start sample [1, 2, 3]).popNode sample 1
  let s₂ := { s₁ with calls := [] }.ecUnion 1 2
  let s₃ := s₂.popNode sample 2
  have h₁ : SafeStep sample (start sample [1, 2, 3]) s₁ :=
    ⟨.pop _ 1 (by decide +kernel) (by decide +kernel), safe_of_idle (by decide +kernel)⟩
  have h₂ : SafeStep sample s₁ s₂ := ⟨.union s₁ 1 2 [] (by decide +kernel), sample_safe⟩
  have h₃ : SafeStep sample s₂ s₃ :=
    ⟨.pop _ 2 (by decide +kernel) (by decide +kernel), safe_of_idle (by decide +kernel)⟩
  have h₄ : SafeStep sample s₃ (s₃.popNode sample 3) :=
    ⟨.pop _ 3 (by decide +kernel) (by decide +kernel), safe_of_idle (by decide +kernel)⟩
  refine ⟨_, ((((ReflTransGen.refl.tail h₁).tail h₂).tail h₃).tail h₄), ⟨?_, ?_⟩, ?_⟩
  · decide +kernel
  · decide +kernel
  · decide +kernel

/-- The loop ends. In every run whose unions are all safe the classes stay as
they should be, and when the loop is left the constraints hold between them, so
that they cover the inclusion-based solution. -/
theorem solveWorklist_sound (hg : Reachable g) (worklist : List NodeID) :
    (¬ ∃ run : ℕ → Steensgaard, run 0 = start g worklist ∧ ∀ n, Step g (run n) (run (n + 1))) ∧
    (∀ s, Finished s ∨ ∃ t, Step g s t) ∧
    ∀ s, ReflTransGen (SafeStep g) (start g worklist) s →
      (∀ n, s.getEC (s.getEC n) = s.getEC n) ∧
      (∀ n m, s.getEC n = n → (m ∈ s.getSubNodes n ↔ s.getEC m = n)) ∧
      (Finished s → (∀ e ∈ edges g, ConstraintHolds s e) ∧
        ∀ field base, FieldsOf g field base → ∀ n x, Andersen g field n x →
          base x ∈ s.getPts (base n)) := by
  have hwf := hg.wellFormed
  refine ⟨no_infinite_run hwf worklist, finished_or_step g, fun s hrun => ?_⟩
  have hinv := inv_run hwf hrun
  refine ⟨hinv.classes.idem, fun n m hn => hinv.classes.mem_getSubNodes hn, fun hend => ?_⟩
  have hholds := hinv.constraints hwf hend
  exact ⟨hholds, fun field base hf n x hx => andersen_covered hholds hf hx⟩

theorem solveWorklist_sound_sample : ∃ s : Steensgaard, Finished s ∧ 3 ∈ s.getPts 2 := by
  obtain ⟨s, hrun, hend, h1⟩ := sample_run
  have hholds := ((solveWorklist_sound reachable_sample [1, 2, 3]).2.2 s hrun).2.2 hend
  exact ⟨s, hend, hholds.1 ⟨1, 2, .CopyCGEdge⟩ (by decide +kernel) 3 h1⟩

def lossy : ConstraintGraph :=
  let g := [1, 2, 3, 4, 5, 6].foldl ConstraintGraph.addConstraintNode .empty
  let g := (g.addAddrCGEdge 5 1).getD g
  let g := (g.addAddrCGEdge 6 4).getD g
  let g := (g.addCopyCGEdge 1 2).getD g
  let g := (g.addCopyCGEdge 2 1).getD g
  let g := (g.addCopyCGEdge 2 3).getD g
  (g.addCopyCGEdge 4 1).getD g

theorem reachable_lossy : Reachable lossy := by
  have hnodes : Reachable ([1, 2, 3, 4, 5, 6].foldl ConstraintGraph.addConstraintNode .empty) := by
    apply Reachable.addConstraintNode _ 6 _ rfl rfl
    apply Reachable.addConstraintNode _ 5 _ rfl rfl
    apply Reachable.addConstraintNode _ 4 _ rfl rfl
    apply Reachable.addConstraintNode _ 3 _ rfl rfl
    apply Reachable.addConstraintNode _ 2 _ rfl rfl
    exact .addConstraintNode _ 1 .empty rfl rfl
  have h₁ := Reachable.addEdge _ _ .AddrCGEdge 5 1 hnodes rfl
  have h₂ := Reachable.addEdge _ _ .AddrCGEdge 6 4 h₁ rfl
  have h₃ := Reachable.addEdge _ _ .CopyCGEdge 1 2 h₂ rfl
  have h₄ := Reachable.addEdge _ _ .CopyCGEdge 2 1 h₃ rfl
  have h₅ := Reachable.addEdge _ _ .CopyCGEdge 2 3 h₄ rfl
  exact Reachable.addEdge _ _ .CopyCGEdge 4 1 h₅ rfl

def next (g : ConstraintGraph) (s : Steensgaard) (n : NodeID) : Option Steensgaard :=
  match s.calls with
  | [] => if n ∈ s.worklist then some (s.popNode g n) else none
  | (node, ec) :: rest => some ({ s with calls := rest }.ecUnion node ec)

theorem next_step {n : NodeID} (h : next g s n = some t) : Step g s t := by
  rw [next] at h
  split at h
  · rename_i hcalls
    split at h
    · rename_i hn
      cases h
      exact .pop s n hn hcalls
    · contradiction
  · rename_i node ec rest hcalls
    cases h
    exact .union s node ec rest hcalls

theorem foldlM_next {l : List NodeID} (h : l.foldlM (next g) s = some t) :
    ReflTransGen (Step g) s t := by
  induction l generalizing s with
  | nil =>
      cases h
      exact .refl
  | cons n l ih =>
      obtain ⟨u, hu, h⟩ := Option.bind_eq_some_iff.mp h
      exact .head (next_step hu) (ih h)

/-- The union of `2` with `1`, which is of its class, takes the sub-nodes away from
`2`, and the union of `2` with `3` then leaves `1` behind. -/
theorem solveWorklist_lossy : Reachable lossy ∧ ∃ s : Steensgaard,
    ReflTransGen (Step lossy) (start lossy [1, 2, 3, 4, 5, 6]) s ∧ Finished s ∧
      s.getEC (s.getEC 1) ≠ s.getEC 1 ∧
      Andersen lossy (fun _ x => x) 3 6 ∧ 6 ∉ s.getPts 3 := by
  have hrun : ([1, 0, 2, 0, 0, 3, 4, 0, 5, 6, 2].foldlM (next lossy)
      (start lossy [1, 2, 3, 4, 5, 6])).map
        (fun s => (s.worklist, s.calls, s.getEC 1, s.getEC 2, (s.getPts 3).elems)) =
      some ([], [], 2, 3, [5]) := by decide +kernel
  obtain ⟨s, hs, hview⟩ := Option.map_eq_some_iff.mp hrun
  simp only [Prod.mk.injEq] at hview
  obtain ⟨hworklist, hcalls, h1, h2, h3⟩ := hview
  have hand₁ : Andersen lossy (fun _ x => x) 4 6 :=
    .addr (e := ⟨6, 4, .AddrCGEdge⟩) (by decide +kernel) rfl
  have hand₂ : Andersen lossy (fun _ x => x) 1 6 :=
    .copy (e := ⟨4, 1, .CopyCGEdge⟩) (by decide +kernel) rfl hand₁
  have hand₃ : Andersen lossy (fun _ x => x) 2 6 :=
    .copy (e := ⟨1, 2, .CopyCGEdge⟩) (by decide +kernel) rfl hand₂
  refine ⟨reachable_lossy, s, foldlM_next hs, ⟨hworklist, hcalls⟩, ?_, ?_, ?_⟩
  · rw [h1, h2]
    decide
  · exact .copy (e := ⟨2, 3, .CopyCGEdge⟩) (by decide +kernel) rfl hand₃
  · intro hmem
    rw [← mem_elems, h3] at hmem
    simp at hmem

end SVF.WPA.SteensgaardSolution
