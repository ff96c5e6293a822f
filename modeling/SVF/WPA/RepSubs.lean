import Mathlib.Data.List.Induction
import SVF.WPA.DiffPropagation

namespace SVF.WPA.RepSubs

open Graphs.ConsG Graphs.FieldObjects Graphs.Registration Graphs.Retargeting AndersenSolver DiffPropagation

variable {g : ConstraintGraph} {id n : NodeID}

/-- The assertion at its end, that the node has no constraint node, is not modelled. -/
def cleanConsCG (g : ConstraintGraph) (id : NodeID) : ConstraintGraph :=
  let (rep, g) := g.getRep id
  let g := g.resetSubs rep
  let g := (g.getSubs id).foldl ConstraintGraph.resetRep g
  (g.resetSubs id).resetRep id

/-- The loop body of `normalizePointsTo`; a node that is no field object, where
the source fails an assertion, is passed over. -/
def normalizeNode (s : Andersen) (n : NodeID) : Andersen :=
  match s.pag.gepObjVar n with
  | none => s
  | some (base, apOffset) =>
      { s with
        pag := { s.pag with
          nodes := s.pag.nodes.erase n
          gepObjVar := Function.update s.pag.gepObjVar n none
          GepObjVarMap := Function.update s.pag.GepObjVarMap base
            (Function.update (s.pag.GepObjVarMap base) apOffset none)
          memToFieldsMap := Function.update s.pag.memToFieldsMap base
            ((s.pag.memToFieldsMap base).filter (· ≠ n)) }
        consCG := cleanConsCG s.consCG n }

def normalizePointsTo (s : Andersen) : Andersen := s.redundantGepNodes.foldl normalizeNode s

/-- The claim on a state: representatives are fixed, and the sub nodes of one are
those that it represents. -/
structure Exact (g : ConstraintGraph) : Prop where
  rep : ∀ n, g.sccRepNode (g.sccRepNode n) = g.sccRepNode n
  subs : ∀ r, g.sccRepNode r = r → ∀ n, n ∈ g.sccSubNodes r ↔ g.sccRepNode n = r

/-- The invariant behind it: every set lists only nodes that its owner represents. -/
structure Grouped (g : ConstraintGraph) : Prop where
  rep_rep : ∀ n, g.sccRepNode (g.sccRepNode n) = g.sccRepNode n
  subs : ∀ n, g.sccRepNode n ≠ n → n ∈ g.nodeToSubsMap (g.sccRepNode n)
  sub_rep : ∀ r n, n ∈ g.nodeToSubsMap r → g.sccRepNode n = r

theorem Grouped.of_wellFormed (h : WellFormed g) : Grouped g := ⟨h.rep_rep, h.subs, h.sub_rep⟩

theorem Grouped.exact (h : Grouped g) : Exact g := by
  refine ⟨h.rep_rep, fun r hr n => ?_⟩
  rw [ConstraintGraph.sccSubNodes, List.mem_insert_iff]
  constructor
  · rintro (rfl | hn)
    · exact hr
    · exact h.sub_rep r n hn
  · intro hn
    by_cases heq : n = r
    · exact .inl heq
    · exact .inr (hn ▸ h.subs n (fun hself => heq (hself.symm.trans hn)))

def erased (g : ConstraintGraph) (id : NodeID) : NodeID := (g.nodeToRepMap id).getD 0

def Alone (g : ConstraintGraph) (id : NodeID) : Prop :=
  ∀ n, g.sccRepNode n = erased g id → n = erased g id ∨ n = id

theorem foldl_resetRep (l : List NodeID) (g : ConstraintGraph) :
    l.foldl ConstraintGraph.resetRep g =
      { g with nodeToRepMap := fun n => if n ∈ l then none else g.nodeToRepMap n } := by
  induction l generalizing g with
  | nil => simp
  | cons a l ih =>
      rw [List.foldl_cons, ih, ConstraintGraph.resetRep]
      congr 1
      funext n
      by_cases hn : n = a <;> by_cases hl : n ∈ l <;> simp [hn, hl]

def Released (g : ConstraintGraph) (id n : NodeID) : Prop :=
  n = id ∨ erased g id ≠ id ∧ n ∈ g.nodeToSubsMap id

instance (g : ConstraintGraph) (id n : NodeID) : Decidable (Released g id n) :=
  inferInstanceAs (Decidable (_ ∨ _))

theorem sccRepNode_cleanConsCG (g : ConstraintGraph) (id n : NodeID) :
    (cleanConsCG g id).sccRepNode n = if Released g id n then n else g.sccRepNode n := by
  unfold cleanConsCG Released
  simp only [foldl_resetRep, ConstraintGraph.getRep, ConstraintGraph.resetSubs, ConstraintGraph.getSubs,
    ConstraintGraph.resetRep, ConstraintGraph.sccRepNode, Function.update_apply]
  change (if n = id then none else if n ∈ (if id = erased g id then [] else g.nodeToSubsMap id) then none
    else if n = id then some (erased g id) else g.nodeToRepMap n).getD n = _
  by_cases hn : n = id
  · simp [hn]
  · by_cases he : id = erased g id
    · simp [hn, ← he]
    · by_cases hm : n ∈ g.nodeToSubsMap id <;> simp [hn, he, Ne.symm he, hm]

theorem nodeToSubsMap_cleanConsCG (g : ConstraintGraph) (id r : NodeID) :
    (cleanConsCG g id).nodeToSubsMap r =
      if r = id ∨ r = erased g id then [] else g.nodeToSubsMap r := by
  unfold cleanConsCG
  simp only [foldl_resetRep, ConstraintGraph.getRep, ConstraintGraph.resetSubs, ConstraintGraph.resetRep,
    Function.update_apply]
  change (if r = id then [] else if r = erased g id then [] else g.nodeToSubsMap r) = _
  by_cases hr : r = id <;> by_cases he : r = erased g id <;> simp [hr, he]

theorem sccRepNode_of_released (h : Released g id n) : (cleanConsCG g id).sccRepNode n = n := by
  rw [sccRepNode_cleanConsCG, if_pos h]

theorem sccRepNode_of_not_released (h : ¬ Released g id n) :
    (cleanConsCG g id).sccRepNode n = g.sccRepNode n := by
  rw [sccRepNode_cleanConsCG, if_neg h]

theorem mem_subs_cleanConsCG (r : NodeID) : n ∈ (cleanConsCG g id).nodeToSubsMap r ↔
    r ≠ id ∧ r ≠ erased g id ∧ n ∈ g.nodeToSubsMap r := by
  rw [nodeToSubsMap_cleanConsCG]
  by_cases hr : r = id <;> by_cases he : r = erased g id <;> simp [hr, he]

theorem sccRepNode_eq_erased (h : g.sccRepNode id ≠ id) : g.sccRepNode id = erased g id := by
  rw [ConstraintGraph.sccRepNode] at h ⊢
  rw [erased]
  cases hid : g.nodeToRepMap id with
  | none =>
      rw [hid] at h
      exact absurd rfl h
  | some r => rfl

theorem rep_rep_cleanConsCG (h : Grouped g) (id n : NodeID) :
    (cleanConsCG g id).sccRepNode ((cleanConsCG g id).sccRepNode n) = (cleanConsCG g id).sccRepNode n := by
  by_cases hn : Released g id n
  · rw [sccRepNode_of_released hn, sccRepNode_of_released hn]
  · rw [sccRepNode_of_not_released hn]
    by_cases hr : Released g id (g.sccRepNode n)
    · exact sccRepNode_of_released hr
    · rw [sccRepNode_of_not_released hr, h.rep_rep]

theorem Grouped.cleanConsCG (h : Grouped g) (halone : Alone g id) : Grouped (cleanConsCG g id) := by
  refine ⟨rep_rep_cleanConsCG h id, ?_, ?_⟩
  · intro n hn
    have hnot : ¬ Released g id n := fun hrel => hn (sccRepNode_of_released hrel)
    rw [sccRepNode_of_not_released hnot] at hn ⊢
    have hmem := h.subs n hn
    have hne : g.sccRepNode n ≠ erased g id := by
      intro heq
      rcases halone n heq with rfl | rfl
      · exact hn heq
      · exact hnot (.inl rfl)
    refine (mem_subs_cleanConsCG _).mpr ⟨?_, hne, hmem⟩
    intro hid
    rw [hid] at hmem hne
    exact hnot (.inr ⟨hne.symm, hmem⟩)
  · intro r n hn
    obtain ⟨hid, he, hmem⟩ := (mem_subs_cleanConsCG r).mp hn
    have hrep := h.sub_rep r n hmem
    rw [sccRepNode_of_not_released, hrep]
    rintro (rfl | ⟨-, hsub⟩)
    · exact he (hrep ▸ sccRepNode_eq_erased (hrep ▸ hid))
    · exact hid (hrep.symm.trans (h.sub_rep id n hsub))

theorem alone_of_exact (h : Grouped g) (hexact : Exact (cleanConsCG g id)) : Alone g id := by
  intro n hn
  by_contra hne
  rw [not_or] at hne
  have hnot : ¬ Released g id n := by
    rintro (rfl | ⟨he, hsub⟩)
    · exact hne.2 rfl
    · exact he (hn.symm.trans (h.sub_rep id n hsub))
  have hfix : g.sccRepNode (erased g id) = erased g id := by
    have hrep := h.rep_rep n
    rwa [hn] at hrep
  have hrep : (cleanConsCG g id).sccRepNode (erased g id) = erased g id := by
    by_cases hrel : Released g id (erased g id)
    · exact sccRepNode_of_released hrel
    · rw [sccRepNode_of_not_released hrel, hfix]
  have hmem := (hexact.subs _ hrep n).mpr ((sccRepNode_of_not_released hnot).trans hn)
  rw [ConstraintGraph.sccSubNodes, List.mem_insert_iff] at hmem
  rcases hmem with heq | hmem
  · exact hne.1 heq
  · exact ((mem_subs_cleanConsCG _).mp hmem).2.1 rfl

theorem exact_cleanConsCG_iff (h : Grouped g) (id : NodeID) :
    Exact (cleanConsCG g id) ↔ Alone g id :=
  ⟨alone_of_exact h, fun halone => (h.cleanConsCG halone).exact⟩

section

variable {opts : Options} {alloc : NodeIDAllocator} {s : Andersen}

/-- The states of the analysis: while it is solved, and while the field objects
that became redundant are cleaned up, each clean-up meeting `P`. -/
inductive Run (opts : Options) (alloc : NodeIDAllocator) (P : Andersen → NodeID → Prop) : Andersen → Prop
  | solving (s : Andersen) (h : Reachable opts alloc s) : Run opts alloc P s
  | normalize (s : Andersen) (n : NodeID) (h : Run opts alloc P s) (hn : n ∈ s.redundantGepNodes)
      (hP : P s n) : Run opts alloc P (normalizeNode s n)

theorem Run.grouped (h : Run opts alloc (fun s n => Alone s.consCG n) s) : Grouped s.consCG := by
  induction h with
  | solving s h => exact .of_wellFormed h.sound.basic.graph
  | normalize s n _ _ halone ih =>
      unfold normalizeNode
      split
      · exact ih
      · exact ih.cleanConsCG halone

theorem run_normalizePointsTo {P : Andersen → NodeID → Prop} (h : Run opts alloc P s)
    (hP : ∀ done n, done ++ [n] <+: s.redundantGepNodes → P (done.foldl normalizeNode s) n) :
    Run opts alloc P (normalizePointsTo s) := by
  have hset : ∀ (l : List NodeID) (t : Andersen),
      (l.foldl normalizeNode t).redundantGepNodes = t.redundantGepNodes := by
    intro l
    induction l with
    | nil => exact fun t => rfl
    | cons n l ih =>
        intro t
        rw [List.foldl_cons, ih, normalizeNode]
        split <;> rfl
  have hprefix : ∀ l, l <+: s.redundantGepNodes → Run opts alloc P (l.foldl normalizeNode s) := by
    intro l
    induction l using List.reverseRecOn with
    | nil => exact fun _ => h
    | append_singleton done n ih =>
        intro hl
        have hdone := ih ((List.prefix_append done [n]).trans hl)
        rw [List.foldl_append]
        apply Run.normalize _ n hdone
        · rw [hset]
          exact hl.subset (by simp)
        · exact hP done n hl
  exact hprefix _ List.prefix_rfl

/-- In every state the representatives and the sub nodes agree, when each
clean-up erases the sub nodes of a node that represents no other; another
clean-up makes them disagree. -/
theorem run_exact (h : Run opts alloc (fun s n => Alone s.consCG n) s) :
    Exact s.consCG ∧ ∀ n, Exact (cleanConsCG s.consCG n) ↔ Alone s.consCG n :=
  ⟨h.grouped.exact, exact_cleanConsCG_iff h.grouped⟩

theorem alone_sampleCollapsed : Alone sampleCollapsed.consCG 10 := by
  have hgrouped := Grouped.of_wellFormed reachable_sampleCollapsed.sound.basic.graph
  have herased : erased sampleCollapsed.consCG 10 = 4 := by decide +kernel
  have hsubs : sampleCollapsed.consCG.sccSubNodes 4 = [4, 10] := by decide +kernel
  have hrep : sampleCollapsed.consCG.sccRepNode 4 = 4 := by decide +kernel
  generalize sampleCollapsed.consCG = g at *
  intro m hm
  rw [herased] at hm ⊢
  have hmem := (hgrouped.exact.subs 4 hrep m).mpr hm
  rw [hsubs] at hmem
  simpa using hmem

theorem run_exact_sample : Exact (normalizePointsTo sampleCollapsed).consCG := by
  have hrun : Run sampleOptions allocateNext (fun s n => Alone s.consCG n)
      (normalizePointsTo sampleCollapsed) := by
    have hset : sampleCollapsed.redundantGepNodes = [10] := by decide +kernel
    apply run_normalizePointsTo (.solving _ reachable_sampleCollapsed)
    intro done n hprefix
    rw [hset] at hprefix
    obtain ⟨rfl, rfl⟩ : done = [] ∧ n = 10 := by
      obtain ⟨rest, hrest⟩ := hprefix
      cases done with
      | nil =>
          obtain ⟨rfl, -⟩ : n = 10 ∧ rest = [] := by simpa using hrest
          exact ⟨rfl, rfl⟩
      | cons a done => simp at hrest
    rw [List.foldl_nil]
    exact alone_sampleCollapsed
  exact (run_exact hrun).1

def addEdges (g : ConstraintGraph) (es : List (EdgeClass × NodeID × NodeID)) : ConstraintGraph :=
  es.foldl (fun g e => (addEdge g e.1 e.2.1 e.2.2).getD g) g

theorem reachable_addEdges (es : List (EdgeClass × NodeID × NodeID))
    (hg : Graphs.ReachableGraphs.Reachable g) : Graphs.ReachableGraphs.Reachable (addEdges g es) := by
  induction es generalizing g with
  | nil => exact hg
  | cons e es ih =>
      rw [addEdges, List.foldl_cons]
      apply ih
      cases hadd : addEdge g e.1 e.2.1 e.2.2 with
      | none => exact hg
      | some g' => exact .addEdge g g' _ _ _ hg hadd

/-- `p = &o` and `v = &o`, `q = &p->f`, `r = *p`, `*p = r`, and a variant gep from `v`. -/
def cycleGraph : ConstraintGraph :=
  addEdges ([4, 5, 6, 7, 8, 9].foldl ConstraintGraph.addConstraintNode .empty)
    [(.AddrCGEdge, 4, 5), (.AddrCGEdge, 4, 8), (.NormalGepCGEdge ⟨1⟩, 5, 6), (.LoadCGEdge 0, 5, 7),
      (.StoreCGEdge 0, 7, 5), (.VariantGepCGEdge, 8, 9)]

def cycleStart : Andersen := ⟨sampleObjects, cycleGraph, .empty, [], false, []⟩

/-- `r` and `o` are on a copy cycle and merged; then the field of `o` is added. -/
def cycleMerged : Andersen :=
  let s := cycleStart.processAllAddr
  let s := s.postProcessNode 5
  let s := s.mergeNodeToRep 7 4
  let s := s.processNode sampleOptions allocateNext 5
  s.processNode sampleOptions allocateNext 8

def cycleCollapsed : Andersen := (cycleMerged.collapseNextField 1).getD cycleMerged

theorem reachable_cycleCollapsed : Reachable sampleOptions allocateNext cycleCollapsed := by
  have hstart : Reachable sampleOptions allocateNext cycleStart.processAllAddr := by
    apply Reachable.start cycleStart (reachable_addEdges _ reachable_sampleNodes)
    · exact sampleObjects_consistent
    · rfl
    · have hsrcs : (cycleGraph.edgeSets .AddrCGEdgeSet).elems.map ConstraintEdge.src = [4, 4] := by
        decide +kernel
      exact addr_src_mem hsrcs (by decide)
  have hcycle := hstart.step _ _ (.postProcessNode _ 5)
  have hmerged := hcycle.step _ _ (.mergeNodeToRep _ 7 4 (by decide +kernel) (by decide +kernel))
  have hprocessed : Reachable sampleOptions allocateNext cycleMerged :=
    .step _ _ (.step _ _ hmerged (.processNode _ 5)) (.processNode _ 8)
  have hsome : (cycleMerged.collapseNextField 1).isSome = true := by decide +kernel
  obtain ⟨t, ht⟩ := Option.isSome_iff_exists.mp hsome
  rw [cycleCollapsed, ht]
  exact .step _ _ hprocessed (.collapseNextField _ _ 1 ht)

/-- The clean-up of the field of `o` erases that `o` represents `r`. -/
theorem normalized_not_exact : ¬ ∀ opts alloc s, Run opts alloc (fun _ _ => True) s → Exact s.consCG := by
  intro h
  have hrun : Run sampleOptions allocateNext (fun _ _ => True) (normalizePointsTo cycleCollapsed) :=
    run_normalizePointsTo (.solving _ reachable_cycleCollapsed) (fun _ _ _ => trivial)
  have hexact := (h sampleOptions allocateNext _ hrun).subs 4 (by decide +kernel) 7
  have hrep : (normalizePointsTo cycleCollapsed).consCG.sccRepNode 7 = 4 := by decide +kernel
  have hsubs : 7 ∉ (normalizePointsTo cycleCollapsed).consCG.sccSubNodes 4 := by decide +kernel
  exact hsubs (hexact.mpr hrep)

end

end SVF.WPA.RepSubs
