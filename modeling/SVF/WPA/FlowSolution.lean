import SVF.MemoryModel.DataFlowStores
import SVF.WPA.FlowInvariant

namespace SVF.WPA.FlowSolution

open Graphs.ConsG Graphs.FieldObjects Graphs.FieldLookup Graphs.ValueFlowGraph
open MemoryModel.DataFlowPTData MemoryModel.LawfulPTData MemoryModel.DataFlowStores
open FlowSensitiveSolver FlowObjects FlowStep FlowPropagation FlowInvariant Util.Folds Relation
open FlowEquations (NodeClosed EdgeClosed Satisfies FactOver)

section

variable {D : Type} [DFPTData D] {inp : Input}

omit [DFPTData D] in
theorem initWorklist_eq (s : FlowSensitive D) :
    ∃ l, s.initWorklist inp = { s with worklist := l } ∧ inp.svfg.nodes ⊆ l ∧
      ∀ x ∈ l, x ∈ s.worklist ∨ x ∈ inp.svfg.nodes := by
  have hfold : ∀ (ids : List NodeID) (t : FlowSensitive D),
      ∃ l, ids.foldl (fun s id => s.pushIntoWorklist id) t = { t with worklist := l } ∧
        ids ⊆ l ∧ t.worklist ⊆ l ∧ ∀ x ∈ l, x ∈ t.worklist ∨ x ∈ ids := by
    intro ids
    induction ids with
    | nil => exact fun t => ⟨t.worklist, rfl, by simp, fun _ h => h, fun _ => .inl⟩
    | cons id ids ih =>
        intro t
        obtain ⟨l, heq, hmem⟩ := pushIntoWorklist_eq (s := t)
        obtain ⟨l', heq', hids, hkeep, hback⟩ := ih { t with worklist := l }
        refine ⟨l', ?_, ?_, fun x hx => hkeep ((hmem x).mpr (.inl hx)), fun x hx => ?_⟩
        · rw [List.foldl_cons, heq, heq']
        · exact List.cons_subset.mpr ⟨hkeep ((hmem id).mpr (.inr rfl)), hids⟩
        · rcases hback x hx with hx | hx
          · exact ((hmem x).mp hx).imp_right (fun hx => by rw [hx]; exact List.mem_cons_self)
          · exact .inr (List.mem_cons_of_mem id hx)
  obtain ⟨l, heq, hids, -, hback⟩ := hfold inp.svfg.nodes s
  exact ⟨l, heq, hids, hback⟩

theorem initial_eq (pag : SVFIR) : ∃ l, (initial inp pag : FlowSensitive D) =
    ⟨pag, DFPTData.empty, l⟩ ∧ inp.svfg.nodes ⊆ l ∧ l ⊆ inp.svfg.nodes := by
  obtain ⟨l, heq, hids, hback⟩ := initWorklist_eq (⟨pag, DFPTData.empty, []⟩ :
    FlowSensitive D)
  exact ⟨l, heq, hids, fun x hx => (hback x hx).resolve_left List.not_mem_nil⟩

end

section

variable {D : Type} [DFPTData D] [UpdatedVars D] [LawfulDFPTData D] {inp inp' : Input}
  {pag : SVFIR} {s t : FlowSensitive D}

theorem inv_initial (hwf : WellFormed inp.svfg pag) (hsound : Sound pag) :
    Inv inp (initial inp pag : FlowSensitive D) := by
  obtain ⟨l, heq, hnodes, hback⟩ := initial_eq (D := D) pag
  have hempty : facts (DFPTData.empty : D) = ∅ := LawfulDFPTData.facts_empty
  rw [heq]
  refine ⟨⟨hwf, hsound, ?_, fun n v x hx => ?_⟩, hback, fun e he hstore => ?_,
    fun n hn hmem => absurd (hnodes hn) hmem⟩
  · rw [hempty]
    exact fun f hf => hf.elim
  · rw [hempty] at hx
    exact hx.elim
  · rw [hempty]
    rw [EdgeClosed]
    cases e.kind with
    | direct =>
        simp only
        split
        · exact fun o ho => ho.elim
        · exact fun o ho => ho.elim
        · trivial
    | indirect pts => exact fun c hc v hv x hx => hx.elim

theorem inv_steps (h : Inv inp s) (hrun : ReflTransGen (Step inp) s t)
    (hfix : t.pag.maxFieldOffsetLimit = s.pag.maxFieldOffsetLimit) :
    Inv inp t ∧ Grown s.pag t.pag := by
  have hshrinks : ∀ {a b : FlowSensitive D}, ReflTransGen (Step inp) a b →
      Shrinks a.pag.maxFieldOffsetLimit b.pag.maxFieldOffsetLimit := by
    intro a b hab
    induction hab with
    | refl => exact fun _ => .inl rfl
    | tail _ hst ih => exact ih.trans (step_shrinks hst)
  induction hrun with
  | refl => exact ⟨h, Grown.refl s.pag⟩
  | tail hrun hst ih =>
      have hmid := (hshrinks hrun).between (step_shrinks hst) hfix
      obtain ⟨hinv, hgrown⟩ := ih hmid
      obtain ⟨hinv', hgrown'⟩ := hinv.step hst (hfix.trans hmid.symm)
      exact ⟨hinv', hgrown.trans hgrown'⟩

omit [LawfulDFPTData D] in
theorem inv_satisfies (h : Inv inp s) (hempty : s.worklist = []) :
    Satisfies (pagObjects inp s.pag) inp.svfg (facts s.ptD) := by
  have hsettled : ∀ n ∈ inp.svfg.nodes, Settled inp s.pag (facts s.ptD) n := by
    intro n hn
    refine (h.settled n hn (by simp [hempty])).resolve_right ?_
    rintro ⟨d, hd, -⟩
    simp [hempty] at hd
  refine ⟨fun n hn => (hsettled n hn).1, fun e he => ?_⟩
  cases hstore : (inp.svfg.node e.src).isStore with
  | true => exact h.stored e he hstore
  | false => exact (hsettled e.src (h.wellFormed.src e he)).2 e he rfl hstore

end

def runNodes {D : Type} [DFPTData D] (inp : Input) :
    List NodeID → FlowSensitive D → Option (FlowSensitive D)
  | [], s => some s
  | id :: ids, s =>
      if id ∈ s.worklist then runNodes inp ids ((s.popFromWorklist id).processNode inp id) else none

theorem runNodes_steps {D : Type} [DFPTData D] {inp : Input} {ids : List NodeID}
    {s t : FlowSensitive D} (h : runNodes inp ids s = some t) : ReflTransGen (Step inp) s t := by
  induction ids generalizing s with
  | nil =>
      cases h
      exact .refl
  | cons id ids ih =>
      rw [runNodes] at h
      split at h
      · rename_i hid
        exact .head (.node hid) (ih h)
      · contradiction

def samplePag : SVFIR where
  nodes := [0, 1, 2, 3, 20, 21]
  gepObjVar _ := none
  GepObjVarMap _ _ := none
  memToFieldsMap _ := []
  maxFieldOffsetLimit _ := 1
  isConstDataOrConstGlobal _ := false
  isPointer _ := true

def sampleGraph : SVFG where
  nodes := [0, 1, 2, 3]
  node
    | 0 => .addr 10 20
    | 1 => .addr 11 21
    | 2 => .store 10 11
    | 3 => .load 12 10
    | _ => .other
  edges := [⟨0, 2, .direct⟩, ⟨0, 3, .direct⟩, ⟨1, 2, .direct⟩, ⟨2, 3, .indirect (.set ∅ 20)⟩]

def sampleInput : Input where
  opts := ⟨10, false, false⟩
  alloc := allocateNext
  svfg := sampleGraph
  isHeapMemObj _ := false
  isArrayMemObj _ := false
  isLocalVarInRecursiveFun _ := false

theorem samplePag_sound : Sound samplePag where
  consistent := ⟨fun _ _ _ h => (by cases h), fun _ _ _ h => (by cases h),
    fun _ _ _ h => (by cases h), fun _ _ _ h => (by cases h),
    fun _ _ h => absurd h List.not_mem_nil⟩
  unique _ _ _ h := by cases h
  fieldNode _ _ h := absurd h List.not_mem_nil
  blackHole := ⟨by decide, rfl⟩
  constantObj := ⟨by decide, rfl⟩

theorem sampleGraph_wellFormed : WellFormed sampleGraph samplePag where
  src := by decide
  dst := by decide
  defUse := by
    simp [sampleGraph, SVFGNode.def?, SVFGNode.uses]
  indirect e he pts hkind := by
    simp only [sampleGraph, List.mem_cons, List.not_mem_nil, or_false] at he
    rcases he with rfl | rfl | rfl | rfl
    · cases hkind
    · cases hkind
    · cases hkind
    · exact .inl rfl
  loaded _ _ _ _ _ := rfl
  stored _ _ _ _ _ := rfl
  object n hn dst src hnode := by
    simp only [sampleGraph, List.mem_cons, List.not_mem_nil, or_false] at hn
    rcases hn with rfl | rfl | rfl | rfl <;> cases hnode <;> decide
  label e he pts hkind c hc := by
    simp only [sampleGraph, List.mem_cons, List.not_mem_nil, or_false] at he
    rcases he with rfl | rfl | rfl | rfl <;> cases hkind
    obtain rfl : c = 20 := by simpa using hc
    decide

theorem sample_pag {D : Type} [DFPTData D] {s t : FlowSensitive D} (h : Step sampleInput s t) :
    t.pag = s.pag := by
  cases h with
  | @node n _ =>
      rw [pag_processNode]
      refine pag_processSVFGNode (s.popFromWorklist n) (fun dst src idx hnode => ?_)
      change sampleGraph.node n = _ at hnode
      unfold sampleGraph at hnode
      simp only at hnode
      split at hnode <;> cases hnode

theorem sample_run (D : Type) [DFPTData D]
    (h : (runNodes sampleInput [0, 1, 3, 2, 3] (initial sampleInput samplePag : FlowSensitive D)).map
      (·.worklist) = some []) :
    ∃ s : FlowSensitive D, ReflTransGen (Step sampleInput) (initial sampleInput samplePag) s ∧
      s.pag = samplePag ∧ s.worklist = [] := by
  obtain ⟨s, hs, hempty⟩ := Option.map_eq_some_iff.mp h
  refine ⟨s, runNodes_steps hs, ?_, hempty⟩
  obtain ⟨l, heq, -⟩ := initial_eq (D := D) samplePag
  have hsteps := runNodes_steps hs
  rw [heq] at hsteps
  clear hs hempty h heq
  induction hsteps with
  | refl => rfl
  | tail _ hst ih => exact (sample_pag hst).trans ih

/-- When the worklist is empty, the sets satisfy every equation, whatever the
order in which it has handed out the nodes. -/
theorem solveWorklist_satisfies {inp : Input} {pag : SVFIR} (hwf : WellFormed inp.svfg pag)
    (hsound : Sound pag) {s : FlowSensitive MutableIncDFPTData}
    (hrun : ReflTransGen (Step inp) (initial inp pag) s)
    (hfix : s.pag.maxFieldOffsetLimit = pag.maxFieldOffsetLimit) (hempty : s.worklist = []) :
    Satisfies (pagObjects inp s.pag) inp.svfg (facts s.ptD) := by
  have hinv := inv_initial (D := MutableIncDFPTData) hwf hsound
  obtain ⟨l, heq, -⟩ := initial_eq (D := MutableIncDFPTData) pag
  have hpag : (initial inp pag : FlowSensitive MutableIncDFPTData).pag = pag := by rw [heq]
  rw [← hpag] at hfix
  exact inv_satisfies (inv_steps hinv hrun hfix).1 hempty

theorem sample_satisfies : ∃ s : FlowSensitive MutableIncDFPTData,
    s.worklist = [] ∧ Satisfies (pagObjects sampleInput s.pag) sampleInput.svfg (facts s.ptD) := by
  obtain ⟨s, hrun, hpag, hempty⟩ := sample_run MutableIncDFPTData (by decide +kernel)
  exact ⟨s, hempty, solveWorklist_satisfies sampleGraph_wellFormed samplePag_sound hrun
    (by rw [hpag]) hempty⟩

end SVF.WPA.FlowSolution
