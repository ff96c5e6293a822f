import SVF.MSSA.ModRef

namespace SVF.MSSA.ModRefFixpoint

open Relation ModRef ModRef.MRGenerator

variable {mr : MRGenerator} {s t : ModRefState} {c : Call} {n : NodeID} {o : NodeID}

def newMods (mr : MRGenerator) (s : ModRefState) (c : Call) : Finset NodeID :=
  mr.passed (mr.getCallSiteArgsPts c.cs ∪ mr.getCallSiteRetPts c.cs) (mr.calleeMod s c.cs c.callee)

def newRefs (mr : MRGenerator) (s : ModRefState) (c : Call) : Finset NodeID :=
  mr.passed (mr.getCallSiteArgsPts c.cs) (mr.calleeRef s c.cs c.callee)

theorem mods_handleCall (s : ModRefState) (c : Call) : (mr.handleCall s c).mods =
    (mr.addModSideEffectOfCallSite s.mods c.cs (mr.calleeMod s c.cs c.callee)).1 := by
  rw [handleCall]
  dsimp only
  split <;> rfl

theorem refs_handleCall (s : ModRefState) (c : Call) : (mr.handleCall s c).refs =
    (mr.addRefSideEffectOfCallSite s.refs c.cs (mr.calleeRef s c.cs c.callee)).1 := by
  rw [handleCall]
  dsimp only
  split <;> rfl

theorem subNodes_handleCall (s : ModRefState) (c : Call) :
    (mr.handleCall s c).subNodes = s.subNodes := by
  rw [handleCall]
  dsimp only
  split <;> rfl

theorem calls_handleCall (s : ModRefState) (c : Call) : (mr.handleCall s c).calls = s.calls := by
  rw [handleCall]
  dsimp only
  split <;> rfl

theorem mem_mods_ofCallSite {cs : CallICFGNode} : o ∈ (mr.handleCall s c).mods.ofCallSite cs ↔
    o ∈ s.mods.ofCallSite cs ∨ cs = c.cs ∧ o ∈ newMods mr s c := by
  rw [mods_handleCall]
  exact mem_ofCallSite_add mr

theorem mem_refs_ofCallSite {cs : CallICFGNode} : o ∈ (mr.handleCall s c).refs.ofCallSite cs ↔
    o ∈ s.refs.ofCallSite cs ∨ cs = c.cs ∧ o ∈ newRefs mr s c := by
  rw [refs_handleCall]
  exact mem_ofCallSite_add mr

theorem mem_mods_ofFunction {f : NodeID} : o ∈ (mr.handleCall s c).mods.ofFunction f ↔
    o ∈ s.mods.ofFunction f ∨ f = mr.callGraph.getCaller c.cs ∧ o ∈ newMods mr s c ∧
      mr.isNonLocalObject o f = true := by
  rw [mods_handleCall]
  exact mem_ofFunction_add mr

theorem mem_refs_ofFunction {f : NodeID} : o ∈ (mr.handleCall s c).refs.ofFunction f ↔
    o ∈ s.refs.ofFunction f ∨ f = mr.callGraph.getCaller c.cs ∧ o ∈ newRefs mr s c ∧
      mr.isNonLocalObject o f = true := by
  rw [refs_handleCall]
  exact mem_ofFunction_add mr

theorem mem_push {l : List NodeID} {m : NodeID} : m ∈ push l n ↔ m ∈ l ∨ m = n := by
  rw [push]
  split
  · rename_i h
    constructor
    · exact .inl
    · rintro (hm | rfl)
      · exact hm
      · exact h
  · simp

theorem worklist_handleCall (s : ModRefState) (c : Call) :
    (∀ m ∈ s.worklist, m ∈ (mr.handleCall s c).worklist) ∧
    (¬ (newMods mr s c ⊆ s.mods.ofCallSite c.cs ∧ newRefs mr s c ⊆ s.refs.ofCallSite c.cs) →
      c.srcID ∈ (mr.handleCall s c).worklist) := by
  rw [handleCall]
  dsimp only
  split
  · refine ⟨fun m hm => mem_push.mpr (.inl hm), fun _ => mem_push.mpr (.inr rfl)⟩
  · rename_i h
    refine ⟨fun m hm => hm, fun hnew => absurd ⟨?_, ?_⟩ hnew⟩
    · by_contra hmods
      apply h
      rw [handleCallsiteModRef, Bool.or_eq_true]
      exact .inr ((changed_add mr _ _ _ _).mpr hmods)
    · by_contra hrefs
      apply h
      rw [handleCallsiteModRef, Bool.or_eq_true]
      exact .inl ((changed_add mr _ _ _ _).mpr hrefs)

def Pending (mr : MRGenerator) (s : ModRefState) (n : NodeID) : Prop :=
  n ∈ s.subNodes ∨ ∃ r ∈ s.worklist, n ∈ mr.callGraphSCC.subNodes r

def Grows (mr : MRGenerator) (s : ModRefState) (c : Call) : Prop :=
  ∃ o, mr.isNonLocalObject o c.srcID = true ∧
    (o ∈ newMods mr s c ∧ o ∉ s.mods.ofFunction c.srcID ∨
      o ∈ newRefs mr s c ∧ o ∉ s.refs.ofFunction c.srcID)

def Kept (mr : MRGenerator) (s : ModRefState) (c : Call) : Prop :=
  mr.callGraphSCC.repNode c.srcID = c.srcID ∨ Pending mr s c.srcID

def Holds (mr : MRGenerator) (s : ModRefState) (c : Call) : Prop :=
  newMods mr s c ⊆ s.mods.ofCallSite c.cs ∧ newRefs mr s c ⊆ s.refs.ofCallSite c.cs

/-- What is not local to the caller of a call site is an effect of the caller. -/
def NonLocalKept (mr : MRGenerator) (e : SideEffects) : Prop :=
  ∀ cs, ∀ o ∈ e.ofCallSite cs, mr.isNonLocalObject o (mr.callGraph.getCaller cs) = true →
    o ∈ e.ofFunction (mr.callGraph.getCaller cs)

structure Inv (mr : MRGenerator) (s : ModRefState) : Prop where
  mods : NonLocalKept mr s.mods
  refs : NonLocalKept mr s.refs
  calls : ∀ c ∈ s.calls, c ∈ mr.callsTo c.callee
  settled : ∀ n ∈ mr.callGraph.nodes, ∀ c ∈ mr.callsTo n,
    Holds mr s c ∨ c ∈ s.calls ∨ Pending mr s n

theorem mem_callsTo : c ∈ mr.callsTo n ↔ c.callee = n ∧ ∃ e ∈ mr.callGraph.inEdges n,
    c.srcID = e.srcID ∧ c.cs ∈ e.directCalls ++ e.indirectCalls := by
  rw [callsTo, List.mem_flatMap]
  constructor
  · rintro ⟨e, he, hc⟩
    obtain ⟨cs, hcs, rfl⟩ := List.mem_map.mp hc
    exact ⟨rfl, e, he, rfl, hcs⟩
  · rintro ⟨rfl, e, he, hsrc, hcs⟩
    refine ⟨e, he, List.mem_map.mpr ⟨c.cs, hcs, ?_⟩⟩
    cases c
    simp_all

theorem getCaller_of_mem (h : c ∈ mr.callsTo n) :
    mr.callGraph.getCaller c.cs = c.srcID ∧ c.srcID ∈ mr.callGraph.nodes := by
  obtain ⟨-, e, he, hsrc, hcs⟩ := mem_callsTo.mp h
  rw [hsrc]
  exact ⟨mr.callGraph.caller_eq n e he c.cs hcs, mr.callGraph.src_mem n e he⟩

theorem NonLocalKept.add {e : SideEffects} (h : NonLocalKept mr e) (cs : CallICFGNode)
    (escaping objs : Finset NodeID) :
    NonLocalKept mr (mr.addSideEffectOfCallSite e cs escaping objs).1 := by
  intro cs' o ho hlocal
  rw [mem_ofFunction_add]
  rcases (mem_ofCallSite_add mr).mp ho with hold | ⟨rfl, hnew⟩
  · exact .inl (h cs' o hold hlocal)
  · exact .inr ⟨rfl, hnew, hlocal⟩

theorem inv_start (mr : MRGenerator) (refs mods : NodeID → Finset NodeID) :
    Inv mr (mr.start refs mods) where
  mods _ o ho := absurd ho (Finset.notMem_empty o)
  refs _ o ho := absurd ho (Finset.notMem_empty o)
  calls _ hc := absurd hc List.not_mem_nil
  settled n hn _ _ := .inr (.inr (.inr ⟨_, mr.callGraphSCC.rep_listed n hn,
    mr.callGraphSCC.mem_subNodes n hn⟩))

theorem pending_handleCall (c : Call) (h : Pending mr s n) : Pending mr (mr.handleCall s c) n := by
  rcases h with h | ⟨r, hr, h⟩
  · left
    rwa [subNodes_handleCall]
  · exact .inr ⟨r, (worklist_handleCall s c).1 r hr, h⟩

theorem pending_of_grows (hmods : NonLocalKept mr s.mods) (hrefs : NonLocalKept mr s.refs)
    (hc : c ∈ mr.callsTo c.callee) (hgrows : Grows mr s c) (hkept : Kept mr s c) :
    Pending mr (mr.handleCall s c) c.srcID := by
  obtain ⟨hcaller, hnode⟩ := getCaller_of_mem hc
  rcases hkept with hrep | hpending
  · right
    refine ⟨c.srcID, (worklist_handleCall s c).2 ?_, ?_⟩
    · intro hholds
      obtain ⟨o, hlocal, ⟨ho, hnew⟩ | ⟨ho, hnew⟩⟩ := hgrows
      · have hold := hmods c.cs o (hholds.1 ho)
        rw [hcaller] at hold
        exact hnew (hold hlocal)
      · have hold := hrefs c.cs o (hholds.2 ho)
        rw [hcaller] at hold
        exact hnew (hold hlocal)
    · have hmem := mr.callGraphSCC.mem_subNodes c.srcID hnode
      rwa [hrep] at hmem
  · exact pending_handleCall c hpending

/-- The sets of a function stay as they are, or it is visited again. -/
theorem same_or_pending (hmods : NonLocalKept mr s.mods) (hrefs : NonLocalKept mr s.refs)
    (hc : c ∈ mr.callsTo c.callee) (hkept : Grows mr s c → Kept mr s c) (f : NodeID) :
    ((mr.handleCall s c).mods.ofFunction f = s.mods.ofFunction f ∧
      (mr.handleCall s c).refs.ofFunction f = s.refs.ofFunction f) ∨
    Pending mr (mr.handleCall s c) f := by
  have hcaller := (getCaller_of_mem hc).1
  by_cases hgrows : Grows mr s c
  · by_cases hf : f = c.srcID
    · subst hf
      exact .inr (pending_of_grows hmods hrefs hc hgrows (hkept hgrows))
    · left
      constructor
      · ext o
        rw [mem_mods_ofFunction, hcaller]
        simp [hf]
      · ext o
        rw [mem_refs_ofFunction, hcaller]
        simp [hf]
  · left
    constructor
    · ext o
      rw [mem_mods_ofFunction, hcaller, or_iff_left_iff_imp]
      rintro ⟨rfl, ho, hlocal⟩
      by_contra hnew
      exact hgrows ⟨o, hlocal, .inl ⟨ho, hnew⟩⟩
    · ext o
      rw [mem_refs_ofFunction, hcaller, or_iff_left_iff_imp]
      rintro ⟨rfl, ho, hlocal⟩
      by_contra hnew
      exact hgrows ⟨o, hlocal, .inr ⟨ho, hnew⟩⟩

theorem newMods_congr (h : t.mods.ofFunction c.callee = s.mods.ofFunction c.callee) :
    newMods mr t c = newMods mr s c := by
  rw [newMods, newMods, calleeMod, calleeMod, h]

theorem newRefs_congr (h : t.refs.ofFunction c.callee = s.refs.ofFunction c.callee) :
    newRefs mr t c = newRefs mr s c := by
  rw [newRefs, newRefs, calleeRef, calleeRef, h]

theorem inv_handleCall (h : Inv mr s) {rest : List Call} (hcalls : s.calls = c :: rest)
    (hkept : Grows mr s c → Kept mr s c) : Inv mr (mr.handleCall { s with calls := rest } c) := by
  have hc : c ∈ mr.callsTo c.callee := h.calls c (by rw [hcalls]; exact List.mem_cons_self)
  refine ⟨?_, ?_, fun c' hc' => ?_, fun n hn c' hc' => ?_⟩
  · rw [mods_handleCall]
    exact h.mods.add _ _ _
  · rw [refs_handleCall]
    exact h.refs.add _ _ _
  · rw [calls_handleCall] at hc'
    exact h.calls c' (by rw [hcalls]; exact List.mem_cons_of_mem _ hc')
  · rcases same_or_pending (s := { s with calls := rest }) h.mods h.refs hc hkept n with
      ⟨hmods, hrefs⟩ | hpending
    · have hcallee := (mem_callsTo.mp hc').1
      subst hcallee
      -- The callee has the same sets as before, so the call asks for the same objects.
      rw [Holds, newMods_congr hmods, newRefs_congr hrefs, calls_handleCall]
      rcases h.settled _ hn c' hc' with hholds | hcall | hpending
      · left
        constructor
        · intro o ho
          exact mem_mods_ofCallSite.mpr (.inl (hholds.1 ho))
        · intro o ho
          exact mem_refs_ofCallSite.mpr (.inl (hholds.2 ho))
      · rw [hcalls] at hcall
        rcases List.mem_cons.mp hcall with rfl | hrest
        · left
          constructor
          · intro o ho
            exact mem_mods_ofCallSite.mpr (.inr ⟨rfl, ho⟩)
          · intro o ho
            exact mem_refs_ofCallSite.mpr (.inr ⟨rfl, ho⟩)
        · exact .inr (.inl hrest)
      · exact .inr (.inr (pending_handleCall c hpending))
    · exact .inr (.inr hpending)

def Step (mr : MRGenerator) (s t : ModRefState) : Prop := mr.step s = some t

/-- A step in which the push of a caller that grows is not lost. -/
def SafeStep (mr : MRGenerator) (s t : ModRefState) : Prop :=
  Step mr s t ∧ ∀ c rest, s.calls = c :: rest → Grows mr s c → Kept mr s c

theorem inv_step (h : Inv mr s) (hstep : SafeStep mr s t) : Inv mr t := by
  obtain ⟨hstep, hsafe⟩ := hstep
  rw [Step, step] at hstep
  split at hstep
  · rename_i c rest hcalls
    cases hstep
    exact inv_handleCall h hcalls (hsafe c rest hcalls)
  · rename_i hcalls
    split at hstep
    · rename_i n rest hsub
      cases hstep
      refine ⟨h.mods, h.refs, ?_, fun m hm c hc => ?_⟩
      · intro c hc
        have hcallee := (mem_callsTo.mp hc).1
        rwa [hcallee]
      · rcases h.settled m hm c hc with hholds | hcall | hpending
        · exact .inl hholds
        · rw [hcalls] at hcall
          exact absurd hcall List.not_mem_nil
        · rcases hpending with hmem | hmem
          · rw [hsub] at hmem
            rcases List.mem_cons.mp hmem with rfl | hrest
            · exact .inr (.inl hc)
            · exact .inr (.inr (.inl hrest))
          · exact .inr (.inr (.inr hmem))
    · rename_i hsub
      split at hstep
      · rename_i r rest hworklist
        cases hstep
        refine ⟨h.mods, h.refs, h.calls, fun m hm c hc => ?_⟩
        rcases h.settled m hm c hc with hholds | hcall | hmem | ⟨r', hr', hmem⟩
        · exact .inl hholds
        · exact .inr (.inl hcall)
        · rw [hsub] at hmem
          exact absurd hmem List.not_mem_nil
        · rw [hworklist] at hr'
          rcases List.mem_cons.mp hr' with rfl | hrest
          · exact .inr (.inr (.inl hmem))
          · exact .inr (.inr (.inr ⟨r', hrest, hmem⟩))
      · contradiction

theorem inv_run {refs mods : NodeID → Finset NodeID}
    (hrun : ReflTransGen (SafeStep mr) (mr.start refs mods) s) : Inv mr s := by
  induction hrun with
  | refl => exact inv_start mr refs mods
  | tail _ hstep ih => exact inv_step ih hstep

theorem stopped_iff : mr.step s = none ↔ s.calls = [] ∧ s.subNodes = [] ∧ s.worklist = [] := by
  rw [step]
  split
  · simp_all
  · split
    · simp_all
    · split <;> simp_all

theorem Inv.holds (h : Inv mr s) (hend : mr.step s = none) (hn : n ∈ mr.callGraph.nodes)
    (hc : c ∈ mr.callsTo n) : Holds mr s c := by
  obtain ⟨hcalls, hsub, hworklist⟩ := stopped_iff.mp hend
  rcases h.settled n hn c hc with hholds | hcall | hmem | ⟨r, hr, -⟩
  · exact hholds
  · rw [hcalls] at hcall
    exact absurd hcall List.not_mem_nil
  · rw [hsub] at hmem
    exact absurd hmem List.not_mem_nil
  · rw [hworklist] at hr
    exact absurd hr List.not_mem_nil

theorem run_reaches (fuel : ℕ) (s : ModRefState) : ReflTransGen (Step mr) s (mr.run fuel s) := by
  induction fuel generalizing s with
  | zero => exact .refl
  | succ fuel ih =>
      rw [run]
      cases hstep : mr.step s with
      | none => exact .refl
      | some t => exact .head hstep (ih t)

def ofEdges (nodes : List NodeID) (edges : List (NodeID × CallGraphEdge))
    (getCaller : CallICFGNode → NodeID)
    (hcaller : ∀ p ∈ edges, ∀ cs ∈ p.2.directCalls ++ p.2.indirectCalls, getCaller cs = p.2.srcID)
    (hsrc : ∀ p ∈ edges, p.2.srcID ∈ nodes) : CallGraph where
  nodes := nodes
  inEdges n := (edges.filter fun p => p.1 == n).map Prod.snd
  getCaller := getCaller
  caller_eq n e he cs hcs := by
    obtain ⟨p, hp, rfl⟩ := List.mem_map.mp he
    exact hcaller p (List.mem_filter.mp hp).1 cs hcs
  src_mem n e he := by
    obtain ⟨p, hp, rfl⟩ := List.mem_map.mp he
    exact hsrc p (List.mem_filter.mp hp).1

/-- The global object `9` is the only one, and escapes. -/
def withGlobal (g : CallGraph) (scc : SCCDetection g) : MRGenerator where
  callGraph := g
  callGraphSCC := scc
  getBaseObject _ := ⟨true, .other⟩
  allGlobals := {9}
  getCallSiteArgsPts _ := ∅
  getCallSiteRetPts _ := ∅
  isHeapAllocExtCall _ := false
  addrObjs _ := []

/-- Call site `10` of function `0` calls `1`, which calls itself at `11`. -/
def sample : MRGenerator :=
  withGlobal
    (ofEdges [0, 1] [(1, ⟨0, [10], []⟩), (1, ⟨1, [11], []⟩)] (fun cs => cs - 10)
      (by decide) (by decide))
    { repNode := id
      subNodes := fun n => [n]
      revTopoNodeStack := [0, 1]
      mem_subNodes := fun _ _ => List.mem_singleton_self _
      subNodes_cleared := fun _ _ h => absurd rfl h
      rep_listed := fun _ hn => hn }

/-- `0` calls `2` at `10` and `3` at `11`; `1` and `2` call each other at `12` and
`13`; `3` calls `1` at `14`. The component of `1` and `2` was entered at `2`. -/
def lossy : MRGenerator :=
  withGlobal
    (ofEdges [0, 1, 2, 3]
      [(1, ⟨2, [13], []⟩), (1, ⟨3, [14], []⟩), (2, ⟨0, [10], []⟩), (2, ⟨1, [12], []⟩),
        (3, ⟨0, [11], []⟩)]
      (fun cs => if cs = 12 then 1 else if cs = 13 then 2 else if cs = 14 then 3 else 0)
      (by decide) (by decide))
    { repNode := fun n => if n = 1 then 2 else n
      subNodes := fun n => if n = 1 then [] else if n = 2 then [1, 2] else [n]
      revTopoNodeStack := [0, 3, 2]
      mem_subNodes := by decide
      subNodes_cleared := by decide
      rep_listed := by decide }

/-- Only the given function stores to the global. -/
def stores (f n : NodeID) : Finset NodeID := if n = f then {9} else ∅

theorem sample_run : ∃ s, ReflTransGen (SafeStep sample) (sample.start (stores 5) (stores 1)) s ∧
    sample.step s = none ∧ 9 ∈ s.mods.ofFunction 1 := by
  refine ⟨sample.run 20 (sample.start (stores 5) (stores 1)), ?_, ?_, ?_⟩
  · apply ReflTransGen.mono _ _ _ (run_reaches 20 _)
    intro _ _ hstep
    exact ⟨hstep, fun _ _ _ _ => .inl rfl⟩
  · exact stopped_iff.mpr (by decide +kernel)
  · decide +kernel

/-- In every run that loses no push of a caller that grows, the loops stop at a
fixpoint of the equations of all call graph edges. -/
theorem collectModRefForCall_fixpoint (mr : MRGenerator)
    (funToRefsMap funToModsMap : NodeID → Finset NodeID)
    (hrun : ReflTransGen (SafeStep mr) (mr.start funToRefsMap funToModsMap) s)
    (hend : mr.step s = none) :
    ∀ f ∈ mr.callGraph.nodes, ∀ e ∈ mr.callGraph.inEdges f,
      ∀ cs ∈ e.directCalls ++ e.indirectCalls,
      (mr.isHeapAllocExtCall cs = false →
        (∀ o ∈ s.mods.ofFunction f,
          o ∈ mr.allGlobals ∨ o ∈ mr.getCallSiteArgsPts cs ∨ o ∈ mr.getCallSiteRetPts cs →
            o ∈ s.mods.ofCallSite cs) ∧
        (∀ o ∈ s.refs.ofFunction f, o ∈ mr.allGlobals ∨ o ∈ mr.getCallSiteArgsPts cs →
            o ∈ s.refs.ofCallSite cs)) ∧
      (∀ o ∈ s.mods.ofCallSite cs, mr.isNonLocalObject o e.srcID = true →
        o ∈ s.mods.ofFunction e.srcID) ∧
      (∀ o ∈ s.refs.ofCallSite cs, mr.isNonLocalObject o e.srcID = true →
        o ∈ s.refs.ofFunction e.srcID) := by
  intro f hf e he cs hcs
  have hinv := inv_run hrun
  have hcaller := mr.callGraph.caller_eq f e he cs hcs
  have hholds : Holds mr s ⟨f, e.srcID, cs⟩ :=
    hinv.holds hend hf (mem_callsTo.mpr ⟨rfl, e, he, rfl, hcs⟩)
  refine ⟨fun halloc => ⟨fun o ho hpassed => ?_, fun o ho hpassed => ?_⟩, ?_, ?_⟩
  · apply hholds.1
    rw [newMods, mem_passed, calleeMod, halloc, Finset.mem_union]
    exact ⟨ho, hpassed.symm⟩
  · apply hholds.2
    rw [newRefs, mem_passed, calleeRef, halloc]
    exact ⟨ho, hpassed.symm⟩
  · intro o ho hlocal
    have hkept := hinv.mods cs o ho
    rw [hcaller] at hkept
    exact hkept hlocal
  · intro o ho hlocal
    have hkept := hinv.refs cs o ho
    rw [hcaller] at hkept
    exact hkept hlocal

theorem collectModRefForCall_fixpoint_sample :
    ∃ s, sample.step s = none ∧ 9 ∈ s.mods.ofFunction 1 ∧ 9 ∈ s.mods.ofCallSite 11 ∧
      9 ∈ s.mods.ofFunction 0 := by
  obtain ⟨s, hrun, hend, hmod⟩ := sample_run
  have hfix := collectModRefForCall_fixpoint sample (stores 5) (stores 1) hrun hend 1 (by decide)
  have houter := hfix ⟨0, [10], []⟩ List.mem_cons_self 10 (by decide)
  have hself := hfix ⟨1, [11], []⟩ (List.mem_cons_of_mem _ List.mem_cons_self) 11 (by decide)
  refine ⟨s, hend, hmod, (hself.1 rfl).1 9 hmod (.inl (by decide)), ?_⟩
  exact houter.2.1 9 ((houter.1 rfl).1 9 hmod (.inl (by decide))) rfl

/-- `1` gets the effect of `2` after its callers have been handled, and its push is
lost: `2` stands for it. -/
theorem collectModRefForCall_truncated : ∃ s,
    ReflTransGen (Step lossy) (lossy.start (stores 5) (stores 2)) s ∧ lossy.step s = none ∧
      9 ∈ lossy.allGlobals ∧ 9 ∈ s.mods.ofFunction 1 ∧ 9 ∉ s.mods.ofCallSite 14 :=
  ⟨lossy.run 30 (lossy.start (stores 5) (stores 2)), run_reaches 30 _,
    stopped_iff.mpr (by decide +kernel), by decide, by decide +kernel, by decide +kernel⟩

end SVF.MSSA.ModRefFixpoint
