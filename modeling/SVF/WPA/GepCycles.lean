import Mathlib.Algebra.Order.BigOperators.Group.List
import SVF.WPA.FieldExpandRuns
import SVF.WPA.SimpleCycles

namespace SVF.WPA.GepCycles

open Relation Graphs.ConsG Graphs.FieldObjects Graphs.FieldLookup
open CycleStrides SimpleCycles FieldExpand FieldExpandRuns
open Graphs.SCC (SCCDetection)
open Util.NodeIDs (UINT_MAX)
open MemoryModel.PointsToSets (PointsTo)

section

variable {edges : ConstraintEdgeSetTy} {scc : SCCDetection} {nodes : List NodeID}
  {hlt : ∀ n ∈ nodes, n < UINT_MAX} {hedges : ∀ e ∈ edges, e.src ∈ nodes ∧ e.dst ∈ nodes} {s : CSC}
  {depth fuel : ℕ}

theorem total_mem_strides (hdepth : nodes.length ≤ depth)
    (hfind : Graphs.SCC.find (directGraph edges nodes hlt hedges) depth = some scc)
    (hdirect : Direct edges) (harranged : Arranged edges scc) (hfuel : nodes.length ≤ fuel)
    (hS : s.S = []) (hvisited : ∀ n ∈ nodes, s.visited n = false) {x : NodeID}
    {es : List ConstraintEdge} (hcycle : SimpleCycle edges x es) (hpos : 0 < total es)
    (hbound : total es < 2 ^ 32) :
    ∀ e ∈ es, (total es).toNat ∈ (CSC.find edges scc fuel s).strides e.src := by
  obtain ⟨scc', hfind', hfound⟩ := Graphs.SCCRuns.find_found (G := directGraph edges nodes hlt hedges) hdepth
  obtain rfl := Option.some.inj (hfind.symm.trans hfind')
  obtain ⟨e, es', rfl, hsrc⟩ := hcycle.src_eq
  have hx : x ∈ nodes := hsrc ▸ (hedges e hcycle.walk.1).1
  obtain ⟨hnode, hrep, -⟩ := hfound.subNodes_iff hx
  exact find_recorded hfound hdirect harranged hfuel hS hvisited _ ((hfound.mem_topo _).mpr ⟨hnode, hrep⟩)
    x _ hcycle rfl hpos hbound

end

section

variable {opts : Options} {alloc : NodeIDAllocator} {offset : APOffset} {strides : PointsTo}
  {pag : SVFIR} {initials : Finset NodeID}

structure Expands (opts : Options) (alloc : NodeIDAllocator) (offset : APOffset) (strides : PointsTo)
    (pag : SVFIR) (initials : Finset NodeID) (start : Expand) : Prop where
  finite : ¬ ∃ run : ℕ → Expand, run 0 = start ∧
    ∀ n, ExpandStep opts alloc offset strides (run n) (run (n + 1))
  loop : ∀ e, ReflTransGen (ExpandStep opts alloc offset strides) start e →
    ∀ init ∈ e.initials, e.pag.isBlkObjOrConstantObj init = false →
      ¬ ∃ run : ℕ → Loop, run 0 = (expansion offset strides e.pag init).start ∧
        ∀ n, (expansion offset strides e.pag init).Step (run n) (run (n + 1))
  progress : ∀ e, ReflTransGen (ExpandStep opts alloc offset strides) start e →
    e.initials = ∅ ∨ ∃ e', ExpandStep opts alloc offset strides e e'
  result : ∀ e, ReflTransGen (ExpandStep opts alloc offset strides) start e → e.initials = ∅ →
    Expanded pag opts alloc offset strides initials e

theorem expands (hsound : Sound pag) (hgood : Good pag opts offset strides initials) (pts : PointsTo) :
    Expands opts alloc offset strides pag initials ⟨initials, pag, pts⟩ where
  finite := no_infinite_run hgood hsound pts
  loop e hrun init hinit hconst := by
    have hinv := Inv.run hgood hsound hrun
    have hnode := hgood.nodes init (hinv.left hinit)
    rw [isBlkObjOrConstantObj_grown hinv.grown hnode] at hconst
    rw [expansion_grown hinv.grown hnode]
    exact Expansion.no_infinite_run (hgood.fits init ⟨hinv.left hinit, hconst⟩)
  progress e hrun := done_or_step hgood (Inv.run hgood hsound hrun)
  result e hrun hdone := (Inv.run hgood hsound hrun).expanded hgood hdone

end

def cycleEdges : ConstraintEdgeSetTy :=
  ⟨[⟨5, 4, .CopyCGEdge⟩, ⟨4, 5, .NormalGepCGEdge ⟨1⟩⟩], by decide⟩

def branchEdges : ConstraintEdgeSetTy :=
  ⟨[⟨5, 4, .CopyCGEdge⟩, ⟨6, 4, .CopyCGEdge⟩, ⟨4, 5, .NormalGepCGEdge ⟨1⟩⟩,
    ⟨4, 6, .NormalGepCGEdge ⟨2⟩⟩], by decide⟩

def cycleGraph : Graphs.SCC.Graph := directGraph cycleEdges [4, 5] (by decide) (by decide)

def branchGraph : Graphs.SCC.Graph := directGraph branchEdges [4, 5, 6] (by decide) (by decide)

def oneStride : Expansion := ⟨⟨[1], by decide⟩, 0, 0, 8⟩

def samplePag : SVFIR where
  nodes := [2, 3, 6]
  gepObjVar _ := none
  GepObjVarMap _ _ := none
  memToFieldsMap _ := []
  maxFieldOffsetLimit _ := 3
  isConstDataOrConstGlobal _ := false
  isPointer _ := false

def sampleAlloc : NodeIDAllocator where
  allocateGepObjectId used _ _ := used.sum + 1
  fresh _ _ _ h :=
    absurd (List.single_le_sum (fun _ _ => Nat.zero_le _) _ h) (Nat.not_succ_le_self _)

theorem samplePag_sound : Sound samplePag where
  consistent := ⟨fun _ _ _ h => (by cases h), fun _ _ _ h => (by cases h),
    fun _ _ _ h => (by cases h), fun _ _ _ h => (by cases h),
    fun _ _ h => absurd h List.not_mem_nil⟩
  unique _ _ _ h := by cases h
  fieldNode _ _ h := absurd h List.not_mem_nil
  blackHole := ⟨by decide, rfl⟩
  constantObj := ⟨by decide, rfl⟩

theorem samplePag_good : Good samplePag ⟨10, false, false⟩ 0 oneStride.strides {6} where
  nodes := by decide
  fits init h s hs := by
    obtain rfl := Finset.mem_singleton.mp h.1
    obtain rfl : s = 1 := List.mem_singleton.mp hs
    exact .inr (by decide)
  short init h := by
    obtain rfl := Finset.mem_singleton.mp h.1
    exact .inr ⟨1, fun s hs => .inr (List.mem_singleton.mp hs), by decide⟩
  apart init init' f h h' _ _ f' hf' := by
    obtain rfl := (Finset.mem_singleton.mp h.1).trans (Finset.mem_singleton.mp h'.1).symm
    exact ⟨f', hf', rfl⟩

theorem cycleEdges_arranged {scc : SCCDetection} (h4 : scc.repNode 4 = 4) (h5 : scc.repNode 5 = 4) :
    Arranged cycleEdges scc := by
  have hends : ∀ e ∈ cycleEdges, e.src ∈ [4, 5] ∧ e.dst ∈ [4, 5] := by decide
  have hrep : ∀ n ∈ [4, 5], scc.repNode n = 4 := by
    intro n hn
    rcases List.mem_cons.mp hn with rfl | hn
    · exact h4
    · rw [List.mem_singleton.mp hn, h5]
  intro e he _
  rw [hrep e.src (hends e he).1]
  refine ⟨[5], List.cons_ne_nil _ _, by decide, fun e he hsrc => ?_, fun pre a b post hl => ?_, by decide,
    by decide⟩
  · rw [hrep _ hsrc, hrep _ (hends e he).2]
    exact iff_of_true rfl (hends e he).2
  · rcases pre with _ | ⟨c, _ | ⟨d, pre⟩⟩
    · cases hl
      exact ⟨⟨4, 5, .NormalGepCGEdge ⟨1⟩⟩, by decide, rfl, rfl⟩
    · simp at hl
    · simp at hl

end SVF.WPA.GepCycles
