import SVF.WPA.SteensgaardSolver

namespace SVF.WPA.SteensgaardClasses

open Graphs.ConsG Graphs.Registration Util.Representatives Util.OrderedSets SteensgaardSolver
open SteensgaardSolver.Steensgaard
open MemoryModel.PointsToSets (PointsTo mem_union ne_union_iff)

variable {g : ConstraintGraph} {s t : Steensgaard} {node ec n m : NodeID}

theorem unionPts_eq (s : Steensgaard) (id ptd : NodeID) : s.unionPts id ptd =
    ({ s with ptD := Function.update s.ptD (s.getEC id) (s.getPts id ∪ s.getPts ptd) },
      decide (s.getPts id ≠ s.getPts id ∪ s.getPts ptd)) := rfl

/-- What a call of `ecUnion` leaves, field by field. -/
theorem ecUnion_eq (s : Steensgaard) (node ec : NodeID) : ∃ worklist, s.ecUnion node ec =
      setEC { s with
        ptD := Function.update s.ptD (s.getEC ec) (s.getPts ec ∪ s.getPts node)
        worklist := worklist } node ec ∧
    (worklist = s.worklist.insert (s.getEC ec) ∧ s.getPts ec ≠ s.getPts ec ∪ s.getPts node ∨
      worklist = s.worklist ∧ s.getPts ec = s.getPts ec ∪ s.getPts node) := by
  rw [ecUnion, unionPts_eq]
  by_cases h : s.getPts ec = s.getPts ec ∪ s.getPts node
  · rw [decide_eq_false (not_not.mpr h)]
    exact ⟨s.worklist, rfl, .inr ⟨rfl, h⟩⟩
  · rw [decide_eq_true h]
    exact ⟨_, rfl, .inl ⟨rfl, h⟩⟩

@[simp] theorem ptD_ecUnion (s : Steensgaard) (node ec : NodeID) : (s.ecUnion node ec).ptD =
    Function.update s.ptD (s.getEC ec) (s.getPts ec ∪ s.getPts node) := by
  obtain ⟨worklist, heq, -⟩ := ecUnion_eq s node ec
  rw [heq]
  rfl

@[simp] theorem calls_ecUnion (s : Steensgaard) (node ec : NodeID) :
    (s.ecUnion node ec).calls = s.calls := by
  obtain ⟨worklist, heq, -⟩ := ecUnion_eq s node ec
  rw [heq]
  rfl

theorem worklist_ecUnion (s : Steensgaard) (node ec : NodeID) :
    (s.ecUnion node ec).worklist = s.worklist.insert (s.getEC ec) ∧
        s.getPts ec ≠ s.getPts ec ∪ s.getPts node ∨
      (s.ecUnion node ec).worklist = s.worklist ∧ s.getPts ec = s.getPts ec ∪ s.getPts node := by
  obtain ⟨worklist, heq, hworklist⟩ := ecUnion_eq s node ec
  rw [heq]
  exact hworklist

theorem getEC_setEC (s : Steensgaard) (node ec : NodeID) :
    (s.setEC node ec).getEC = moveRep s.getEC s.nodeToSubsMap node (s.getEC ec) := by
  funext m
  rw [getEC, setEC, moveRep, getSubNodes]
  dsimp only
  split
  · rfl
  · rfl

theorem getEC_ecUnion (s : Steensgaard) (node ec : NodeID) :
    (s.ecUnion node ec).getEC = moveRep s.getEC s.nodeToSubsMap node (s.getEC ec) := by
  obtain ⟨worklist, heq, -⟩ := ecUnion_eq s node ec
  rw [heq]
  exact getEC_setEC _ node ec

theorem nodeToSubsMap_ecUnion (s : Steensgaard) (node ec : NodeID) :
    (s.ecUnion node ec).nodeToSubsMap = moveSubs s.nodeToSubsMap node (s.getEC ec) := by
  obtain ⟨worklist, heq, -⟩ := ecUnion_eq s node ec
  rw [heq]
  rfl

/-- `getEC` is idempotent, and the sub-nodes of a representative are the nodes that
`getEC` takes to it. -/
def Classes (s : Steensgaard) : Prop := Inverse s.getEC s.nodeToSubsMap

theorem Classes.mem_getSubNodes (h : Classes s) (hrep : s.getEC n = n) :
    m ∈ s.getSubNodes n ↔ s.getEC m = n := h.mem n hrep m

/-- `node` is a representative, and `ec` is not of its class unless `node` is alone
there; or it is none, and of the class of `ec` already. -/
def Movable (s : Steensgaard) (node ec : NodeID) : Prop :=
  (s.getEC node = node → s.getEC ec = node → ∀ m, s.getEC m = node → m = node) ∧
    (s.getEC node ≠ node → s.getEC node = s.getEC ec)

/-- `ecUnion` moves the recorded sub-nodes of `node`, not those of its class. -/
theorem classes_ecUnion_iff (h : Classes s) (node ec : NodeID) :
    Classes (s.ecUnion node ec) ↔ Movable s node ec := by
  rw [Classes, getEC_ecUnion, nodeToSubsMap_ecUnion]
  exact inverse_move_iff h (h.idem ec)

def mergedEC (s : Steensgaard) (node ec m : NodeID) : NodeID :=
  if s.getEC m = s.getEC node then s.getEC ec else s.getEC m

theorem getEC_ecUnion_of_movable (h : Classes s) (hmove : Movable s node ec) (m : NodeID) :
    (s.ecUnion node ec).getEC m = mergedEC s node ec m := by
  rw [getEC_ecUnion, mergedEC]
  by_cases hnode : s.getEC node = node
  · rw [moveRep_of_rep h hnode, hnode]
  · rw [moveRep_of_not_rep h hnode, hmove.2 hnode]
    by_cases hm : m = node
    · rw [if_pos hm, hm, if_pos (hmove.2 hnode)]
    · rw [if_neg hm]
      by_cases hec : s.getEC m = s.getEC ec
      · rw [if_pos hec, hec]
      · rw [if_neg hec]

theorem mergedEC_congr {a b : NodeID} (h : s.getEC a = s.getEC b) :
    mergedEC s node ec a = mergedEC s node ec b := by
  rw [mergedEC, mergedEC, h]

theorem mergedEC_same (s : Steensgaard) (node ec : NodeID) :
    mergedEC s node ec node = mergedEC s node ec ec := by
  rw [mergedEC, mergedEC, if_pos rfl]
  split
  · rfl
  · rfl

theorem mergedEC_of_eq (h : s.getEC node = s.getEC ec) (m : NodeID) :
    mergedEC s node ec m = s.getEC m := by
  rw [mergedEC]
  split
  · rename_i hm
    rw [hm, h]
  · rfl

theorem mem_ptD_ecUnion (s : Steensgaard) (node ec k x : NodeID) :
    x ∈ (s.ecUnion node ec).ptD k ↔ x ∈ s.ptD k ∨ k = s.getEC ec ∧ x ∈ s.getPts node := by
  rw [ptD_ecUnion]
  by_cases hk : k = s.getEC ec
  · subst hk
    rw [Function.update_self, mem_union, getPts]
    simp
  · rw [Function.update_of_ne hk]
    simp [hk]

theorem getPts_ecUnion (h : Classes s) (hmove : Movable s node ec) {x : NodeID}
    (hx : x ∈ s.getPts m) : x ∈ (s.ecUnion node ec).getPts m := by
  rw [getPts, getEC_ecUnion_of_movable h hmove, mem_ptD_ecUnion, mergedEC]
  by_cases hm : s.getEC m = s.getEC node
  · rw [if_pos hm]
    rw [getPts, hm] at hx
    exact .inr ⟨rfl, hx⟩
  · rw [if_neg hm]
    exact .inl hx

theorem getPts_ecUnion_merged (h : Classes s) (hmove : Movable s node ec)
    (hm : mergedEC s node ec m = s.getEC ec) :
    (s.ecUnion node ec).getPts m = s.getPts ec ∪ s.getPts node := by
  rw [getPts, getEC_ecUnion_of_movable h hmove, hm, ptD_ecUnion, Function.update_self]

theorem getPts_ecUnion_of_ne (h : Classes s) (hmove : Movable s node ec)
    (hm : mergedEC s node ec m ≠ s.getEC ec) : (s.ecUnion node ec).getPts m = s.getPts m := by
  rw [getPts, getEC_ecUnion_of_movable h hmove, ptD_ecUnion, Function.update_of_ne hm, mergedEC,
    getPts]
  by_cases hnode : s.getEC m = s.getEC node
  · rw [mergedEC, if_pos hnode] at hm
    exact absurd rfl hm
  · rw [if_neg hnode]

end SVF.WPA.SteensgaardClasses
