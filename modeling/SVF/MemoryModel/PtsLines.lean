import Mathlib.Algebra.GroupWithZero.Nat
import SVF.MemoryModel.PointsToSets
import SVF.Util.TextFiles

namespace SVF.MemoryModel.PtsLines

open PointsToSets Util.TextFiles

def maxID : ℕ := 2 ^ 32 - 1

def delimiter1 : Text := " -> \x7b ".toList

def delimiter2 : Text := " \x7d".toList

def writePts (pts : PointsTo) : Text := if pts = ∅ then [' '] else spaced pts.elems

def ptsLine (var : Text) (pts : PointsTo) : Text := var ++ delimiter1 ++ (writePts pts ++ ['\x7d'])

def setAll (ns : List ℕ) : PointsTo := ns.foldl PointsTo.set ∅

def objsAt (line : Text) (pos : ℕ) : Text :=
  let pos := pos + delimiter1.length
  let len := line.length - pos - delimiter2.length
  substr line pos (if line.length < pos + delimiter2.length then none else some len)

/-- The objects in a line and the position of the first delimiter, or `none` where a
loop over the lines is left. -/
def objsOf (line : Text) : Option (ℕ × Text) :=
  (find delimiter1 line).bind fun pos =>
    if line.getLast? = some '\x7d' then some (pos, objsAt line pos) else none

def parsePts (objs : Text) : PointsTo := if objs = [] then ∅ else setAll (extractAll maxID objs)

section

variable {var : Text} {pts : PointsTo}

theorem mem_setAll (ns : List ℕ) (n : NodeID) : n ∈ setAll ns ↔ n ∈ ns := by
  rw [setAll, mem_foldl_set]
  simp

theorem setAll_elems (pts : PointsTo) : setAll pts.elems = pts :=
  ext fun n => by rw [mem_setAll, Util.OrderedSets.mem_elems]

theorem elems_eq_nil_iff : pts.elems = [] ↔ pts = ∅ := by
  rw [eq_empty_iff]
  constructor
  · intro h n hn
    rw [← Util.OrderedSets.mem_elems, h] at hn
    exact List.not_mem_nil hn
  · intro h
    exact List.eq_nil_iff_forall_not_mem.mpr fun n hn => h n ((Util.OrderedSets.mem_elems _ n).mp hn)

def objsText (pts : PointsTo) : Text := separated pts.elems

theorem writePts_eq (pts : PointsTo) : writePts pts = objsText pts ++ [' '] := by
  rw [writePts, objsText]
  split
  · rename_i h
    rw [elems_eq_nil_iff.mpr h]
    rfl
  · rename_i h
    exact spaced_eq fun hnil => h (elems_eq_nil_iff.mp hnil)

theorem ptsLine_eq (var : Text) (pts : PointsTo) :
    ptsLine var pts = var ++ delimiter1 ++ objsText pts ++ delimiter2 := by
  rw [ptsLine, writePts_eq, delimiter2]
  simp

theorem find_ptsLine (hvar : '-' ∉ var) :
    find delimiter1 (ptsLine var pts) = some var.length := by
  have hsplit : delimiter1 = [' '] ++ '-' :: ['>', ' ', '\x7b', ' '] := rfl
  rw [ptsLine, hsplit]
  exact find_append hvar (by decide)

theorem objsOf_ptsLine (hvar : '-' ∉ var) :
    objsOf (ptsLine var pts) = some (var.length, objsText pts) := by
  have hlast : (ptsLine var pts).getLast? = some '\x7d' := by
    rw [ptsLine_eq, delimiter2]
    simp
  rw [objsOf, find_ptsLine hvar, Option.bind_some, if_pos hlast, objsAt]
  have hlength : (ptsLine var pts).length =
      var.length + delimiter1.length + (objsText pts).length + delimiter2.length := by
    rw [ptsLine_eq]
    simp only [List.length_append]
  rw [if_neg (by omega), hlength]
  have hlen : var.length + delimiter1.length + (objsText pts).length + delimiter2.length -
      (var.length + delimiter1.length) - delimiter2.length = (objsText pts).length := by omega
  rw [hlen, ptsLine_eq, ← List.length_append, substr_middle]

theorem parsePts_objsText (hpts : ∀ n ∈ pts, n ≤ maxID) : parsePts (objsText pts) = pts := by
  rw [parsePts, objsText]
  by_cases hnil : pts.elems = []
  · rw [hnil]
    exact (elems_eq_nil_iff.mp hnil).symm
  · rw [if_neg (separated_ne_nil hnil), extractAll_separated hpts hnil, setAll_elems]

theorem objsText_eq_nil_iff : objsText pts = [] ↔ pts = ∅ := by
  rw [← elems_eq_nil_iff, objsText]
  constructor
  · intro h
    by_contra hne
    exact separated_ne_nil hne h
  · intro h
    rw [h]
    rfl

theorem notMem_ptsLine (hvar : '\n' ∉ var) : '\n' ∉ ptsLine var pts := by
  have hpts : '\n' ∉ writePts pts := by
    rw [writePts]
    split
    · decide
    · exact notMem_spaced (by decide) (by decide)
  have hdelim : '\n' ∉ delimiter1 := by decide
  have hbrace : '\n' ∉ ['\x7d'] := by decide
  intro h
  simp only [ptsLine, List.mem_append] at h
  tauto

end

end SVF.MemoryModel.PtsLines
