import SVF.Util.Folds
import SVF.WPA.MeldVersions

namespace SVF.WPA.MeldLabelWorkers

open Graphs.ConsG Graphs.ValueFlowGraph FootprintSCC MeldVersions
open MemoryModel.PointsToSets (PointsTo)

/-- What versioning stores for one object: its entries in the maps over objects,
and those in the maps `consume` and `yield` of each location. -/
structure ObjectLabels where
  equivalentObject : Option NodeID
  versionReliance : Version → List Version
  stmtReliance : Version → PointsTo
  consume : NodeID → Option Version
  yield : NodeID → Option Version

def ObjectLabels.empty : ObjectLabels := ⟨none, fun _ => [], fun _ => ∅, fun _ => none, fun _ => none⟩

inductive Worker
  | idle
  | popped (o : NodeID)
  | detected (o : NodeID)
  | versioning (o : NodeID)
  | saving (o : NodeID) (nodes : List NodeID)
  | done
  deriving DecidableEq

def Worker.object : Worker → Option NodeID
  | .idle | .done => none
  | .popped o | .detected o | .versioning o | .saving o _ => some o

structure MeldState (threads : ℕ) where
  objectQueue : List NodeID
  footprintOwner : List SVFGEdge → Option NodeID
  labels : NodeID → ObjectLabels
  workers : Fin threads → Worker

variable (vfs : Versioning)

def footprint (o : NodeID) : List SVFGEdge := (objectVersions vfs o).footprint

/-- The section of step 7: what is consumed at `n`, and which statement relies on it. -/
def saveConsume (L : ObjectLabels) (n : NodeID) (c : Version) : ObjectLabels :=
  if c = invalidVersion then L
  else
    { L with
      consume := Function.update L.consume n (some c)
      stmtReliance := if vfs.isStore n || vfs.isLoad n then
          Function.update L.stmtReliance c ((L.stmtReliance c).set n)
        else L.stmtReliance }

def saveYield (ov : ObjectVersions) (L : ObjectLabels) (n : NodeID) : ObjectLabels :=
  match ov.storesYieldedVersion n with
  | some y => if vfs.isStore n then { L with yield := Function.update L.yield n (some y) } else L
  | none => L

def saveNode (ov : ObjectVersions) (L : ObjectLabels) (n : NodeID) : ObjectLabels :=
  match ov.partOf n with
  | none => L
  | some scc => saveYield vfs ov (saveConsume vfs L n (ov.sccToVersion scc)) n

def copyOwner (owner L : ObjectLabels) (c : NodeID) : ObjectLabels :=
  { L with
    equivalentObject := some c
    versionReliance := owner.versionReliance
    stmtReliance := owner.stmtReliance }

/-- An atomic step of the thread `t`: a section under a mutex, or the computation
on one object between two such sections. -/
inductive Step {threads : ℕ} (t : Fin threads) : MeldState threads → MeldState threads → Prop
  | pop (s : MeldState threads) (o : NodeID) (rest : List NodeID) (hw : s.workers t = .idle)
      (hq : s.objectQueue = o :: rest) :
      Step t s { s with
        objectQueue := rest
        workers := Function.update s.workers t (.popped o) }
  | leave (s : MeldState threads) (hw : s.workers t = .idle) (hq : s.objectQueue = []) :
      Step t s { s with workers := Function.update s.workers t .done }
  | detect (s : MeldState threads) (o : NodeID) (hw : s.workers t = .popped o) :
      Step t s { s with workers := Function.update s.workers t (.detected o) }
  | own (s : MeldState threads) (o : NodeID) (hw : s.workers t = .detected o)
      (hf : s.footprintOwner (footprint vfs o) = none) :
      Step t s { s with
        footprintOwner := Function.update s.footprintOwner (footprint vfs o) (some o)
        labels := Function.update s.labels o { s.labels o with equivalentObject := some o }
        workers := Function.update s.workers t (.versioning o) }
  | copy (s : MeldState threads) (o c : NodeID) (hw : s.workers t = .detected o)
      (hf : s.footprintOwner (footprint vfs o) = some c) :
      Step t s { s with
        labels := Function.update s.labels o (copyOwner (s.labels c) (s.labels o) c)
        workers := Function.update s.workers t .idle }
  | version (s : MeldState threads) (o : NodeID) (hw : s.workers t = .versioning o) :
      Step t s { s with
        labels := Function.update s.labels o
          { s.labels o with versionReliance := (objectVersions vfs o).versionReliance }
        workers := Function.update s.workers t (.saving o vfs.nodesWhichNeedVersions) }
  | save (s : MeldState threads) (o n : NodeID) (rest : List NodeID)
      (hw : s.workers t = .saving o (n :: rest)) :
      Step t s { s with
        labels := Function.update s.labels o (saveNode vfs (objectVersions vfs o) (s.labels o) n)
        workers := Function.update s.workers t (.saving o rest) }
  | saved (s : MeldState threads) (o : NodeID) (hw : s.workers t = .saving o []) :
      Step t s { s with workers := Function.update s.workers t .idle }

/-- The objects in the order in which they come out of the set of prelabeled ones. -/
def start (threads : ℕ) (objects : List NodeID) : MeldState threads :=
  ⟨objects, fun _ => none, fun _ => .empty, fun _ => .idle⟩

def Finished {threads : ℕ} (s : MeldState threads) : Prop := ∀ t, s.workers t = .done

section

def labelled (o : NodeID) (nodes : List NodeID) : ObjectLabels :=
  nodes.foldl (saveNode vfs (objectVersions vfs o)) { ObjectLabels.empty with
    equivalentObject := some o
    versionReliance := (objectVersions vfs o).versionReliance }

def complete (o : NodeID) : ObjectLabels := labelled vfs o vfs.nodesWhichNeedVersions

def expected (owner : List SVFGEdge → Option NodeID) (o : NodeID) : ObjectLabels :=
  match owner (footprint vfs o) with
  | none => .empty
  | some c => if c = o then complete vfs o else copyOwner (complete vfs c) .empty c

variable {vfs}

theorem labelled_append (o n : NodeID) (nodes : List NodeID) : labelled vfs o (nodes ++ [n]) =
    saveNode vfs (objectVersions vfs o) (labelled vfs o nodes) n := by
  rw [labelled, List.foldl_append]
  rfl

theorem saveYield_reliance (ov : ObjectVersions) (L : ObjectLabels) (n : NodeID) :
    (saveYield vfs ov L n).versionReliance = L.versionReliance ∧
      (saveYield vfs ov L n).stmtReliance = L.stmtReliance := by
  rw [saveYield]
  split
  · split
    · exact ⟨rfl, rfl⟩
    · exact ⟨rfl, rfl⟩
  · exact ⟨rfl, rfl⟩

theorem equivalentObject_saveNode (ov : ObjectVersions) (L : ObjectLabels) (n : NodeID) :
    (saveNode vfs ov L n).equivalentObject = L.equivalentObject := by
  have hyield : ∀ L, (saveYield vfs ov L n).equivalentObject = L.equivalentObject := by
    intro L
    rw [saveYield]
    split
    · split
      · rfl
      · rfl
    · rfl
  rw [saveNode]
  split
  · rfl
  · rw [hyield, saveConsume]
    split
    · rfl
    · rfl

theorem equivalentObject_complete (o : NodeID) : (complete vfs o).equivalentObject = some o := by
  rw [complete, labelled]
  apply Util.Folds.foldl_invariant (I := fun L : ObjectLabels => L.equivalentObject = some o)
  · intro n _ L hL
    rw [equivalentObject_saveNode, hL]
  · rfl

theorem versionReliance_saveNode (ov : ObjectVersions) (L : ObjectLabels) (n : NodeID) :
    (saveNode vfs ov L n).versionReliance = L.versionReliance := by
  rw [saveNode]
  split
  · rfl
  · rw [(saveYield_reliance ov _ n).1, saveConsume]
    split
    · rfl
    · rfl

theorem stmtReliance_saveNode (ov : ObjectVersions) (L : ObjectLabels) {n : NodeID}
    (hstore : vfs.isStore n = false) (hload : vfs.isLoad n = false) :
    (saveNode vfs ov L n).stmtReliance = L.stmtReliance := by
  rw [saveNode]
  split
  · rfl
  · rw [(saveYield_reliance ov _ n).2, saveConsume, hstore, hload]
    split
    · rfl
    · rfl

/-- The reliance maps are complete as soon as only nodes are left that are no
stores and no loads. -/
theorem labelled_reliance {o : NodeID} {pre rest : List NodeID}
    (hnodes : vfs.nodesWhichNeedVersions = pre ++ rest)
    (hrest : ∀ n ∈ rest, vfs.isStore n = false ∧ vfs.isLoad n = false) :
    (labelled vfs o pre).versionReliance = (complete vfs o).versionReliance ∧
      (labelled vfs o pre).stmtReliance = (complete vfs o).stmtReliance := by
  rw [complete, hnodes]
  clear hnodes
  induction rest generalizing pre with
  | nil => rw [List.append_nil]; exact ⟨rfl, rfl⟩
  | cons n rest ih =>
      have hn := hrest n List.mem_cons_self
      have hstep := @ih (pre ++ [n]) fun m hm => hrest m (List.mem_cons_of_mem n hm)
      obtain ⟨hversion, hstmt⟩ := hstep
      rw [List.append_assoc, List.singleton_append] at hversion hstmt
      rw [← hversion, ← hstmt, labelled_append, versionReliance_saveNode,
        stmtReliance_saveNode _ _ hn.1 hn.2]
      exact ⟨rfl, rfl⟩

end

end SVF.WPA.MeldLabelWorkers
