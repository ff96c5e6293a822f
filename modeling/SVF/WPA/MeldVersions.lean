import SVF.WPA.FootprintSCC

namespace SVF.WPA.MeldVersions

open Graphs.ConsG Graphs.ValueFlowGraph FootprintSCC
open MemoryModel.PointsToSets (PointsTo)

abbrev Version := ℕ

def invalidVersion : Version := 0

abbrev MeldVersion := PointsTo

structure Melding where
  sccToMeldVersion : ℕ → MeldVersion
  storesYieldedMeldVersion : NodeID → MeldVersion
  sccReliance : ℕ → List ℕ
  storeSCC : ℕ → Option NodeID

namespace Melding

variable (vfs : Versioning) (scc : SCC) (object : NodeID)

def new : Melding := ⟨fun _ => ∅, fun _ => ∅, fun _ => [], fun _ => none⟩

def meldScc (m : Melding) (i : ℕ) (mv : MeldVersion) : Melding :=
  { m with sccToMeldVersion := Function.update m.sccToMeldVersion i (m.sccToMeldVersion i ∪ mv) }

/-- A node of step 3 with the bit that is next. A node of no component, with which
the source would read outside a vector, gets nothing. -/
def prelabelNode : Melding × ℕ → NodeID → Melding × ℕ
  | (m, bit), n =>
      if vfs.isPrelabeled n then
        if vfs.isStore n then
          let yielded := (m.storesYieldedMeldVersion n).set bit
          ({ m with
            storesYieldedMeldVersion := Function.update m.storesYieldedMeldVersion n yielded },
            bit + 1)
        else
          match scc.partOf n with
          | some i => (m.meldScc i (PointsTo.set ∅ bit), bit + 1)
          | none => (m, bit + 1)
      else (m, bit)

def meldEdge (n i : ℕ) (m : Melding) (e : SVFGEdge) : Melding :=
  if carries object e then
    match scc.partOf e.dst with
    | none => m
    | some j =>
        let nMV := if vfs.isStore n then m.storesYieldedMeldVersion n else m.sccToMeldVersion i
        let reliance := (m.sccReliance i).insert j
        let m := { m with sccReliance := Function.update m.sccReliance i reliance }
        if !vfs.delta e.dst && (i ≠ j || vfs.isStore n) then m.meldScc j nMV else m
  else m

def meldNode (m : Melding) (n : NodeID) : Melding :=
  match scc.partOf n with
  | none => m
  | some i =>
      let m := if vfs.isStore n then
          { m with storeSCC := Function.update m.storeSCC i (some n) }
        else m
      (vfs.svfg.outEdges n).foldl (meldEdge vfs scc object n i) m

end Melding

/-- The nodes that step 3 gathers from the starting nodes and the footprint. -/
def reachableNodes (vfs : Versioning) (object : NodeID) (footprint : List SVFGEdge) : List NodeID :=
  vfs.svfg.nodes.filter fun n =>
    n ∈ vfs.osStartingNodes object || footprint.any fun e => e.src = n || e.dst = n

/-- In topological order: components that are reached from others have smaller numbers. -/
def todoList (scc : SCC) (nodes : List NodeID) : List NodeID :=
  nodes.insertionSort fun a b =>
    ((scc.partOf b).map (· + 1)).getD 0 ≤ ((scc.partOf a).map (· + 1)).getD 0

def melding (vfs : Versioning) (scc : SCC) (object : NodeID) : Melding :=
  let nodes := reachableNodes vfs object scc.footprint
  let m := (nodes.foldl (Melding.prelabelNode vfs scc) (.new, 0)).1
  (todoList scc nodes).foldl (Melding.meldNode vfs scc object) m

/-- The keys of `mvv`; the version of a key is its place, counted from one. -/
def mvv (mvs : List MeldVersion) : List MeldVersion :=
  mvs.foldl (fun seen mv => if mv ∈ seen then seen else seen ++ [mv]) []

structure ObjectVersions where
  footprint : List SVFGEdge
  partOf : NodeID → Option ℕ
  sccToVersion : ℕ → Version
  storesYieldedVersion : NodeID → Option Version
  versionReliance : Version → List Version

def relyScc (m : Melding) (sccToVersion : ℕ → Version) (storesYieldedVersion : NodeID → Option Version)
    (versionReliance : Version → List Version) (i : ℕ) : Version → List Version :=
  if (m.sccReliance i).isEmpty then versionReliance
  else
    let version := match m.storeSCC i with
      | some n => (storesYieldedVersion n).getD invalidVersion
      | none => sccToVersion i
    let reliantVersions := ((m.sccReliance i).map sccToVersion).filter (version ≠ ·)
    Function.update versionReliance version (versionReliance version ++ reliantVersions)

def objectVersions (vfs : Versioning) (object : NodeID) : ObjectVersions :=
  let scc := detectSCCs vfs object
  let m := melding vfs scc object
  let stores := (reachableNodes vfs object scc.footprint).filter fun n =>
    vfs.isPrelabeled n && vfs.isStore n
  let keys := mvv ((List.range scc.currentSCC).map m.sccToMeldVersion ++
    stores.map m.storesYieldedMeldVersion)
  let version := fun mv => keys.idxOf mv + 1
  let sccToVersion := fun i => version (m.sccToMeldVersion i)
  let storesYieldedVersion := fun n =>
    if n ∈ stores then some (version (m.storesYieldedMeldVersion n)) else none
  { footprint := scc.footprint
    partOf := scc.partOf
    sccToVersion := sccToVersion
    storesYieldedVersion := storesYieldedVersion
    versionReliance := (List.range scc.currentSCC).foldl
      (relyScc m sccToVersion storesYieldedVersion) fun _ => [] }

end SVF.WPA.MeldVersions
