import Mathlib.Data.List.Lex
import SVF.MemoryModel.PointsToSets

namespace SVF.MSSA.MemPartition

open Util.OrderedSets
open MemoryModel.PointsToSets (NodeID PointsTo)

abbrev NodeBS := PointsTo

def nodeBSKey (cpts : NodeBS) : ℕ ×ₗ List NodeID := toLex (cpts.count, cpts.elems)

abbrev PointsToList := OrderedSet nodeBSKey

structure MemRegion where
  rid : ℕ
  cptsSet : NodeBS

abbrev MRSet := OrderedSet (fun mr : MemRegion => nodeBSKey mr.cptsSet)

def singleton (id : NodeID) : NodeBS := PointsTo.set ∅ id

section

variable {F : Type*}

structure Access (F : Type*) where
  fn : F
  cpts : NodeBS

structure CallSite (F : Type*) where
  caller : F
  refs : Option NodeBS
  mods : Option NodeBS

namespace CallSite

def modPts (cs : CallSite F) : Option (Access F) := cs.mods.map fun mods => ⟨cs.caller, mods⟩

def refPts (cs : CallSite F) : Option (Access F) :=
  match cs.refs, cs.mods with
  | none, none => none
  | refs, mods => some ⟨cs.caller, refs.getD ∅ ∪ mods.getD ∅⟩

def added (cs : CallSite F) : List (Access F) :=
  (cs.refs.toList ++ cs.mods.toList).map fun cpts => ⟨cs.caller, cpts⟩

end CallSite

/-- What `collectModRefForLoadStore` and `collectModRefForCall` leave: the loads and stores
with a points-to set, the call sites, and the functions that have accesses, in the
order of `funToPointsToMap`. -/
structure ModRef (F : Type*) where
  stores : List (Access F)
  loads : List (Access F)
  callSites : List (CallSite F)
  functions : List F
  mem_functions : ∀ a ∈ stores ++ loads ++ callSites.flatMap CallSite.added, a.fn ∈ functions

namespace ModRef

def accesses (m : ModRef F) : List (Access F) :=
  m.stores ++ m.loads ++ m.callSites.flatMap CallSite.added

def getPointsToList [DecidableEq F] (m : ModRef F) (fn : F) : PointsToList :=
  (m.accesses.filter fun a => a.fn = fn).foldl (fun l a => l.insert a.cpts) .empty

def defs (m : ModRef F) : List (Access F) := m.stores ++ m.callSites.filterMap CallSite.modPts

def uses (m : ModRef F) : List (Access F) := m.loads ++ m.callSites.filterMap CallSite.refPts

end ModRef

end

def interLoop (cpts_copy : NodeBS) (toBeDeleted newInters : PointsToList) :
    List NodeBS → NodeBS × PointsToList × PointsToList
  | [] => (cpts_copy, toBeDeleted, newInters)
  | inter :: rest =>
    if cpts_copy.intersects inter then
      let new_inter := inter.inter cpts_copy
      let complement := inter.intersectWithComplement new_inter
      let toBeDeleted := if new_inter ≠ inter then toBeDeleted.insert inter else toBeDeleted
      let newInters :=
        if new_inter ≠ inter then
          let newInters := newInters.insert new_inter
          if complement ≠ ∅ then newInters.insert complement else newInters
        else newInters
      let cpts_copy := cpts_copy.intersectWithComplement new_inter
      if cpts_copy = ∅ then (cpts_copy, toBeDeleted, newInters)
      else interLoop cpts_copy toBeDeleted newInters rest
    else interLoop cpts_copy toBeDeleted newInters rest

def computeIntersections (cpts : NodeBS) (inters : PointsToList) : PointsToList :=
  if cpts ∈ inters then inters
  else if cpts.count = 1 then inters.insert cpts
  else
    let (cpts_copy, toBeDeleted, newInters) := interLoop cpts .empty .empty inters.elems
    let inters := toBeDeleted.elems.foldl OrderedSet.erase inters
    let inters := newInters.elems.foldl OrderedSet.insert inters
    if cpts_copy ≠ ∅ then inters.insert cpts_copy else inters

def computeAll (inters : PointsToList) (l : List NodeBS) : PointsToList :=
  l.foldl (fun inters cpts => computeIntersections cpts inters) inters

section

variable {F : Type*} [DecidableEq F]

structure Regions (F : Type*) where
  totalMRNum : ℕ
  cptsToRepCPtsMap : NodeBS → Option NodeBS
  memRegSet : MRSet
  funToMRsMap : F → MRSet

def Regions.empty : Regions F := ⟨0, fun _ => none, .empty, fun _ => .empty⟩

/-- `MRSet::find`, which compares the points-to sets only. -/
def find (mrs : MRSet) (cpts : NodeBS) : Option MemRegion :=
  mrs.elems.find? fun mr => mr.cptsSet = cpts

namespace Regions

def getRepPointsTo (s : Regions F) (cpts : NodeBS) : NodeBS := (s.cptsToRepCPtsMap cpts).getD cpts

def createMR (s : Regions F) (fn : F) (cpts : NodeBS) : Regions F :=
  let repCPts := s.getRepPointsTo cpts
  let totalMRNum := s.totalMRNum + 1
  match find s.memRegSet repCPts with
  | some mr =>
    let mrs := (s.funToMRsMap fn).insert mr
    { s with totalMRNum := totalMRNum, funToMRsMap := Function.update s.funToMRsMap fn mrs }
  | none =>
    let m : MemRegion := ⟨totalMRNum + 1, repCPts⟩
    let mrs := (s.funToMRsMap fn).insert m
    { s with
      totalMRNum := totalMRNum + 1
      memRegSet := s.memRegSet.insert m
      funToMRsMap := Function.update s.funToMRsMap fn mrs }

def createDisjointMR (s : Regions F) (fn : F) (cpts : NodeBS) : Regions F :=
  let cptsToRepCPtsMap := Function.update s.cptsToRepCPtsMap cpts (some cpts)
  { s with cptsToRepCPtsMap := cptsToRepCPtsMap }.createMR fn cpts

def createDistinctMR (s : Regions F) (fn : F) (pts : NodeBS) : Regions F :=
  pts.elems.foldl (fun s id => s.createDisjointMR fn (singleton id)) s

def getAliasMemRegions (s : Regions F) (cpts : NodeBS) (fn : F) : List MemRegion :=
  (s.funToMRsMap fn).elems.filter fun mr => mr.cptsSet.intersects cpts

/-- The regions with the given sets, all of which must be there. -/
def lookUp (s : Regions F) (sets : List NodeBS) : Option (List MemRegion) :=
  sets.mapM (find s.memRegSet)

end Regions

inductive Strategy
  | distinct
  | intraDisjoint
  | interDisjoint
  deriving DecidableEq

structure Partition (F : Type*) where
  regions : Regions F
  funcToInterMap : F → PointsToList
  inters : PointsToList

namespace ModRef

variable (m : ModRef F)

def distinctMRs : Partition F where
  regions := m.functions.foldl (fun s fn =>
    s.createDistinctMR fn ((m.getPointsToList fn).elems.foldl PointsTo.union ∅)) .empty
  funcToInterMap _ := .empty
  inters := .empty

def intraDisjointMRs : Partition F where
  regions := m.functions.foldl (fun s fn =>
    (computeAll .empty (m.getPointsToList fn).elems).elems.foldl
      (fun s inter => s.createDisjointMR fn inter) s) .empty
  funcToInterMap fn := computeAll .empty (m.getPointsToList fn).elems
  inters := .empty

/-- The sets in the order in which the program-wide pass goes through them. -/
def allPointsTo : List NodeBS := m.functions.flatMap fun fn => (m.getPointsToList fn).elems

def interDisjointMRs : Partition F where
  regions := m.functions.foldl (fun s fn =>
    (m.getPointsToList fn).elems.foldl (fun s cpts =>
      (computeAll .empty m.allPointsTo).elems.foldl
        (fun s inter => if cpts.contains inter then s.createDisjointMR fn inter else s) s) s) .empty
  funcToInterMap _ := .empty
  inters := computeAll .empty m.allPointsTo

def partitionMRs : Strategy → Partition F
  | .distinct => m.distinctMRs
  | .intraDisjoint => m.intraDisjointMRs
  | .interDisjoint => m.interDisjointMRs

end ModRef

namespace Partition

def getMRsForLoadFromInterList (p : Partition F) (cpts : NodeBS) (inters : PointsToList) :
    Option (List MemRegion) :=
  p.regions.lookUp (inters.elems.filter fun inter => cpts.contains inter)

/-- `getMRsForLoad`, which `getMRsForCallSiteRef` calls as well. -/
def getMRsForLoad (p : Partition F) (strategy : Strategy) (cpts : NodeBS) (fn : F) :
    Option (List MemRegion) :=
  match strategy with
  | .distinct => p.regions.lookUp (cpts.elems.map singleton)
  | .intraDisjoint => p.getMRsForLoadFromInterList cpts (p.funcToInterMap fn)
  | .interDisjoint => p.getMRsForLoadFromInterList cpts p.inters

end Partition

end

end SVF.MSSA.MemPartition
