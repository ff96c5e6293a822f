import SVF.MemoryModel.PointsToSets

namespace SVF.MemoryModel.DataFlowPTData

open PointsToSets

abbrev LocID := ℕ

/-- The points-to sets of top-level pointers, and those of address-taken
variables before (IN) and after (OUT) a location. -/
class DFSets (D : Type) where
  getPts : D → NodeID → PointsTo
  getDFInPtsSet : D → LocID → NodeID → PointsTo
  getDFOutPtsSet : D → LocID → NodeID → PointsTo

/-- The operations that `MutableDFPTData` and `PersistentDFPTData` share with
their incremental versions. -/
class DFPTDataBase (B : Type) extends DFSets B where
  empty : B
  addPts : B → NodeID → NodeID → B × Bool
  unionPts : B → NodeID → PointsTo → B × Bool
  hasDFInSet : B → LocID → Bool
  hasDFOutSet : B → LocID → Bool
  /-- The keys of the IN map of a location. -/
  dfInVars : B → LocID → List NodeID
  updateDFInFromIn : B → LocID → NodeID → LocID → NodeID → B × Bool
  updateDFInFromOut : B → LocID → NodeID → LocID → NodeID → B × Bool
  updateDFOutFromIn : B → LocID → NodeID → LocID → NodeID → B × Bool
  updateTLVPts : B → LocID → NodeID → NodeID → B × Bool
  updateATVPts : B → NodeID → LocID → NodeID → B × Bool

class DFPTData (D : Type) extends DFSets D where
  empty : D
  addPts : D → NodeID → NodeID → D × Bool
  unionPts : D → NodeID → PointsTo → D × Bool
  updateDFInFromIn : D → LocID → NodeID → LocID → NodeID → D × Bool
  updateDFInFromOut : D → LocID → NodeID → LocID → NodeID → D × Bool
  updateAllDFInFromIn : D → LocID → NodeID → LocID → NodeID → D × Bool
  updateAllDFInFromOut : D → LocID → NodeID → LocID → NodeID → D × Bool
  updateAllDFOutFromIn : D → LocID → NodeID → Bool → D × Bool
  updateTLVPts : D → LocID → NodeID → NodeID → D × Bool
  updateATVPts : D → NodeID → LocID → NodeID → D × Bool
  clearAllDFOutUpdatedVar : D → LocID → D

def updateEach {D : Type} (update : D → NodeID → D × Bool) (singleton : NodeID)
    (strongUpdates : Bool) (vars : List NodeID) (d : D) : D × Bool :=
  vars.foldl (fun r var =>
    if strongUpdates && var == singleton then r
    else
      let (d, changed) := update r.1 var
      (d, r.2 || changed)) (d, false)

instance {B : Type} [DFPTDataBase B] : DFPTData B where
  empty := DFPTDataBase.empty
  addPts := DFPTDataBase.addPts
  unionPts := DFPTDataBase.unionPts
  updateDFInFromIn := DFPTDataBase.updateDFInFromIn
  updateDFInFromOut := DFPTDataBase.updateDFInFromOut
  updateAllDFInFromIn := DFPTDataBase.updateDFInFromIn
  updateAllDFInFromOut := DFPTDataBase.updateDFInFromOut
  updateAllDFOutFromIn b loc singleton strongUpdates :=
    if DFPTDataBase.hasDFInSet b loc then
      updateEach (fun b var => DFPTDataBase.updateDFOutFromIn b loc var loc var) singleton
        strongUpdates (DFPTDataBase.dfInVars b loc) b
    else (b, false)
  updateTLVPts := DFPTDataBase.updateTLVPts
  updateATVPts := DFPTDataBase.updateATVPts
  clearAllDFOutUpdatedVar b _ := b

/-- The incremental versions propagate the variables that have been updated only. -/
structure IncDFPTData (B : Type) where
  base : B
  outUpdatedVarMap : LocID → PointsTo
  inUpdatedVarMap : LocID → PointsTo

namespace IncDFPTData

variable {B : Type} [DFPTDataBase B] (d : IncDFPTData B)

def setVarDFInSetUpdated (loc : LocID) (var : NodeID) : IncDFPTData B :=
  { d with inUpdatedVarMap :=
      Function.update d.inUpdatedVarMap loc ((d.inUpdatedVarMap loc).set var) }

def removeVarFromDFInUpdatedSet (loc : LocID) (var : NodeID) : IncDFPTData B :=
  { d with inUpdatedVarMap :=
      Function.update d.inUpdatedVarMap loc ((d.inUpdatedVarMap loc).erase var) }

def varHasNewDFInPts (loc : LocID) (var : NodeID) : Bool := var ∈ d.inUpdatedVarMap loc

def getDFInUpdatedVar (loc : LocID) : PointsTo := d.inUpdatedVarMap loc

def setVarDFOutSetUpdated (loc : LocID) (var : NodeID) : IncDFPTData B :=
  { d with outUpdatedVarMap :=
      Function.update d.outUpdatedVarMap loc ((d.outUpdatedVarMap loc).set var) }

def removeVarFromDFOutUpdatedSet (loc : LocID) (var : NodeID) : IncDFPTData B :=
  { d with outUpdatedVarMap :=
      Function.update d.outUpdatedVarMap loc ((d.outUpdatedVarMap loc).erase var) }

def varHasNewDFOutPts (loc : LocID) (var : NodeID) : Bool := var ∈ d.outUpdatedVarMap loc

def getDFOutUpdatedVar (loc : LocID) : PointsTo := d.outUpdatedVarMap loc

def inChanged (r : B × Bool) (loc : LocID) (var : NodeID) : IncDFPTData B × Bool :=
  let d := { d with base := r.1 }
  if r.2 then (d.setVarDFInSetUpdated loc var, true) else (d, false)

def outChanged (r : B × Bool) (loc : LocID) (var : NodeID) : IncDFPTData B × Bool :=
  let d := { d with base := r.1 }
  if r.2 then (d.setVarDFOutSetUpdated loc var, true) else (d, false)

def updateDFInFromIn (srcLoc : LocID) (srcVar : NodeID) (dstLoc : LocID) (dstVar : NodeID) :
    IncDFPTData B × Bool :=
  if d.varHasNewDFInPts srcLoc srcVar then
    d.inChanged (DFPTDataBase.updateDFInFromIn d.base srcLoc srcVar dstLoc dstVar) dstLoc dstVar
  else (d, false)

def updateDFInFromOut (srcLoc : LocID) (srcVar : NodeID) (dstLoc : LocID) (dstVar : NodeID) :
    IncDFPTData B × Bool :=
  if d.varHasNewDFOutPts srcLoc srcVar then
    d.inChanged (DFPTDataBase.updateDFInFromOut d.base srcLoc srcVar dstLoc dstVar) dstLoc dstVar
  else (d, false)

def updateDFOutFromIn (srcLoc : LocID) (srcVar : NodeID) (dstLoc : LocID) (dstVar : NodeID) :
    IncDFPTData B × Bool :=
  if d.varHasNewDFInPts srcLoc srcVar then
    (d.removeVarFromDFInUpdatedSet srcLoc srcVar).outChanged
      (DFPTDataBase.updateDFOutFromIn d.base srcLoc srcVar dstLoc dstVar) dstLoc dstVar
  else (d, false)

def updateAllDFInFromIn (srcLoc : LocID) (srcVar : NodeID) (dstLoc : LocID) (dstVar : NodeID) :
    IncDFPTData B × Bool :=
  d.inChanged (DFPTDataBase.updateDFInFromIn d.base srcLoc srcVar dstLoc dstVar) dstLoc dstVar

def updateAllDFInFromOut (srcLoc : LocID) (srcVar : NodeID) (dstLoc : LocID) (dstVar : NodeID) :
    IncDFPTData B × Bool :=
  d.inChanged (DFPTDataBase.updateDFInFromOut d.base srcLoc srcVar dstLoc dstVar) dstLoc dstVar

def updateAllDFOutFromIn (loc : LocID) (singleton : NodeID) (strongUpdates : Bool) :
    IncDFPTData B × Bool :=
  if DFPTDataBase.hasDFInSet d.base loc then
    updateEach (fun d var => d.updateDFOutFromIn loc var loc var) singleton strongUpdates
      (d.getDFInUpdatedVar loc).elems d
  else (d, false)

def updateTLVPts (srcLoc : LocID) (srcVar dstVar : NodeID) : IncDFPTData B × Bool :=
  if d.varHasNewDFInPts srcLoc srcVar then
    let r := DFPTDataBase.updateTLVPts d.base srcLoc srcVar dstVar
    ({ d.removeVarFromDFInUpdatedSet srcLoc srcVar with base := r.1 }, r.2)
  else (d, false)

def updateATVPts (srcVar : NodeID) (dstLoc : LocID) (dstVar : NodeID) : IncDFPTData B × Bool :=
  d.outChanged (DFPTDataBase.updateATVPts d.base srcVar dstLoc dstVar) dstLoc dstVar

def clearAllDFOutUpdatedVar (loc : LocID) : IncDFPTData B :=
  if DFPTDataBase.hasDFOutSet d.base loc then
    (d.getDFOutUpdatedVar loc).elems.foldl (·.removeVarFromDFOutUpdatedSet loc ·) d
  else d

end IncDFPTData

instance {B : Type} [DFPTDataBase B] : DFPTData (IncDFPTData B) where
  getPts d := DFSets.getPts d.base
  getDFInPtsSet d := DFSets.getDFInPtsSet d.base
  getDFOutPtsSet d := DFSets.getDFOutPtsSet d.base
  empty := ⟨DFPTDataBase.empty, fun _ => .empty, fun _ => .empty⟩
  addPts d var obj :=
    let r := DFPTDataBase.addPts d.base var obj
    ({ d with base := r.1 }, r.2)
  unionPts d var pts :=
    let r := DFPTDataBase.unionPts d.base var pts
    ({ d with base := r.1 }, r.2)
  updateDFInFromIn := IncDFPTData.updateDFInFromIn
  updateDFInFromOut := IncDFPTData.updateDFInFromOut
  updateAllDFInFromIn := IncDFPTData.updateAllDFInFromIn
  updateAllDFInFromOut := IncDFPTData.updateAllDFInFromOut
  updateAllDFOutFromIn := IncDFPTData.updateAllDFOutFromIn
  updateTLVPts := IncDFPTData.updateTLVPts
  updateATVPts := IncDFPTData.updateATVPts
  clearAllDFOutUpdatedVar := IncDFPTData.clearAllDFOutUpdatedVar

end SVF.MemoryModel.DataFlowPTData
