import SVF.MemoryModel.DataFlowPTData

namespace SVF.MemoryModel.LawfulPTData

open PointsToSets DataFlowPTData Util.OrderedSets

inductive FactOf (O : Type)
  | pts (var : NodeID) (obj : O)
  | dfIn (loc : LocID) (var obj : O)
  | dfOut (loc : LocID) (var obj : O)
  deriving DecidableEq

abbrev Fact := FactOf NodeID

def Holds {D : Type} [DFSets D] (d : D) : Fact → Prop
  | .pts var obj => obj ∈ DFSets.getPts d var
  | .dfIn loc var obj => obj ∈ DFSets.getDFInPtsSet d loc var
  | .dfOut loc var obj => obj ∈ DFSets.getDFOutPtsSet d loc var

def facts {D : Type} [DFSets D] (d : D) : Set Fact := {f | Holds d f}

structure Copies {B : Type} [DFSets B] (b : B) (r : B × Bool) (src dst : NodeID → Fact) : Prop where
  facts : ∀ f, f ∈ facts r.1 ↔ f ∈ facts b ∨ ∃ obj, src obj ∈ facts b ∧ f = dst obj
  changed : r.2 = true ↔ ∃ obj, src obj ∈ LawfulPTData.facts b ∧ dst obj ∉ LawfulPTData.facts b

class LawfulDFPTDataBase (B : Type) [DFPTDataBase B] : Prop where
  facts_empty : facts (DFPTDataBase.empty : B) = ∅
  facts_addPts : ∀ (b : B) var obj f, f ∈ facts (DFPTDataBase.addPts b var obj).1 ↔
    f ∈ facts b ∨ f = .pts var obj
  addPts_changed : ∀ (b : B) var obj, (DFPTDataBase.addPts b var obj).2 = true ↔
    .pts var obj ∉ facts b
  facts_unionPts : ∀ (b : B) var pts f, f ∈ facts (DFPTDataBase.unionPts b var pts).1 ↔
    f ∈ facts b ∨ ∃ obj ∈ pts, f = .pts var obj
  unionPts_changed : ∀ (b : B) var pts, (DFPTDataBase.unionPts b var pts).2 = true ↔
    ∃ obj ∈ pts, .pts var obj ∉ facts b
  not_hasDFInSet : ∀ (b : B) loc var obj, DFPTDataBase.hasDFInSet b loc = false →
    .dfIn loc var obj ∉ facts b
  mem_dfInVars : ∀ (b : B) loc var obj, .dfIn loc var obj ∈ facts b →
    var ∈ DFPTDataBase.dfInVars b loc
  updateDFInFromIn : ∀ (b : B) srcLoc srcVar dstLoc dstVar,
    Copies b (DFPTDataBase.updateDFInFromIn b srcLoc srcVar dstLoc dstVar)
      (.dfIn srcLoc srcVar) (.dfIn dstLoc dstVar)
  updateDFInFromOut : ∀ (b : B) srcLoc srcVar dstLoc dstVar,
    Copies b (DFPTDataBase.updateDFInFromOut b srcLoc srcVar dstLoc dstVar)
      (.dfOut srcLoc srcVar) (.dfIn dstLoc dstVar)
  updateDFOutFromIn : ∀ (b : B) srcLoc srcVar dstLoc dstVar,
    Copies b (DFPTDataBase.updateDFOutFromIn b srcLoc srcVar dstLoc dstVar)
      (.dfIn srcLoc srcVar) (.dfOut dstLoc dstVar)
  updateTLVPts : ∀ (b : B) srcLoc srcVar dstVar,
    Copies b (DFPTDataBase.updateTLVPts b srcLoc srcVar dstVar) (.dfIn srcLoc srcVar) (.pts dstVar)
  updateATVPts : ∀ (b : B) srcVar dstLoc dstVar,
    Copies b (DFPTDataBase.updateATVPts b srcVar dstLoc dstVar) (.pts srcVar) (.dfOut dstLoc dstVar)

class UpdatedVars (D : Type) where
  newIn : D → LocID → NodeID → Prop
  newOut : D → LocID → NodeID → Prop

open UpdatedVars (newIn newOut)

/-- An operation adds facts of `new`. What is updated remains so, the variables
of `used` at a location apart, and variables with a new fact become updated. -/
structure Adds {D : Type} [DFSets D] [UpdatedVars D] (d : D) (r : D × Bool) (new : Set Fact)
    (used : LocID → NodeID → Prop) : Prop where
  mono : facts d ⊆ facts r.1
  sound : ∀ f ∈ facts r.1, f ∈ facts d ∨ f ∈ new
  changed : ∀ f ∈ facts r.1, f ∉ facts d → r.2 = true
  keepIn : ∀ loc var, newIn d loc var → newIn r.1 loc var ∨ used loc var
  keepOut : ∀ loc var, newOut d loc var → newOut r.1 loc var
  flagIn : ∀ loc var obj, .dfIn loc var obj ∈ facts r.1 → .dfIn loc var obj ∉ facts d →
    newIn r.1 loc var
  flagOut : ∀ loc var obj, .dfOut loc var obj ∈ facts r.1 → .dfOut loc var obj ∉ facts d →
    newOut r.1 loc var

structure Transfers {D : Type} [DFSets D] [UpdatedVars D] (d : D) (r : D × Bool)
    (src dst : NodeID → Fact) (cond : Prop) (used : LocID → NodeID → Prop) : Prop where
  adds : Adds d r {f | ∃ obj, src obj ∈ facts d ∧ f = dst obj} used
  covers : cond → ∀ obj, src obj ∈ facts d → dst obj ∈ facts r.1

class LawfulDFPTData (D : Type) [DFPTData D] [UpdatedVars D] : Prop where
  facts_empty : facts (DFPTData.empty : D) = ∅
  addPts : ∀ (d : D) var obj, Adds d (DFPTData.addPts d var obj) {.pts var obj} (fun _ _ => False)
  addPts_covers : ∀ (d : D) var obj, .pts var obj ∈ facts (DFPTData.addPts d var obj).1
  unionPts : ∀ (d : D) var pts, Adds d (DFPTData.unionPts d var pts)
    {f | ∃ obj ∈ pts, f = .pts var obj} (fun _ _ => False)
  unionPts_covers : ∀ (d : D) var pts, ∀ obj ∈ pts,
    .pts var obj ∈ facts (DFPTData.unionPts d var pts).1
  updateDFInFromIn : ∀ (d : D) srcLoc srcVar dstLoc dstVar,
    Transfers d (DFPTData.updateDFInFromIn d srcLoc srcVar dstLoc dstVar) (.dfIn srcLoc srcVar)
      (.dfIn dstLoc dstVar) (newIn d srcLoc srcVar) (fun _ _ => False)
  updateDFInFromOut : ∀ (d : D) srcLoc srcVar dstLoc dstVar,
    Transfers d (DFPTData.updateDFInFromOut d srcLoc srcVar dstLoc dstVar) (.dfOut srcLoc srcVar)
      (.dfIn dstLoc dstVar) (newOut d srcLoc srcVar) (fun _ _ => False)
  updateAllDFInFromIn : ∀ (d : D) srcLoc srcVar dstLoc dstVar,
    Transfers d (DFPTData.updateAllDFInFromIn d srcLoc srcVar dstLoc dstVar) (.dfIn srcLoc srcVar)
      (.dfIn dstLoc dstVar) True (fun _ _ => False)
  updateAllDFInFromOut : ∀ (d : D) srcLoc srcVar dstLoc dstVar,
    Transfers d (DFPTData.updateAllDFInFromOut d srcLoc srcVar dstLoc dstVar)
      (.dfOut srcLoc srcVar) (.dfIn dstLoc dstVar) True (fun _ _ => False)
  updateAllDFOutFromIn : ∀ (d : D) loc singleton strongUpdates,
    Adds d (DFPTData.updateAllDFOutFromIn d loc singleton strongUpdates)
      {f | ∃ var obj, ¬ (strongUpdates = true ∧ var = singleton) ∧ .dfIn loc var obj ∈ facts d ∧
        f = .dfOut loc var obj}
      (fun l var => l = loc ∧ ¬ (strongUpdates = true ∧ var = singleton))
  updateAllDFOutFromIn_covers : ∀ (d : D) loc singleton strongUpdates var,
    ¬ (strongUpdates = true ∧ var = singleton) → newIn d loc var → ∀ obj,
      .dfIn loc var obj ∈ facts d →
      .dfOut loc var obj ∈ facts (DFPTData.updateAllDFOutFromIn d loc singleton strongUpdates).1
  updateTLVPts : ∀ (d : D) srcLoc srcVar dstVar,
    Transfers d (DFPTData.updateTLVPts d srcLoc srcVar dstVar) (.dfIn srcLoc srcVar) (.pts dstVar)
      (newIn d srcLoc srcVar) (fun l var => l = srcLoc ∧ var = srcVar)
  updateATVPts : ∀ (d : D) srcVar dstLoc dstVar,
    Transfers d (DFPTData.updateATVPts d srcVar dstLoc dstVar) (.pts srcVar) (.dfOut dstLoc dstVar)
      True (fun _ _ => False)
  facts_clear : ∀ (d : D) loc, facts (DFPTData.clearAllDFOutUpdatedVar d loc) = facts d
  newIn_clear : ∀ (d : D) loc l var,
    newIn (DFPTData.clearAllDFOutUpdatedVar d loc) l var ↔ newIn d l var

section

variable {D : Type} [DFSets D] [UpdatedVars D] {d : D} {r r' : D × Bool} {new new' : Set Fact}
  {used used' : LocID → NodeID → Prop}

theorem Adds.refl (d : D) (b : Bool) (new : Set Fact) (used : LocID → NodeID → Prop) :
    Adds d (d, b) new used :=
  ⟨fun _ h => h, fun _ h => .inl h, fun _ h hn => absurd h hn, fun _ _ h => .inl h,
    fun _ _ h => h, fun _ _ _ h hn => absurd h hn, fun _ _ _ h hn => absurd h hn⟩

theorem Adds.weaken (h : Adds d r new used) (hnew : new ⊆ new')
    (hused : ∀ loc var, used loc var → used' loc var) : Adds d r new' used' :=
  { h with
    sound := fun f hf => (h.sound f hf).imp id (fun hf => hnew hf)
    keepIn := fun loc var hl => (h.keepIn loc var hl).imp id (hused loc var) }

theorem Adds.subset (h : Adds d r new used) {T : Set Fact} (hd : facts d ⊆ T) (hnew : new ⊆ T) :
    facts r.1 ⊆ T :=
  fun f hf => (h.sound f hf).elim (fun hf => hd hf) (fun hf => hnew hf)

theorem Adds.trans (h : Adds d r new used) (h' : Adds r.1 r' new used')
    (hused : ∀ loc var obj, .dfIn loc var obj ∈ new → ¬ used' loc var) :
    Adds d (r'.1, r.2 || r'.2) new (fun loc var => used loc var ∨ used' loc var) := by
  refine ⟨fun f hf => h'.mono (h.mono hf), fun f hf => ?_, fun f hf hn => ?_,
    fun loc var hl => ?_, fun loc var hl => h'.keepOut loc var (h.keepOut loc var hl),
    fun loc var obj hf hn => ?_, fun loc var obj hf hn => ?_⟩
  · rcases h'.sound f hf with hf | hf
    · exact h.sound f hf
    · exact .inr hf
  · by_cases hr : f ∈ facts r.1
    · simp [h.changed f hr hn]
    · simp [h'.changed f hf hr]
  · rcases h.keepIn loc var hl with hl | hl
    · exact (h'.keepIn loc var hl).imp id .inr
    · exact .inr (.inl hl)
  · by_cases hr : .dfIn loc var obj ∈ facts r.1
    · have hnew := (h.sound _ hr).resolve_left hn
      exact (h'.keepIn loc var (h.flagIn loc var obj hr hn)).resolve_right (hused loc var obj hnew)
    · exact h'.flagIn loc var obj hf hr
  · by_cases hr : .dfOut loc var obj ∈ facts r.1
    · exact h'.keepOut loc var (h.flagOut loc var obj hr hn)
    · exact h'.flagOut loc var obj hf hr

end

end SVF.MemoryModel.LawfulPTData
