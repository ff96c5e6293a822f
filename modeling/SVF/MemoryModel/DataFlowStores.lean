import SVF.MemoryModel.IncrementalPTData
import SVF.MemoryModel.PersistentPointsToCache
import SVF.Util.DefaultMaps

namespace SVF.MemoryModel.DataFlowStores

open PointsToSets DataFlowPTData LawfulPTData PersistentPointsToCache Util.DefaultMaps

inductive Cell
  | pts (var : NodeID)
  | dfIn (loc : LocID) (var : NodeID)
  | dfOut (loc : LocID) (var : NodeID)
  deriving DecidableEq

/-- The maps of data-flow points-to data; `V` is a set or its identifier. -/
structure DFMaps (V : Type) [Inhabited V] where
  ptsMap : DefaultMap NodeID V
  dfInPtsMap : DefaultMap LocID (DefaultMap NodeID V)
  dfOutPtsMap : DefaultMap LocID (DefaultMap NodeID V)

namespace DFMaps

variable {V : Type} [Inhabited V]

def empty : DFMaps V := ⟨.empty, .empty, .empty⟩

def get (m : DFMaps V) : Cell → V
  | .pts var => m.ptsMap.get var
  | .dfIn loc var => (m.dfInPtsMap.get loc).get var
  | .dfOut loc var => (m.dfOutPtsMap.get loc).get var

def set (m : DFMaps V) (cell : Cell) (v : V) : DFMaps V :=
  match cell with
  | .pts var => { m with ptsMap := m.ptsMap.set var v }
  | .dfIn loc var => { m with dfInPtsMap := m.dfInPtsMap.modify loc (·.set var v) }
  | .dfOut loc var => { m with dfOutPtsMap := m.dfOutPtsMap.modify loc (·.set var v) }

def touch (m : DFMaps V) (cell : Cell) : DFMaps V := m.set cell (m.get cell)

end DFMaps

section

variable {V : Type} [Inhabited V] (m : DFMaps V)

theorem get_empty (cell : Cell) : (DFMaps.empty : DFMaps V).get cell = default := by
  cases cell <;> rfl

theorem get_setCell (cell : Cell) (v : V) (c : Cell) :
    (m.set cell v).get c = if c = cell then v else m.get c := by
  cases cell with
  | pts var => cases c <;> simp [DFMaps.set, DFMaps.get, get_set]
  | dfIn loc var =>
      cases c with
      | dfIn l x =>
          by_cases hl : l = loc
          · subst hl
            simp [DFMaps.set, DFMaps.get, get_modify, get_set]
          · simp [DFMaps.set, DFMaps.get, get_modify, hl]
      | _ => simp [DFMaps.set, DFMaps.get]
  | dfOut loc var =>
      cases c with
      | dfOut l x =>
          by_cases hl : l = loc
          · subst hl
            simp [DFMaps.set, DFMaps.get, get_modify, get_set]
          · simp [DFMaps.set, DFMaps.get, get_modify, hl]
      | _ => simp [DFMaps.set, DFMaps.get]

theorem get_touchCell (cell c : Cell) : (m.touch cell).get c = m.get c := by
  rw [DFMaps.touch, get_setCell]
  split
  · rename_i h
    rw [h]
  · rfl

end

/-- A representation of points-to sets: the set itself, or an identifier in a cache. -/
class PtsStore (σ : Type) (V : outParam Type) [Inhabited V] where
  empty : σ
  getActualPts : σ → V → PointsTo
  emplacePts : σ → PointsTo → σ × V
  unionPts : σ → V → V → σ × V
  Inv : σ → Prop
  Stores : σ → V → PointsTo → Prop
  inv_empty : Inv empty
  stores_default : ∀ s, Inv s → Stores s default ∅
  stores_unique : ∀ s v w p, Inv s → Stores s v p → Stores s w p → v = w
  actual : ∀ s v p, Stores s v p → getActualPts s v = p
  emplace : ∀ s p, Inv s → Inv (emplacePts s p).1 ∧
    (∀ v q, Stores s v q → Stores (emplacePts s p).1 v q) ∧
    Stores (emplacePts s p).1 (emplacePts s p).2 p
  union : ∀ s v w p q, Inv s → Stores s v p → Stores s w q → Inv (unionPts s v w).1 ∧
    (∀ u r, Stores s u r → Stores (unionPts s v w).1 u r) ∧
    Stores (unionPts s v w).1 (unionPts s v w).2 (p ∪ q)

instance : PtsStore Unit PointsTo where
  empty := ()
  getActualPts _ pts := pts
  emplacePts _ pts := ((), pts)
  unionPts _ lhs rhs := ((), lhs ∪ rhs)
  Inv _ := True
  Stores _ v p := v = p
  inv_empty := trivial
  stores_default _ _ := rfl
  stores_unique _ _ _ _ _ hv hw := hv.trans hw.symm
  actual _ _ _ h := h
  emplace _ _ _ := ⟨trivial, fun _ _ h => h, rfl⟩
  union _ _ _ _ _ _ hv hw := ⟨trivial, fun _ _ h => h, by rw [hv, hw]⟩

instance : PtsStore (PointsToCache PointsTo) PointsToID where
  empty := .empty
  getActualPts := PointsToCache.getActualPts
  emplacePts := PointsToCache.emplacePts
  unionPts := PointsToCache.unionPts
  Inv := Consistent
  Stores c id p := c.idToPts[id]? = some p
  inv_empty := consistent_empty
  stores_default _ h := h.empty
  stores_unique c v w p h hv hw := by
    have hv := (h.id p v).mpr hv
    rw [(h.id p w).mpr hw, Option.some.injEq] at hv
    exact hv.symm
  actual _ _ _ := getActualPts_eq
  emplace _ p h := emplacePts_spec h p
  union _ _ _ _ _ h hv hw :=
    unionPts_spec union_comm union_absorb empty_union union_self h hv hw

structure DFPTStore (σ V : Type) [Inhabited V] [PtsStore σ V] where
  maps : DFMaps V
  store : σ
  inv : PtsStore.Inv store
  stored : ∀ cell, ∃ p, PtsStore.Stores store (maps.get cell) p

variable {σ V : Type} [Inhabited V] [PtsStore σ V]

theorem stored_set {m : DFMaps V} {s s' : σ} (h : ∀ cell, ∃ p, PtsStore.Stores s (m.get cell) p)
    (hkeep : ∀ v p, PtsStore.Stores s v p → PtsStore.Stores s' v p) (dst : Cell) {v : V}
    (hv : ∃ p, PtsStore.Stores s' v p) (cell : Cell) :
    ∃ p, PtsStore.Stores s' ((m.set dst v).get cell) p := by
  rw [get_setCell]
  split
  · exact hv
  · obtain ⟨p, hp⟩ := h cell
    exact ⟨p, hkeep _ p hp⟩

namespace DFPTStore

def empty : DFPTStore σ V where
  maps := .empty
  store := PtsStore.empty
  inv := PtsStore.inv_empty
  stored cell := by
    rw [get_empty]
    exact ⟨∅, PtsStore.stores_default _ PtsStore.inv_empty⟩

def getPtsOf (d : DFPTStore σ V) (cell : Cell) : PointsTo :=
  PtsStore.getActualPts d.store (d.maps.get cell)

def touch (d : DFPTStore σ V) (cell : Cell) : DFPTStore σ V :=
  { d with
    maps := d.maps.touch cell
    stored := fun c => by
      rw [get_touchCell]
      exact d.stored c }

section

variable [DecidableEq V] (d : DFPTStore σ V)

def unionOf (dst : Cell) (v : V) (hv : ∃ p, PtsStore.Stores d.store v p) :
    DFPTStore σ V × Bool :=
  let oldDst := d.maps.get dst
  let r := PtsStore.unionPts d.store oldDst v
  have hr : PtsStore.Inv r.1 ∧ (∀ u p, PtsStore.Stores d.store u p → PtsStore.Stores r.1 u p) ∧
      ∃ p, PtsStore.Stores r.1 r.2 p := by
    obtain ⟨p, hp⟩ := d.stored dst
    obtain ⟨q, hq⟩ := hv
    obtain ⟨hinv, hkeep, hunion⟩ := PtsStore.union d.store oldDst v p q d.inv hp hq
    exact ⟨hinv, hkeep, p ∪ q, hunion⟩
  ({ maps := d.maps.set dst r.2
     store := r.1
     inv := hr.1
     stored := stored_set d.stored hr.2.1 dst hr.2.2 }, oldDst ≠ r.2)

def unionCells (dst src : Cell) : DFPTStore σ V × Bool :=
  let d := (d.touch dst).touch src
  d.unionOf dst (d.maps.get src) (d.stored src)

def unionPts (var : NodeID) (srcData : PointsTo) : DFPTStore σ V × Bool :=
  let r := PtsStore.emplacePts d.store srcData
  have hr := PtsStore.emplace d.store srcData d.inv
  let d : DFPTStore σ V :=
    { maps := d.maps
      store := r.1
      inv := hr.1
      stored := fun cell => (d.stored cell).imp (hr.2.1 _) }
  d.unionOf (.pts var) r.2 ⟨srcData, hr.2.2⟩

def addPts (var element : NodeID) : DFPTStore σ V × Bool := d.unionPts var (PointsTo.set ∅ element)

end

end DFPTStore

variable [DecidableEq V]

instance : DFPTDataBase (DFPTStore σ V) where
  getPts d var := d.getPtsOf (.pts var)
  getDFInPtsSet d loc var := d.getPtsOf (.dfIn loc var)
  getDFOutPtsSet d loc var := d.getPtsOf (.dfOut loc var)
  empty := .empty
  addPts := DFPTStore.addPts
  unionPts := DFPTStore.unionPts
  hasDFInSet d loc := loc ∈ d.maps.dfInPtsMap.keys
  hasDFOutSet d loc := loc ∈ d.maps.dfOutPtsMap.keys
  dfInVars d loc := (d.maps.dfInPtsMap.get loc).keys
  updateDFInFromIn d srcLoc srcVar dstLoc dstVar :=
    d.unionCells (.dfIn dstLoc dstVar) (.dfIn srcLoc srcVar)
  updateDFInFromOut d srcLoc srcVar dstLoc dstVar :=
    d.unionCells (.dfIn dstLoc dstVar) (.dfOut srcLoc srcVar)
  updateDFOutFromIn d srcLoc srcVar dstLoc dstVar :=
    d.unionCells (.dfOut dstLoc dstVar) (.dfIn srcLoc srcVar)
  updateTLVPts d srcLoc srcVar dstVar := d.unionCells (.pts dstVar) (.dfIn srcLoc srcVar)
  updateATVPts d srcVar dstLoc dstVar := d.unionCells (.dfOut dstLoc dstVar) (.pts srcVar)

section

open DFPTStore

variable (d : DFPTStore σ V)

def factCell : Fact → Cell × NodeID
  | .pts var obj => (.pts var, obj)
  | .dfIn loc var obj => (.dfIn loc var, obj)
  | .dfOut loc var obj => (.dfOut loc var, obj)

omit [DecidableEq V] in
theorem factCell_injective {f g : Fact} (h : factCell f = factCell g) : f = g := by
  cases f <;> cases g <;> simp_all [factCell]

theorem mem_facts_store (f : Fact) : f ∈ facts d ↔ (factCell f).2 ∈ d.getPtsOf (factCell f).1 := by
  cases f <;> exact Iff.rfl

omit [DecidableEq V] in
theorem getPtsOf_touch (cell c : Cell) : (d.touch cell).getPtsOf c = d.getPtsOf c := by
  change PtsStore.getActualPts d.store ((d.maps.touch cell).get c) = _
  rw [get_touchCell]
  rfl

variable {v : V} (hv : ∃ p, PtsStore.Stores d.store v p) (dst : Cell)

theorem getPtsOf_unionOf (c : Cell) : (d.unionOf dst v hv).1.getPtsOf c =
    if c = dst then d.getPtsOf dst ∪ PtsStore.getActualPts d.store v else d.getPtsOf c := by
  obtain ⟨q, hq⟩ := hv
  obtain ⟨p, hp⟩ := d.stored dst
  obtain ⟨-, hkeep, hunion⟩ := PtsStore.union d.store (d.maps.get dst) v p q d.inv hp hq
  change PtsStore.getActualPts _ ((d.maps.set dst _).get c) = _
  rw [get_setCell]
  split
  · rw [getPtsOf, PtsStore.actual _ _ _ hp, PtsStore.actual _ _ _ hq]
    exact PtsStore.actual _ _ _ hunion
  · obtain ⟨r, hr⟩ := d.stored c
    rw [getPtsOf, PtsStore.actual _ _ _ hr]
    exact PtsStore.actual _ _ _ (hkeep _ r hr)

theorem unionOf_changed : (d.unionOf dst v hv).2 = true ↔
    ∃ obj ∈ PtsStore.getActualPts d.store v, obj ∉ d.getPtsOf dst := by
  obtain ⟨q, hq⟩ := hv
  obtain ⟨p, hp⟩ := d.stored dst
  obtain ⟨hinv, hkeep, hunion⟩ := PtsStore.union d.store (d.maps.get dst) v p q d.inv hp hq
  rw [getPtsOf, PtsStore.actual _ _ _ hp, PtsStore.actual _ _ _ hq, ← ne_union_iff]
  change decide _ = true ↔ _
  rw [decide_eq_true_eq, not_iff_not]
  constructor
  · intro heq
    -- both identifiers stand for a set in the new store
    exact calc p = _ := (PtsStore.actual _ _ _ (hkeep _ p hp)).symm
      _ = _ := congrArg _ heq
      _ = p ∪ q := PtsStore.actual _ _ _ hunion
  · intro heq
    rw [← heq] at hunion
    exact PtsStore.stores_unique _ _ _ p hinv (hkeep _ p hp) hunion

theorem mem_facts_unionOf (f : Fact) : f ∈ facts (d.unionOf dst v hv).1 ↔ f ∈ facts d ∨
    (factCell f).1 = dst ∧ (factCell f).2 ∈ PtsStore.getActualPts d.store v := by
  rw [mem_facts_store, mem_facts_store, getPtsOf_unionOf]
  split
  · rename_i heq
    simp [heq]
  · rename_i hne
    simp [hne]

theorem unionCells_copies {src dst : Cell} {srcFact dstFact : NodeID → Fact}
    (hsrc : ∀ obj, factCell (srcFact obj) = (src, obj))
    (hdst : ∀ obj, factCell (dstFact obj) = (dst, obj)) :
    Copies d (d.unionCells dst src) srcFact dstFact := by
  have hold : ∀ c, ((d.touch dst).touch src).getPtsOf c = d.getPtsOf c := fun c => by
    rw [getPtsOf_touch, getPtsOf_touch]
  have hmem : ∀ obj, obj ∈ PtsStore.getActualPts d.store (((d.touch dst).touch src).maps.get src) ↔
      srcFact obj ∈ facts d := fun obj => by
    rw [mem_facts_store, hsrc, ← hold src]
    rfl
  refine ⟨fun f => ?_, ?_⟩
  · rw [unionCells, mem_facts_unionOf, mem_facts_store, mem_facts_store, hold]
    refine or_congr_right ⟨?_, ?_⟩
    · rintro ⟨hcell, hobj⟩
      exact ⟨_, (hmem _).mp hobj, factCell_injective (by rw [hdst, ← hcell])⟩
    · rintro ⟨obj, hobj, rfl⟩
      rw [hdst]
      exact ⟨rfl, (hmem obj).mpr hobj⟩
  · rw [unionCells, unionOf_changed]
    refine exists_congr fun obj => and_congr (hmem obj) ?_
    rw [hold, mem_facts_store, hdst]

theorem unionPts_facts (var : NodeID) (pts : PointsTo) :
    (∀ f, f ∈ facts (d.unionPts var pts).1 ↔ f ∈ facts d ∨ ∃ obj ∈ pts, f = .pts var obj) ∧
      ((d.unionPts var pts).2 = true ↔ ∃ obj ∈ pts, .pts var obj ∉ facts d) := by
  obtain ⟨hinv, hkeep, hnew⟩ := PtsStore.emplace d.store pts d.inv
  have hactual := PtsStore.actual _ _ _ hnew
  have hold : ∀ c, PtsStore.getActualPts (PtsStore.emplacePts d.store pts).1 (d.maps.get c) =
      d.getPtsOf c := fun c => by
    obtain ⟨p, hp⟩ := d.stored c
    rw [getPtsOf, PtsStore.actual _ _ _ hp, PtsStore.actual _ _ _ (hkeep _ p hp)]
  refine ⟨fun f => ?_, ?_⟩
  · rw [DFPTStore.unionPts, mem_facts_unionOf, mem_facts_store, mem_facts_store]
    refine or_congr (by rw [← hold]; rfl) ?_
    change _ ∧ _ ∈ PtsStore.getActualPts (PtsStore.emplacePts d.store pts).1 _ ↔ _
    rw [hactual]
    refine ⟨?_, ?_⟩
    · rintro ⟨hcell, hobj⟩
      exact ⟨_, hobj, factCell_injective (by rw [factCell, ← hcell])⟩
    · rintro ⟨obj, hobj, rfl⟩
      exact ⟨rfl, hobj⟩
  · rw [DFPTStore.unionPts, unionOf_changed]
    change (∃ obj ∈ PtsStore.getActualPts (PtsStore.emplacePts d.store pts).1 _,
      obj ∉ PtsStore.getActualPts (PtsStore.emplacePts d.store pts).1 (d.maps.get (.pts var))) ↔ _
    rw [hactual, hold]
    rfl

omit [DecidableEq V] in
theorem notMem_getPtsOf_default {cell : Cell} (h : d.maps.get cell = default) (obj : NodeID) :
    obj ∉ d.getPtsOf cell := by
  rw [getPtsOf, h, PtsStore.actual _ _ _ (PtsStore.stores_default d.store d.inv)]
  exact notMem_empty obj

instance : LawfulDFPTDataBase (DFPTStore σ V) where
  facts_empty := by
    ext f
    rw [mem_facts_store]
    exact iff_of_false (notMem_getPtsOf_default _ (get_empty _) _) (Set.notMem_empty f)
  facts_addPts d var obj f := by
    refine ((unionPts_facts d var (PointsTo.set ∅ obj)).1 f).trans (or_congr_right ?_)
    simp
  addPts_changed d var obj := by
    refine (unionPts_facts d var (PointsTo.set ∅ obj)).2.trans ?_
    simp
  facts_unionPts d var pts := (unionPts_facts d var pts).1
  unionPts_changed d var pts := (unionPts_facts d var pts).2
  not_hasDFInSet d loc var obj h := by
    change decide (loc ∈ d.maps.dfInPtsMap.keys) = false at h
    rw [decide_eq_false_iff_not] at h
    refine notMem_getPtsOf_default d ?_ obj
    change (d.maps.dfInPtsMap.get loc).get var = default
    rw [d.maps.dfInPtsMap.get_absent loc h]
    rfl
  mem_dfInVars d loc var obj h := by
    by_contra hvar
    have habsent : d.maps.get (.dfIn loc var) = default :=
      (d.maps.dfInPtsMap.get loc).get_absent var hvar
    exact notMem_getPtsOf_default d habsent obj h
  updateDFInFromIn d _ _ _ _ := unionCells_copies d (fun _ => rfl) (fun _ => rfl)
  updateDFInFromOut d _ _ _ _ := unionCells_copies d (fun _ => rfl) (fun _ => rfl)
  updateDFOutFromIn d _ _ _ _ := unionCells_copies d (fun _ => rfl) (fun _ => rfl)
  updateTLVPts d _ _ _ := unionCells_copies d (fun _ => rfl) (fun _ => rfl)
  updateATVPts d _ _ _ := unionCells_copies d (fun _ => rfl) (fun _ => rfl)

end

abbrev MutableDFPTData := DFPTStore Unit PointsTo

abbrev MutableIncDFPTData := IncDFPTData MutableDFPTData

abbrev PersistentDFPTData := DFPTStore (PointsToCache PointsTo) PointsToID

abbrev PersistentIncDFPTData := IncDFPTData PersistentDFPTData

end SVF.MemoryModel.DataFlowStores
