import SVF.MemoryModel.CachedOperations

namespace SVF.MemoryModel.PersistentPointsToDS

open CachedOperations PointsToSets Util.OrderedSets
open PersistentPointsToCache (PointsToID emptyPointsToId Extends)
open PersistentPointsToCache.PointsToCache (getActualPts)

variable {Key : Type} [DecidableEq Key]

/-- With support for reverse points-to sets. The cache is passed along; `none` is the failed
assertion of a cache that has no identifier left. -/
structure PersistentPTData (Key : Type) where
  ptCache : OperationCache PointsTo
  ptsMap : Key → PointsToID
  revPtsMap : NodeID → List Key

namespace PersistentPTData

def new (cache : OperationCache PointsTo) : PersistentPTData Key :=
  ⟨cache, fun _ => emptyPointsToId, fun _ => []⟩

variable (m : PersistentPTData Key)

def clear : PersistentPTData Key := new m.ptCache

def getPts (var : Key) : PointsTo := m.ptCache.getActualPts (m.ptsMap var)

def getRevPts (data : NodeID) : List Key := m.revPtsMap data

def addRevPts (pts : List NodeID) (k : Key) : PersistentPTData Key :=
  pts.foldl (fun m d =>
    { m with revPtsMap := Function.update m.revPtsMap d ((m.revPtsMap d).insert k) }) m

def clearSingleRevPts (d : NodeID) (k : Key) : PersistentPTData Key :=
  { m with revPtsMap := Function.update m.revPtsMap d ((m.revPtsMap d).filter (· ≠ k)) }

def clearRevPts (pts : List NodeID) (k : Key) : PersistentPTData Key :=
  pts.foldl (fun m d => m.clearSingleRevPts d k) m

def unionPtsFromId (dstKey : Key) (srcId : PointsToID) : Option (PersistentPTData Key × Bool) :=
  let dstId := m.ptsMap dstKey
  (m.ptCache.unionPts dstId srcId).map fun r =>
    let m := { m with ptCache := r.1 }
    -- the reverse sets need an update only when the set has changed
    if r.2 ≠ dstId then
      ({ m with ptsMap := Function.update m.ptsMap dstKey r.2 }.addRevPts
        (m.ptCache.getActualPts srcId).elems dstKey, true)
    else (m, false)

def addPts (dstKey : Key) (element : NodeID) : Option (PersistentPTData Key × Bool) :=
  (m.ptCache.emplacePts (PointsTo.set ∅ element)).bind fun r =>
    { m with ptCache := r.1 }.unionPtsFromId dstKey r.2

def unionPts (dstKey srcKey : Key) : Option (PersistentPTData Key × Bool) :=
  m.unionPtsFromId dstKey (m.ptsMap srcKey)

def unionPtsOf (dstKey : Key) (srcData : PointsTo) : Option (PersistentPTData Key × Bool) :=
  (m.ptCache.emplacePts srcData).bind fun r =>
    { m with ptCache := r.1 }.unionPtsFromId dstKey r.2

def clearPts (var : Key) (element : NodeID) : Option (PersistentPTData Key) :=
  (m.ptCache.emplacePts (PointsTo.set ∅ element)).bind fun r =>
    let varId := m.ptsMap var
    (r.1.complementPts varId r.2).map fun r =>
      let m := { m with ptCache := r.1 }
      if varId ≠ r.2 then
        { m with ptsMap := Function.update m.ptsMap var r.2 }.clearSingleRevPts element var
      else m

def clearFullPts (var : Key) : PersistentPTData Key :=
  let m := m.clearRevPts (m.getPts var).elems var
  { m with ptsMap := Function.update m.ptsMap var emptyPointsToId }

end PersistentPTData

structure PersistentDiffPTData (Key : Type) where
  persPTData : PersistentPTData Key
  diffPtsMap : Key → PointsToID
  propaPtsMap : Key → PointsToID

namespace PersistentDiffPTData

def new (cache : OperationCache PointsTo) : PersistentDiffPTData Key :=
  ⟨.new cache, fun _ => emptyPointsToId, fun _ => emptyPointsToId⟩

variable (m : PersistentDiffPTData Key)

def ptCache : OperationCache PointsTo := m.persPTData.ptCache

def withCache (cache : OperationCache PointsTo) : PersistentDiffPTData Key :=
  { m with persPTData := { m.persPTData with ptCache := cache } }

def clear : PersistentDiffPTData Key := new m.ptCache

def getPts (var : Key) : PointsTo := m.persPTData.getPts var

def getRevPts (data : NodeID) : List Key := m.persPTData.getRevPts data

def addPts (dstKey : Key) (element : NodeID) : Option (PersistentDiffPTData Key × Bool) :=
  (m.persPTData.addPts dstKey element).map fun r => ({ m with persPTData := r.1 }, r.2)

def unionPts (dstKey srcKey : Key) : Option (PersistentDiffPTData Key × Bool) :=
  (m.persPTData.unionPts dstKey srcKey).map fun r => ({ m with persPTData := r.1 }, r.2)

def unionPtsOf (dstKey : Key) (srcDataSet : PointsTo) : Option (PersistentDiffPTData Key × Bool) :=
  (m.persPTData.unionPtsOf dstKey srcDataSet).map fun r => ({ m with persPTData := r.1 }, r.2)

def clearPts (var : Key) (element : NodeID) : Option (PersistentDiffPTData Key) :=
  (m.persPTData.clearPts var element).map fun persPTData => { m with persPTData := persPTData }

def clearFullPts (var : Key) : PersistentDiffPTData Key :=
  { m with persPTData := m.persPTData.clearFullPts var }

def getDiffPts (var : Key) : PointsTo := m.ptCache.getActualPts (m.diffPtsMap var)

def getPropaPts (var : Key) : PointsTo := m.ptCache.getActualPts (m.propaPtsMap var)

def computeDiffPts (var : Key) (all : PointsTo) : Option (PersistentDiffPTData Key × Bool) :=
  let propaId := m.propaPtsMap var
  (m.ptCache.emplacePts all).bind fun r =>
    let allId := r.2
    (r.1.complementPts allId propaId).map fun r =>
      ({ m.withCache r.1 with
          diffPtsMap := Function.update m.diffPtsMap var r.2
          propaPtsMap := Function.update m.propaPtsMap var allId },
        r.2 ≠ emptyPointsToId)

def updatePropaPtsMap (src dst : Key) : Option (PersistentDiffPTData Key) :=
  (m.ptCache.intersectPts (m.propaPtsMap dst) (m.propaPtsMap src)).map fun r =>
    { m.withCache r.1 with propaPtsMap := Function.update m.propaPtsMap dst r.2 }

def clearPropaPts (var : Key) : PersistentDiffPTData Key :=
  { m with propaPtsMap := Function.update m.propaPtsMap var emptyPointsToId }

end PersistentDiffPTData

def Maps (c : OperationCache PointsTo) (ids : Key → PointsToID) (sets : Key → PointsTo) : Prop :=
  ∀ k, c.idToPts[ids k]? = some (sets k)

section

variable {c c' : OperationCache PointsTo} {ids : Key → PointsToID} {sets : Key → PointsTo}

omit [DecidableEq Key] in
theorem Maps.extends (h : Maps c ids sets) (hext : Extends c.toPointsToCache c'.toPointsToCache) :
    Maps c' ids sets := fun k => hext _ _ (h k)

theorem Maps.update (h : Maps c ids sets) (k : Key) {id : PointsToID} {x : PointsTo}
    (hid : c.idToPts[id]? = some x) :
    Maps c (Function.update ids k id) (Function.update sets k x) := by
  intro k'
  by_cases hk : k' = k
  · rw [hk, Function.update_self, Function.update_self]
    exact hid
  · rw [Function.update_of_ne hk, Function.update_of_ne hk]
    exact h k'

omit [DecidableEq Key] in
theorem Maps.getActualPts_eq (h : Maps c ids sets) (k : Key) : c.getActualPts (ids k) = sets k :=
  PersistentPointsToCache.getActualPts_eq (h k)

theorem id_eq_iff (h : Consistent c) {i j : PointsToID} {x y : PointsTo}
    (hi : c.idToPts[i]? = some x) (hj : c.idToPts[j]? = some y) : i = j ↔ x = y := by
  constructor
  · rintro rfl
    exact Option.some.inj (hi.symm.trans hj)
  · rintro rfl
    exact Option.some.inj (((h.id x i).mpr hi).symm.trans ((h.id x j).mpr hj))

end

/-- The points-to sets of a store, and that its reverse sets belong to them. -/
structure Represents (m : PersistentPTData Key) (pts : Key → PointsTo) : Prop where
  cache : Consistent m.ptCache
  maps : Maps m.ptCache m.ptsMap pts
  inverse : ∀ k n, k ∈ m.getRevPts n ↔ n ∈ pts k

section

variable (m : PersistentPTData Key) (ns : List NodeID) (k : Key)

theorem addRevPts_eq :
    (m.addRevPts ns k).ptCache = m.ptCache ∧ (m.addRevPts ns k).ptsMap = m.ptsMap := by
  rw [PersistentPTData.addRevPts]
  induction ns generalizing m with
  | nil => exact ⟨rfl, rfl⟩
  | cons e l ih => exact ih _

theorem mem_addRevPts (k' : Key) (n : NodeID) :
    k' ∈ (m.addRevPts ns k).getRevPts n ↔ k' ∈ m.getRevPts n ∨ k' = k ∧ n ∈ ns := by
  rw [PersistentPTData.addRevPts]
  induction ns generalizing m with
  | nil => simp
  | cons e l ih =>
      rw [List.foldl_cons, ih]
      change k' ∈ Function.update m.revPtsMap e _ n ∨ _ ↔ k' ∈ m.revPtsMap n ∨ _
      by_cases h : n = e
      · subst h
        simp only [Function.update_self, List.mem_insert_iff, List.mem_cons, true_or, and_true]
        tauto
      · simp only [Function.update_of_ne h, List.mem_cons, h, false_or]

theorem clearRevPts_eq :
    (m.clearRevPts ns k).ptCache = m.ptCache ∧ (m.clearRevPts ns k).ptsMap = m.ptsMap := by
  rw [PersistentPTData.clearRevPts]
  induction ns generalizing m with
  | nil => exact ⟨rfl, rfl⟩
  | cons e l ih => exact ih _

theorem mem_clearSingleRevPts (e : NodeID) (k' : Key) (n : NodeID) :
    k' ∈ (m.clearSingleRevPts e k).getRevPts n ↔ k' ∈ m.getRevPts n ∧ ¬ (k' = k ∧ n = e) := by
  change k' ∈ Function.update m.revPtsMap e _ n ↔ k' ∈ m.revPtsMap n ∧ _
  by_cases h : n = e
  · subst h
    simp
  · rw [Function.update_of_ne h]
    simp [h]

theorem mem_clearRevPts (k' : Key) (n : NodeID) :
    k' ∈ (m.clearRevPts ns k).getRevPts n ↔ k' ∈ m.getRevPts n ∧ ¬ (k' = k ∧ n ∈ ns) := by
  rw [PersistentPTData.clearRevPts]
  induction ns generalizing m with
  | nil => simp
  | cons e l ih =>
      rw [List.foldl_cons, ih, mem_clearSingleRevPts, List.mem_cons]
      tauto

end

section

variable {m m' : PersistentPTData Key} {pts : Key → PointsTo}

omit [DecidableEq Key] in
theorem represents_new {cache : OperationCache PointsTo} (h : Consistent cache) :
    Represents (.new cache : PersistentPTData Key) (fun _ => ∅) :=
  ⟨h, fun _ => h.empty, fun _ n => iff_of_false List.not_mem_nil (notMem_empty n)⟩

omit [DecidableEq Key] in
theorem Represents.extends (h : Represents m pts) {cache : OperationCache PointsTo}
    (hcons : Consistent cache) (hext : Extends m.ptCache.toPointsToCache cache.toPointsToCache) :
    Represents { m with ptCache := cache } pts :=
  ⟨hcons, h.maps.extends hext, h.inverse⟩

/-- Where the identifier does not change the set does not, and nothing else needs an update. -/
theorem unionPtsFromId_spec (h : Represents m pts) (dst : Key) {srcId : PointsToID} {x : PointsTo}
    (hsrc : m.ptCache.idToPts[srcId]? = some x) {changed : Bool}
    (hrun : m.unionPtsFromId dst srcId = some (m', changed)) :
    Represents m' (Function.update pts dst (pts dst ∪ x)) ∧
      Extends m.ptCache.toPointsToCache m'.ptCache.toPointsToCache ∧
      changed = decide (pts dst ∪ x ≠ pts dst) := by
  obtain ⟨r, hunion, heq⟩ := Option.map_eq_some_iff.mp hrun
  obtain ⟨hcons, hext, hid⟩ := (unionPts_returns h.cache (h.maps dst) hsrc).returned r.1 r.2 hunion
  have hsame := id_eq_iff hcons hid (hext _ _ (h.maps dst))
  by_cases hne : r.2 = m.ptsMap dst
  · rw [if_neg (not_not.mpr hne)] at heq
    obtain ⟨rfl, rfl⟩ := Prod.mk.inj heq
    rw [hsame.mp hne, Function.update_eq_self]
    exact ⟨h.extends hcons hext, hext, by simp⟩
  · rw [if_pos hne] at heq
    obtain ⟨rfl, rfl⟩ := Prod.mk.inj heq
    obtain ⟨hcache, hmap⟩ := addRevPts_eq
      { m with ptCache := r.1, ptsMap := Function.update m.ptsMap dst r.2 }
      (r.1.getActualPts srcId).elems dst
    refine ⟨⟨?_, ?_, fun k n => ?_⟩, ?_, ?_⟩
    · rw [hcache]
      exact hcons
    · rw [hcache, hmap]
      exact (h.maps.extends hext).update dst hid
    · rw [mem_addRevPts, PersistentPointsToCache.getActualPts_eq (hext _ _ hsrc)]
      change k ∈ m.getRevPts n ∨ _ ↔ _
      rw [h.inverse]
      by_cases hk : k = dst
      · subst hk
        rw [Function.update_self, mem_union, eq_self_iff_true, true_and]
        exact Iff.rfl
      · rw [Function.update_of_ne hk]
        simp [hk]
    · rw [hcache]
      exact hext
    · have hunion : pts dst ∪ x ≠ pts dst := fun hunion => hne (hsame.mpr hunion)
      exact (decide_eq_true hunion).symm

theorem emplace_unionPtsFromId_spec (h : Represents m pts) (dst : Key) (x : PointsTo)
    {changed : Bool}
    (hrun : ((m.ptCache.emplacePts x).bind fun r =>
      PersistentPTData.unionPtsFromId { m with ptCache := r.1 } dst r.2) = some (m', changed)) :
    Represents m' (Function.update pts dst (pts dst ∪ x)) ∧
      Extends m.ptCache.toPointsToCache m'.ptCache.toPointsToCache ∧
      changed = decide (pts dst ∪ x ≠ pts dst) := by
  obtain ⟨r, hemplace, hunion⟩ := Option.bind_eq_some_iff.mp hrun
  obtain ⟨hcons, hext, hid⟩ := (emplacePts_returns h.cache x).returned r.1 r.2 hemplace
  obtain ⟨hrep, hext', hchanged⟩ := unionPtsFromId_spec (h.extends hcons hext) dst hid hunion
  exact ⟨hrep, fun id y hy => hext' id y (hext id y hy), hchanged⟩

theorem clearPts_spec (h : Represents m pts) (var : Key) (e : NodeID)
    (hrun : m.clearPts var e = some m') :
    Represents m' (Function.update pts var ((pts var).intersectWithComplement (.set ∅ e))) ∧
      Extends m.ptCache.toPointsToCache m'.ptCache.toPointsToCache := by
  obtain ⟨r, hemplace, hclear⟩ := Option.bind_eq_some_iff.mp hrun
  obtain ⟨hcons, hext, hid⟩ := (emplacePts_returns h.cache _).returned r.1 r.2 hemplace
  obtain ⟨r', hcomplement, heq⟩ := Option.map_eq_some_iff.mp hclear
  obtain ⟨hcons', hext', hid'⟩ :=
    (complementPts_returns hcons (hext _ _ (h.maps var)) hid).returned r'.1 r'.2 hcomplement
  have hboth : Extends m.ptCache.toPointsToCache r'.1.toPointsToCache :=
    fun id y hy => hext' id y (hext id y hy)
  have hsame := id_eq_iff hcons' (hboth _ _ (h.maps var)) hid'
  change _ = some ((pts var).intersectWithComplement (.set ∅ e)) at hid'
  by_cases hne : m.ptsMap var = r'.2
  · rw [if_neg (not_not.mpr hne)] at heq
    subst heq
    rw [show (pts var).intersectWithComplement (.set ∅ e) = pts var from (hsame.mp hne).symm,
      Function.update_eq_self]
    exact ⟨h.extends hcons' hboth, hboth⟩
  · rw [if_pos hne] at heq
    subst heq
    refine ⟨⟨hcons', (h.maps.extends hboth).update var hid', fun k n => ?_⟩, hboth⟩
    rw [mem_clearSingleRevPts]
    change k ∈ m.getRevPts n ∧ _ ↔ _
    rw [h.inverse]
    by_cases hk : k = var
    · subst hk
      rw [Function.update_self, mem_intersectWithComplement, mem_set]
      simp
    · rw [Function.update_of_ne hk]
      simp [hk]

theorem clearFullPts_spec (h : Represents m pts) (var : Key) :
    Represents (m.clearFullPts var) (Function.update pts var ∅) ∧
      (m.clearFullPts var).ptCache = m.ptCache := by
  obtain ⟨hcache, hmap⟩ := clearRevPts_eq m (m.getPts var).elems var
  refine ⟨⟨?_, ?_, fun k n => ?_⟩, hcache⟩
  · change Consistent (m.clearRevPts _ var).ptCache
    rw [hcache]
    exact h.cache
  · change Maps (m.clearRevPts _ var).ptCache (Function.update (m.clearRevPts _ var).ptsMap var _) _
    rw [hcache, hmap]
    exact h.maps.update var h.cache.empty
  · change k ∈ (m.clearRevPts _ var).getRevPts n ↔ _
    rw [mem_clearRevPts, PersistentPTData.getPts, h.maps.getActualPts_eq, h.inverse]
    by_cases hk : k = var
    · subst hk
      rw [Function.update_self]
      simp [mem_elems]
    · rw [Function.update_of_ne hk]
      simp [hk]

end

end SVF.MemoryModel.PersistentPointsToDS
