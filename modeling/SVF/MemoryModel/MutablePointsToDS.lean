import Mathlib.Data.List.Lattice

namespace SVF.MemoryModel.MutablePointsToDS

variable {Key Data : Type} [DecidableEq Key] [DecidableEq Data]

/-- `DataSet` and `KeySet`: lists without order for the sets that the source
iterates in an order of its own. -/
structure MutablePTData (Key Data : Type) where
  ptsMap : Key → List Data
  revPtsMap : Data → List Key

namespace MutablePTData

def empty : MutablePTData Key Data := ⟨fun _ => [], fun _ => []⟩

variable (m : MutablePTData Key Data)

def getPts (var : Key) : List Data := m.ptsMap var

def getRevPts (datum : Data) : List Key := m.revPtsMap datum

def addSingleRevPts (datum : Data) (tgr : Key) : MutablePTData Key Data :=
  { m with revPtsMap := Function.update m.revPtsMap datum ((m.revPtsMap datum).insert tgr) }

def addRevPts (ptsData : List Data) (tgr : Key) : MutablePTData Key Data :=
  ptsData.foldl (fun m datum => m.addSingleRevPts datum tgr) m

def addPts (dstKey : Key) (element : Data) : MutablePTData Key Data × Bool :=
  let m := m.addSingleRevPts element dstKey
  ({ m with ptsMap := Function.update m.ptsMap dstKey ((m.ptsMap dstKey).insert element) },
    element ∉ m.ptsMap dstKey)

def unionPts (dstKey : Key) (srcDataSet : List Data) : MutablePTData Key Data × Bool :=
  let m := m.addRevPts srcDataSet dstKey
  ({ m with ptsMap := Function.update m.ptsMap dstKey (m.ptsMap dstKey ∪ srcDataSet) },
    srcDataSet.any (· ∉ m.ptsMap dstKey))

def clearPts (var : Key) (element : Data) : MutablePTData Key Data :=
  { ptsMap := Function.update m.ptsMap var ((m.ptsMap var).filter (· ≠ element))
    revPtsMap := Function.update m.revPtsMap element ((m.revPtsMap element).filter (· ≠ var)) }

def clearRevPts (pts : List Data) (k : Key) : MutablePTData Key Data :=
  pts.foldl (fun m d =>
    { m with revPtsMap := Function.update m.revPtsMap d ((m.revPtsMap d).filter (· ≠ k)) }) m

def clearFullPts (var : Key) : MutablePTData Key Data :=
  let m := m.clearRevPts (m.ptsMap var) var
  { m with ptsMap := Function.update m.ptsMap var [] }

def Inverse : Prop := ∀ k d, k ∈ m.getRevPts d ↔ d ∈ m.getPts k

end MutablePTData

structure MutableDiffPTData (Key Data : Type) where
  mutPTData : MutablePTData Key Data
  diffPtsMap : Key → List Data
  propaPtsMap : Key → List Data

namespace MutableDiffPTData

def empty : MutableDiffPTData Key Data := ⟨.empty, fun _ => [], fun _ => []⟩

variable (m : MutableDiffPTData Key Data)

def getPts (var : Key) : List Data := m.mutPTData.getPts var

def getRevPts (datum : Data) : List Key := m.mutPTData.getRevPts datum

def addPts (dstKey : Key) (element : Data) : MutableDiffPTData Key Data × Bool :=
  let (mutPTData, changed) := m.mutPTData.addPts dstKey element
  ({ m with mutPTData := mutPTData }, changed)

def unionPts (dstKey : Key) (srcDataSet : List Data) : MutableDiffPTData Key Data × Bool :=
  let (mutPTData, changed) := m.mutPTData.unionPts dstKey srcDataSet
  ({ m with mutPTData := mutPTData }, changed)

def clearPts (var : Key) (element : Data) : MutableDiffPTData Key Data :=
  { m with mutPTData := m.mutPTData.clearPts var element }

def clearFullPts (var : Key) : MutableDiffPTData Key Data :=
  { m with mutPTData := m.mutPTData.clearFullPts var }

/-- Only the points-to sets are cleared. -/
def clear : MutableDiffPTData Key Data := { m with mutPTData := .empty }

def getDiffPts (var : Key) : List Data := m.diffPtsMap var

def getPropaPts (var : Key) : List Data := m.propaPtsMap var

/-- The difference is what is in `all` and not propagated yet; then all of it
counts as propagated. -/
def computeDiffPts (var : Key) (all : List Data) : MutableDiffPTData Key Data × Bool :=
  let diff := all.filter (· ∉ m.propaPtsMap var)
  ({ m with
      diffPtsMap := Function.update m.diffPtsMap var diff
      propaPtsMap := Function.update m.propaPtsMap var all },
    !diff.isEmpty)

def updatePropaPtsMap (src dst : Key) : MutableDiffPTData Key Data :=
  { m with
    propaPtsMap := Function.update m.propaPtsMap dst
      ((m.propaPtsMap dst).filter (· ∈ m.propaPtsMap src)) }

def clearPropaPts (var : Key) : MutableDiffPTData Key Data :=
  { m with propaPtsMap := Function.update m.propaPtsMap var [] }

end MutableDiffPTData

section

variable (m : MutablePTData Key Data)

theorem mem_addRevPts (ptsData : List Data) (tgr : Key) (k : Key) (d : Data) :
    k ∈ (m.addRevPts ptsData tgr).revPtsMap d ↔ k ∈ m.revPtsMap d ∨ k = tgr ∧ d ∈ ptsData := by
  rw [MutablePTData.addRevPts]
  induction ptsData generalizing m with
  | nil => simp
  | cons e l ih =>
      rw [List.foldl_cons, ih, MutablePTData.addSingleRevPts]
      by_cases h : d = e
      · subst h
        simp only [Function.update_self, List.mem_insert_iff, List.mem_cons, true_or, and_true]
        tauto
      · simp only [Function.update_of_ne h, List.mem_cons, h, false_or]

theorem ptsMap_addRevPts (ptsData : List Data) (tgr : Key) :
    (m.addRevPts ptsData tgr).ptsMap = m.ptsMap := by
  rw [MutablePTData.addRevPts]
  induction ptsData generalizing m with
  | nil => rfl
  | cons e l ih => exact ih _

theorem mem_unionPts (dst : Key) (src : List Data) (k : Key) (d : Data) :
    d ∈ (m.unionPts dst src).1.getPts k ↔ d ∈ m.getPts k ∨ k = dst ∧ d ∈ src := by
  rw [MutablePTData.unionPts, MutablePTData.getPts, MutablePTData.getPts]
  simp only [ptsMap_addRevPts]
  by_cases h : k = dst
  · subst h
    rw [Function.update_self, List.mem_union_iff]
    simp
  · rw [Function.update_of_ne h]
    simp [h]

theorem unionPts_changed (dst : Key) (src : List Data) :
    (m.unionPts dst src).2 = true ↔ ∃ d ∈ src, d ∉ m.getPts dst := by
  simp [MutablePTData.unionPts, ptsMap_addRevPts, MutablePTData.getPts]

theorem mem_addPts (dst : Key) (e : Data) (k : Key) (d : Data) :
    d ∈ (m.addPts dst e).1.getPts k ↔ d ∈ m.getPts k ∨ k = dst ∧ d = e := by
  change d ∈ Function.update m.ptsMap dst _ k ↔ d ∈ m.ptsMap k ∨ _
  by_cases h : k = dst
  · subst h
    simp only [Function.update_self, MutablePTData.addSingleRevPts, List.mem_insert_iff, true_and]
    exact or_comm
  · rw [Function.update_of_ne h]
    simp [h]

theorem addPts_changed (dst : Key) (e : Data) :
    (m.addPts dst e).2 = true ↔ e ∉ m.getPts dst := decide_eq_true_iff

theorem mem_clearPts (var : Key) (e : Data) (k : Key) (d : Data) :
    d ∈ (m.clearPts var e).getPts k ↔ d ∈ m.getPts k ∧ (k = var → d ≠ e) := by
  change d ∈ Function.update m.ptsMap var _ k ↔ d ∈ m.ptsMap k ∧ _
  by_cases h : k = var
  · subst h
    simp
  · rw [Function.update_of_ne h]
    simp [h]

variable {m}

omit [DecidableEq Key] [DecidableEq Data] in
theorem inverse_empty : (MutablePTData.empty : MutablePTData Key Data).Inverse := by
  intro k d
  simp [MutablePTData.empty, MutablePTData.getRevPts, MutablePTData.getPts]

theorem inverse_unionPts (h : m.Inverse) (dst : Key) (src : List Data) :
    (m.unionPts dst src).1.Inverse := by
  intro k d
  rw [mem_unionPts]
  change k ∈ (m.addRevPts src dst).revPtsMap d ↔ _
  rw [mem_addRevPts]
  exact or_congr (h k d) Iff.rfl

theorem inverse_addPts (h : m.Inverse) (dst : Key) (e : Data) : (m.addPts dst e).1.Inverse := by
  intro k d
  rw [mem_addPts, ← h k d]
  change k ∈ Function.update m.revPtsMap e _ d ↔ k ∈ m.revPtsMap d ∨ _
  by_cases hd : d = e
  · subst hd
    simp only [Function.update_self, List.mem_insert_iff, and_true]
    exact or_comm
  · rw [Function.update_of_ne hd]
    simp [hd]

theorem inverse_clearPts (h : m.Inverse) (var : Key) (e : Data) : (m.clearPts var e).Inverse := by
  intro k d
  rw [mem_clearPts, ← h k d]
  change k ∈ Function.update m.revPtsMap e _ d ↔ k ∈ m.revPtsMap d ∧ _
  by_cases hd : d = e
  · subst hd
    simp only [Function.update_self, List.mem_filter, decide_eq_true_eq, ne_eq, not_true_eq_false,
      imp_false]
  · rw [Function.update_of_ne hd]
    simp [hd]

theorem mem_clearRevPts (pts : List Data) (var k : Key) (d : Data) :
    k ∈ (m.clearRevPts pts var).revPtsMap d ↔ k ∈ m.revPtsMap d ∧ ¬ (k = var ∧ d ∈ pts) := by
  rw [MutablePTData.clearRevPts]
  induction pts generalizing m with
  | nil => simp
  | cons e l ih =>
      rw [List.foldl_cons, ih]
      by_cases h : d = e
      · subst h
        simp only [Function.update_self, List.mem_filter, List.mem_cons, true_or, and_true]
        by_cases hk : k = var
        · simp [hk]
        · simp [hk]
      · simp only [Function.update_of_ne h, List.mem_cons, h, false_or]

theorem ptsMap_clearRevPts (pts : List Data) (var : Key) :
    (m.clearRevPts pts var).ptsMap = m.ptsMap := by
  rw [MutablePTData.clearRevPts]
  induction pts generalizing m with
  | nil => rfl
  | cons e l ih => exact ih

theorem mem_clearFullPts (var k : Key) (d : Data) :
    d ∈ (m.clearFullPts var).getPts k ↔ d ∈ m.getPts k ∧ k ≠ var := by
  change d ∈ Function.update (m.clearRevPts (m.ptsMap var) var).ptsMap var [] k ↔ d ∈ m.ptsMap k ∧ _
  rw [ptsMap_clearRevPts]
  by_cases h : k = var
  · subst h
    simp
  · rw [Function.update_of_ne h]
    simp [h]

theorem inverse_clearFullPts (h : m.Inverse) (var : Key) : (m.clearFullPts var).Inverse := by
  intro k d
  rw [mem_clearFullPts]
  change k ∈ (m.clearRevPts (m.ptsMap var) var).revPtsMap d ↔ _
  rw [mem_clearRevPts, ← h k d]
  change k ∈ m.revPtsMap d ∧ _ ↔ k ∈ m.revPtsMap d ∧ _
  refine and_congr_right fun hk => not_congr ⟨And.left, fun heq => ⟨heq, ?_⟩⟩
  subst heq
  exact (h k d).mp hk

end

section

variable (m : MutableDiffPTData Key Data)

theorem mem_computeDiffPts_diff (var : Key) (all : List Data) (d : Data) :
    d ∈ (m.computeDiffPts var all).1.getDiffPts var ↔ d ∈ all ∧ d ∉ m.getPropaPts var := by
  simp [MutableDiffPTData.computeDiffPts, MutableDiffPTData.getDiffPts,
    MutableDiffPTData.getPropaPts]

theorem getPropaPts_computeDiffPts (var : Key) (all : List Data) (k : Key) :
    (m.computeDiffPts var all).1.getPropaPts k = if k = var then all else m.getPropaPts k :=
  Function.update_apply m.propaPtsMap var all k

theorem mem_updatePropaPtsMap (src dst k : Key) (d : Data) :
    d ∈ (m.updatePropaPtsMap src dst).getPropaPts k ↔
      d ∈ m.getPropaPts k ∧ (k = dst → d ∈ m.getPropaPts src) := by
  change d ∈ Function.update m.propaPtsMap dst _ k ↔ d ∈ m.propaPtsMap k ∧ (_ → d ∈ m.propaPtsMap src)
  by_cases h : k = dst
  · subst h
    simp
  · rw [Function.update_of_ne h]
    simp [h]

end

end SVF.MemoryModel.MutablePointsToDS
