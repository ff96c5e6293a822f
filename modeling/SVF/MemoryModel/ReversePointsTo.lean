import SVF.MemoryModel.MutablePointsToDS
import SVF.MemoryModel.PersistentPointsToDS

namespace SVF.MemoryModel.ReversePointsTo

open MutablePointsToDS PersistentPointsToDS PointsToSets CachedOperations Util.OrderedSets
open PersistentPointsToCache (Extends)

variable {Key : Type} [DecidableEq Key]

inductive Update (Key : Type)
  | addPts (dstKey : Key) (element : NodeID)
  | unionPts (dstKey srcKey : Key)
  | unionPtsOf (dstKey : Key) (srcDataSet : PointsTo)
  | clearPts (var : Key) (element : NodeID)
  | clearFullPts (var : Key)
  | clear

def updateMutable (m : MutablePTData Key NodeID) : Update Key → MutablePTData Key NodeID
  | .addPts dst e => (m.addPts dst e).1
  | .unionPts dst src => (m.unionPts dst (m.getPts src)).1
  | .unionPtsOf dst pts => (m.unionPts dst pts.elems).1
  | .clearPts var e => m.clearPts var e
  | .clearFullPts var => m.clearFullPts var
  | .clear => .empty

def updatePersistent (m : PersistentPTData Key) : Update Key → Option (PersistentPTData Key)
  | .addPts dst e => (m.addPts dst e).map Prod.fst
  | .unionPts dst src => (m.unionPts dst src).map Prod.fst
  | .unionPtsOf dst pts => (m.unionPtsOf dst pts).map Prod.fst
  | .clearPts var e => m.clearPts var e
  | .clearFullPts var => some (m.clearFullPts var)
  | .clear => some m.clear

inductive Event (Key : Type)
  | update (u : Update Key)
  | other (call : Call PointsTo)

instance (c : OperationCache PointsTo) (call : Call PointsTo) : Decidable (call.Stored c) :=
  match call with
  | .emplacePts _ => .isTrue trivial
  | .unionPts lhs rhs | .complementPts lhs rhs | .intersectPts lhs rhs =>
      inferInstanceAs (Decidable (lhs < c.idToPts.length ∧ rhs < c.idToPts.length))

def stepPersistent (m : PersistentPTData Key) : Event Key → Option (PersistentPTData Key)
  | .update u => updatePersistent m u
  | .other call =>
      if call.Stored m.ptCache then (call.run m.ptCache).map fun r => { m with ptCache := r.1 } else none

def runPersistent (m : PersistentPTData Key) (events : List (Event Key)) : Option (PersistentPTData Key) :=
  events.foldlM stepPersistent m

theorem inverse_update {m : MutablePTData Key NodeID} (h : m.Inverse) (u : Update Key) :
    (updateMutable m u).Inverse := by
  cases u with
  | addPts dst e => exact inverse_addPts h dst e
  | unionPts dst src => exact inverse_unionPts h dst _
  | unionPtsOf dst pts => exact inverse_unionPts h dst _
  | clearPts var e => exact inverse_clearPts h var e
  | clearFullPts var => exact inverse_clearFullPts h var
  | clear => exact inverse_empty

theorem inverse_run {m : MutablePTData Key NodeID} (h : m.Inverse) (updates : List (Update Key)) :
    (updates.foldl updateMutable m).Inverse := by
  induction updates generalizing m with
  | nil => exact h
  | cons u updates ih => exact ih (inverse_update h u)

section

variable {m m' : PersistentPTData Key} {pts : Key → PointsTo}

theorem update_represents (h : Represents m pts) (u : Update Key) (hrun : updatePersistent m u = some m') :
    ∃ pts', Represents m' pts' := by
  cases u with
  | addPts dst e =>
      obtain ⟨⟨m', changed⟩, hadd, rfl⟩ := Option.map_eq_some_iff.mp hrun
      exact ⟨_, (emplace_unionPtsFromId_spec h dst _ hadd).1⟩
  | unionPts dst src =>
      obtain ⟨⟨m', changed⟩, hunion, rfl⟩ := Option.map_eq_some_iff.mp hrun
      exact ⟨_, (unionPtsFromId_spec h dst (h.maps src) hunion).1⟩
  | unionPtsOf dst x =>
      obtain ⟨⟨m', changed⟩, hunion, rfl⟩ := Option.map_eq_some_iff.mp hrun
      exact ⟨_, (emplace_unionPtsFromId_spec h dst x hunion).1⟩
  | clearPts var e => exact ⟨_, (clearPts_spec h var e hrun).1⟩
  | clearFullPts var =>
      obtain rfl := Option.some.inj hrun
      exact ⟨_, (clearFullPts_spec h var).1⟩
  | clear =>
      obtain rfl := Option.some.inj hrun
      exact ⟨_, represents_new h.cache⟩

theorem step_represents (h : Represents m pts) (event : Event Key) (hrun : stepPersistent m event = some m') :
    ∃ pts', Represents m' pts' := by
  cases event with
  | update u => exact update_represents h u hrun
  | other call =>
      rw [stepPersistent] at hrun
      split at hrun
      · rename_i hstored
        obtain ⟨r, hcall, rfl⟩ := Option.map_eq_some_iff.mp hrun
        obtain ⟨hcons, hext⟩ := step_consistent h.cache ⟨call, hstored, r.2, hcall⟩
        exact ⟨pts, h.extends hcons hext⟩
      · cases hrun

theorem run_represents (h : Represents m pts) (events : List (Event Key))
    (hrun : runPersistent m events = some m') : ∃ pts', Represents m' pts' := by
  induction events generalizing m pts with
  | nil =>
      obtain rfl := Option.some.inj hrun
      exact ⟨pts, h⟩
  | cons event events ih =>
      obtain ⟨m₁, hstep, hrest⟩ := Option.bind_eq_some_iff.mp hrun
      obtain ⟨pts₁, h₁⟩ := step_represents h event hstep
      exact ih h₁ hrest

end

/-- After any updates, of a mutable store and of a persistent one that shares its cache. -/
theorem revPts_inverse (updates : List (Update Key)) (events : List (Event Key)) :
    (∀ k n, k ∈ (updates.foldl updateMutable .empty).getRevPts n ↔ n ∈ (updates.foldl updateMutable .empty).getPts k) ∧
    ∀ m : PersistentPTData Key, runPersistent (.new .new) events = some m →
      ∀ k n, k ∈ m.getRevPts n ↔ n ∈ m.getPts k := by
  refine ⟨inverse_run inverse_empty updates, fun m hrun k n => ?_⟩
  obtain ⟨pts, h⟩ := run_represents (represents_new consistent_new) events hrun
  rw [PersistentPTData.getPts, h.maps.getActualPts_eq]
  exact h.inverse k n

/-- An object that is added to 1, copied to 2 and cleared in 1; another store adds a set to the cache. -/
def copied : List (Event ℕ) :=
  [.other (.emplacePts (PointsTo.set ∅ 7)), .update (.addPts 1 5), .update (.unionPts 2 1),
    .update (.clearPts 1 5)]

theorem revPts_inverse_copied : ∃ m : PersistentPTData ℕ, runPersistent (.new .new) copied = some m ∧
    m.getRevPts 5 = [2] ∧ (2 ∈ m.getRevPts 5 ↔ 5 ∈ m.getPts 2) := by
  refine ⟨_, rfl, rfl, ?_⟩
  exact (revPts_inverse [] copied).2 _ rfl 2 5

end SVF.MemoryModel.ReversePointsTo
