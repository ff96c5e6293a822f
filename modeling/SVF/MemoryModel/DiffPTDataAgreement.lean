import SVF.MemoryModel.MutablePointsToDS
import SVF.MemoryModel.PersistentPointsToDS

namespace SVF.MemoryModel.DiffPTDataAgreement

open MutablePointsToDS PersistentPointsToDS PointsToSets CachedOperations Util.OrderedSets Relation
open PersistentPointsToCache (PointsToID emptyPointsToId Extends)

variable {Key : Type} [DecidableEq Key]

/-- A set that is passed by reference: a set of the caller, or what a getter has returned. -/
inductive Arg (Key : Type)
  | set (pts : PointsTo)
  | pts (var : Key)
  | diff (var : Key)

inductive Op (Key : Type)
  | addPts (dstKey : Key) (element : NodeID)
  | unionPts (dstKey srcKey : Key)
  | unionPtsOf (dstKey : Key) (srcDataSet : Arg Key)
  | clearPts (var : Key) (element : NodeID)
  | clearFullPts (var : Key)
  | computeDiffPts (var : Key) (all : Arg Key)
  | updatePropaPtsMap (src dst : Key)
  | clearPropaPts (var : Key)
  | clear
  | getPts (var : Key)
  | getRevPts (datum : NodeID)
  | getDiffPts (var : Key)

inductive Out (Key : Type)
  | done
  | changed (changed : Bool)
  | pts (s : Set NodeID)
  | keys (s : Set Key)

structure Sets (Key : Type) where
  pts : Key → PointsTo
  diff : Key → PointsTo
  propa : Key → PointsTo

namespace Sets

def empty : Sets Key := ⟨fun _ => ∅, fun _ => ∅, fun _ => ∅⟩

variable (s : Sets Key)

def read : Arg Key → PointsTo
  | .set pts => pts
  | .pts var => s.pts var
  | .diff var => s.diff var

def union (dst : Key) (pts : PointsTo) : Sets Key × Out Key :=
  ({ s with pts := Function.update s.pts dst (s.pts dst ∪ pts) },
    .changed (s.pts dst ∪ pts ≠ s.pts dst))

def exec : Op Key → Sets Key × Out Key
  | .addPts dst e => s.union dst (.set ∅ e)
  | .unionPts dst src => s.union dst (s.pts src)
  | .unionPtsOf dst src => s.union dst (s.read src)
  | .clearPts var e =>
      ({ s with pts := Function.update s.pts var ((s.pts var).intersectWithComplement (.set ∅ e)) },
        .done)
  | .clearFullPts var => ({ s with pts := Function.update s.pts var ∅ }, .done)
  | .computeDiffPts var all =>
      let diff := (s.read all).intersectWithComplement (s.propa var)
      ({ s with
          diff := Function.update s.diff var diff
          propa := Function.update s.propa var (s.read all) }, .changed (diff ≠ ∅))
  | .updatePropaPtsMap src dst =>
      ({ s with propa := Function.update s.propa dst ((s.propa dst).inter (s.propa src)) }, .done)
  | .clearPropaPts var => ({ s with propa := Function.update s.propa var ∅ }, .done)
  | .clear => (.empty, .done)
  | .getPts var => (s, .pts {n | n ∈ s.pts var})
  | .getRevPts n => (s, .keys {k | n ∈ s.pts k})
  | .getDiffPts var => (s, .pts {n | n ∈ s.diff var})

end Sets

def readMutable (m : MutableDiffPTData Key NodeID) : Arg Key → List NodeID
  | .set pts => pts.elems
  | .pts var => m.getPts var
  | .diff var => m.getDiffPts var

def execMutable (m : MutableDiffPTData Key NodeID) :
    Op Key → MutableDiffPTData Key NodeID × Out Key
  | .addPts dst e => ((m.addPts dst e).1, .changed (m.addPts dst e).2)
  | .unionPts dst src => ((m.unionPts dst (m.getPts src)).1, .changed (m.unionPts dst (m.getPts src)).2)
  | .unionPtsOf dst src =>
      ((m.unionPts dst (readMutable m src)).1, .changed (m.unionPts dst (readMutable m src)).2)
  | .clearPts var e => (m.clearPts var e, .done)
  | .clearFullPts var => (m.clearFullPts var, .done)
  | .computeDiffPts var all =>
      -- the old difference is cleared before `all` is read
      let m := { m with diffPtsMap := Function.update m.diffPtsMap var [] }
      ((m.computeDiffPts var (readMutable m all)).1,
        .changed (m.computeDiffPts var (readMutable m all)).2)
  | .updatePropaPtsMap src dst => (m.updatePropaPtsMap src dst, .done)
  | .clearPropaPts var => (m.clearPropaPts var, .done)
  | .clear => (m.clear, .done)
  | .getPts var => (m, .pts {n | n ∈ m.getPts var})
  | .getRevPts n => (m, .keys {k | k ∈ m.getRevPts n})
  | .getDiffPts var => (m, .pts {n | n ∈ m.getDiffPts var})

def readPersistent (p : PersistentDiffPTData Key) : Arg Key → PointsTo
  | .set pts => pts
  | .pts var => p.getPts var
  | .diff var => p.getDiffPts var

def execPersistent (p : PersistentDiffPTData Key) :
    Op Key → Option (PersistentDiffPTData Key × Out Key)
  | .addPts dst e => (p.addPts dst e).map fun r => (r.1, .changed r.2)
  | .unionPts dst src => (p.unionPts dst src).map fun r => (r.1, .changed r.2)
  | .unionPtsOf dst src => (p.unionPtsOf dst (readPersistent p src)).map fun r => (r.1, .changed r.2)
  | .clearPts var e => (p.clearPts var e).map fun p => (p, .done)
  | .clearFullPts var => some (p.clearFullPts var, .done)
  | .computeDiffPts var all =>
      (p.computeDiffPts var (readPersistent p all)).map fun r => (r.1, .changed r.2)
  | .updatePropaPtsMap src dst => (p.updatePropaPtsMap src dst).map fun p => (p, .done)
  | .clearPropaPts var => some (p.clearPropaPts var, .done)
  | .clear => some (p.clear, .done)
  | .getPts var => some (p, .pts {n | n ∈ p.getPts var})
  | .getRevPts n => some (p, .keys {k | k ∈ p.getRevPts n})
  | .getDiffPts var => some (p, .pts {n | n ∈ p.getDiffPts var})

section

structure RepresentsPersistent (p : PersistentDiffPTData Key) (s : Sets Key) : Prop where
  base : Represents p.persPTData s.pts
  diff : Maps p.ptCache p.diffPtsMap s.diff
  propa : Maps p.ptCache p.propaPtsMap s.propa

variable {p p' : PersistentDiffPTData Key} {s : Sets Key} {out : Out Key}

omit [DecidableEq Key] in
theorem representsPersistent_new {cache : OperationCache PointsTo} (h : Consistent cache) :
    RepresentsPersistent (.new cache : PersistentDiffPTData Key) .empty :=
  ⟨represents_new h, fun _ => h.empty, fun _ => h.empty⟩

omit [DecidableEq Key] in
theorem RepresentsPersistent.read_eq (h : RepresentsPersistent p s) (arg : Arg Key) :
    readPersistent p arg = s.read arg := by
  cases arg with
  | set pts => rfl
  | pts var => exact h.base.maps.getActualPts_eq var
  | diff var => exact h.diff.getActualPts_eq var

omit [DecidableEq Key] in
theorem RepresentsPersistent.withBase (h : RepresentsPersistent p s) {m : PersistentPTData Key}
    {pts : Key → PointsTo} (hm : Represents m pts)
    (hext : Extends p.ptCache.toPointsToCache m.ptCache.toPointsToCache) :
    RepresentsPersistent { p with persPTData := m } { s with pts := pts } :=
  ⟨hm, h.diff.extends hext, h.propa.extends hext⟩

theorem union_refines (h : RepresentsPersistent p s) (dst : Key) (x : PointsTo)
    {run : Option (PersistentPTData Key × Bool)}
    (hspec : ∀ m changed, run = some (m, changed) →
      Represents m (Function.update s.pts dst (s.pts dst ∪ x)) ∧
        Extends p.ptCache.toPointsToCache m.ptCache.toPointsToCache ∧
        changed = decide (s.pts dst ∪ x ≠ s.pts dst))
    (hrun : ((run.map fun r => ({ p with persPTData := r.1 }, r.2)).map
      fun r => (r.1, Out.changed r.2)) = some (p', out)) :
    RepresentsPersistent p' (s.union dst x).1 ∧ out = (s.union dst x).2 := by
  rw [Option.map_map, Option.map_eq_some_iff] at hrun
  obtain ⟨⟨m, changed⟩, hm, heq⟩ := hrun
  obtain ⟨rfl, rfl⟩ := Prod.mk.inj heq
  obtain ⟨hrep, hext, rfl⟩ := hspec m changed hm
  exact ⟨h.withBase hrep hext, rfl⟩

theorem computeDiffPts_refines (h : RepresentsPersistent p s) (var : Key) (all : Arg Key)
    (hrun : execPersistent p (.computeDiffPts var all) = some (p', out)) :
    RepresentsPersistent p' (s.exec (.computeDiffPts var all)).1 ∧
      out = (s.exec (.computeDiffPts var all)).2 := by
  rw [execPersistent, h.read_eq, Option.map_eq_some_iff] at hrun
  obtain ⟨r, hcompute, heq⟩ := hrun
  obtain ⟨rfl, rfl⟩ := Prod.mk.inj heq
  obtain ⟨r1, hemplace, hcomplement⟩ := Option.bind_eq_some_iff.mp hcompute
  obtain ⟨r2, hdiff, rfl⟩ := Option.map_eq_some_iff.mp hcomplement
  obtain ⟨hcons, hext, hid⟩ := (emplacePts_returns h.base.cache _).returned r1.1 r1.2 hemplace
  obtain ⟨hcons', hext', hid'⟩ :=
    (complementPts_returns hcons hid (h.propa.extends hext var)).returned r2.1 r2.2 hdiff
  have hboth : Extends p.ptCache.toPointsToCache r2.1.toPointsToCache :=
    fun id y hy => hext' id y (hext id y hy)
  refine ⟨⟨h.base.extends hcons' hboth, (h.diff.extends hboth).update var hid',
    (h.propa.extends hboth).update var (hext' _ _ hid)⟩, ?_⟩
  change Out.changed (decide (r2.2 ≠ emptyPointsToId)) = Out.changed (decide _)
  congr 1
  exact decide_eq_decide.mpr (not_congr (id_eq_iff hcons' hid' hcons'.empty))

theorem updatePropaPtsMap_refines (h : RepresentsPersistent p s) (src dst : Key)
    (hrun : execPersistent p (.updatePropaPtsMap src dst) = some (p', out)) :
    RepresentsPersistent p' (s.exec (.updatePropaPtsMap src dst)).1 ∧ out = .done := by
  obtain ⟨p1, hupdate, heq⟩ := Option.map_eq_some_iff.mp hrun
  obtain ⟨rfl, rfl⟩ := Prod.mk.inj heq
  obtain ⟨r, hinter, rfl⟩ := Option.map_eq_some_iff.mp hupdate
  obtain ⟨hcons, hext, hid⟩ :=
    (intersectPts_returns h.base.cache (h.propa dst) (h.propa src)).returned r.1 r.2 hinter
  exact ⟨⟨h.base.extends hcons hext, h.diff.extends hext, (h.propa.extends hext).update dst hid⟩,
    rfl⟩

/-- The persistent store does what a store is for, until its cache is full. -/
theorem execPersistent_refines (h : RepresentsPersistent p s) (op : Op Key)
    (hrun : execPersistent p op = some (p', out)) :
    RepresentsPersistent p' (s.exec op).1 ∧ out = (s.exec op).2 := by
  have hunchanged : ∀ {o : Out Key}, some (p, o) = some (p', out) → p = p' ∧ o = out :=
    fun heq => Prod.mk.inj (Option.some.inj heq)
  cases op with
  | addPts dst e =>
      exact union_refines h dst _ (fun _ _ => emplace_unionPtsFromId_spec h.base dst _) hrun
  | unionPts dst src =>
      exact union_refines h dst _
        (fun _ _ => unionPtsFromId_spec h.base dst (h.base.maps src)) hrun
  | unionPtsOf dst src =>
      rw [execPersistent, h.read_eq] at hrun
      exact union_refines h dst _ (fun _ _ => emplace_unionPtsFromId_spec h.base dst _) hrun
  | clearPts var e =>
      obtain ⟨p1, hclear, heq⟩ := Option.map_eq_some_iff.mp hrun
      obtain ⟨rfl, rfl⟩ := Prod.mk.inj heq
      obtain ⟨m, hm, rfl⟩ := Option.map_eq_some_iff.mp hclear
      obtain ⟨hrep, hext⟩ := clearPts_spec h.base var e hm
      exact ⟨h.withBase hrep hext, rfl⟩
  | clearFullPts var =>
      obtain ⟨rfl, rfl⟩ := Prod.mk.inj (Option.some.inj hrun)
      obtain ⟨hrep, hcache⟩ := clearFullPts_spec h.base var
      refine ⟨h.withBase hrep fun id y hy => ?_, rfl⟩
      rw [hcache]
      exact hy
  | computeDiffPts var all => exact computeDiffPts_refines h var all hrun
  | updatePropaPtsMap src dst => exact updatePropaPtsMap_refines h src dst hrun
  | clearPropaPts var =>
      obtain ⟨rfl, rfl⟩ := Prod.mk.inj (Option.some.inj hrun)
      exact ⟨⟨h.base, h.diff, h.propa.update var h.base.cache.empty⟩, rfl⟩
  | clear =>
      obtain ⟨rfl, rfl⟩ := Prod.mk.inj (Option.some.inj hrun)
      exact ⟨representsPersistent_new h.base.cache, rfl⟩
  | getPts var =>
      obtain ⟨rfl, rfl⟩ := hunchanged hrun
      exact ⟨h, congrArg (fun pts : PointsTo => Out.pts {n | n ∈ pts}) (h.read_eq (.pts var))⟩
  | getRevPts n =>
      obtain ⟨rfl, rfl⟩ := hunchanged hrun
      exact ⟨h, congrArg Out.keys (Set.ext fun k => h.base.inverse k n)⟩
  | getDiffPts var =>
      obtain ⟨rfl, rfl⟩ := hunchanged hrun
      exact ⟨h, congrArg (fun pts : PointsTo => Out.pts {n | n ∈ pts}) (h.read_eq (.diff var))⟩

end

section

structure RepresentsMutable (m : MutableDiffPTData Key NodeID) (s : Sets Key) : Prop where
  pts : ∀ k n, n ∈ m.getPts k ↔ n ∈ s.pts k
  diff : ∀ k n, n ∈ m.getDiffPts k ↔ n ∈ s.diff k
  propa : ∀ k n, n ∈ m.getPropaPts k ↔ n ∈ s.propa k

/-- Where the mutable store does what a store is for: `clear` must find nothing that was
propagated, and a difference must not be computed from itself. -/
def Condition (m : MutableDiffPTData Key NodeID) : Op Key → Prop
  | .clear => ∀ k, m.getDiffPts k = [] ∧ m.getPropaPts k = []
  | .computeDiffPts var (.diff var') => var' = var → m.getDiffPts var = []
  | _ => True

variable {m : MutableDiffPTData Key NodeID} {s : Sets Key}

omit [DecidableEq Key] in
theorem representsMutable_empty :
    RepresentsMutable (.empty : MutableDiffPTData Key NodeID) .empty :=
  ⟨fun _ n => iff_of_false List.not_mem_nil (notMem_empty n),
    fun _ n => iff_of_false List.not_mem_nil (notMem_empty n),
    fun _ n => iff_of_false List.not_mem_nil (notMem_empty n)⟩

omit [DecidableEq Key] in
theorem RepresentsMutable.mem_read (h : RepresentsMutable m s) (arg : Arg Key) (n : NodeID) :
    n ∈ readMutable m arg ↔ n ∈ s.read arg := by
  cases arg with
  | set pts => exact Iff.rfl
  | pts var => exact h.pts var n
  | diff var => exact h.diff var n

omit [DecidableEq Key] in
theorem mem_update_iff [DecidableEq Key] {f : Key → List NodeID} {g : Key → PointsTo}
    (h : ∀ k n, n ∈ f k ↔ n ∈ g k) (var : Key) {l : List NodeID} {x : PointsTo}
    (hx : ∀ n, n ∈ l ↔ n ∈ x) (k : Key) (n : NodeID) :
    n ∈ Function.update f var l k ↔ n ∈ Function.update g var x k := by
  by_cases hk : k = var
  · rw [hk, Function.update_self, Function.update_self]
    exact hx n
  · rw [Function.update_of_ne hk, Function.update_of_ne hk]
    exact h k n

theorem inverse_execMutable (h : m.mutPTData.Inverse) (op : Op Key) :
    (execMutable m op).1.mutPTData.Inverse := by
  cases op with
  | addPts dst e => exact inverse_addPts h dst e
  | unionPts dst src => exact inverse_unionPts h dst _
  | unionPtsOf dst src => exact inverse_unionPts h dst _
  | clearPts var e => exact inverse_clearPts h var e
  | clearFullPts var => exact inverse_clearFullPts h var
  | clear => exact inverse_empty
  | computeDiffPts _ _ | updatePropaPtsMap _ _ | clearPropaPts _ | getPts _ | getRevPts _
  | getDiffPts _ => exact h

theorem union_represents (h : RepresentsMutable m s) (dst : Key) {src : List NodeID} {x : PointsTo}
    (hx : ∀ n, n ∈ src ↔ n ∈ x) :
    RepresentsMutable (m.unionPts dst src).1 (s.union dst x).1 ∧
      (Out.changed (m.unionPts dst src).2 : Out Key) = (s.union dst x).2 := by
  refine ⟨⟨fun k n => ?_, h.diff, h.propa⟩, congrArg Out.changed ?_⟩
  · change n ∈ (m.mutPTData.unionPts dst src).1.getPts k ↔
      n ∈ Function.update s.pts dst (s.pts dst ∪ x) k
    rw [mem_unionPts, hx]
    by_cases hk : k = dst
    · subst hk
      rw [Function.update_self, mem_union, eq_self_iff_true, true_and]
      exact or_congr_left (h.pts k n)
    · rw [Function.update_of_ne hk]
      have hold : n ∈ m.mutPTData.getPts k ↔ n ∈ s.pts k := h.pts k n
      simpa [hk] using hold
  · rw [Bool.eq_iff_iff, decide_eq_true_iff]
    change (m.mutPTData.unionPts dst src).2 = true ↔ _
    rw [unionPts_changed, ne_comm, ne_union_iff]
    constructor
    · rintro ⟨n, hn, hnot⟩
      exact ⟨n, (hx n).mp hn, fun hmem => hnot ((h.pts dst n).mpr hmem)⟩
    · rintro ⟨n, hn, hnot⟩
      exact ⟨n, (hx n).mpr hn, fun hmem => hnot ((h.pts dst n).mp hmem)⟩

theorem addPts_represents (h : RepresentsMutable m s) (dst : Key) (e : NodeID) :
    RepresentsMutable (m.addPts dst e).1 (s.union dst (.set ∅ e)).1 ∧
      (Out.changed (m.addPts dst e).2 : Out Key) = (s.union dst (.set ∅ e)).2 := by
  have hone : ∀ n, n ∈ [e] ↔ n ∈ PointsTo.set ∅ e := by
    intro n
    simp
  obtain ⟨hunion, hchanged⟩ := union_represents h dst hone
  refine ⟨⟨fun k n => ?_, h.diff, h.propa⟩, ?_⟩
  · rw [← hunion.pts]
    change n ∈ (m.mutPTData.addPts dst e).1.getPts k ↔ n ∈ (m.mutPTData.unionPts dst [e]).1.getPts k
    rw [mem_addPts, mem_unionPts, List.mem_singleton]
  · rw [← hchanged]
    refine congrArg Out.changed (Bool.eq_iff_iff.mpr ?_)
    change (m.mutPTData.addPts dst e).2 = true ↔ (m.mutPTData.unionPts dst [e]).2 = true
    rw [addPts_changed, unionPts_changed]
    simp

/-- What `all` is read as when the old difference has been cleared. -/
theorem mem_read_cleared (h : RepresentsMutable m s) (var : Key) (all : Arg Key)
    (hcond : Condition m (.computeDiffPts var all)) (n : NodeID) :
    n ∈ readMutable { m with diffPtsMap := Function.update m.diffPtsMap var [] } all ↔
      n ∈ s.read all := by
  rw [← h.mem_read]
  cases all with
  | set pts => exact Iff.rfl
  | pts var' => exact Iff.rfl
  | diff var' =>
      change n ∈ Function.update m.diffPtsMap var [] var' ↔ n ∈ m.diffPtsMap var'
      by_cases hk : var' = var
      · have hnil : m.diffPtsMap var = [] := hcond hk
        rw [hk, Function.update_self, hnil]
      · rw [Function.update_of_ne hk]

theorem computeDiffPts_represents (h : RepresentsMutable m s) (var : Key) (all : Arg Key)
    (hcond : Condition m (.computeDiffPts var all)) :
    RepresentsMutable (execMutable m (.computeDiffPts var all)).1
        (s.exec (.computeDiffPts var all)).1 ∧
      (execMutable m (.computeDiffPts var all)).2 = (s.exec (.computeDiffPts var all)).2 := by
  have hread := mem_read_cleared h var all hcond
  have hdiff : ∀ n, n ∈ (readMutable { m with diffPtsMap := Function.update m.diffPtsMap var [] }
      all).filter (· ∉ m.propaPtsMap var) ↔
        n ∈ (s.read all).intersectWithComplement (s.propa var) := by
    intro n
    rw [List.mem_filter, decide_eq_true_iff, mem_intersectWithComplement, hread]
    exact and_congr_right fun _ => not_congr (h.propa var n)
  refine ⟨⟨h.pts, fun k n => ?_, mem_update_iff h.propa var hread⟩, congrArg Out.changed ?_⟩
  · change n ∈ Function.update (Function.update m.diffPtsMap var []) var _ k ↔
      n ∈ Function.update s.diff var _ k
    rw [Function.update_idem]
    exact mem_update_iff h.diff var hdiff k n
  · change (!List.isEmpty _) = decide _
    rw [Bool.eq_iff_iff, decide_eq_true_iff, Bool.not_eq_true', List.isEmpty_eq_false_iff_exists_mem]
    constructor
    · rintro ⟨n, hn⟩ hempty
      exact (eq_empty_iff _).mp hempty n ((hdiff n).mp hn)
    · intro hne
      by_contra hnone
      exact hne ((eq_empty_iff _).mpr fun n hn => hnone ⟨n, (hdiff n).mpr hn⟩)

/-- Under the condition the mutable store does what a store is for. -/
theorem execMutable_refines (h : RepresentsMutable m s) (hinv : m.mutPTData.Inverse) (op : Op Key)
    (hcond : Condition m op) :
    RepresentsMutable (execMutable m op).1 (s.exec op).1 ∧
      (execMutable m op).2 = (s.exec op).2 := by
  cases op with
  | addPts dst e => exact addPts_represents h dst e
  | unionPts dst src => exact union_represents h dst (h.pts src)
  | unionPtsOf dst src => exact union_represents h dst (h.mem_read src)
  | clearPts var e =>
      refine ⟨⟨mem_update_iff h.pts var fun n => ?_, h.diff, h.propa⟩, rfl⟩
      rw [List.mem_filter, decide_eq_true_iff, mem_intersectWithComplement, mem_set]
      exact and_congr (h.pts var n) (by simp)
  | clearFullPts var =>
      refine ⟨⟨fun k n => ?_, h.diff, h.propa⟩, rfl⟩
      change n ∈ (m.mutPTData.clearFullPts var).getPts k ↔ n ∈ Function.update s.pts var ∅ k
      rw [mem_clearFullPts]
      by_cases hk : k = var
      · rw [hk, Function.update_self]
        simp
      · rw [Function.update_of_ne hk]
        have hold : n ∈ m.mutPTData.getPts k ↔ n ∈ s.pts k := h.pts k n
        simpa [hk] using hold
  | computeDiffPts var all => exact computeDiffPts_represents h var all hcond
  | updatePropaPtsMap src dst =>
      refine ⟨⟨h.pts, h.diff, mem_update_iff h.propa dst fun n => ?_⟩, rfl⟩
      rw [List.mem_filter, decide_eq_true_iff, mem_inter]
      exact and_congr (h.propa dst n) (h.propa src n)
  | clearPropaPts var =>
      exact ⟨⟨h.pts, h.diff, mem_update_iff h.propa var fun n =>
        iff_of_false List.not_mem_nil (notMem_empty n)⟩, rfl⟩
  | clear =>
      refine ⟨⟨representsMutable_empty.pts, fun k n => ?_, fun k n => ?_⟩, rfl⟩
      · change n ∈ m.getDiffPts k ↔ _
        rw [(hcond k).1]
        exact representsMutable_empty.diff k n
      · change n ∈ m.getPropaPts k ↔ _
        rw [(hcond k).2]
        exact representsMutable_empty.propa k n
  | getPts var => exact ⟨h, congrArg Out.pts (Set.ext (h.pts var))⟩
  | getRevPts n => exact ⟨h, congrArg Out.keys (Set.ext fun k => (hinv k n).trans (h.pts k n))⟩
  | getDiffPts var => exact ⟨h, congrArg Out.pts (Set.ext (h.diff var))⟩

/-- Outside the condition it does not. -/
theorem condition_of_represents (h : RepresentsMutable m s) (op : Op Key)
    (hexec : RepresentsMutable (execMutable m op).1 (s.exec op).1) : Condition m op := by
  cases op with
  | clear =>
      exact fun k => ⟨List.eq_nil_iff_forall_not_mem.mpr fun n hn =>
        notMem_empty n ((hexec.diff k n).mp hn), List.eq_nil_iff_forall_not_mem.mpr fun n hn =>
        notMem_empty n ((hexec.propa k n).mp hn)⟩
  | computeDiffPts var all =>
      cases all with
      | set pts => trivial
      | pts var' => trivial
      | diff var' =>
          rintro rfl
          refine List.eq_nil_iff_forall_not_mem.mpr fun n hn => ?_
          -- what counts as propagated is the cleared set on one side and the old set on the other
          have hpropa := hexec.propa var' n
          change n ∈ Function.update m.propaPtsMap var' (Function.update m.diffPtsMap var' [] var') var'
            ↔ n ∈ Function.update s.propa var' (s.diff var') var' at hpropa
          rw [Function.update_self, Function.update_self, Function.update_self] at hpropa
          exact List.not_mem_nil (hpropa.mpr ((h.diff var' n).mp hn))
  | addPts _ _ | unionPts _ _ | unionPtsOf _ _ | clearPts _ _ | clearFullPts _
  | updatePropaPtsMap _ _ | clearPropaPts _ | getPts _ | getRevPts _ | getDiffPts _ => trivial

end

section

structure Same (m : MutableDiffPTData Key NodeID) (p : PersistentDiffPTData Key) : Prop where
  pts : ∀ k n, n ∈ m.getPts k ↔ n ∈ p.getPts k
  revPts : ∀ k n, k ∈ m.getRevPts n ↔ k ∈ p.getRevPts n
  diff : ∀ k n, n ∈ m.getDiffPts k ↔ n ∈ p.getDiffPts k
  propa : ∀ k n, n ∈ m.getPropaPts k ↔ n ∈ p.getPropaPts k

/-- After every step the sets are equal, and so is what the step returns. The run ends where
the persistent store has no identifier left. -/
def Agrees : MutableDiffPTData Key NodeID → PersistentDiffPTData Key → List (Op Key) → Prop
  | _, _, [] => True
  | m, p, op :: ops => ∀ p' out, execPersistent p op = some (p', out) →
      (execMutable m op).2 = out ∧ Same (execMutable m op).1 p' ∧ Agrees (execMutable m op).1 p' ops

def Meets : MutableDiffPTData Key NodeID → List (Op Key) → Prop
  | _, [] => True
  | m, op :: ops => Condition m op ∧ Meets (execMutable m op).1 ops

/-- The persistent store never runs out of identifiers. -/
def Completes : PersistentDiffPTData Key → List (Op Key) → Prop
  | _, [] => True
  | p, op :: ops => ∃ r, execPersistent p op = some r ∧ Completes r.1 ops

variable {m : MutableDiffPTData Key NodeID} {p : PersistentDiffPTData Key} {s : Sets Key}

omit [DecidableEq Key] in
theorem same_iff (hp : RepresentsPersistent p s) (hinv : m.mutPTData.Inverse) :
    Same m p ↔ RepresentsMutable m s := by
  have hpts : ∀ k, p.getPts k = s.pts k := hp.base.maps.getActualPts_eq
  have hdiff : ∀ k, p.getDiffPts k = s.diff k := hp.diff.getActualPts_eq
  have hpropa : ∀ k, p.getPropaPts k = s.propa k := hp.propa.getActualPts_eq
  constructor
  · intro h
    exact ⟨fun k n => hpts k ▸ h.pts k n, fun k n => hdiff k ▸ h.diff k n,
      fun k n => hpropa k ▸ h.propa k n⟩
  · intro h
    refine ⟨fun k n => (hpts k).symm ▸ h.pts k n, fun k n => ?_,
      fun k n => (hdiff k).symm ▸ h.diff k n, fun k n => (hpropa k).symm ▸ h.propa k n⟩
    exact (hinv k n).trans ((h.pts k n).trans (hp.base.inverse k n).symm)

theorem agrees_of_meets (hm : RepresentsMutable m s) (hinv : m.mutPTData.Inverse)
    (hp : RepresentsPersistent p s) {ops : List (Op Key)} (h : Meets m ops) : Agrees m p ops := by
  induction ops generalizing m p s with
  | nil => trivial
  | cons op ops ih =>
      intro p' out hrun
      obtain ⟨hp', hout⟩ := execPersistent_refines hp op hrun
      obtain ⟨hm', hout'⟩ := execMutable_refines hm hinv op h.1
      have hinv' := inverse_execMutable hinv op
      exact ⟨hout'.trans hout.symm, (same_iff hp' hinv').mpr hm', ih hm' hinv' hp' h.2⟩

theorem meets_of_agrees (hm : RepresentsMutable m s) (hinv : m.mutPTData.Inverse)
    (hp : RepresentsPersistent p s) {ops : List (Op Key)} (hcomplete : Completes p ops)
    (h : Agrees m p ops) : Meets m ops := by
  induction ops generalizing m p s with
  | nil => trivial
  | cons op ops ih =>
      obtain ⟨r, hrun, hrest⟩ := hcomplete
      obtain ⟨-, hsame, hagrees⟩ := h r.1 r.2 hrun
      obtain ⟨hp', -⟩ := execPersistent_refines hp op hrun
      have hinv' := inverse_execMutable hinv op
      have hm' := (same_iff hp' hinv').mp hsame
      exact ⟨condition_of_represents hm op hm', ih hm' hinv' hp' hrest hagrees⟩

end

/-- Over any cache, the two stores agree after every step of a run if every step meets the
condition, and only if, as far as the identifiers of the cache suffice. -/
theorem stores_agree_iff {Key : Type} [DecidableEq Key] (cache : OperationCache PointsTo)
    (h : ReflTransGen Step .new cache) (ops : List (Op Key)) :
    (Meets .empty ops → Agrees .empty (.new cache) ops) ∧
      (Completes (.new cache) ops → (Agrees .empty (.new cache) ops ↔ Meets .empty ops)) := by
  have hcons := (run_consistent consistent_new h).1
  have hp : RepresentsPersistent (.new cache : PersistentDiffPTData Key) .empty :=
    representsPersistent_new hcons
  have hforward : Meets .empty ops → Agrees .empty (.new cache) ops :=
    agrees_of_meets representsMutable_empty inverse_empty hp
  exact ⟨hforward, fun hcomplete => ⟨fun hagrees =>
    meets_of_agrees representsMutable_empty inverse_empty hp hcomplete hagrees, hforward⟩⟩

theorem stores_agree_iff_propagate : Agrees (.empty : MutableDiffPTData ℕ NodeID) (.new .new)
    [.addPts 1 5, .unionPts 2 1, .computeDiffPts 2 (.pts 2), .getDiffPts 2, .clearPts 2 5,
      .computeDiffPts 1 (.diff 2), .clearFullPts 1] :=
  (stores_agree_iff .new .refl _).1
    ⟨trivial, trivial, trivial, trivial, trivial, fun h => by contradiction, trivial, trivial⟩

/-- When the stores are used again after `clear`, the mutable one remembers what was propagated
before. -/
theorem clear_keeps_propagated : ¬ Agrees (.empty : MutableDiffPTData ℕ NodeID) (.new .new)
    [.addPts 1 5, .computeDiffPts 1 (.pts 1), .clear, .addPts 1 5,
      .computeDiffPts 1 (.pts 1)] := by
  intro h
  obtain ⟨-, -, hsecond⟩ := h _ _ rfl
  obtain ⟨-, -, hthird⟩ := hsecond _ _ rfl
  obtain ⟨-, hsame, -⟩ := hthird _ _ rfl
  have hdiff := hsame.diff 1 5
  exact absurd (hdiff.mp (by decide)) (by decide)

end SVF.MemoryModel.DiffPTDataAgreement
