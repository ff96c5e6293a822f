import Mathlib.Data.List.Basic
import Mathlib.Order.Defs.LinearOrder

namespace SVF.MemoryModel.PersistentPointsToCache

abbrev PointsToID := ℕ

abbrev OpCache := PointsToID × PointsToID → Option PointsToID

/-- Every points-to set is stored once; the identifiers are positions in `idToPts`. -/
structure PointsToCache (Data : Type) where
  idToPts : List Data
  ptsToId : Data → Option PointsToID
  unionCache : OpCache

def emptyPointsToId : PointsToID := 0

def minmax (lhs rhs : PointsToID) : PointsToID × PointsToID := (min lhs rhs, max lhs rhs)

namespace PointsToCache

variable {Data : Type} [DecidableEq Data] [EmptyCollection Data] [Union Data]

def empty : PointsToCache Data where
  idToPts := [∅]
  ptsToId pts := if pts = ∅ then some emptyPointsToId else none
  unionCache _ := none

variable (c : PointsToCache Data)

def emplacePts (pts : Data) : PointsToCache Data × PointsToID :=
  match c.ptsToId pts with
  | some id => (c, id)
  | none =>
      let id := c.idToPts.length
      ({ c with
          idToPts := c.idToPts ++ [pts]
          ptsToId := Function.update c.ptsToId pts (some id) }, id)

/-- An identifier that is not in use, where the source fails an assertion, has no elements. -/
def getActualPts (id : PointsToID) : Data := c.idToPts.getD id ∅

/-- `opPts` for unions. The last component tells whether the union was performed. -/
def opUnion (lhs rhs : PointsToID) : PointsToCache Data × PointsToID × Bool :=
  match c.unionCache (minmax lhs rhs) with
  | some id => (c, id, false)
  | none =>
      let (c, resultId) := c.emplacePts (c.getActualPts lhs ∪ c.getActualPts rhs)
      ({ c with unionCache := Function.update c.unionCache (minmax lhs rhs) (some resultId) },
        resultId, true)

def cacheUnion (lhs rhs result : PointsToID) : PointsToCache Data :=
  { c with unionCache := Function.update c.unionCache (minmax lhs rhs) (some result) }

def unionPts (lhs rhs : PointsToID) : PointsToCache Data × PointsToID :=
  let operands := minmax lhs rhs
  if operands.1 = emptyPointsToId then (c, operands.2)
  else if operands.1 = operands.2 then (c, operands.1)
  else
    match c.opUnion lhs rhs with
    | (c, result, true) =>
        let c := if lhs ≠ result then c.cacheUnion lhs result result else c
        let c := if rhs ≠ result then c.cacheUnion rhs result result else c
        (c, result)
    | (c, result, false) => (c, result)

end PointsToCache

open PointsToCache

variable {Data : Type} [DecidableEq Data] [EmptyCollection Data] [Union Data]

structure Consistent (c : PointsToCache Data) : Prop where
  empty : c.idToPts[emptyPointsToId]? = some ∅
  id : ∀ pts id, c.ptsToId pts = some id ↔ c.idToPts[id]? = some pts
  union : ∀ a b id, c.unionCache (a, b) = some id → ∃ x y, c.idToPts[a]? = some x ∧
    c.idToPts[b]? = some y ∧ c.idToPts[id]? = some (x ∪ y)

def Extends (c c' : PointsToCache Data) : Prop :=
  ∀ (id : PointsToID) (pts : Data), c.idToPts[id]? = some pts → c'.idToPts[id]? = some pts

theorem consistent_empty : Consistent (PointsToCache.empty : PointsToCache Data) := by
  refine ⟨rfl, fun pts id => ?_, fun _ _ _ h => by cases h⟩
  change (if pts = ∅ then some emptyPointsToId else none) = some id ↔ [∅][id]? = some pts
  cases id with
  | zero => simp [emptyPointsToId, eq_comm]
  | succ id => simp [emptyPointsToId]

variable {c : PointsToCache Data}

omit [DecidableEq Data] [Union Data] in
theorem getActualPts_eq {id : PointsToID} {pts : Data} (h : c.idToPts[id]? = some pts) :
    c.getActualPts id = pts := by
  rw [getActualPts, List.getD_eq_getElem?_getD, h, Option.getD_some]

omit [DecidableEq Data] [EmptyCollection Data] [Union Data] in
theorem getElem?_push (l : List Data) (pts x : Data) (id : PointsToID) :
    (l ++ [pts])[id]? = some x ↔ l[id]? = some x ∨ id = l.length ∧ x = pts := by
  rcases Nat.lt_trichotomy id l.length with hlt | rfl | hgt
  · rw [List.getElem?_append_left hlt]
    exact ⟨.inl, fun h => h.elim (fun hx => hx) (fun hx => absurd hx.1 (Nat.ne_of_lt hlt))⟩
  · simp [eq_comm]
  · have hne : id - l.length ≠ 0 := Nat.sub_ne_zero_of_lt hgt
    have hnone : l[id]? = none := List.getElem?_eq_none (Nat.le_of_lt hgt)
    rw [List.getElem?_append_right (Nat.le_of_lt hgt), List.getElem?_singleton, if_neg hne, hnone]
    simp [Nat.ne_of_gt hgt]

theorem emplacePts_spec (h : Consistent c) (pts : Data) :
    Consistent (c.emplacePts pts).1 ∧ Extends c (c.emplacePts pts).1 ∧
      (c.emplacePts pts).1.idToPts[(c.emplacePts pts).2]? = some pts := by
  rw [emplacePts]
  cases hid : c.ptsToId pts with
  | some id => exact ⟨h, fun _ _ hx => hx, (h.id pts id).mp hid⟩
  | none =>
      have hext : ∀ {id : PointsToID} {x : Data}, c.idToPts[id]? = some x →
          (c.idToPts ++ [pts])[id]? = some x := fun hx => (getElem?_push _ _ _ _).mpr (.inl hx)
      have hnew : ∀ id : PointsToID, c.idToPts[id]? ≠ some pts := by
        intro id hx
        rw [(h.id pts id).mpr hx] at hid
        cases hid
      refine ⟨⟨hext h.empty, fun x id => ?_, fun a b id hab => ?_⟩, fun _ _ hx => hext hx,
        (getElem?_push _ _ _ _).mpr (.inr ⟨rfl, rfl⟩)⟩
      · change Function.update c.ptsToId pts (some c.idToPts.length) x = some id ↔
          (c.idToPts ++ [pts])[id]? = some x
        rw [getElem?_push]
        by_cases hx : x = pts
        · subst hx
          rw [Function.update_self, Option.some.injEq]
          constructor
          · rintro rfl
            exact .inr ⟨rfl, rfl⟩
          · rintro (hold | ⟨rfl, -⟩)
            · exact absurd hold (hnew id)
            · rfl
        · rw [Function.update_of_ne hx, h.id]
          simp [hx]
      · obtain ⟨x, y, hx, hy, hxy⟩ := h.union a b id hab
        exact ⟨x, y, hext hx, hext hy, hext hxy⟩

section

variable (hcomm : ∀ x y : Data, x ∪ y = y ∪ x) (habsorb : ∀ x y : Data, x ∪ (x ∪ y) = x ∪ y)
  {lhs rhs id : PointsToID} {x y : Data}

include hcomm

omit [DecidableEq Data] [EmptyCollection Data] in
theorem union_minmax (hx : c.idToPts[lhs]? = some x) (hy : c.idToPts[rhs]? = some y) :
    ∃ x' y', c.idToPts[(minmax lhs rhs).1]? = some x' ∧ c.idToPts[(minmax lhs rhs).2]? = some y' ∧
      x' ∪ y' = x ∪ y := by
  rcases Nat.le_total lhs rhs with hle | hle
  · exact ⟨x, y, by rwa [minmax, Nat.min_eq_left hle], by rwa [minmax, Nat.max_eq_right hle], rfl⟩
  · exact ⟨y, x, by rwa [minmax, Nat.min_eq_right hle], by rwa [minmax, Nat.max_eq_left hle],
      hcomm y x⟩

omit [DecidableEq Data] in
theorem consistent_cacheUnion (h : Consistent c) (hx : c.idToPts[lhs]? = some x)
    (hy : c.idToPts[rhs]? = some y) (hid : c.idToPts[id]? = some (x ∪ y)) :
    Consistent (c.cacheUnion lhs rhs id) := by
  refine ⟨h.empty, h.id, fun a b i hab => ?_⟩
  change Function.update c.unionCache (minmax lhs rhs) (some id) (a, b) = some i at hab
  by_cases heq : (a, b) = minmax lhs rhs
  · rw [heq, Function.update_self, Option.some.injEq] at hab
    subst hab
    obtain ⟨x', y', hx', hy', hunion⟩ := union_minmax hcomm hx hy
    rw [← heq] at hx' hy'
    exact ⟨x', y', hx', hy', by rw [hunion]; exact hid⟩
  · rw [Function.update_of_ne heq] at hab
    exact h.union a b i hab

theorem opUnion_spec (h : Consistent c) (hx : c.idToPts[lhs]? = some x)
    (hy : c.idToPts[rhs]? = some y) :
    Consistent (c.opUnion lhs rhs).1 ∧ Extends c (c.opUnion lhs rhs).1 ∧
      (c.opUnion lhs rhs).1.idToPts[(c.opUnion lhs rhs).2.1]? = some (x ∪ y) := by
  rw [opUnion]
  cases hcache : c.unionCache (minmax lhs rhs) with
  | some id =>
      obtain ⟨x', y', hx', hy', hunion⟩ := union_minmax hcomm hx hy
      obtain ⟨u, v, hu, hv, hid⟩ := h.union _ _ id hcache
      have hux : u = x' := Option.some.inj (hu.symm.trans hx')
      have hvy : v = y' := Option.some.inj (hv.symm.trans hy')
      rw [hux, hvy, hunion] at hid
      exact ⟨h, fun _ _ hp => hp, hid⟩
  | none =>
      rw [getActualPts_eq hx, getActualPts_eq hy]
      obtain ⟨hcons, hext, hid⟩ := emplacePts_spec h (x ∪ y)
      exact ⟨consistent_cacheUnion hcomm hcons (hext lhs x hx) (hext rhs y hy) hid, hext, hid⟩

include habsorb

theorem unionPts_spec (hempty : ∀ x : Data, ∅ ∪ x = x) (hidem : ∀ x : Data, x ∪ x = x)
    (h : Consistent c) (hx : c.idToPts[lhs]? = some x) (hy : c.idToPts[rhs]? = some y) :
    Consistent (c.unionPts lhs rhs).1 ∧ Extends c (c.unionPts lhs rhs).1 ∧
      (c.unionPts lhs rhs).1.idToPts[(c.unionPts lhs rhs).2]? = some (x ∪ y) := by
  obtain ⟨x', y', hx', hy', hunion⟩ := union_minmax hcomm hx hy
  rw [unionPts]
  split
  · rename_i hzero
    rw [hzero, h.empty, Option.some.injEq] at hx'
    subst hx'
    rw [hempty] at hunion
    exact ⟨h, fun _ _ hp => hp, hunion ▸ hy'⟩
  · split
    · rename_i heq
      rw [← heq, hx', Option.some.injEq] at hy'
      subst hy'
      rw [hidem] at hunion
      exact ⟨h, fun _ _ hp => hp, hunion ▸ hx'⟩
    · obtain ⟨hcons, hext, hid⟩ := opUnion_spec hcomm h hx hy
      generalize c.opUnion lhs rhs = r at *
      obtain ⟨c', result, performed⟩ := r
      cases performed with
      | false => exact ⟨hcons, hext, hid⟩
      | true =>
          have hl : Consistent (c'.cacheUnion lhs result result) :=
            consistent_cacheUnion hcomm hcons (hext lhs x hx) hid (by rw [habsorb]; exact hid)
          have hr : ∀ c'' : PointsToCache Data, Consistent c'' → c''.idToPts = c'.idToPts →
              Consistent (c''.cacheUnion rhs result result) := by
            intro c'' hcons'' heq
            refine consistent_cacheUnion hcomm hcons'' (x := y) (y := x ∪ y) ?_ ?_ ?_
            · rw [heq]
              exact hext rhs y hy
            · rw [heq]
              exact hid
            · rw [heq, hcomm x y, habsorb, hcomm y x]
              exact hid
          simp only
          split
          · split
            · exact ⟨hr _ hl rfl, hext, hid⟩
            · exact ⟨hr _ hcons rfl, hext, hid⟩
          · split
            · exact ⟨hl, hext, hid⟩
            · exact ⟨hcons, hext, hid⟩

end

end SVF.MemoryModel.PersistentPointsToCache
