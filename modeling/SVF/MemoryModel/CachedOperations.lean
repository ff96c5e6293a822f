import Mathlib.Algebra.GroupWithZero.Nat
import SVF.MemoryModel.PersistentPointsToCache
import SVF.MemoryModel.PointsToSets

namespace SVF.MemoryModel.CachedOperations

open PersistentPointsToCache PersistentPointsToCache.PointsToCache Relation

inductive SetOp
  | union
  | complement
  | intersection
  deriving DecidableEq

def SetOp.commutative : SetOp → Bool
  | .union | .intersection => true
  | .complement => false

structure OperationCache (Data : Type) extends PointsToCache Data where
  complementCache : OpCache
  intersectionCache : OpCache
  /-- Of 32 bits. -/
  idCounter : ℕ

section

variable {Data : Type} [DecidableEq Data] [EmptyCollection Data] [Union Data] [Inter Data]
  [SDiff Data]

def SetOp.apply (lhs rhs : Data) : SetOp → Data
  | .union => lhs ∪ rhs
  | .complement => lhs \ rhs
  | .intersection => lhs ∩ rhs

namespace OperationCache

def new : OperationCache Data where
  toPointsToCache := .empty
  complementCache _ := none
  intersectionCache _ := none
  idCounter := 1

variable (c : OperationCache Data)

/-- Where the counter has wrapped around the source fails an assertion. -/
def newPointsToId : Option (OperationCache Data × PointsToID) :=
  if c.idCounter = emptyPointsToId then none
  else some ({ c with idCounter := (c.idCounter + 1) % 2 ^ 32 }, c.idCounter)

def emplacePts (pts : Data) : Option (OperationCache Data × PointsToID) :=
  match c.ptsToId pts with
  | some id => some (c, id)
  | none => c.newPointsToId.map fun (c, id) =>
      ({ c with
          idToPts := c.idToPts ++ [pts]
          ptsToId := Function.update c.ptsToId pts (some id) }, id)

def opCache : SetOp → OpCache
  | .union => c.unionCache
  | .complement => c.complementCache
  | .intersection => c.intersectionCache

def operands (op : SetOp) (lhs rhs : PointsToID) : PointsToID × PointsToID :=
  if op.commutative then minmax lhs rhs else (lhs, rhs)

def record (op : SetOp) (lhs rhs result : PointsToID) : OperationCache Data :=
  let cache := Function.update (c.opCache op) (operands op lhs rhs) (some result)
  match op with
  | .union => { c with unionCache := cache }
  | .complement => { c with complementCache := cache }
  | .intersection => { c with intersectionCache := cache }

def opPts (op : SetOp) (lhs rhs : PointsToID) : Option (OperationCache Data × PointsToID × Bool) :=
  match c.opCache op (operands op lhs rhs) with
  | some id => some (c, id, false)
  | none => (c.emplacePts (op.apply (c.getActualPts lhs) (c.getActualPts rhs))).map
      fun (c, resultId) => (c.record op lhs rhs resultId, resultId, true)

def unionPts (lhs rhs : PointsToID) : Option (OperationCache Data × PointsToID) :=
  let operands := minmax lhs rhs
  if operands.1 = emptyPointsToId then some (c, operands.2)
  else if operands.1 = operands.2 then some (c, operands.1)
  else (c.opPts .union lhs rhs).map fun (c, result, opPerformed) =>
    if opPerformed then
      let c := if lhs ≠ result then c.record .union lhs result result else c
      let c := if rhs ≠ result then c.record .union rhs result result else c
      (c, result)
    else (c, result)

def complementPts (lhs rhs : PointsToID) : Option (OperationCache Data × PointsToID) :=
  if lhs = rhs then some (c, emptyPointsToId)
  else if rhs = emptyPointsToId then some (c, lhs)
  else if lhs = emptyPointsToId then some (c, emptyPointsToId)
  else (c.opPts .complement lhs rhs).map fun (c, result, opPerformed) =>
    if opPerformed ∧ result ≠ emptyPointsToId then
      let c := c.record .intersection result rhs emptyPointsToId
      let c := c.record .intersection result lhs result
      let c := c.record .complement result rhs result
      (c, result)
    else (c, result)

def intersectPts (lhs rhs : PointsToID) : Option (OperationCache Data × PointsToID) :=
  let operands := minmax lhs rhs
  if operands.1 = emptyPointsToId then some (c, emptyPointsToId)
  else if operands.1 = operands.2 then some (c, operands.1)
  else (c.opPts .intersection lhs rhs).map fun (c, result, opPerformed) =>
    if opPerformed ∧ result ≠ emptyPointsToId then
      let c := if result ≠ rhs then c.record .intersection result rhs result else c
      let c := if result ≠ lhs then c.record .intersection result lhs result else c
      let c := if result ≠ emptyPointsToId ∧ result ≠ lhs then c.record .union lhs result lhs else c
      let c := if result ≠ emptyPointsToId ∧ result ≠ rhs then c.record .union rhs result rhs else c
      (c, result)
    else (c, result)

end OperationCache

end

/-- A type of sets that are equal when they have the same elements, and whose operations
are right. -/
class SetType (Data : Type) extends EmptyCollection Data, Union Data, SDiff Data, Inter Data where
  Elem : Type
  elems : Data → Set Elem
  elems_injective : Function.Injective elems
  elems_empty : elems ∅ = ∅
  elems_union : ∀ x y, elems (x ∪ y) = elems x ∪ elems y
  elems_sdiff : ∀ x y, elems (x \ y) = elems x \ elems y
  elems_inter : ∀ x y, elems (x ∩ y) = elems x ∩ elems y

attribute [simp] SetType.elems_empty SetType.elems_union SetType.elems_sdiff SetType.elems_inter

section

variable {Data : Type} [SetType Data]

open SetType

def SetOp.sets (s t : Set (Elem Data)) : SetOp → Set (Elem Data)
  | .union => s ∪ t
  | .complement => s \ t
  | .intersection => s ∩ t

theorem elems_apply (op : SetOp) (x y : Data) :
    elems (op.apply x y) = op.sets (elems x) (elems y) := by
  cases op with
  | union => exact elems_union x y
  | complement => exact elems_sdiff x y
  | intersection => exact elems_inter x y

theorem apply_comm {op : SetOp} (h : op.commutative = true) (x y : Data) :
    op.apply x y = op.apply y x := by
  apply elems_injective
  rw [elems_apply, elems_apply]
  cases op with
  | union => exact Set.union_comm _ _
  | complement => contradiction
  | intersection => exact Set.inter_comm _ _

def denotes (c : OperationCache Data) (id : PointsToID) : Set (Elem Data) :=
  elems (c.getActualPts id)

end

section

variable {Data : Type} [DecidableEq Data] [SetType Data]

structure Consistent (c : OperationCache Data) : Prop where
  empty : c.idToPts[emptyPointsToId]? = some ∅
  id : ∀ pts id, c.ptsToId pts = some id ↔ c.idToPts[id]? = some pts
  cached : ∀ op a b id, c.opCache op (a, b) = some id → ∃ x y, c.idToPts[a]? = some x ∧
    c.idToPts[b]? = some y ∧ c.idToPts[id]? = some (op.apply x y)
  counter : c.idCounter = c.idToPts.length % 2 ^ 32
  length : c.idToPts.length ≤ 2 ^ 32

structure Returns (c : OperationCache Data) (r : Option (OperationCache Data × PointsToID))
    (pts : Data) : Prop where
  exhausted : r = none → c.idToPts.length = 2 ^ 32
  returned : ∀ c' id, r = some (c', id) → Consistent c' ∧
    Extends c.toPointsToCache c'.toPointsToCache ∧ c'.idToPts[id]? = some pts

variable {c : OperationCache Data} {x y : Data} {lhs rhs id : PointsToID}

theorem consistent_new : Consistent (OperationCache.new : OperationCache Data) := by
  have hold : PersistentPointsToCache.Consistent (.empty : PointsToCache Data) := consistent_empty
  refine ⟨hold.empty, hold.id, fun op a b id h => ?_, rfl, Nat.one_le_two_pow⟩
  cases op <;> cases h

omit [DecidableEq Data] in
theorem Consistent.returns (h : Consistent c) (hx : c.idToPts[id]? = some x) :
    Returns c (some (c, id)) x := by
  refine ⟨fun hnone => (Option.some_ne_none _ hnone).elim, fun c' id' heq => ?_⟩
  obtain ⟨rfl, rfl⟩ := Prod.mk.inj (Option.some.inj heq)
  exact ⟨h, fun _ _ hp => hp, hx⟩

omit [DecidableEq Data] in
theorem newPointsToId_eq (h : Consistent c) :
    c.newPointsToId = if c.idToPts.length = 2 ^ 32 then none
      else some ({ c with idCounter := (c.idToPts.length + 1) % 2 ^ 32 }, c.idToPts.length) := by
  have hmod := h.counter
  have hle := h.length
  have hpos : 0 < c.idToPts.length := (List.getElem?_eq_some_iff.mp h.empty).1
  rw [OperationCache.newPointsToId]
  change (if c.idCounter = 0 then _ else _) = _
  by_cases hfull : c.idToPts.length = 2 ^ 32
  · have hzero : c.idCounter = 0 := by omega
    rw [if_pos hzero, if_pos hfull]
  · have hlength : c.idCounter = c.idToPts.length := by omega
    have hpositive : c.idCounter ≠ 0 := by omega
    rw [if_neg hpositive, if_neg hfull, hlength]

theorem Consistent.push (h : Consistent c) {pts : Data} (hid : c.ptsToId pts = none)
    (hlength : c.idToPts.length ≠ 2 ^ 32) :
    Consistent { c with
      idToPts := c.idToPts ++ [pts]
      ptsToId := Function.update c.ptsToId pts (some c.idToPts.length)
      idCounter := (c.idToPts.length + 1) % 2 ^ 32 } := by
  have hext : ∀ {id : PointsToID} {x : Data}, c.idToPts[id]? = some x →
      (c.idToPts ++ [pts])[id]? = some x := fun hx => (getElem?_push _ _ _ _).mpr (.inl hx)
  have hnew : ∀ id : PointsToID, c.idToPts[id]? ≠ some pts := by
    intro id hx
    rw [(h.id pts id).mpr hx] at hid
    cases hid
  have hle := h.length
  refine ⟨hext h.empty, fun x id => ?_, fun op a b id hab => ?_, ?_, ?_⟩
  · change Function.update c.ptsToId pts (some c.idToPts.length) x = some id ↔
      (c.idToPts ++ [pts])[id]? = some x
    rw [getElem?_push]
    by_cases hx : x = pts
    · subst hx
      rw [Function.update_self, Option.some.injEq]
      constructor
      · intro heq
        exact .inr ⟨heq.symm, rfl⟩
      · intro hmem
        rcases hmem with hold | ⟨heq, -⟩
        · exact absurd hold (hnew id)
        · exact heq.symm
    · rw [Function.update_of_ne hx, h.id]
      simp [hx]
  · have hcache : c.opCache op (a, b) = some id := by
      cases op <;> exact hab
    obtain ⟨x, y, hx, hy, hxy⟩ := h.cached op a b id hcache
    exact ⟨x, y, hext hx, hext hy, hext hxy⟩
  · change _ = (c.idToPts ++ [pts]).length % 2 ^ 32
    rw [List.length_append, List.length_singleton]
  · change (c.idToPts ++ [pts]).length ≤ 2 ^ 32
    rw [List.length_append, List.length_singleton]
    omega

theorem emplacePts_returns (h : Consistent c) (pts : Data) :
    Returns c (c.emplacePts pts) pts := by
  rw [OperationCache.emplacePts]
  cases hid : c.ptsToId pts with
  | some id => exact h.returns ((h.id pts id).mp hid)
  | none =>
      rw [newPointsToId_eq h]
      by_cases hfull : c.idToPts.length = 2 ^ 32
      · rw [if_pos hfull]
        exact ⟨fun _ => hfull, fun _ _ heq => (Option.some_ne_none _ heq.symm).elim⟩
      · rw [if_neg hfull]
        refine ⟨fun hnone => (Option.some_ne_none _ hnone).elim, fun c' id' heq => ?_⟩
        obtain ⟨rfl, rfl⟩ := Prod.mk.inj (Option.some.inj heq)
        exact ⟨h.push hid hfull, fun id x hx => (getElem?_push _ _ _ _).mpr (.inl hx),
          (getElem?_push _ _ _ _).mpr (.inr ⟨rfl, rfl⟩)⟩

omit [DecidableEq Data] [SetType Data] in
theorem opCache_record (c : OperationCache Data) (op op' : SetOp) (lhs rhs result : PointsToID) :
    (c.record op lhs rhs result).opCache op' =
      if op' = op then
        Function.update (c.opCache op) (OperationCache.operands op lhs rhs) (some result)
      else c.opCache op' := by
  cases op <;> cases op' <;> rfl

omit [DecidableEq Data] [SetType Data] in
theorem idToPts_record (c : OperationCache Data) (op : SetOp) (lhs rhs result : PointsToID) :
    (c.record op lhs rhs result).toPointsToCache.idToPts = c.idToPts := by
  cases op <;> rfl

omit [DecidableEq Data] in
/-- The operands under which a result is cached give the same result. -/
theorem apply_operands (op : SetOp) (hx : c.idToPts[lhs]? = some x)
    (hy : c.idToPts[rhs]? = some y) :
    ∃ x' y', c.idToPts[(OperationCache.operands op lhs rhs).1]? = some x' ∧
      c.idToPts[(OperationCache.operands op lhs rhs).2]? = some y' ∧
        op.apply x' y' = op.apply x y := by
  rw [OperationCache.operands]
  split
  · rename_i hcomm
    rcases Nat.le_total lhs rhs with hle | hle
    · exact ⟨x, y, by rwa [minmax, Nat.min_eq_left hle], by rwa [minmax, Nat.max_eq_right hle], rfl⟩
    · exact ⟨y, x, by rwa [minmax, Nat.min_eq_right hle], by rwa [minmax, Nat.max_eq_left hle],
        apply_comm hcomm y x⟩
  · exact ⟨x, y, hx, hy, rfl⟩

omit [DecidableEq Data] in
theorem Consistent.record (h : Consistent c) (op : SetOp) (hx : c.idToPts[lhs]? = some x)
    (hy : c.idToPts[rhs]? = some y) (hid : c.idToPts[id]? = some (op.apply x y)) :
    Consistent (c.record op lhs rhs id) := by
  have hpts := idToPts_record c op lhs rhs id
  refine ⟨?_, ?_, fun op' a b i hab => ?_, ?_, ?_⟩
  · rw [hpts]
    exact h.empty
  · rw [hpts]
    cases op <;> exact h.id
  · rw [hpts]
    rw [opCache_record] at hab
    split at hab
    · rename_i hop
      subst hop
      by_cases heq : (a, b) = OperationCache.operands op' lhs rhs
      · rw [heq, Function.update_self, Option.some.injEq] at hab
        subst hab
        obtain ⟨x', y', hx', hy', hsame⟩ := apply_operands op' hx hy
        rw [← heq] at hx' hy'
        exact ⟨x', y', hx', hy', by rw [hsame]; exact hid⟩
      · rw [Function.update_of_ne heq] at hab
        exact h.cached op' a b i hab
    · exact h.cached op' a b i hab
  · rw [hpts]
    cases op <;> exact h.counter
  · rw [hpts]
    exact h.length

end

section

variable {Data : Type} [DecidableEq Data] [SetType Data] {c c' c'' : OperationCache Data}
  {x y : Data} {lhs rhs id : PointsToID}

theorem opPts_returns (h : Consistent c) (op : SetOp) (hx : c.idToPts[lhs]? = some x)
    (hy : c.idToPts[rhs]? = some y) :
    Returns c ((c.opPts op lhs rhs).map fun r => (r.1, r.2.1)) (op.apply x y) := by
  rw [OperationCache.opPts]
  cases hcache : c.opCache op (OperationCache.operands op lhs rhs) with
  | some id =>
      obtain ⟨x', y', hx', hy', hsame⟩ := apply_operands op hx hy
      obtain ⟨u, v, hu, hv, hid⟩ := h.cached op _ _ id hcache
      have hux : u = x' := Option.some.inj (hu.symm.trans hx')
      have hvy : v = y' := Option.some.inj (hv.symm.trans hy')
      rw [hux, hvy, hsame] at hid
      exact h.returns hid
  | none =>
      have hnew := emplacePts_returns h (op.apply x y)
      rw [getActualPts_eq hx, getActualPts_eq hy]
      cases hemplace : c.emplacePts (op.apply x y) with
      | none =>
          exact ⟨fun _ => hnew.exhausted hemplace, fun _ _ heq =>
            (Option.some_ne_none _ heq.symm).elim⟩
      | some r =>
          obtain ⟨hcons, hext, hid⟩ := hnew.returned r.1 r.2 hemplace
          refine ⟨fun hnone => (Option.some_ne_none _ hnone).elim, fun c' id' heq => ?_⟩
          obtain ⟨rfl, rfl⟩ := Prod.mk.inj (Option.some.inj heq)
          refine ⟨hcons.record op (hext lhs x hx) (hext rhs y hy) hid, ?_, ?_⟩
          · intro id pts hpts
            rw [idToPts_record]
            exact hext id pts hpts
          · rw [idToPts_record]
            exact hid

structure Recorded (c c' : OperationCache Data) : Prop where
  consistent : Consistent c'
  idToPts : c'.idToPts = c.idToPts

omit [DecidableEq Data] in
theorem Recorded.record (h : Recorded c c') (op : SetOp) (hx : c.idToPts[lhs]? = some x)
    (hy : c.idToPts[rhs]? = some y) (hid : c.idToPts[id]? = some (op.apply x y)) :
    Recorded c (c'.record op lhs rhs id) := by
  rw [← h.idToPts] at hx hy hid
  exact ⟨h.consistent.record op hx hy hid, (idToPts_record c' op lhs rhs id).trans h.idToPts⟩

omit [DecidableEq Data] in
theorem Recorded.record_if {p : Prop} [Decidable p] (h : Recorded c c') (op : SetOp)
    (hx : c.idToPts[lhs]? = some x) (hy : c.idToPts[rhs]? = some y)
    (hid : c.idToPts[id]? = some (op.apply x y)) :
    Recorded c (if p then c'.record op lhs rhs id else c') := by
  split
  · exact h.record op hx hy hid
  · exact h

/-- What is done after an operation records results and returns that of the operation. -/
theorem returns_map (op : SetOp) (h : Consistent c) (hx : c.idToPts[lhs]? = some x)
    (hy : c.idToPts[rhs]? = some y)
    {f : OperationCache Data × PointsToID × Bool → OperationCache Data × PointsToID}
    (hf : ∀ c' result performed, Consistent c' → c'.idToPts[lhs]? = some x →
      c'.idToPts[rhs]? = some y → c'.idToPts[result]? = some (op.apply x y) →
        Recorded c' (f (c', result, performed)).1 ∧ (f (c', result, performed)).2 = result) :
    Returns c ((c.opPts op lhs rhs).map f) (op.apply x y) := by
  have hop := opPts_returns h op hx hy
  cases hrun : c.opPts op lhs rhs with
  | none =>
      rw [hrun] at hop
      exact ⟨fun _ => hop.exhausted rfl, fun _ _ heq => (Option.some_ne_none _ heq.symm).elim⟩
  | some r =>
      rw [hrun] at hop
      obtain ⟨hcons, hext, hid⟩ := hop.returned r.1 r.2.1 rfl
      obtain ⟨hrecorded, hresult⟩ := hf r.1 r.2.1 r.2.2 hcons (hext lhs x hx) (hext rhs y hy) hid
      refine ⟨fun hnone => (Option.some_ne_none _ hnone).elim, fun c' id' heq => ?_⟩
      have hpair : f r = (c', id') := Option.some.inj heq
      rw [hpair] at hrecorded hresult
      refine ⟨hrecorded.consistent, fun id pts hpts => ?_, ?_⟩
      · rw [hrecorded.idToPts]
        exact hext id pts hpts
      · have hsame : id' = r.2.1 := hresult
        rw [hrecorded.idToPts, hsame]
        exact hid

open SetType

theorem unionPts_returns (h : Consistent c) (hx : c.idToPts[lhs]? = some x)
    (hy : c.idToPts[rhs]? = some y) : Returns c (c.unionPts lhs rhs) (x ∪ y) := by
  obtain ⟨x', y', hx', hy', hsame⟩ := apply_operands .union hx hy
  change c.idToPts[(minmax lhs rhs).1]? = _ at hx'
  change c.idToPts[(minmax lhs rhs).2]? = _ at hy'
  change x' ∪ y' = x ∪ y at hsame
  rw [OperationCache.unionPts]
  split
  · rename_i hzero
    rw [hzero, h.empty, Option.some.injEq] at hx'
    have hempty : ∅ ∪ y' = y' := elems_injective (by simp)
    rw [← hsame, ← hx', hempty]
    exact h.returns hy'
  split
  · rename_i heq
    rw [← heq, hx', Option.some.injEq] at hy'
    have hself : x' ∪ x' = x' := elems_injective (by simp)
    rw [← hsame, ← hy', hself]
    exact h.returns hx'
  · refine returns_map .union h hx hy fun c' result performed hc' hx hy hid => ?_
    have hleft : SetOp.union.apply x (x ∪ y) = x ∪ y := elems_injective (by simp [SetOp.apply])
    have hright : SetOp.union.apply y (x ∪ y) = x ∪ y := elems_injective (by simp [SetOp.apply])
    have hstart : Recorded c' c' := ⟨hc', rfl⟩
    cases performed with
    | false => exact ⟨hstart, rfl⟩
    | true =>
        have hlhs := hstart.record_if (p := lhs ≠ result) .union hx hid
          (hid.trans (congrArg some hleft.symm))
        exact ⟨hlhs.record_if .union hy hid (hid.trans (congrArg some hright.symm)), rfl⟩

theorem complementPts_returns (h : Consistent c) (hx : c.idToPts[lhs]? = some x)
    (hy : c.idToPts[rhs]? = some y) : Returns c (c.complementPts lhs rhs) (x \ y) := by
  rw [OperationCache.complementPts]
  split
  · rename_i heq
    rw [heq, hy, Option.some.injEq] at hx
    have hself : x \ y = ∅ := elems_injective (by simp [hx])
    rw [hself]
    exact h.returns h.empty
  split
  · rename_i hzero
    rw [hzero, h.empty, Option.some.injEq] at hy
    have hall : x \ y = x := elems_injective (by simp [← hy])
    rw [hall]
    exact h.returns hx
  split
  · rename_i hzero
    rw [hzero, h.empty, Option.some.injEq] at hx
    have hnone : x \ y = ∅ := elems_injective (by simp [← hx])
    rw [hnone]
    exact h.returns h.empty
  · refine returns_map .complement h hx hy fun c' result performed hc' hx hy hid => ?_
    have hmeet : SetOp.intersection.apply (x \ y) y = ∅ := elems_injective (by simp [SetOp.apply])
    have hkeep : SetOp.intersection.apply (x \ y) x = x \ y :=
      elems_injective (by simp [SetOp.apply])
    have hagain : SetOp.complement.apply (x \ y) y = x \ y :=
      elems_injective (by simp [SetOp.apply])
    have hstart : Recorded c' c' := ⟨hc', rfl⟩
    dsimp only
    split
    · have hfirst := hstart.record .intersection hid hy (hc'.empty.trans (congrArg some hmeet.symm))
      have hsecond := hfirst.record .intersection hid hx (hid.trans (congrArg some hkeep.symm))
      exact ⟨hsecond.record .complement hid hy (hid.trans (congrArg some hagain.symm)), rfl⟩
    · exact ⟨hstart, rfl⟩

theorem intersectPts_returns (h : Consistent c) (hx : c.idToPts[lhs]? = some x)
    (hy : c.idToPts[rhs]? = some y) : Returns c (c.intersectPts lhs rhs) (x ∩ y) := by
  obtain ⟨x', y', hx', hy', hsame⟩ := apply_operands .intersection hx hy
  change c.idToPts[(minmax lhs rhs).1]? = _ at hx'
  change c.idToPts[(minmax lhs rhs).2]? = _ at hy'
  change x' ∩ y' = x ∩ y at hsame
  rw [OperationCache.intersectPts]
  split
  · rename_i hzero
    rw [hzero, h.empty, Option.some.injEq] at hx'
    have hempty : x ∩ y = ∅ := elems_injective (by simp [← hsame, ← hx'])
    rw [hempty]
    exact h.returns h.empty
  split
  · rename_i heq
    rw [← heq, hx', Option.some.injEq] at hy'
    have hself : x' ∩ x' = x' := elems_injective (by simp)
    rw [← hsame, ← hy', hself]
    exact h.returns hx'
  · refine returns_map .intersection h hx hy fun c' result performed hc' hx hy hid => ?_
    have hright : SetOp.intersection.apply (x ∩ y) y = x ∩ y :=
      elems_injective (by simp [SetOp.apply])
    have hleft : SetOp.intersection.apply (x ∩ y) x = x ∩ y :=
      elems_injective (by simp [SetOp.apply])
    have hjoin : SetOp.union.apply x (x ∩ y) = x := elems_injective (by simp [SetOp.apply])
    have hjoin' : SetOp.union.apply y (x ∩ y) = y := elems_injective (by simp [SetOp.apply])
    have hstart : Recorded c' c' := ⟨hc', rfl⟩
    dsimp only
    split
    · have hfirst := hstart.record_if (p := result ≠ rhs) .intersection hid hy
        (hid.trans (congrArg some hright.symm))
      have hsecond := hfirst.record_if (p := result ≠ lhs) .intersection hid hx
        (hid.trans (congrArg some hleft.symm))
      have hthird := hsecond.record_if (p := result ≠ emptyPointsToId ∧ result ≠ lhs) .union hx hid
        (hx.trans (congrArg some hjoin.symm))
      exact ⟨hthird.record_if .union hy hid (hy.trans (congrArg some hjoin'.symm)), rfl⟩
    · exact ⟨hstart, rfl⟩

end

section

open SetType

variable {Data : Type} [DecidableEq Data] [SetType Data] {c c' : OperationCache Data}

inductive Call (Data : Type)
  | emplacePts (pts : Data)
  | unionPts (lhs rhs : PointsToID)
  | complementPts (lhs rhs : PointsToID)
  | intersectPts (lhs rhs : PointsToID)

namespace Call

def Stored (c : OperationCache Data) : Call Data → Prop
  | .emplacePts _ => True
  | .unionPts lhs rhs | .complementPts lhs rhs | .intersectPts lhs rhs =>
    lhs < c.idToPts.length ∧ rhs < c.idToPts.length

def run (c : OperationCache Data) : Call Data → Option (OperationCache Data × PointsToID)
  | .emplacePts pts => c.emplacePts pts
  | .unionPts lhs rhs => c.unionPts lhs rhs
  | .complementPts lhs rhs => c.complementPts lhs rhs
  | .intersectPts lhs rhs => c.intersectPts lhs rhs

def sets (c : OperationCache Data) : Call Data → Set (Elem Data)
  | .emplacePts pts => elems pts
  | .unionPts lhs rhs => denotes c lhs ∪ denotes c rhs
  | .complementPts lhs rhs => denotes c lhs \ denotes c rhs
  | .intersectPts lhs rhs => denotes c lhs ∩ denotes c rhs

end Call

def Step (c c' : OperationCache Data) : Prop :=
  ∃ call : Call Data, call.Stored c ∧ ∃ id, call.run c = some (c', id)

theorem call_returns (h : Consistent c) {call : Call Data} (hstored : call.Stored c) :
    ∃ pts, elems pts = call.sets c ∧ Returns c (call.run c) pts := by
  have hpair : ∀ {lhs rhs : PointsToID},
      lhs < c.idToPts.length ∧ rhs < c.idToPts.length → ∃ x y, c.idToPts[lhs]? = some x ∧
        c.idToPts[rhs]? = some y ∧ elems x = denotes c lhs ∧ elems y = denotes c rhs := by
    intro lhs rhs hlt
    have hx := List.getElem?_eq_getElem hlt.1
    have hy := List.getElem?_eq_getElem hlt.2
    exact ⟨_, _, hx, hy, congrArg elems (getActualPts_eq hx).symm,
      congrArg elems (getActualPts_eq hy).symm⟩
  cases call with
  | emplacePts pts => exact ⟨pts, rfl, emplacePts_returns h pts⟩
  | unionPts lhs rhs =>
      obtain ⟨x, y, hx, hy, hex, hey⟩ := hpair hstored
      exact ⟨x ∪ y, by rw [elems_union, hex, hey]; rfl, unionPts_returns h hx hy⟩
  | complementPts lhs rhs =>
      obtain ⟨x, y, hx, hy, hex, hey⟩ := hpair hstored
      exact ⟨x \ y, by rw [elems_sdiff, hex, hey]; rfl, complementPts_returns h hx hy⟩
  | intersectPts lhs rhs =>
      obtain ⟨x, y, hx, hy, hex, hey⟩ := hpair hstored
      exact ⟨x ∩ y, by rw [elems_inter, hex, hey]; rfl, intersectPts_returns h hx hy⟩

theorem step_consistent (h : Consistent c) (hstep : Step c c') :
    Consistent c' ∧ Extends c.toPointsToCache c'.toPointsToCache := by
  obtain ⟨call, hstored, id, hrun⟩ := hstep
  obtain ⟨pts, -, hreturns⟩ := call_returns h hstored
  obtain ⟨hcons, hext, -⟩ := hreturns.returned c' id hrun
  exact ⟨hcons, hext⟩

theorem run_consistent (h : Consistent c) (hrun : ReflTransGen Step c c') :
    Consistent c' ∧ Extends c.toPointsToCache c'.toPointsToCache := by
  induction hrun with
  | refl => exact ⟨h, fun _ _ hx => hx⟩
  | tail _ hstep ih =>
      obtain ⟨hcons, hext⟩ := step_consistent ih.1 hstep
      exact ⟨hcons, fun id pts hx => hext id pts (ih.2 id pts hx)⟩

omit [DecidableEq Data] in
theorem denotes_inj (h : Consistent c) {i j : PointsToID} (hi : i < c.idToPts.length)
    (hj : j < c.idToPts.length) : i = j ↔ denotes c i = denotes c j := by
  refine ⟨fun heq => heq ▸ rfl, fun heq => ?_⟩
  have hx := List.getElem?_eq_getElem hi
  have hy := List.getElem?_eq_getElem hj
  rw [denotes, denotes, getActualPts_eq hx, getActualPts_eq hy] at heq
  rw [elems_injective heq] at hx
  have hsame := ((h.id _ i).mpr hx).symm.trans ((h.id _ j).mpr hy)
  exact Option.some.inj hsame

end

/-- After any calls the identifiers are canonical, `0` is the empty set, what an
identifier denotes does not change, and the next call returns the identifier of the
set that it is asked for, unless all identifiers are in use. -/
theorem ids_canonical {Data : Type} [DecidableEq Data] [SetType Data] (c : OperationCache Data)
    (h : ReflTransGen Step .new c) :
    (∀ i j, i < c.idToPts.length → j < c.idToPts.length →
      (i = j ↔ denotes c i = denotes c j)) ∧
    denotes c emptyPointsToId = ∅ ∧
    (∀ c', ReflTransGen Step c c' → ∀ id, id < c.idToPts.length →
      id < c'.idToPts.length ∧ denotes c' id = denotes c id) ∧
    ∀ call : Call Data, call.Stored c →
      (call.run c = none → c.idToPts.length = 2 ^ 32) ∧
      ∀ c' id, call.run c = some (c', id) →
        id < c'.idToPts.length ∧ denotes c' id = call.sets c := by
  have hcons := (run_consistent consistent_new h).1
  refine ⟨fun i j => denotes_inj hcons, ?_, fun c' hrun id hid => ?_, fun call hstored => ?_⟩
  · rw [denotes, getActualPts_eq hcons.empty]
    exact SetType.elems_empty
  · have hx := List.getElem?_eq_getElem hid
    have hx' := (run_consistent hcons hrun).2 id _ hx
    refine ⟨(List.getElem?_eq_some_iff.mp hx').1, ?_⟩
    rw [denotes, denotes, getActualPts_eq hx, getActualPts_eq hx']
  · obtain ⟨pts, hsets, hreturns⟩ := call_returns hcons hstored
    refine ⟨hreturns.exhausted, fun c' id hrun => ?_⟩
    obtain ⟨-, -, hid⟩ := hreturns.returned c' id hrun
    refine ⟨(List.getElem?_eq_some_iff.mp hid).1, ?_⟩
    rw [denotes, getActualPts_eq hid]
    exact hsets

instance : SetType PointsToSets.PointsTo where
  sdiff := PointsToSets.PointsTo.intersectWithComplement
  inter := PointsToSets.PointsTo.inter
  Elem := PointsToSets.NodeID
  elems pts := {n | n ∈ pts}
  elems_injective _ _ h := PointsToSets.ext fun n => Set.ext_iff.mp h n
  elems_empty := Set.eq_empty_of_forall_notMem PointsToSets.notMem_empty
  elems_union x y := Set.ext fun n => PointsToSets.mem_union x y n
  elems_sdiff x y := Set.ext fun n => PointsToSets.mem_intersectWithComplement x y n
  elems_inter x y := Set.ext fun n => PointsToSets.mem_inter x y n

theorem ids_canonical_union : ∃ c c' : OperationCache PointsToSets.PointsTo, ∃ id,
    c.unionPts 1 2 = some (c', id) ∧ denotes c' id = denotes c 1 ∪ denotes c 2 := by
  have hruns : ∃ c1 i1 c2 i2,
      (OperationCache.new : OperationCache PointsToSets.PointsTo).emplacePts
        (PointsToSets.PointsTo.set ∅ 1) = some (c1, i1) ∧
      c1.emplacePts (PointsToSets.PointsTo.set ∅ 2) = some (c2, i2) ∧ c2.idToPts.length = 3 :=
    ⟨_, _, _, _, rfl, rfl, rfl⟩
  obtain ⟨c1, i1, c, i2, hfirst, hsecond, hlength⟩ := hruns
  have hstep1 : Step .new c1 := ⟨.emplacePts (PointsToSets.PointsTo.set ∅ 1), trivial, i1, hfirst⟩
  have hstep2 : Step c1 c := ⟨.emplacePts (PointsToSets.PointsTo.set ∅ 2), trivial, i2, hsecond⟩
  have hstored : (Call.unionPts 1 2 : Call PointsToSets.PointsTo).Stored c := by
    rw [Call.Stored, hlength]
    decide
  obtain ⟨hexhausted, hreturned⟩ := (ids_canonical c (.tail (.single hstep1) hstep2)).2.2.2 _ hstored
  cases hunion : c.unionPts 1 2 with
  | none =>
      have hfull := hexhausted hunion
      rw [hlength] at hfull
      contradiction
  | some r => exact ⟨c, r.1, r.2, hunion, (hreturned r.1 r.2 hunion).2⟩

end SVF.MemoryModel.CachedOperations
