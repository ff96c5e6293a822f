import Mathlib.Algebra.GroupWithZero.Nat
import SVF.MemoryModel.PointsToSets
import SVF.Util.DefaultMaps

namespace SVF.MemoryModel.CondPointsTo

open PointsToSets Util.DefaultMaps

variable {Cond : Type*} [DecidableEq Cond]

abbrev CondPointsToSet (Cond : Type*) := DefaultMap Cond PointsTo

namespace CondPointsToSet

variable (s rhs : CondPointsToSet Cond)

def hasPointsTo (cond : Cond) : Bool := cond ∈ s.keys

def numElement : ℕ := (s.keys.map fun cond => (s.get cond).count).sum % 2 ^ 32

def empty : Bool := numElement s = 0

def set (cond : Cond) (id : NodeID) : CondPointsToSet Cond := s.modify cond (·.set id)

def reset (cond : Cond) (id : NodeID) : CondPointsToSet Cond :=
  if hasPointsTo s cond then s.modify cond (·.erase id) else s

def sameEntries : List Cond → List Cond → Bool
  | lc :: lit, rc :: rit => if lc ≠ rc ∨ s.get lc ≠ rhs.get rc then false else sameEntries lit rit
  | _, _ => true

def eq : Bool := if s.keys.length ≠ rhs.keys.length then false else sameEntries s rhs s.keys rhs.keys

def aliased : Bool :=
  if s.keys = [] ∨ rhs.keys = [] then false
  else s.keys.any fun lc => hasPointsTo rhs lc && (s.get lc).intersects (rhs.get lc)

def isSubset : Bool :=
  if rhs.keys.length < s.keys.length then false
  else s.keys.all fun lc => hasPointsTo rhs lc && (rhs.get lc).contains (s.get lc)

def intersects : Bool :=
  if s.keys = [] ∧ rhs.keys = [] then false
  else rhs.keys.any fun cond => hasPointsTo s cond && (s.get cond).intersects (rhs.get cond)

def intersectWithComplement₂ (cpts1 cpts2 : CondPointsToSet Cond) : CondPointsToSet Cond :=
  if cpts1.keys = [] then DefaultMap.empty
  else if cpts2.keys = [] then cpts1
  else cpts1.keys.foldl (fun s cond => DefaultMap.set s cond
    (if hasPointsTo cpts2 cond then (cpts1.get cond).intersectWithComplement (cpts2.get cond)
      else cpts1.get cond)) s

def intersectWithComplement : CondPointsToSet Cond :=
  if empty s ∨ rhs.keys = [] then s
  else s.mapWithKey fun cond pts => if hasPointsTo rhs cond then pts.intersectWithComplement (rhs.get cond) else pts

def meet (cond : Cond) (pts : PointsTo) : PointsTo := if hasPointsTo rhs cond then pts.inter (rhs.get cond) else ∅

def andAssign : Bool × CondPointsToSet Cond :=
  if empty s then (false, s)
  else if empty rhs then (true, DefaultMap.empty)
  else (s.keys.any fun cond => meet rhs cond (s.get cond) ≠ s.get cond, s.mapWithKey (meet rhs))

def orAssign : Bool × CondPointsToSet Cond :=
  rhs.keys.foldl (fun (changed, s) cond =>
    (changed || s.get cond ≠ s.get cond ∪ rhs.get cond, s.modify cond (· ∪ rhs.get cond))) (false, s)

end CondPointsToSet

open CondPointsToSet

def toSet (s : CondPointsToSet Cond) : Set (Cond × NodeID) := {p | p.2 ∈ s.get p.1}

structure Agrees (this s t : CondPointsToSet Cond) : Prop where
  eq : eq s t = true ↔ toSet s = toSet t
  aliased : aliased s t = true ↔ (toSet s ∩ toSet t).Nonempty
  isSubset : isSubset s t = true ↔ toSet s ⊆ toSet t
  intersects : intersects s t = true ↔ (toSet s ∩ toSet t).Nonempty
  union : ((orAssign s t).1 = true ↔ toSet s ∪ toSet t ≠ toSet s) ∧ toSet (orAssign s t).2 = toSet s ∪ toSet t
  inter : ((andAssign s t).1 = true ↔ toSet s ∩ toSet t ≠ toSet s) ∧ toSet (andAssign s t).2 = toSet s ∩ toSet t
  diff : toSet (intersectWithComplement s t) = toSet s \ toSet t
  diff₂ : toSet (intersectWithComplement₂ this s t) = toSet s \ toSet t

/-- Equal sets have their conditions in one order, the conditions of a subset are there, the number of pairs
does not wrap around to zero where that matters, and nothing is stored under the other conditions. -/
structure Fits (this s t : CondPointsToSet Cond) : Prop where
  eq : toSet s = toSet t → s.keys = t.keys
  isSubset : toSet s ⊆ toSet t → ∀ cond ∈ s.keys, cond ∈ t.keys
  inter : numElement s = 0 → toSet s ⊆ toSet t
  inter_rhs : numElement s ≠ 0 → numElement t = 0 → toSet s ∩ toSet t = ∅
  diff : numElement s = 0 → toSet s ∩ toSet t = ∅
  diff₂ : s.keys ≠ [] → t.keys ≠ [] → ∀ cond ∉ s.keys, this.get cond = ∅

section

variable {this s t : CondPointsToSet Cond}

omit [DecidableEq Cond] in
theorem mem_toSet {p : Cond × NodeID} : p ∈ toSet s ↔ p.2 ∈ s.get p.1 := Iff.rfl

omit [DecidableEq Cond] in
theorem get_of_notMem {cond : Cond} (h : cond ∉ s.keys) : s.get cond = ∅ := s.get_absent cond h

omit [DecidableEq Cond] in
theorem mem_keys {cond : Cond} {id : NodeID} (h : id ∈ s.get cond) : cond ∈ s.keys := by
  by_contra hkey
  rw [get_of_notMem hkey] at h
  exact notMem_empty id h

omit [DecidableEq Cond] in
theorem toSet_inj : toSet s = toSet t ↔ s.get = t.get := by
  constructor
  · intro h
    funext cond
    exact PointsToSets.ext fun id => Set.ext_iff.mp h (cond, id)
  · intro h
    rw [toSet, h, toSet]

omit [DecidableEq Cond] in
theorem toSet_eq_empty (h : s.keys = []) : toSet s = ∅ :=
  Set.eq_empty_of_forall_notMem fun _ hp => List.not_mem_nil (h ▸ mem_keys hp)

omit [DecidableEq Cond] in
theorem toSet_nonempty (h : numElement s ≠ 0) : (toSet s).Nonempty := by
  by_contra hempty
  rw [Set.not_nonempty_iff_eq_empty] at hempty
  have hzero : ∀ n ∈ s.keys.map fun cond => (s.get cond).count, n = 0 := by
    rintro n hn
    obtain ⟨cond, -, rfl⟩ := List.mem_map.mp hn
    rw [(eq_empty_iff (s.get cond)).mpr fun id hid => Set.notMem_empty (cond, id) (hempty ▸ hid)]
    rfl
  rw [numElement, List.sum_eq_zero_iff_forall_eq_nat.mpr hzero] at h
  exact h rfl

theorem sameEntries_iff (lit rit : List Cond) (hlen : lit.length = rit.length) :
    sameEntries s t lit rit = true ↔ lit = rit ∧ ∀ cond ∈ lit, s.get cond = t.get cond := by
  induction lit generalizing rit with
  | nil => cases rit <;> simp_all [sameEntries]
  | cons lc lit ih =>
      cases rit with
      | nil => contradiction
      | cons rc rit =>
          rw [sameEntries]
          split
          · rename_i hne
            refine iff_of_false Bool.false_ne_true fun ⟨heq, hall⟩ => ?_
            obtain ⟨rfl, -⟩ := List.cons_eq_cons.mp heq
            exact hne.elim (fun h => h rfl) fun h => h (hall lc List.mem_cons_self)
          · rename_i heq
            rw [not_or, not_not, not_not] at heq
            obtain ⟨rfl, hget⟩ := heq
            rw [ih rit (Nat.succ.inj hlen), List.cons_eq_cons, List.forall_mem_cons]
            simp [hget]

theorem eq_iff : eq s t = true ↔ s.keys = t.keys ∧ toSet s = toSet t := by
  rw [eq, toSet_inj]
  split
  · rename_i hlen
    exact iff_of_false Bool.false_ne_true fun h => hlen (congrArg List.length h.1)
  · rename_i hlen
    rw [sameEntries_iff s.keys t.keys (not_not.mp hlen)]
    refine and_congr_right fun hkeys => ⟨fun hall => ?_, fun h cond _ => congrFun h cond⟩
    funext cond
    by_cases hcond : cond ∈ s.keys
    · exact hall cond hcond
    · rw [get_of_notMem hcond, get_of_notMem (hkeys ▸ hcond)]

theorem any_intersects (s t : CondPointsToSet Cond) :
    (s.keys.any fun cond => hasPointsTo t cond && (s.get cond).intersects (t.get cond)) = true ↔
      (toSet s ∩ toSet t).Nonempty := by
  simp only [List.any_eq_true, Bool.and_eq_true, hasPointsTo, decide_eq_true_eq, PointsToSets.intersects_iff]
  constructor
  · rintro ⟨cond, -, -, id, hs, ht⟩
    exact ⟨(cond, id), hs, ht⟩
  · rintro ⟨⟨cond, id⟩, hs, ht⟩
    exact ⟨cond, mem_keys hs, mem_keys ht, id, hs, ht⟩

theorem aliased_iff : aliased s t = true ↔ (toSet s ∩ toSet t).Nonempty := by
  rw [aliased]
  split
  · rename_i h
    refine iff_of_false Bool.false_ne_true (Set.not_nonempty_iff_eq_empty.mpr ?_)
    rcases h with h | h
    · rw [toSet_eq_empty h, Set.empty_inter]
    · rw [toSet_eq_empty h, Set.inter_empty]
  · exact any_intersects s t

theorem intersects_iff : intersects s t = true ↔ (toSet s ∩ toSet t).Nonempty := by
  rw [intersects]
  split
  · rename_i h
    refine iff_of_false Bool.false_ne_true (Set.not_nonempty_iff_eq_empty.mpr ?_)
    rw [toSet_eq_empty h.1, Set.empty_inter]
  · rw [Set.inter_comm, ← any_intersects t s]
    simp only [List.any_eq_true, Bool.and_eq_true, PointsToSets.intersects_iff, and_comm]

theorem isSubset_iff : isSubset s t = true ↔ (∀ cond ∈ s.keys, cond ∈ t.keys) ∧ toSet s ⊆ toSet t := by
  have hall : (s.keys.all fun cond => hasPointsTo t cond && (t.get cond).contains (s.get cond)) = true ↔
      (∀ cond ∈ s.keys, cond ∈ t.keys) ∧ toSet s ⊆ toSet t := by
    simp only [List.all_eq_true, Bool.and_eq_true, hasPointsTo, decide_eq_true_eq, contains_iff_subset]
    constructor
    · exact fun h => ⟨fun cond hcond => (h cond hcond).1, fun p hp => (h p.1 (mem_keys hp)).2 p.2 hp⟩
    · exact fun h cond hcond => ⟨h.1 cond hcond, fun id hid => @h.2 (cond, id) hid⟩
  rw [isSubset]
  split
  · rename_i hlen
    refine iff_of_false Bool.false_ne_true fun h => ?_
    exact absurd (List.Nodup.length_le_of_subset s.nodup h.1) hlen.not_ge
  · exact hall

theorem mem_toSet_mapWithKey {f : Cond → PointsTo → PointsTo} (hf : ∀ cond ∉ s.keys, f cond ∅ = ∅)
    (p : Cond × NodeID) : p ∈ toSet (s.mapWithKey f) ↔ p.2 ∈ f p.1 (s.get p.1) := by
  rw [mem_toSet, get_mapWithKey]
  split
  · exact Iff.rfl
  · rename_i hkey
    rw [get_of_notMem hkey, hf p.1 hkey]
    exact Iff.rfl

theorem mem_meet (cond : Cond) (id : NodeID) (pts : PointsTo) :
    id ∈ meet t cond pts ↔ id ∈ pts ∧ id ∈ t.get cond := by
  rw [meet]
  split
  · exact mem_inter _ _ _
  · rename_i h
    rw [get_of_notMem (by simpa [hasPointsTo] using h)]
    simp

theorem andAssign_iff :
    ((andAssign s t).1 = true ↔ toSet s ∩ toSet t ≠ toSet s) ∧ toSet (andAssign s t).2 = toSet s ∩ toSet t ↔
      (numElement s = 0 → toSet s ⊆ toSet t) ∧
      (numElement s ≠ 0 → numElement t = 0 → toSet s ∩ toSet t = ∅) := by
  have hbot : toSet (DefaultMap.empty : CondPointsToSet Cond) = ∅ := toSet_eq_empty rfl
  rw [andAssign, empty, empty]
  by_cases hs : numElement s = 0
  · rw [if_pos (decide_eq_true hs), ← Set.inter_eq_left]
    simp only [hs, Bool.false_eq_true, false_iff, not_not, true_imp_iff, ne_eq, not_true_eq_false, false_imp_iff,
      and_true]
    exact ⟨fun h => h.1, fun h => ⟨h, h.symm⟩⟩
  by_cases ht : numElement t = 0
  · rw [if_neg (by simpa using hs), if_pos (decide_eq_true ht), hbot]
    simp only [hs, ht, false_imp_iff, true_and, ne_eq, not_false_eq_true, true_imp_iff]
    refine ⟨fun h => h.2.symm, fun h => ⟨?_, h.symm⟩⟩
    rw [h]
    exact iff_of_true trivial (toSet_nonempty hs).ne_empty.symm
  · rw [if_neg (by simpa using hs), if_neg (by simpa using ht)]
    have hmap : toSet (s.mapWithKey (meet t)) = toSet s ∩ toSet t := by
      ext p
      rw [mem_toSet_mapWithKey (fun cond _ => PointsToSets.ext fun id => by simp [mem_meet]), mem_meet]
      exact Iff.rfl
    refine iff_of_true ⟨?_, hmap⟩ ⟨fun h => absurd h hs, fun _ h => absurd h ht⟩
    rw [← hmap, Ne, toSet_inj, List.any_eq_true, funext_iff, not_forall]
    constructor
    · rintro ⟨cond, hcond, hne⟩
      refine ⟨cond, ?_⟩
      rw [get_mapWithKey, if_pos hcond]
      exact of_decide_eq_true hne
    · rintro ⟨cond, hne⟩
      have hcond : cond ∈ s.keys := by
        by_contra hcond
        exact hne (((s.mapWithKey (meet t)).get_absent cond hcond).trans (get_of_notMem hcond).symm)
      rw [get_mapWithKey, if_pos hcond] at hne
      exact ⟨cond, hcond, decide_eq_true hne⟩

theorem mem_diff_iff (cond : Cond) (id : NodeID) :
    (id ∈ if hasPointsTo t cond then (s.get cond).intersectWithComplement (t.get cond) else s.get cond) ↔
      id ∈ s.get cond ∧ id ∉ t.get cond := by
  split
  · exact mem_intersectWithComplement _ _ _
  · rename_i h
    rw [get_of_notMem (s := t) (by simpa [hasPointsTo] using h)]
    simp

theorem intersectWithComplement_iff :
    toSet (intersectWithComplement s t) = toSet s \ toSet t ↔ (numElement s = 0 → toSet s ∩ toSet t = ∅) := by
  have hempty : empty s = true ↔ numElement s = 0 := decide_eq_true_iff
  rw [intersectWithComplement]
  by_cases ht : t.keys = []
  · simp [ht, toSet_eq_empty ht]
  by_cases hs : numElement s = 0
  · rw [if_pos (.inl (hempty.mpr hs)), eq_comm, sdiff_eq_left, Set.disjoint_iff_inter_eq_empty]
    exact ⟨fun h _ => h, fun h => h hs⟩
  · rw [if_neg (not_or.mpr ⟨hempty.not.mpr hs, ht⟩)]
    refine iff_of_true (Set.ext fun p => ?_) fun h => absurd h hs
    rw [mem_toSet_mapWithKey (fun cond _ => by split <;> rfl)]
    exact mem_diff_iff p.1 p.2

theorem intersectWithComplement₂_iff :
    toSet (intersectWithComplement₂ this s t) = toSet s \ toSet t ↔
      (s.keys ≠ [] → t.keys ≠ [] → ∀ cond ∉ s.keys, this.get cond = ∅) := by
  rw [intersectWithComplement₂]
  by_cases hs : s.keys = []
  · simp [hs, toSet_eq_empty hs, toSet_eq_empty (rfl : (DefaultMap.empty : CondPointsToSet Cond).keys = [])]
  by_cases ht : t.keys = []
  · simp [hs, ht, toSet_eq_empty ht]
  · rw [if_neg hs, if_neg ht]
    have hget : ∀ cond, (s.keys.foldl (fun m cond => DefaultMap.set m cond
        (if hasPointsTo t cond then (s.get cond).intersectWithComplement (t.get cond) else s.get cond)) this).get cond =
          if cond ∈ s.keys then
            if hasPointsTo t cond then (s.get cond).intersectWithComplement (t.get cond) else s.get cond
          else this.get cond := by
      intro cond
      rw [get_foldl_local _ _ s.nodup, get_set_self]
      · intro m k j hj
        rw [get_set_of_ne _ _ hj, mem_keys_set, or_iff_left hj]
        exact ⟨rfl, Iff.rfl⟩
      · intro m m' k _ _
        rw [get_set_self, get_set_self]
    simp only [ne_eq, hs, ht, not_false_eq_true, true_imp_iff]
    constructor
    · intro h cond hcond
      refine (eq_empty_iff _).mpr fun id hid => hcond ?_
      have hmem : (cond, id) ∈ toSet s \ toSet t := by
        rwa [← h, mem_toSet, hget, if_neg hcond]
      exact mem_keys hmem.1
    · intro h
      ext p
      rw [Set.mem_sdiff, mem_toSet, mem_toSet, mem_toSet, hget]
      by_cases hp : p.1 ∈ s.keys
      · rw [if_pos hp]
        exact mem_diff_iff p.1 p.2
      · rw [if_neg hp, h p.1 hp, get_of_notMem hp]
        simp

theorem foldl_orAssign {l : List Cond} (hl : l.Nodup) (changed : Bool) (m : CondPointsToSet Cond) :
    l.foldl (fun (changed, m) cond =>
      (changed || m.get cond ≠ m.get cond ∪ t.get cond, m.modify cond (· ∪ t.get cond))) (changed, m) =
    (changed || l.any fun cond => m.get cond ≠ m.get cond ∪ t.get cond,
      l.foldl (fun m cond => m.modify cond (· ∪ t.get cond)) m) := by
  induction l generalizing changed m with
  | nil => simp
  | cons cond l ih =>
      obtain ⟨hcond, hl⟩ := List.nodup_cons.mp hl
      have hget : ∀ c ∈ l, (m.modify cond (· ∪ t.get cond)).get c = m.get c := by
        intro c hc
        rw [get_modify, if_neg (ne_of_mem_of_not_mem hc hcond)]
      have hany : (l.any fun c => (m.modify cond (· ∪ t.get cond)).get c ≠
          (m.modify cond (· ∪ t.get cond)).get c ∪ t.get c) = l.any fun c => m.get c ≠ m.get c ∪ t.get c := by
        rw [Bool.eq_iff_iff, List.any_eq_true, List.any_eq_true]
        exact exists_congr fun c => and_congr_right fun hc => by rw [hget c hc]
      rw [List.foldl_cons, ih hl, hany, List.any_cons, Bool.or_assoc, List.foldl_cons]

theorem orAssign_eq : ((orAssign s t).1 = true ↔ toSet s ∪ toSet t ≠ toSet s) ∧
    toSet (orAssign s t).2 = toSet s ∪ toSet t := by
  rw [orAssign, foldl_orAssign t.nodup, Bool.false_or]
  have hget : ∀ cond, (t.keys.foldl (fun m cond => m.modify cond (· ∪ t.get cond)) s).get cond =
      s.get cond ∪ t.get cond := by
    intro cond
    rw [get_foldl_local _ _ t.nodup]
    · split
      · rw [get_modify, if_pos rfl]
      · rename_i hcond
        rw [get_of_notMem hcond]
        exact PointsToSets.ext fun id => by simp
    · intro m k j hj
      rw [get_modify, if_neg hj, mem_keys_modify, or_iff_left hj]
      exact ⟨rfl, Iff.rfl⟩
    · intro m m' k h _
      rw [get_modify, get_modify, if_pos rfl, if_pos rfl, h]
  refine ⟨?_, Set.ext fun p => ?_⟩
  · simp only [List.any_eq_true, decide_eq_true_eq, ne_union_iff, Ne, Set.union_eq_left, Set.not_subset]
    constructor
    · rintro ⟨cond, -, id, ht, hs⟩
      exact ⟨(cond, id), ht, hs⟩
    · rintro ⟨⟨cond, id⟩, ht, hs⟩
      exact ⟨cond, mem_keys ht, id, ht, hs⟩
  · rw [Set.mem_union, mem_toSet, mem_toSet, mem_toSet, hget, mem_union]

end

/-- The operations agree with those of the sets of pairs exactly under the condition. -/
theorem operations_agree_iff (this s t : CondPointsToSet Cond) : Agrees this s t ↔ Fits this s t := by
  constructor
  · intro h
    obtain ⟨hinter, hrhs⟩ := andAssign_iff.mp h.inter
    exact ⟨fun heq => (eq_iff.mp (h.eq.mpr heq)).1, fun hsub => (isSubset_iff.mp (h.isSubset.mpr hsub)).1, hinter,
      hrhs, intersectWithComplement_iff.mp h.diff, intersectWithComplement₂_iff.mp h.diff₂⟩
  · intro h
    exact ⟨eq_iff.trans (and_iff_right_of_imp h.eq), aliased_iff,
      isSubset_iff.trans (and_iff_right_of_imp h.isSubset), intersects_iff, orAssign_eq,
      andAssign_iff.mpr ⟨h.inter, h.inter_rhs⟩, intersectWithComplement_iff.mpr h.diff,
      intersectWithComplement₂_iff.mpr h.diff₂⟩

def ordered (first second : ℕ) : CondPointsToSet ℕ :=
  CondPointsToSet.set (CondPointsToSet.set default first 5) second 5

def emptied : CondPointsToSet ℕ := reset (CondPointsToSet.set default 1 5) 1 5

theorem operations_disagree :
    ¬ Agrees default (ordered 1 2) (ordered 2 1) ∧ ¬ Agrees default emptied default ∧
      ¬ Agrees (ordered 1 2) (ordered 1 1) (ordered 1 1) := by
  refine ⟨fun h => ?_, fun h => ?_, fun h => ?_⟩
  · have heq : eq (ordered 1 2) (ordered 2 1) = false := by decide
    have hsame : toSet (ordered 1 2) = toSet (ordered 2 1) := toSet_inj.mpr (funext fun cond => by
      simp only [ordered, CondPointsToSet.set, get_modify]
      by_cases h1 : cond = 1 <;> by_cases h2 : cond = 2 <;> simp_all)
    exact Bool.false_ne_true (heq.symm.trans (h.eq.mpr hsame))
  · have hsub : isSubset emptied default = false := by decide
    refine Bool.false_ne_true (hsub.symm.trans (h.isSubset.mpr fun p hp => ?_))
    have hkey : p.1 = 1 := List.mem_singleton.mp (mem_keys hp)
    have hget : emptied.get 1 = ∅ := by decide
    rw [mem_toSet, hkey, hget] at hp
    exact absurd hp (notMem_empty _)
  · have hmem : (2, 5) ∈ toSet (intersectWithComplement₂ (ordered 1 2) (ordered 1 1) (ordered 1 1)) := by
      rw [mem_toSet]
      decide
    rw [h.diff₂, sdiff_self] at hmem
    exact hmem

end SVF.MemoryModel.CondPointsTo
