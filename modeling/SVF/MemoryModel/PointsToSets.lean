import Mathlib.Data.List.Sort
import SVF.Util.OrderedSets

namespace SVF.MemoryModel.PointsToSets

open Util.OrderedSets

abbrev NodeID := ℕ

/-- A points-to set, which the source iterates in ascending order. -/
abbrev PointsTo := OrderedSet (fun n : NodeID => n)

namespace PointsTo

def set (pts : PointsTo) (n : NodeID) : PointsTo := pts.insert n

def union (lhs rhs : PointsTo) : PointsTo := rhs.elems.foldl set lhs

def count (pts : PointsTo) : ℕ := pts.elems.length

def inter (lhs rhs : PointsTo) : PointsTo :=
  ⟨lhs.elems.filter fun n => n ∈ rhs, lhs.sorted.filter _⟩

def intersectWithComplement (lhs rhs : PointsTo) : PointsTo :=
  ⟨lhs.elems.filter fun n => n ∉ rhs, lhs.sorted.filter _⟩

def contains (lhs rhs : PointsTo) : Bool := rhs.elems.all fun n => n ∈ lhs

def intersects (lhs rhs : PointsTo) : Bool := lhs.elems.any fun n => n ∈ rhs

end PointsTo

theorem ext {s t : PointsTo} (h : ∀ n, n ∈ s ↔ n ∈ t) : s = t := by
  obtain ⟨l, hl⟩ := s
  obtain ⟨l', hl'⟩ := t
  have heq : l = l' := List.Pairwise.eq_of_mem_iff hl hl' h
  subst heq
  rfl

instance : EmptyCollection PointsTo := ⟨.empty⟩

instance : Union PointsTo := ⟨PointsTo.union⟩

instance : DecidableEq PointsTo := fun s t =>
  decidable_of_iff (s.elems = t.elems) ⟨fun h => ext fun n => by rw [← mem_elems, h, mem_elems],
    fun h => h ▸ rfl⟩

@[simp] theorem mem_set (s : PointsTo) (n m : NodeID) : m ∈ s.set n ↔ m ∈ s ∨ m = n := by
  rw [PointsTo.set, mem_insert]
  constructor
  · rintro (hm | ⟨rfl, -⟩)
    · exact .inl hm
    · exact .inr rfl
  · rintro (hm | rfl)
    · exact .inl hm
    · by_cases hmem : m ∈ s
      · exact .inl hmem
      · exact .inr ⟨rfl, fun c hc heq => hmem (heq ▸ hc)⟩

@[simp] theorem notMem_empty (n : NodeID) : n ∉ (∅ : PointsTo) := not_mem_empty n

theorem mem_foldl_set (ns : List NodeID) (s : PointsTo) (n : NodeID) :
    n ∈ ns.foldl PointsTo.set s ↔ n ∈ s ∨ n ∈ ns := by
  induction ns generalizing s with
  | nil => simp
  | cons m ns ih => rw [List.foldl_cons, ih, mem_set, List.mem_cons, or_assoc]

@[simp] theorem mem_union (s t : PointsTo) (n : NodeID) : n ∈ s ∪ t ↔ n ∈ s ∨ n ∈ t := by
  rw [← mem_elems t]
  exact mem_foldl_set t.elems s n

@[simp] theorem mem_inter (s t : PointsTo) (n : NodeID) : n ∈ s.inter t ↔ n ∈ s ∧ n ∈ t := by
  change n ∈ s.elems.filter _ ↔ _
  rw [List.mem_filter, decide_eq_true_eq, mem_elems]

@[simp] theorem mem_intersectWithComplement (s t : PointsTo) (n : NodeID) :
    n ∈ s.intersectWithComplement t ↔ n ∈ s ∧ n ∉ t := by
  change n ∈ s.elems.filter _ ↔ _
  rw [List.mem_filter, decide_eq_true_eq, mem_elems]

theorem contains_iff_subset (s t : PointsTo) : s.contains t = true ↔ ∀ n ∈ t, n ∈ s := by
  simp [PointsTo.contains, mem_elems]

theorem intersects_iff (s t : PointsTo) : s.intersects t = true ↔ ∃ n ∈ s, n ∈ t := by
  simp [PointsTo.intersects, mem_elems]

theorem eq_empty_iff (s : PointsTo) : s = ∅ ↔ ∀ n, n ∉ s := by
  constructor
  · rintro rfl
    exact notMem_empty
  · intro h
    exact ext fun n => iff_of_false (h n) (notMem_empty n)

theorem union_comm (s t : PointsTo) : s ∪ t = t ∪ s := ext fun n => by simp [or_comm]

theorem union_absorb (s t : PointsTo) : s ∪ (s ∪ t) = s ∪ t := ext fun n => by simp

theorem union_self (s : PointsTo) : s ∪ s = s := ext fun n => by simp

theorem empty_union (s : PointsTo) : ∅ ∪ s = s := ext fun n => by simp

theorem ne_union_iff (s t : PointsTo) : s ≠ s ∪ t ↔ ∃ n ∈ t, n ∉ s := by
  constructor
  · intro hne
    by_contra hall
    simp only [not_exists, not_and, not_not] at hall
    exact hne (ext fun n => by
      rw [mem_union]
      exact ⟨.inl, fun h => h.elim id (hall n)⟩)
  · rintro ⟨n, hn, hnot⟩ heq
    have hmem : n ∈ s ∪ t := (mem_union s t n).mpr (.inr hn)
    exact hnot (heq ▸ hmem)

theorem elems_eq_singleton_iff (s : PointsTo) (n : NodeID) :
    s.elems = [n] ↔ s.elems ≠ [] ∧ ∀ m ∈ s, m = n := by
  constructor
  · intro h
    refine ⟨by simp [h], fun m hm => ?_⟩
    rw [← mem_elems, h, List.mem_singleton] at hm
    exact hm
  · rintro ⟨hne, hall⟩
    have hnodup := nodup_elems s
    have hall : ∀ m ∈ s.elems, m = n := hall
    cases hl : s.elems with
    | nil => exact absurd hl hne
    | cons a l =>
        rw [hl] at hnodup hall
        have ha := hall a List.mem_cons_self
        cases l with
        | nil => rw [ha]
        | cons b l =>
            have hb := hall b (List.mem_cons_of_mem a List.mem_cons_self)
            rw [ha, hb] at hnodup
            simp at hnodup

end SVF.MemoryModel.PointsToSets
