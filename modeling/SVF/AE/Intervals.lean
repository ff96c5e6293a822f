import Mathlib.Data.Int.ConditionallyCompleteOrder
import Mathlib.Order.ConditionallyCompleteLattice.Basic

namespace SVF.AE.NumericValue

/-- A 64-bit integer or an infinity. The source keeps a value and a flag, with
the values `1` and `-1` under the flag. -/
inductive BoundedInt
  | minus_infinity
  | num (fVal : ℤ)
  | plus_infinity
  deriving DecidableEq

def s64_max : ℤ := 2 ^ 63 - 1

namespace BoundedInt

def is_plus_infinity : BoundedInt → Bool
  | plus_infinity => true
  | _ => false

def is_minus_infinity : BoundedInt → Bool
  | minus_infinity => true
  | _ => false

def is_infinity (e : BoundedInt) : Bool := e.is_plus_infinity || e.is_minus_infinity

def equal (lhs rhs : BoundedInt) : Bool := lhs = rhs

def leq : BoundedInt → BoundedInt → Bool
  | minus_infinity, _ | _, plus_infinity => true
  | num a, num b => a ≤ b
  | plus_infinity, _ | _, minus_infinity => false

def geq : BoundedInt → BoundedInt → Bool
  | plus_infinity, _ | _, minus_infinity => true
  | num a, num b => b ≤ a
  | minus_infinity, _ | _, plus_infinity => false

def min (lhs rhs : BoundedInt) : BoundedInt :=
  match lhs, rhs with
  | minus_infinity, _ | _, minus_infinity => minus_infinity
  | plus_infinity, b => b
  | a, plus_infinity => a
  | num a, num b => num (if b < a then b else a)

def max (lhs rhs : BoundedInt) : BoundedInt :=
  match lhs, rhs with
  | plus_infinity, _ | _, plus_infinity => plus_infinity
  | minus_infinity, b => b
  | a, minus_infinity => a
  | num a, num b => num (if a < b then b else a)

/-- Sums beyond the largest number, and below its negation, become infinite. -/
def safeAdd : BoundedInt → BoundedInt → BoundedInt
  | plus_infinity, _ | _, plus_infinity => plus_infinity
  | minus_infinity, _ | _, minus_infinity => minus_infinity
  | num a, num b =>
      if a > 0 ∧ b > 0 ∧ s64_max - a < b then plus_infinity
      else if a < 0 ∧ b < 0 ∧ -s64_max - a > b then minus_infinity
      else num (a + b)

def neg : BoundedInt → BoundedInt
  | plus_infinity => minus_infinity
  | minus_infinity => plus_infinity
  | num a => num (-a)

def toExtended : BoundedInt → WithBot (WithTop ℤ)
  | minus_infinity => ⊥
  | num a => ((a : WithTop ℤ) : WithBot (WithTop ℤ))
  | plus_infinity => ((⊤ : WithTop ℤ) : WithBot (WithTop ℤ))

theorem toExtended_injective : Function.Injective toExtended := by
  intro a b h
  cases a <;> cases b <;> simp_all [toExtended]

instance : LinearOrder BoundedInt := LinearOrder.lift' toExtended toExtended_injective

theorem le_def (a b : BoundedInt) : a ≤ b ↔ a.toExtended ≤ b.toExtended := Iff.rfl

theorem leq_iff (a b : BoundedInt) : a.leq b = true ↔ a ≤ b := by
  rw [le_def]
  cases a <;> cases b <;> simp [leq, toExtended]

theorem geq_iff (a b : BoundedInt) : a.geq b = true ↔ b ≤ a := by
  rw [le_def]
  cases a <;> cases b <;> simp [geq, toExtended]

@[simp] theorem num_le_num (a b : ℤ) : num a ≤ num b ↔ a ≤ b := by
  simp [le_def, toExtended]

@[simp] theorem minus_infinity_le (a : BoundedInt) : minus_infinity ≤ a := by
  simp [le_def, toExtended]

@[simp] theorem le_plus_infinity (a : BoundedInt) : a ≤ plus_infinity := by
  rw [← leq_iff]
  cases a <;> rfl

theorem not_plus_infinity_le_num (a : ℤ) : ¬ plus_infinity ≤ num a := by
  simp [← leq_iff, leq]

theorem not_num_le_minus_infinity (a : ℤ) : ¬ num a ≤ minus_infinity := by
  simp [← leq_iff, leq]

theorem num_succ_le {k : ℤ} {b : BoundedInt} (h : num k < b) : num (k + 1) ≤ b := by
  cases b with
  | plus_infinity => exact le_plus_infinity _
  | minus_infinity => exact absurd (minus_infinity_le _) (not_le_of_gt h)
  | num l =>
      have hkl : ¬ l ≤ k := fun hle => not_le_of_gt h ((num_le_num _ _).mpr hle)
      exact (num_le_num _ _).mpr (by omega)

theorem le_num_pred {k : ℤ} {b : BoundedInt} (h : b < num k) : b ≤ num (k - 1) := by
  cases b with
  | minus_infinity => exact minus_infinity_le _
  | plus_infinity => exact absurd (le_plus_infinity _) (not_le_of_gt h)
  | num l =>
      have hkl : ¬ k ≤ l := fun hle => not_le_of_gt h ((num_le_num _ _).mpr hle)
      exact (num_le_num _ _).mpr (by omega)

theorem min_eq_inf (a b : BoundedInt) : min a b = a ⊓ b := by
  rcases le_total a b with h | h
  · rw [inf_eq_left.mpr h]
    cases a <;> cases b <;> simp_all [← leq_iff, leq, min]
  · rw [inf_eq_right.mpr h]
    cases a <;> cases b <;> simp_all [← leq_iff, leq, min]
    omega

theorem max_eq_sup (a b : BoundedInt) : max a b = a ⊔ b := by
  rcases le_total a b with h | h
  · rw [sup_eq_right.mpr h]
    cases a <;> cases b <;> simp_all [← leq_iff, leq, max]
    omega
  · rw [sup_eq_left.mpr h]
    cases a <;> cases b <;> simp_all [← leq_iff, leq, max]

end BoundedInt

end SVF.AE.NumericValue

namespace SVF.AE.Intervals

open NumericValue BoundedInt

/-- The source asserts `lb ≤ ub` outside of bottom `[+oo, -oo]`, but only of the
old bounds when it sets new ones, so the bounds carry no invariant here. -/
structure IntervalValue where
  lb : BoundedInt
  ub : BoundedInt
  deriving DecidableEq

namespace IntervalValue

def top : IntervalValue := ⟨minus_infinity, plus_infinity⟩

def bottom : IntervalValue := ⟨plus_infinity, minus_infinity⟩

def ofInt (n : ℤ) : IntervalValue := ⟨num n, num n⟩

def isTop (v : IntervalValue) : Bool := v.lb.is_minus_infinity && v.ub.is_plus_infinity

def isBottom (v : IntervalValue) : Bool := v.lb.is_plus_infinity && v.ub.is_minus_infinity

def is_numeral (v : IntervalValue) : Bool := v.lb.equal v.ub

def equals (v other : IntervalValue) : Bool :=
  if v.isBottom then other.isBottom
  else if other.isBottom then false
  else v.lb.equal other.lb && v.ub.equal other.ub

def join_with (v other : IntervalValue) : IntervalValue :=
  if v.isBottom then if other.isBottom then v else ⟨other.lb, other.ub⟩
  else if other.isBottom then v
  else ⟨v.lb.min other.lb, v.ub.max other.ub⟩

def widen_with (v other : IntervalValue) : IntervalValue :=
  if v.isBottom then ⟨other.lb, other.ub⟩
  else if other.isBottom then v
  else ⟨if !v.lb.leq other.lb then minus_infinity else v.lb,
    if !v.ub.geq other.ub then plus_infinity else v.ub⟩

def narrow_with (v other : IntervalValue) : IntervalValue :=
  if v.isBottom || other.isBottom then bottom
  else ⟨if v.lb.is_infinity then other.lb else v.lb, if v.ub.is_infinity then other.ub else v.ub⟩

def meet_with (v other : IntervalValue) : IntervalValue :=
  if v.isBottom || other.isBottom then bottom
  else if !(v.lb.max other.lb).leq (v.ub.min other.ub) then bottom
  else ⟨v.lb.max other.lb, v.ub.min other.ub⟩

def contains (v : IntervalValue) (n : ℤ) : Bool := v.lb.leq (num n) && v.ub.geq (num n)

def concretize (v : IntervalValue) : Set ℤ := {n | v.contains n = true}

end IntervalValue

open IntervalValue

theorem mem_concretize (v : IntervalValue) (n : ℤ) :
    n ∈ v.concretize ↔ v.lb ≤ num n ∧ num n ≤ v.ub := by
  simp [concretize, contains, leq_iff, geq_iff]

theorem isBottom_iff (v : IntervalValue) : v.isBottom = true ↔ v = bottom := by
  obtain ⟨lb, ub⟩ := v
  cases lb <;> cases ub <;> simp [isBottom, bottom, is_plus_infinity, is_minus_infinity]

@[simp] theorem isBottom_bottom : bottom.isBottom = true := rfl

theorem concretize_bottom : bottom.concretize = ∅ := by
  ext n
  rw [mem_concretize]
  exact iff_of_false (fun h => not_plus_infinity_le_num n h.1) (Set.notMem_empty n)

theorem isBottom_eq_false {v : IntervalValue} {n : ℤ} (h : n ∈ v.concretize) :
    v.isBottom = false := by
  by_contra hb
  rw [(isBottom_iff v).mp (by simpa using hb), concretize_bottom] at h
  exact h

theorem concretize_ofInt (n : ℤ) : (ofInt n).concretize = {n} := by
  ext k
  rw [mem_concretize, ofInt, num_le_num, num_le_num, Set.mem_singleton_iff]
  omega

theorem equals_self (v : IntervalValue) : v.equals v = true := by
  by_cases h : v.isBottom = true <;> simp [equals, h, equal]

theorem eq_of_equals {v other : IntervalValue} (h : v.equals other = true) : v = other := by
  unfold equals at h
  split at h
  · rename_i hv
    rw [(isBottom_iff v).mp hv, (isBottom_iff other).mp h]
  · split at h
    · contradiction
    · obtain ⟨lb, ub⟩ := v
      obtain ⟨lb', ub'⟩ := other
      simpa [equal] using h

theorem concretize_join_left (v other : IntervalValue) :
    v.concretize ⊆ (v.join_with other).concretize := by
  intro n hn
  have hv := isBottom_eq_false hn
  unfold join_with
  rw [hv]
  split
  · contradiction
  · split
    · exact hn
    · rw [mem_concretize] at hn ⊢
      rw [min_eq_inf, max_eq_sup]
      exact ⟨inf_le_left.trans hn.1, hn.2.trans le_sup_left⟩

theorem concretize_join_right (v other : IntervalValue) :
    other.concretize ⊆ (v.join_with other).concretize := by
  intro n hn
  have ho := isBottom_eq_false hn
  unfold join_with
  rw [ho]
  split
  · exact hn
  · rw [mem_concretize] at hn ⊢
    simp only [Bool.false_eq_true, if_false]
    rw [min_eq_inf, max_eq_sup]
    exact ⟨inf_le_right.trans hn.1, hn.2.trans le_sup_right⟩

theorem concretize_meet (v other : IntervalValue) :
    (v.meet_with other).concretize = v.concretize ∩ other.concretize := by
  ext n
  rw [Set.mem_inter_iff]
  constructor
  · intro hn
    unfold meet_with at hn
    split at hn
    · rw [concretize_bottom] at hn
      exact hn.elim
    · split at hn
      · rw [concretize_bottom] at hn
        exact hn.elim
      · rw [mem_concretize, min_eq_inf, max_eq_sup, sup_le_iff, le_inf_iff] at hn
        rw [mem_concretize, mem_concretize]
        exact ⟨⟨hn.1.1, hn.2.1⟩, hn.1.2, hn.2.2⟩
  · rintro ⟨hv, ho⟩
    have hbot : (v.isBottom || other.isBottom) = false := by
      rw [isBottom_eq_false hv, isBottom_eq_false ho]
      rfl
    rw [mem_concretize] at hv ho
    have hlo : v.lb.max other.lb ≤ num n := by
      rw [max_eq_sup]
      exact sup_le hv.1 ho.1
    have hhi : num n ≤ v.ub.min other.ub := by
      rw [min_eq_inf]
      exact le_inf hv.2 ho.2
    have hle : (v.lb.max other.lb).leq (v.ub.min other.ub) = true := (leq_iff _ _).mpr (hlo.trans hhi)
    simp only [meet_with, hbot, hle, Bool.not_true, Bool.false_eq_true, if_false]
    exact (mem_concretize _ n).mpr ⟨hlo, hhi⟩

theorem widenedLb_le (a b : BoundedInt) :
    (if !a.leq b then minus_infinity else a) ≤ a ∧ (if !a.leq b then minus_infinity else a) ≤ b := by
  by_cases h : a.leq b
  · simpa [h] using (leq_iff a b).mp h
  · simp [h]

theorem le_widenedUb (a b : BoundedInt) :
    a ≤ (if !a.geq b then plus_infinity else a) ∧ b ≤ (if !a.geq b then plus_infinity else a) := by
  by_cases h : a.geq b
  · simpa [h] using (geq_iff a b).mp h
  · simp [h]

theorem concretize_widen_left (v other : IntervalValue) :
    v.concretize ⊆ (v.widen_with other).concretize := by
  intro n hn
  have hv := isBottom_eq_false hn
  simp only [widen_with, hv, Bool.false_eq_true, if_false]
  split
  · exact hn
  · rw [mem_concretize] at hn ⊢
    exact ⟨(widenedLb_le _ _).1.trans hn.1, hn.2.trans (le_widenedUb _ _).1⟩

theorem concretize_widen_right (v other : IntervalValue) :
    other.concretize ⊆ (v.widen_with other).concretize := by
  intro n hn
  have ho := isBottom_eq_false hn
  simp only [widen_with, ho, Bool.false_eq_true, if_false]
  split
  · exact hn
  · rw [mem_concretize] at hn ⊢
    exact ⟨(widenedLb_le _ _).2.trans hn.1, hn.2.trans (le_widenedUb _ _).2⟩

end SVF.AE.Intervals
