import SVF.AE.Intervals

namespace SVF.AE.BoundArithmetic

open NumericValue Intervals

def s64_min : ℤ := -2 ^ 63

/-- A 64-bit result; an overflow is undefined. -/
def checked (z : ℤ) : Option ℤ := if s64_min ≤ z ∧ z ≤ s64_max then some z else none

namespace Bound

/-- The value that the source keeps, with the sign of an infinity. -/
def iVal : BoundedInt → ℤ
  | .plus_infinity => 1
  | .minus_infinity => -1
  | .num a => a

def neg : BoundedInt → Option BoundedInt
  | .plus_infinity => some .minus_infinity
  | .minus_infinity => some .plus_infinity
  | .num a => (checked (-a)).map .num

/-- `none` is a failed assertion, or an overflow. -/
def safeAdd (lhs rhs : BoundedInt) : Option BoundedInt :=
  if (lhs.is_plus_infinity && rhs.is_minus_infinity) || (lhs.is_minus_infinity && rhs.is_plus_infinity) then
    none
  else if lhs.is_plus_infinity || rhs.is_plus_infinity then some .plus_infinity
  else if lhs.is_minus_infinity || rhs.is_minus_infinity then some .minus_infinity
  else if iVal lhs > 0 ∧ iVal rhs > 0 ∧ s64_max - iVal lhs < iVal rhs then some .plus_infinity
  else if iVal lhs < 0 ∧ iVal rhs < 0 ∧ -s64_max - iVal lhs > iVal rhs then some .minus_infinity
  else (checked (iVal lhs + iVal rhs)).map .num

def sub (lhs rhs : BoundedInt) : Option BoundedInt := (neg rhs).bind (safeAdd lhs)

def safeMul (lhs rhs : BoundedInt) : Option BoundedInt :=
  if iVal lhs = 0 ∨ iVal rhs = 0 then some (.num 0)
  else if lhs.is_infinity || rhs.is_infinity then
    (checked (iVal lhs * iVal rhs)).map fun p => if p > 0 then .plus_infinity else .minus_infinity
  else if iVal lhs > 0 ∧ iVal rhs > 0 ∧ s64_max.tdiv (iVal lhs) < iVal rhs then some .plus_infinity
  else if iVal lhs < 0 ∧ iVal rhs < 0 ∧ s64_max.tdiv (iVal lhs) > iVal rhs then some .plus_infinity
  else if (iVal lhs > 0 ∧ iVal rhs < 0 ∧ (-s64_max).tdiv (iVal lhs) > iVal rhs) ∨
      (iVal lhs < 0 ∧ iVal rhs > 0 ∧ (-s64_max).tdiv (iVal rhs) > iVal lhs) then some .minus_infinity
  else (checked (iVal lhs * iVal rhs)).map .num

def minOf : List BoundedInt → BoundedInt → BoundedInt
  | [], ret => ret
  | it :: l, ret =>
      if it.is_minus_infinity then .minus_infinity else minOf l (if !it.geq ret then it else ret)

def maxOf : List BoundedInt → BoundedInt → BoundedInt
  | [], ret => ret
  | it :: l, ret =>
      if it.is_plus_infinity then .plus_infinity else maxOf l (if !it.leq ret then it else ret)

end Bound

namespace Interval

open IntervalValue

/-- The constructor, with its assertion. -/
def ofBounds (lb ub : BoundedInt) : Option IntervalValue :=
  if (⟨lb, ub⟩ : IntervalValue).isBottom || lb.leq ub then some ⟨lb, ub⟩ else none

def ofCorners (vec : List BoundedInt) : Option IntervalValue :=
  ofBounds (Bound.minOf vec .plus_infinity) (Bound.maxOf vec .minus_infinity)

def add (lhs rhs : IntervalValue) : Option IntervalValue :=
  if lhs.isBottom || rhs.isBottom then some bottom
  else if lhs.isTop || rhs.isTop then some top
  else do ofBounds (← Bound.safeAdd lhs.lb rhs.lb) (← Bound.safeAdd lhs.ub rhs.ub)

def sub (lhs rhs : IntervalValue) : Option IntervalValue :=
  if lhs.isBottom || rhs.isBottom then some bottom
  else if lhs.isTop || rhs.isTop then some top
  else do ofBounds (← Bound.sub lhs.lb rhs.ub) (← Bound.sub lhs.ub rhs.lb)

def mul (lhs rhs : IntervalValue) : Option IntervalValue :=
  if lhs.isBottom || rhs.isBottom then some bottom
  else do
    let ll ← Bound.safeMul lhs.lb rhs.lb
    let lu ← Bound.safeMul lhs.lb rhs.ub
    let ul ← Bound.safeMul lhs.ub rhs.lb
    let uu ← Bound.safeMul lhs.ub rhs.ub
    ofCorners [ll, lu, ul, uu]

end Interval

def InRange (b : BoundedInt) : Prop := ∀ z, b = .num z → s64_min ≤ z ∧ z ≤ s64_max

structure Proper (v : IntervalValue) : Prop where
  le : v.lb ≤ v.ub
  lb : v.lb ≠ .plus_infinity
  ub : v.ub ≠ .minus_infinity
  lbRange : InRange v.lb
  ubRange : InRange v.ub

def WellFormed (v : IntervalValue) : Prop := v = IntervalValue.bottom ∨ Proper v

def Contains (r : Option IntervalValue) (f : ℤ → ℤ → ℤ) (a b : IntervalValue) : Prop :=
  ∃ v, r = some v ∧ WellFormed v ∧ ∀ x ∈ a.concretize, ∀ y ∈ b.concretize, f x y ∈ v.concretize

section

open BoundedInt

variable {v : IntervalValue} {m : ℤ}

/-- An interval has members as low, and as high, as its bounds allow. -/
theorem Proper.exists_le (h : Proper v) (hm : v.lb ≤ .num m) : ∃ x ∈ v.concretize, x ≤ m := by
  cases hlb : v.lb with
  | plus_infinity => exact absurd hlb h.lb
  | num l =>
      have hle := h.le
      rw [hlb] at hm hle
      exact ⟨l, (mem_concretize v l).mpr ⟨hlb.le, hle⟩, (num_le_num l m).mp hm⟩
  | minus_infinity =>
      cases hub : v.ub with
      | minus_infinity => exact absurd hub h.ub
      | plus_infinity =>
          refine ⟨m, (mem_concretize v m).mpr ⟨?_, ?_⟩, le_rfl⟩
          · rw [hlb]; exact minus_infinity_le _
          · rw [hub]; exact le_plus_infinity _
      | num u =>
          refine ⟨Min.min m u, (mem_concretize v _).mpr ⟨?_, ?_⟩, min_le_left m u⟩
          · rw [hlb]; exact minus_infinity_le _
          · rw [hub]; exact (num_le_num _ _).mpr (min_le_right m u)

theorem Proper.exists_ge (h : Proper v) (hm : .num m ≤ v.ub) : ∃ x ∈ v.concretize, m ≤ x := by
  cases hub : v.ub with
  | minus_infinity => exact absurd hub h.ub
  | num u =>
      have hle := h.le
      rw [hub] at hm hle
      exact ⟨u, (mem_concretize v u).mpr ⟨hle, hub.ge⟩, (num_le_num m u).mp hm⟩
  | plus_infinity =>
      cases hlb : v.lb with
      | plus_infinity => exact absurd hlb h.lb
      | minus_infinity =>
          refine ⟨m, (mem_concretize v m).mpr ⟨?_, ?_⟩, le_rfl⟩
          · rw [hlb]; exact minus_infinity_le _
          · rw [hub]; exact le_plus_infinity _
      | num l =>
          refine ⟨Max.max m l, (mem_concretize v _).mpr ⟨?_, ?_⟩, le_max_left m l⟩
          · rw [hlb]; exact (num_le_num _ _).mpr (le_max_right m l)
          · rw [hub]; exact le_plus_infinity _

theorem Proper.nonempty (h : Proper v) : ∃ x, x ∈ v.concretize := by
  cases hlb : v.lb with
  | plus_infinity => exact absurd hlb h.lb
  | num l =>
      obtain ⟨x, hx, -⟩ := h.exists_le hlb.le
      exact ⟨x, hx⟩
  | minus_infinity =>
      obtain ⟨x, hx, -⟩ := h.exists_le (m := 0) (hlb ▸ minus_infinity_le _)
      exact ⟨x, hx⟩

theorem Proper.isBottom (h : Proper v) : v.isBottom = false := by
  by_contra hne
  rw [Bool.not_eq_false, isBottom_iff] at hne
  exact h.lb (congrArg IntervalValue.lb hne)

end

end SVF.AE.BoundArithmetic
