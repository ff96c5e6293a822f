import SVF.AE.BoundArithmetic

namespace SVF.AE.IntervalComparisons

open NumericValue NumericValue.BoundedInt Intervals BoundArithmetic

section

open IntervalValue

/-- The case list of the six operators, with the tests for a comparison that
always, or never, holds. -/
def compare (numerals : BoundedInt → BoundedInt → Bool) (always never : IntervalValue → IntervalValue → Bool)
    (lhs rhs : IntervalValue) : IntervalValue :=
  if lhs.isBottom || rhs.isBottom then bottom
  else if lhs.isTop || rhs.isTop then top
  else if lhs.is_numeral && rhs.is_numeral then
    if numerals lhs.lb rhs.lb then ofInt 1 else ofInt 0
  else if always lhs rhs then ofInt 1
  else if never lhs rhs then ofInt 0
  else ⟨num 0, num 1⟩

def eq : IntervalValue → IntervalValue → IntervalValue :=
  compare (fun l r => l.equal r) (fun _ _ => false) fun lhs rhs => (lhs.meet_with rhs).isBottom

def ne : IntervalValue → IntervalValue → IntervalValue :=
  compare (fun l r => !l.equal r) (fun lhs rhs => (lhs.meet_with rhs).isBottom) fun _ _ => false

def gt : IntervalValue → IntervalValue → IntervalValue :=
  compare (fun l r => !l.leq r) (fun lhs rhs => !lhs.lb.leq rhs.ub) fun lhs rhs => lhs.ub.leq rhs.lb

def lt : IntervalValue → IntervalValue → IntervalValue :=
  compare (fun l r => !l.geq r) (fun lhs rhs => !lhs.ub.geq rhs.lb) fun lhs rhs => lhs.lb.geq rhs.ub

def ge : IntervalValue → IntervalValue → IntervalValue :=
  compare (fun l r => l.geq r) (fun lhs rhs => lhs.lb.geq rhs.ub) fun lhs rhs => !lhs.ub.geq rhs.lb

def le : IntervalValue → IntervalValue → IntervalValue :=
  compare (fun l r => l.leq r) (fun lhs rhs => lhs.ub.leq rhs.lb) fun lhs rhs => !lhs.lb.leq rhs.ub

inductive Comparison
  | eq
  | ne
  | gt
  | lt
  | ge
  | le

def Comparison.apply : Comparison → IntervalValue → IntervalValue → IntervalValue
  | .eq => IntervalComparisons.eq
  | .ne => IntervalComparisons.ne
  | .gt => IntervalComparisons.gt
  | .lt => IntervalComparisons.lt
  | .ge => IntervalComparisons.ge
  | .le => IntervalComparisons.le

def Comparison.holds : Comparison → ℤ → ℤ → Bool
  | .eq, x, y => x = y
  | .ne, x, y => x ≠ y
  | .gt, x, y => x > y
  | .lt, x, y => x < y
  | .ge, x, y => x ≥ y
  | .le, x, y => x ≤ y

end

variable {a b v : IntervalValue} {x y : ℤ}

theorem lb_le_of_mem (hx : x ∈ v.concretize) : v.lb ≤ num x := ((mem_concretize v x).mp hx).1

theorem le_ub_of_mem (hx : x ∈ v.concretize) : num x ≤ v.ub := ((mem_concretize v x).mp hx).2

theorem mem_top (n : ℤ) : n ∈ IntervalValue.top.concretize := by
  apply (mem_concretize _ n).mpr
  exact ⟨minus_infinity_le _, le_plus_infinity _⟩

theorem mem_ofInt (n : ℤ) : n ∈ (IntervalValue.ofInt n).concretize := by
  simp [concretize_ofInt]

theorem toInt_mem_both (c : Bool) : c.toInt ∈ (⟨num 0, num 1⟩ : IntervalValue).concretize := by
  cases c <;> simp [mem_concretize]

theorem lb_of_numeral (h : v.is_numeral = true) (hx : x ∈ v.concretize) : v.lb = num x := by
  have heq : v.lb = v.ub := of_decide_eq_true h
  apply le_antisymm
  · exact lb_le_of_mem hx
  · rw [heq]
    exact le_ub_of_mem hx

theorem ne_of_meet_isBottom (h : (a.meet_with b).isBottom = true) (hx : x ∈ a.concretize)
    (hy : y ∈ b.concretize) : x ≠ y := by
  rintro rfl
  have hmem : x ∈ (a.meet_with b).concretize := by
    rw [concretize_meet]
    exact ⟨hx, hy⟩
  rw [isBottom_eq_false hmem] at h
  contradiction

theorem le_of_ub_leq (h : a.ub.leq b.lb = true) (hx : x ∈ a.concretize) (hy : y ∈ b.concretize) : x ≤ y := by
  apply (num_le_num x y).mp
  exact ((le_ub_of_mem hx).trans ((leq_iff _ _).mp h)).trans (lb_le_of_mem hy)

theorem le_of_geq_ub (h : b.lb.geq a.ub = true) (hx : x ∈ a.concretize) (hy : y ∈ b.concretize) : x ≤ y := by
  apply (num_le_num x y).mp
  exact ((le_ub_of_mem hx).trans ((geq_iff _ _).mp h)).trans (lb_le_of_mem hy)

theorem lt_of_not_lb_leq (h : a.lb.leq b.ub = false) (hx : x ∈ a.concretize) (hy : y ∈ b.concretize) : y < x := by
  by_contra hge
  have hle : a.lb ≤ b.ub :=
    ((lb_le_of_mem hx).trans ((num_le_num x y).mpr (not_lt.mp hge))).trans (le_ub_of_mem hy)
  rw [(leq_iff _ _).mpr hle] at h
  contradiction

theorem lt_of_not_ub_geq (h : a.ub.geq b.lb = false) (hx : x ∈ a.concretize) (hy : y ∈ b.concretize) : x < y := by
  by_contra hge
  have hle : b.lb ≤ a.ub :=
    ((lb_le_of_mem hy).trans ((num_le_num y x).mpr (not_lt.mp hge))).trans (le_ub_of_mem hx)
  rw [(geq_iff _ _).mpr hle] at h
  contradiction

structure Decides (numerals : BoundedInt → BoundedInt → Bool)
    (always never : IntervalValue → IntervalValue → Bool) (r : ℤ → ℤ → Bool) : Prop where
  numerals : ∀ x y, numerals (num x) (num y) = r x y
  always : ∀ {a b x y}, always a b = true → x ∈ a.concretize → y ∈ b.concretize → r x y = true
  never : ∀ {a b x y}, never a b = true → x ∈ a.concretize → y ∈ b.concretize → r x y = false

theorem compare_sound {numerals : BoundedInt → BoundedInt → Bool}
    {always never : IntervalValue → IntervalValue → Bool} {r : ℤ → ℤ → Bool}
    (h : Decides numerals always never r) (hx : x ∈ a.concretize) (hy : y ∈ b.concretize) :
    (r x y).toInt ∈ (compare numerals always never a b).concretize := by
  rw [compare, isBottom_eq_false hx, isBottom_eq_false hy, Bool.or_self, if_neg Bool.false_ne_true]
  split
  · exact mem_top _
  · split
    · rename_i hnum
      rw [Bool.and_eq_true] at hnum
      rw [lb_of_numeral hnum.1 hx, lb_of_numeral hnum.2 hy, h.numerals]
      cases r x y with
      | true => exact mem_ofInt 1
      | false => exact mem_ofInt 0
    · split
      · rename_i halways
        rw [h.always halways hx hy]
        exact mem_ofInt 1
      · split
        · rename_i hnever
          rw [h.never hnever hx hy]
          exact mem_ofInt 0
        · exact toInt_mem_both _

theorem eq_decides : Decides (fun l r => l.equal r) (fun _ _ => false)
    (fun lhs rhs => (lhs.meet_with rhs).isBottom) Comparison.eq.holds where
  numerals x y := by simp [equal, Comparison.holds]
  always h := by simp at h
  never h hx hy := by simpa [Comparison.holds] using ne_of_meet_isBottom h hx hy

theorem ne_decides : Decides (fun l r => !l.equal r) (fun lhs rhs => (lhs.meet_with rhs).isBottom)
    (fun _ _ => false) Comparison.ne.holds where
  numerals x y := by simp [equal, Comparison.holds]
  always h hx hy := by simpa [Comparison.holds] using ne_of_meet_isBottom h hx hy
  never h := by simp at h

theorem gt_decides : Decides (fun l r => !l.leq r) (fun lhs rhs => !lhs.lb.leq rhs.ub)
    (fun lhs rhs => lhs.ub.leq rhs.lb) Comparison.gt.holds where
  numerals x y := by
    apply Bool.eq_iff_iff.mpr
    simp [leq, Comparison.holds]
  always h hx hy := by simpa [Comparison.holds] using lt_of_not_lb_leq (by simpa using h) hx hy
  never h hx hy := by simpa [Comparison.holds] using le_of_ub_leq h hx hy

theorem lt_decides : Decides (fun l r => !l.geq r) (fun lhs rhs => !lhs.ub.geq rhs.lb)
    (fun lhs rhs => lhs.lb.geq rhs.ub) Comparison.lt.holds where
  numerals x y := by
    apply Bool.eq_iff_iff.mpr
    simp [geq, Comparison.holds]
  always h hx hy := by simpa [Comparison.holds] using lt_of_not_ub_geq (by simpa using h) hx hy
  never h hx hy := by simpa [Comparison.holds] using le_of_geq_ub h hy hx

theorem ge_decides : Decides (fun l r => l.geq r) (fun lhs rhs => lhs.lb.geq rhs.ub)
    (fun lhs rhs => !lhs.ub.geq rhs.lb) Comparison.ge.holds where
  numerals x y := by simp [geq, Comparison.holds]
  always h hx hy := by simpa [Comparison.holds] using le_of_geq_ub h hy hx
  never h hx hy := by simpa [Comparison.holds] using lt_of_not_ub_geq (by simpa using h) hx hy

theorem le_decides : Decides (fun l r => l.leq r) (fun lhs rhs => lhs.ub.leq rhs.lb)
    (fun lhs rhs => !lhs.lb.leq rhs.ub) Comparison.le.holds where
  numerals x y := by simp [leq, Comparison.holds]
  always h hx hy := by simpa [Comparison.holds] using le_of_ub_leq h hx hy
  never h hx hy := by simpa [Comparison.holds] using lt_of_not_lb_leq (by simpa using h) hx hy

/-- The result has the truth value of every pair of members. -/
theorem comparison_sound (op : Comparison) (a b : IntervalValue) : ∀ x ∈ a.concretize, ∀ y ∈ b.concretize,
    (op.holds x y).toInt ∈ (op.apply a b).concretize := by
  intro x hx y hy
  cases op with
  | eq => exact compare_sound eq_decides hx hy
  | ne => exact compare_sound ne_decides hx hy
  | gt => exact compare_sound gt_decides hx hy
  | lt => exact compare_sound lt_decides hx hy
  | ge => exact compare_sound ge_decides hx hy
  | le => exact compare_sound le_decides hx hy

/-- Members of touching intervals, of which one has no upper bound. -/
theorem comparison_sound_touching : ((3 : ℤ) ∈ (⟨num 1, num 3⟩ : IntervalValue).concretize ∧
    (3 : ℤ) ∈ (⟨num 3, plus_infinity⟩ : IntervalValue).concretize) ∧
    (Comparison.lt.holds 3 3).toInt ∈ (Comparison.lt.apply ⟨num 1, num 3⟩ ⟨num 3, plus_infinity⟩).concretize := by
  have hx : (3 : ℤ) ∈ (⟨num 1, num 3⟩ : IntervalValue).concretize := by simp [mem_concretize]
  have hy : (3 : ℤ) ∈ (⟨num 3, plus_infinity⟩ : IntervalValue).concretize := by simp [mem_concretize]
  exact ⟨⟨hx, hy⟩, comparison_sound .lt _ _ 3 hx 3 hy⟩

end SVF.AE.IntervalComparisons
