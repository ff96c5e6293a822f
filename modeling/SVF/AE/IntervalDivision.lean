import SVF.AE.IntervalProducts

namespace SVF.AE.IntervalDivision

open NumericValue NumericValue.BoundedInt Intervals BoundArithmetic ExactBounds IntervalArithmetic
open IntervalProducts (IsEnd negated mem_negated le_minOf maxOf_le inRange_minOf inRange_maxOf)

namespace Bound

open BoundArithmetic.Bound (iVal)

def div (lhs rhs : BoundedInt) : Option BoundedInt :=
  if iVal rhs = 0 then none
  else if !lhs.is_infinity && !rhs.is_infinity then (checked ((iVal lhs).tdiv (iVal rhs))).map .num
  else if !lhs.is_infinity && rhs.is_infinity then some (.num 0)
  else if lhs.is_infinity && !rhs.is_infinity then if iVal rhs ≥ 0 then some lhs else BoundArithmetic.Bound.neg lhs
  else some (if lhs.equal rhs then .plus_infinity else .minus_infinity)

/-- The remainder is undefined where the quotient overflows. -/
def mod (lhs rhs : BoundedInt) : Option BoundedInt :=
  if iVal rhs = 0 then none
  else if !lhs.is_infinity && !rhs.is_infinity then
    (checked ((iVal lhs).tdiv (iVal rhs))).map fun _ => .num ((iVal lhs).tmod (iVal rhs))
  else if !lhs.is_infinity && rhs.is_infinity then some (.num 0)
  else if lhs.is_infinity && !rhs.is_infinity then if iVal rhs > 0 then some lhs else BoundArithmetic.Bound.neg lhs
  else some (if lhs.equal rhs then .plus_infinity else .minus_infinity)

def abs (lhs : BoundedInt) : Option BoundedInt := if lhs.leq (.num 0) then BoundArithmetic.Bound.neg lhs else some lhs

def getNumeral : BoundedInt → ℤ
  | .minus_infinity => s64_min
  | .plus_infinity => s64_max
  | .num a => a

end Bound

namespace Interval

open IntervalValue BoundArithmetic.Interval

def create (lb ub : BoundedInt) : Option IntervalValue := if !lb.leq ub then some bottom else ofBounds lb ub

/-- `join_with`, with the assertion on the old bounds. -/
def join (v other : IntervalValue) : Option IntervalValue :=
  if v.isBottom || v.lb.leq v.ub then some (v.join_with other) else none

def div : ℕ → IntervalValue → IntervalValue → Option IntervalValue
  | 0, _, _ => none
  | fuel + 1, lhs, rhs =>
      if lhs.isBottom || rhs.isBottom then some bottom
      else if rhs.contains 0 then do
        let lb ← create rhs.lb (.num (-1))
        let ub ← create (.num 1) rhs.ub
        let l_res ← div fuel lhs lb
        let r_res ← div fuel lhs ub
        join l_res r_res
      else if lhs.contains 0 then do
        let lb ← create lhs.lb (.num (-1))
        let ub ← create (.num 1) lhs.ub
        let l_res ← div fuel lb rhs
        let r_res ← div fuel ub rhs
        let l_res ← join l_res r_res
        join l_res (ofInt 0)
      else do
        let ll ← Bound.div lhs.lb rhs.lb
        let lu ← Bound.div lhs.lb rhs.ub
        let ul ← Bound.div lhs.ub rhs.lb
        let uu ← Bound.div lhs.ub rhs.ub
        ofCorners [ll, lu, ul, uu]

def is_zero (v : IntervalValue) : Bool :=
  BoundArithmetic.Bound.iVal v.lb = 0 && BoundArithmetic.Bound.iVal v.ub = 0

def mod (lhs rhs : IntervalValue) : Option IntervalValue :=
  if lhs.isBottom || rhs.isBottom then some bottom
  else if rhs.contains 0 then if is_zero lhs then ofBounds (.num 0) (.num 0) else some top
  else if lhs.is_numeral && rhs.is_numeral then do
    ofBounds (← Bound.mod lhs.lb rhs.lb) (← Bound.mod lhs.lb rhs.lb)
  else do
    let n_ub := (← Bound.abs lhs.lb).max (← Bound.abs lhs.ub)
    let d_ub ← BoundArithmetic.Bound.sub ((← Bound.abs rhs.lb).max rhs.ub) (.num 1)
    let ub := n_ub.min d_ub
    if Bound.getNumeral lhs.lb < 0 then
      if Bound.getNumeral lhs.ub > 0 then ofBounds (← BoundArithmetic.Bound.neg ub) ub
      else ofBounds (← BoundArithmetic.Bound.neg ub) (.num 0)
    else ofBounds (.num 0) ub

end Interval

section

variable {p p' q q' : BoundedInt}

def divExact : BoundedInt → BoundedInt → BoundedInt
  | .num x, .num y => .num (x.tdiv y)
  | .num _, _ => .num 0
  | p, .num y => if 0 ≤ y then p else p.neg
  | p, q => if p = q then .plus_infinity else .minus_infinity

theorem tdiv_mono {x x' y : ℤ} (hy : 0 < y) (h : x ≤ x') : x.tdiv y ≤ x'.tdiv y := by
  rcases le_total 0 x with hx | hx
  · rw [Int.tdiv_eq_ediv_of_nonneg hx, Int.tdiv_eq_ediv_of_nonneg (hx.trans h)]
    exact Int.ediv_le_ediv hy h
  · have hneg : x.tdiv y = -((-x) / y) := by
      rw [← Int.tdiv_eq_ediv_of_nonneg (neg_nonneg.mpr hx), Int.neg_tdiv, Int.neg_neg]
    rcases le_total 0 x' with hx' | hx'
    · have hle := Int.ediv_nonneg (neg_nonneg.mpr hx) hy.le
      have hge := Int.tdiv_nonneg hx' hy.le
      omega
    · have hneg' : x'.tdiv y = -((-x') / y) := by
        rw [← Int.tdiv_eq_ediv_of_nonneg (neg_nonneg.mpr hx'), Int.neg_tdiv, Int.neg_neg]
      rw [hneg, hneg', neg_le_neg_iff]
      exact Int.ediv_le_ediv hy (neg_le_neg h)

theorem tdiv_anti {x y y' : ℤ} (hx : 0 ≤ x) (hy : 0 < y) (h : y ≤ y') : x.tdiv y' ≤ x.tdiv y := by
  rw [Int.tdiv_eq_ediv_of_nonneg hx, Int.tdiv_eq_ediv_of_nonneg hx]
  refine Int.le_ediv_of_mul_le hy ?_
  have hnonneg := Int.ediv_nonneg hx (hy.le.trans h)
  exact (mul_le_mul_of_nonneg_left h hnonneg).trans (Int.ediv_mul_le x (hy.trans_le h).ne')

theorem divExact_neg_left (p q : BoundedInt) : divExact p.neg q = (divExact p q).neg := by
  cases p with
  | num x =>
      cases q with
      | num y => exact congrArg num (Int.neg_tdiv x y)
      | minus_infinity | plus_infinity => rfl
  | minus_infinity =>
      cases q with
      | num y =>
          simp only [divExact, neg]
          split
          · rfl
          · rfl
      | minus_infinity | plus_infinity => decide
  | plus_infinity =>
      cases q with
      | num y =>
          simp only [divExact, neg]
          split
          · rfl
          · rfl
      | minus_infinity | plus_infinity => decide

theorem divExact_neg_right (p : BoundedInt) (hq : q ≠ .num 0) : divExact p q.neg = (divExact p q).neg := by
  cases q with
  | num y =>
      have hy : y ≠ 0 := fun heq => hq (congrArg num heq)
      cases p with
      | num x => exact congrArg num (Int.tdiv_neg x y)
      | minus_infinity =>
          simp only [divExact, neg]
          split
          · rw [if_neg (by omega)]
          · rw [if_pos (by omega)]
      | plus_infinity =>
          simp only [divExact, neg]
          split
          · rw [if_neg (by omega)]
          · rw [if_pos (by omega)]
  | minus_infinity | plus_infinity =>
      cases p with
      | num x => rfl
      | minus_infinity | plus_infinity => decide

theorem divExact_mono (hq : .num 0 < q) (h : p ≤ p') : divExact p q ≤ divExact p' q := by
  cases q with
  | minus_infinity => exact absurd hq (by decide)
  | num y =>
      have hy : 0 < y := lt_of_not_ge fun hle => hq.not_ge ((num_le_num y 0).mpr hle)
      cases p with
      | minus_infinity =>
          rw [divExact, if_pos hy.le]
          · exact minus_infinity_le _
          · exact fun x h => by cases h
      | plus_infinity => rw [le_antisymm (le_plus_infinity p') h]
      | num x =>
          cases p' with
          | minus_infinity => exact absurd h (not_num_le_minus_infinity x)
          | plus_infinity =>
              refine le_trans (le_plus_infinity _) (le_of_eq ?_)
              exact (if_pos hy.le).symm
          | num x' => exact (num_le_num _ _).mpr (tdiv_mono hy ((num_le_num x x').mp h))
  | plus_infinity =>
      cases p with
      | minus_infinity => exact minus_infinity_le _
      | plus_infinity => rw [le_antisymm (le_plus_infinity p') h]
      | num x =>
          cases p' with
          | minus_infinity => exact absurd h (not_num_le_minus_infinity x)
          | plus_infinity => exact le_plus_infinity _
          | num x' => exact le_rfl

theorem divExact_anti (hp : .num 0 ≤ p) (hq : .num 0 < q) (h : q ≤ q') : divExact p q' ≤ divExact p q := by
  cases p with
  | minus_infinity => exact absurd hp (by decide)
  | plus_infinity =>
      cases q with
      | minus_infinity => exact absurd hq (by decide)
      | num y =>
          have hy : 0 < y := lt_of_not_ge fun hle => hq.not_ge ((num_le_num y 0).mpr hle)
          refine le_trans (le_plus_infinity _) (le_of_eq ?_)
          exact (if_pos hy.le).symm
      | plus_infinity => exact le_plus_infinity _
  | num x =>
      have hx := (num_le_num 0 x).mp hp
      cases q with
      | minus_infinity => exact absurd hq (by decide)
      | plus_infinity => rw [le_antisymm (le_plus_infinity q') h]
      | num y =>
          have hy : 0 < y := lt_of_not_ge fun hle => hq.not_ge ((num_le_num y 0).mpr hle)
          cases q' with
          | minus_infinity => exact absurd h (not_num_le_minus_infinity y)
          | plus_infinity => exact (num_le_num _ _).mpr (Int.tdiv_nonneg hx hy.le)
          | num y' => exact (num_le_num _ _).mpr (tdiv_anti hx hy ((num_le_num y y').mp h))

end

variable {a b v w : IntervalValue} {p q : BoundedInt} {x y : ℤ}

theorem isEnd_negated (h : IsEnd (negated v) p) : IsEnd v p.neg := by
  rcases h with rfl | rfl
  · exact .inr (neg_neg' v.ub)
  · exact .inl (neg_neg' v.lb)

theorem corner_le_of_pos (hb : .num 0 < b.lb) (hx : x ∈ a.concretize) (hy : y ∈ b.concretize) :
    ∃ p q, IsEnd a p ∧ IsEnd b q ∧ divExact p q ≤ .num (x.tdiv y) := by
  rw [mem_concretize] at hx hy
  have hy0 : .num 0 < num y := hb.trans_le hy.1
  have hle : divExact a.lb (.num y) ≤ .num (x.tdiv y) := divExact_mono hy0 hx.1
  rcases le_total (.num 0) a.lb with hlb | hlb
  · exact ⟨_, _, .inl rfl, .inr rfl, (divExact_anti hlb hy0 hy.2).trans hle⟩
  · have hneg := neg_le_neg' (divExact_anti (neg_le_neg' hlb) hb hy.1)
    rw [divExact_neg_left, divExact_neg_left, neg_neg', neg_neg'] at hneg
    exact ⟨_, _, .inl rfl, .inl rfl, hneg.trans hle⟩

theorem le_corner_of_pos (hb : .num 0 < b.lb) (hx : x ∈ a.concretize) (hy : y ∈ b.concretize) :
    ∃ p q, IsEnd a p ∧ IsEnd b q ∧ .num (x.tdiv y) ≤ divExact p q := by
  obtain ⟨p, q, hp, hq, hle⟩ := corner_le_of_pos hb ((mem_negated x).mpr hx) hy
  have hneg := neg_le_neg' hle
  rw [← divExact_neg_left, Int.neg_tdiv, neg, Int.neg_neg] at hneg
  exact ⟨_, q, isEnd_negated hp, hq, hneg⟩

theorem pos_or_pos_negated (h : v.contains 0 = false) :
    .num 0 < v.lb ∨ .num 0 < (negated v).lb := by
  by_contra hnot
  rw [not_or, not_lt, not_lt] at hnot
  have hub : .num 0 ≤ v.ub := by
    have hneg := neg_le_neg' hnot.2
    rwa [negated, neg_neg'] at hneg
  have hmem : (0 : ℤ) ∈ v.concretize := (mem_concretize v 0).mpr ⟨hnot.1, hub⟩
  have hcontains : v.contains 0 = true := hmem
  rw [h] at hcontains
  contradiction

theorem ne_zero_of_isEnd (hv : Proper v) (h : v.contains 0 = false) (hq : IsEnd v q) : q ≠ .num 0 := by
  rintro rfl
  have hmem : (0 : ℤ) ∈ v.concretize := by
    rw [mem_concretize]
    rcases hq with heq | heq
    · exact ⟨heq.ge, heq ▸ hv.le⟩
    · exact ⟨heq ▸ hv.le, heq.le⟩
  have hcontains : v.contains 0 = true := hmem
  rw [h] at hcontains
  contradiction

theorem corners (hb : Proper b) (h : b.contains 0 = false) (hx : x ∈ a.concretize) (hy : y ∈ b.concretize) :
    (∃ p q, IsEnd a p ∧ IsEnd b q ∧ divExact p q ≤ .num (x.tdiv y)) ∧
      ∃ p q, IsEnd a p ∧ IsEnd b q ∧ .num (x.tdiv y) ≤ divExact p q := by
  rcases pos_or_pos_negated h with hpos | hneg
  · exact ⟨corner_le_of_pos hpos hx hy, le_corner_of_pos hpos hx hy⟩
  · have hy' := (mem_negated y).mpr hy
    obtain ⟨p, q, hp, hq, hle⟩ := corner_le_of_pos hneg hx hy'
    obtain ⟨p', q', hp', hq', hle'⟩ := le_corner_of_pos hneg hx hy'
    have hq0 := ne_zero_of_isEnd hb h (isEnd_negated hq)
    have hq0' := ne_zero_of_isEnd hb h (isEnd_negated hq')
    rw [Int.tdiv_neg] at hle hle'
    have hleNeg := neg_le_neg' hle
    have hleNeg' := neg_le_neg' hle'
    have hback : ∀ {r : BoundedInt}, r.neg ≠ .num 0 → ∀ p, (divExact p r).neg = divExact p r.neg :=
      fun hr p => (divExact_neg_right p fun h0 => hr (by rw [h0]; rfl)).symm
    rw [neg, Int.neg_neg, hback hq0] at hleNeg
    rw [neg, Int.neg_neg, hback hq0'] at hleNeg'
    exact ⟨⟨p', _, hp', isEnd_negated hq', hleNeg'⟩, p, _, hp, isEnd_negated hq, hleNeg⟩

/-- An operation returns a valid interval that contains the results of `f` for divisors other than 0. -/
def Quotients (r : Option IntervalValue) (f : ℤ → ℤ → ℤ) (a b : IntervalValue) : Prop :=
  ∃ v, r = some v ∧ (v.isBottom || v.lb.leq v.ub) = true ∧
    ∀ x ∈ a.concretize, ∀ y ∈ b.concretize, y ≠ 0 → f x y ∈ v.concretize

def Overflows (a b : IntervalValue) : Prop :=
  -1 ∈ b.concretize ∧ (a.lb = .num s64_min ∨ a.ub = .num s64_min)

theorem tdiv_range {x y : ℤ} (hx : s64_min ≤ x ∧ x ≤ s64_max) (hne : ¬ (x = s64_min ∧ y = -1)) :
    s64_min ≤ x.tdiv y ∧ x.tdiv y ≤ s64_max := by
  have hmin : s64_min = -s64_max - 1 := rfl
  have habs := Int.natAbs_tdiv_le_natAbs x y
  by_cases hxm : x = s64_min
  · subst hxm
    have hy : y ≠ -1 := fun hy => hne ⟨rfl, hy⟩
    by_cases hone : y = 0 ∨ y = 1
    · rcases hone with rfl | rfl
      · rw [Int.tdiv_zero]; omega
      · rw [Int.tdiv_one]; omega
    · have hhalf : (Int.tdiv s64_min y).natAbs ≤ s64_min.natAbs / 2 := by
        rw [Int.natAbs_tdiv]
        exact Nat.div_le_div_left (by omega) (by decide)
      have hval : s64_min.natAbs / 2 = 2 ^ 62 := by decide
      have hmax : s64_max = 2 ^ 63 - 1 := rfl
      omega
  · omega

theorem div_eq (hp : InRange p) (hq : q ≠ .num 0) (h : ¬ (p = .num s64_min ∧ q = .num (-1))) :
    Bound.div p q = some (divExact p q) := by
  have hsign : ∀ z : BoundedInt, z ≠ .num 0 → BoundArithmetic.Bound.iVal z ≠ 0 := by
    intro z hz heq
    cases z with
    | minus_infinity | plus_infinity => cases heq
    | num c => exact hz (congrArg num heq)
  rw [Bound.div, if_neg (hsign q hq)]
  cases p with
  | num x =>
      cases q with
      | num y =>
          obtain ⟨hlow, hhigh⟩ := tdiv_range (y := y) (hp x rfl)
            fun ⟨hx, hy⟩ => h ⟨congrArg num hx, congrArg num hy⟩
          change (checked (x.tdiv y)).map BoundedInt.num = _
          rw [checked_of_le hlow hhigh]
          rfl
      | minus_infinity | plus_infinity => rfl
  | minus_infinity =>
      cases q with
      | num y =>
          change (if y ≥ 0 then some BoundedInt.minus_infinity else some BoundedInt.plus_infinity) =
            some (if 0 ≤ y then .minus_infinity else .plus_infinity)
          split
          · rfl
          · rfl
      | minus_infinity | plus_infinity => decide
  | plus_infinity =>
      cases q with
      | num y =>
          change (if y ≥ 0 then some BoundedInt.plus_infinity else some BoundedInt.minus_infinity) =
            some (if 0 ≤ y then .plus_infinity else .minus_infinity)
          split
          · rfl
          · rfl
      | minus_infinity | plus_infinity => decide

theorem div_min : Bound.div (.num s64_min) (.num (-1)) = none := by decide

theorem forall_ends {P : BoundedInt → Prop} : (∀ c ∈ [divExact a.lb b.lb, divExact a.lb b.ub,
    divExact a.ub b.lb, divExact a.ub b.ub], P c) ↔ ∀ p q, IsEnd a p → IsEnd b q → P (divExact p q) := by
  constructor
  · rintro h p q (rfl | rfl) (rfl | rfl) <;> exact h _ (by simp)
  · intro h c hc
    simp only [List.mem_cons, List.not_mem_nil, or_false] at hc
    rcases hc with rfl | rfl | rfl | rfl
    · exact h _ _ (.inl rfl) (.inl rfl)
    · exact h _ _ (.inl rfl) (.inr rfl)
    · exact h _ _ (.inr rfl) (.inl rfl)
    · exact h _ _ (.inr rfl) (.inr rfl)

theorem end_range (hv : Proper v) (hp : IsEnd v p) : InRange p := by
  rcases hp with rfl | rfl
  · exact hv.lbRange
  · exact hv.ubRange

theorem overflows_of_ends (hb : Proper b) (hp : IsEnd a (.num s64_min)) (hq : IsEnd b (.num (-1))) :
    Overflows a b := by
  refine ⟨(mem_concretize _ _).mpr ?_, hp.imp Eq.symm Eq.symm⟩
  rcases hq with heq | heq
  · exact ⟨heq.ge, heq ▸ hb.le⟩
  · exact ⟨heq ▸ hb.le, heq.le⟩

theorem ub_of_mem (h : b.contains 0 = false) (hmem : -1 ∈ b.concretize) : b.ub = .num (-1) := by
  rw [mem_concretize] at hmem
  rcases pos_or_pos_negated h with hpos | hpos
  · have hlt := hpos.trans_le hmem.1
    exact absurd ((num_le_num (-1) 0).mpr (by decide)) hlt.not_ge
  · change .num 0 < b.ub.neg at hpos
    cases hub : b.ub with
    | minus_infinity =>
        rw [hub] at hmem
        exact absurd hmem.2 (not_num_le_minus_infinity _)
    | plus_infinity =>
        rw [hub] at hpos
        exact absurd hpos (by decide)
    | num u =>
        rw [hub, num_le_num] at hmem
        have hneg : 0 < -u := lt_of_not_ge fun hle => hpos.not_ge (by rw [hub]; exact (num_le_num _ _).mpr hle)
        rw [show u = -1 by omega]

theorem div_corners (fuel : ℕ) (ha : Proper a) (hb : Proper b) (ha0 : a.contains 0 = false)
    (hb0 : b.contains 0 = false) :
    (¬ Overflows a b → Quotients (Interval.div (fuel + 1) a b) Int.tdiv a b) ∧
      (Overflows a b → Interval.div (fuel + 1) a b = none) := by
  have hrun : Interval.div (fuel + 1) a b = (Bound.div a.lb b.lb).bind fun ll =>
      (Bound.div a.lb b.ub).bind fun lu => (Bound.div a.ub b.lb).bind fun ul =>
        (Bound.div a.ub b.ub).bind fun uu => BoundArithmetic.Interval.ofCorners [ll, lu, ul, uu] := by
    rw [Interval.div, ha.isBottom, hb.isBottom, ha0, hb0]
    rfl
  constructor
  · intro hover
    have hdiv : ∀ p q, IsEnd a p → IsEnd b q → Bound.div p q = some (divExact p q) := fun p q hp hq =>
      div_eq (end_range ha hp) (ne_zero_of_isEnd hb hb0 hq)
        fun ⟨hpm, hqm⟩ => hover (overflows_of_ends hb (hpm ▸ hp) (hqm ▸ hq))
    rw [hrun, hdiv _ _ (.inl rfl) (.inl rfl), hdiv _ _ (.inl rfl) (.inr rfl),
      hdiv _ _ (.inr rfl) (.inl rfl), hdiv _ _ (.inr rfl) (.inr rfl)]
    change Quotients (BoundArithmetic.Interval.ofCorners _) _ a b
    have hlo := fun z => (le_minOf [divExact a.lb b.lb, divExact a.lb b.ub, divExact a.ub b.lb,
      divExact a.ub b.ub] .plus_infinity z).trans ((and_iff_right (le_plus_infinity z)).trans forall_ends)
    have hhi := fun z => (maxOf_le [divExact a.lb b.lb, divExact a.lb b.ub, divExact a.ub b.lb,
      divExact a.ub b.ub] .minus_infinity z).trans ((and_iff_right (minus_infinity_le z)).trans forall_ends)
    rw [BoundArithmetic.Interval.ofCorners]
    generalize BoundArithmetic.Bound.minOf _ _ = lo at hlo ⊢
    generalize BoundArithmetic.Bound.maxOf _ _ = hi at hhi ⊢
    have hle : lo ≤ hi := ((hlo lo).mp le_rfl _ _ (.inl rfl) (.inl rfl)).trans
      ((hhi hi).mp le_rfl _ _ (.inl rfl) (.inl rfl))
    have hleq := (leq_iff lo hi).mpr hle
    refine ⟨⟨lo, hi⟩, ?_, ?_, fun x hx y hy _ => ?_⟩
    · rw [BoundArithmetic.Interval.ofBounds, hleq, Bool.or_true, if_pos rfl]
    · rw [hleq, Bool.or_true]
    · obtain ⟨⟨p, q, hp, hq, hlow⟩, p', q', hp', hq', hhigh⟩ := corners hb hb0 hx hy
      exact (mem_concretize _ _).mpr ⟨((hlo lo).mp le_rfl p q hp hq).trans hlow,
        hhigh.trans ((hhi hi).mp le_rfl p' q' hp' hq')⟩
  · rintro ⟨hmem, hmin⟩
    rw [hrun, ub_of_mem hb0 hmem]
    rcases hmin with heq | heq
    · rw [heq, div_min]
      cases Bound.div (.num s64_min) b.lb <;> rfl
    · rw [heq, div_min]
      cases Bound.div a.lb b.lb with
      | none => rfl
      | some ll =>
          cases Bound.div a.lb (.num (-1)) with
          | none => rfl
          | some lu => cases Bound.div (.num s64_min) b.lb <;> rfl

section

theorem not_mem_bottom : x ∉ IntervalValue.bottom.concretize := by
  rw [concretize_bottom]
  exact Set.notMem_empty x

theorem create_lower (hv : Proper v) (h0 : 0 ∈ v.concretize) : ∃ w,
    Interval.create v.lb (.num (-1)) = some w ∧ WellFormed w ∧ w.contains 0 = false ∧
      (∀ x, x ∈ w.concretize ↔ x ∈ v.concretize ∧ x < 0) ∧
      (w.lb = .num s64_min ∨ w.ub = .num s64_min ↔ v.lb = .num s64_min ∨ v.ub = .num s64_min) := by
  rw [mem_concretize] at h0
  have hub : v.ub ≠ .num s64_min := by
    intro heq
    rw [heq, num_le_num] at h0
    exact absurd h0.2 (by decide)
  by_cases hle : v.lb.leq (.num (-1)) = true
  · have hle' := (leq_iff _ _).mp hle
    have hmem : ∀ x, x ∈ (⟨v.lb, .num (-1)⟩ : IntervalValue).concretize ↔ x ∈ v.concretize ∧ x < 0 := by
      intro x
      rw [mem_concretize, mem_concretize, num_le_num]
      constructor
      · rintro ⟨hlow, hhigh⟩
        exact ⟨⟨hlow, ((num_le_num x 0).mpr (by omega)).trans h0.2⟩, by omega⟩
      · rintro ⟨⟨hlow, -⟩, hneg⟩
        exact ⟨hlow, by omega⟩
    refine ⟨⟨v.lb, .num (-1)⟩, ?_, .inr ⟨hle', hv.lb, fun h => (by cases h), hv.lbRange,
      inRange_num (by decide) (by decide)⟩, ?_, hmem, ?_⟩
    · rw [Interval.create, hle, BoundArithmetic.Interval.ofBounds, hle, Bool.or_true]
      rfl
    · exact Bool.not_eq_true _ |>.mp fun hzero => absurd ((hmem 0).mp hzero).2 (lt_irrefl 0)
    · exact ⟨fun h => .inl (h.resolve_right fun heq => absurd (num.inj heq) (by decide)), fun h => .inl (h.resolve_right hub)⟩
  · refine ⟨IntervalValue.bottom, ?_, .inl rfl, rfl, fun x => ?_, ?_⟩
    · rw [Interval.create, Bool.not_eq_true _ |>.mp hle]
      rfl
    · refine iff_of_false not_mem_bottom fun hx => hle ((leq_iff _ _).mpr ?_)
      exact ((mem_concretize v x).mp hx.1).1.trans ((num_le_num _ _).mpr (Int.le_sub_one_of_lt hx.2))
    · refine iff_of_false (by decide) fun h => hle ((leq_iff _ _).mpr ?_)
      rw [h.resolve_right hub, num_le_num]
      decide

theorem create_upper (hv : Proper v) (h0 : 0 ∈ v.concretize) : ∃ w,
    Interval.create (.num 1) v.ub = some w ∧ WellFormed w ∧ w.contains 0 = false ∧
      (∀ x, x ∈ w.concretize ↔ x ∈ v.concretize ∧ 0 < x) ∧
      ¬ (w.lb = .num s64_min ∨ w.ub = .num s64_min) := by
  rw [mem_concretize] at h0
  have hub : v.ub ≠ .num s64_min := by
    intro heq
    rw [heq, num_le_num] at h0
    exact absurd h0.2 (by decide)
  by_cases hle : (num 1).leq v.ub = true
  · have hle' := (leq_iff _ _).mp hle
    have hmem : ∀ x, x ∈ (⟨.num 1, v.ub⟩ : IntervalValue).concretize ↔ x ∈ v.concretize ∧ 0 < x := by
      intro x
      rw [mem_concretize, mem_concretize, num_le_num]
      constructor
      · rintro ⟨hlow, hhigh⟩
        exact ⟨⟨h0.1.trans ((num_le_num 0 x).mpr (by omega)), hhigh⟩, by omega⟩
      · rintro ⟨⟨-, hhigh⟩, hpos⟩
        exact ⟨by omega, hhigh⟩
    refine ⟨⟨.num 1, v.ub⟩, ?_, .inr ⟨hle', fun h => (by cases h), hv.ub,
      inRange_num (by decide) (by decide), hv.ubRange⟩, ?_, hmem, ?_⟩
    · rw [Interval.create, hle, BoundArithmetic.Interval.ofBounds, hle, Bool.or_true]
      rfl
    · exact Bool.not_eq_true _ |>.mp fun hzero => absurd ((hmem 0).mp hzero).2 (lt_irrefl 0)
    · exact fun h => h.elim (fun heq => absurd (num.inj heq) (by decide)) hub
  · refine ⟨IntervalValue.bottom, ?_, .inl rfl, rfl, fun x => ?_, by decide⟩
    · rw [Interval.create, Bool.not_eq_true _ |>.mp hle]
      rfl
    · refine iff_of_false not_mem_bottom fun hx => hle ((leq_iff _ _).mpr ?_)
      exact ((num_le_num 1 x).mpr hx.2).trans ((mem_concretize v x).mp hx.1).2

theorem join_spec (hv : (v.isBottom || v.lb.leq v.ub) = true) (hw : (w.isBottom || w.lb.leq w.ub) = true) :
    ∃ u, Interval.join v w = some u ∧ (u.isBottom || u.lb.leq u.ub) = true ∧
      ∀ x, x ∈ v.concretize ∨ x ∈ w.concretize → x ∈ u.concretize := by
  refine ⟨v.join_with w, by rw [Interval.join, if_pos hv], ?_, fun x hx => hx.elim
    (fun hx => concretize_join_left v w hx) fun hx => concretize_join_right v w hx⟩
  rw [IntervalValue.join_with]
  split
  · split
    · exact hv
    · exact hw
  · split
    · exact hv
    · rename_i hvb _
      rw [Bool.not_eq_true _ |>.mp hvb, Bool.false_or, leq_iff] at hv
      refine (Bool.or_eq_true _ _).mpr (.inr ((leq_iff _ _).mpr ?_))
      rw [min_eq_inf, max_eq_sup]
      exact inf_le_left.trans (hv.trans le_sup_left)

variable (fuel : ℕ)

theorem quotients_bottom (f : ℤ → ℤ → ℤ) (h : a = IntervalValue.bottom ∨ b = IntervalValue.bottom) :
    Quotients (some IntervalValue.bottom) f a b := by
  refine ⟨IntervalValue.bottom, rfl, rfl, fun x hx y hy _ => ?_⟩
  rcases h with rfl | rfl
  · exact absurd hx not_mem_bottom
  · exact absurd hy not_mem_bottom

theorem div_bottom (h : a = IntervalValue.bottom ∨ b = IntervalValue.bottom) :
    (¬ Overflows a b → Quotients (Interval.div (fuel + 1) a b) Int.tdiv a b) ∧
      (Overflows a b → Interval.div (fuel + 1) a b = none) := by
  have hcond : (a.isBottom || b.isBottom) = true := by
    rw [Bool.or_eq_true, isBottom_iff, isBottom_iff]
    exact h
  constructor
  · intro _
    rw [Interval.div, if_pos hcond]
    exact quotients_bottom _ h
  · rintro ⟨hmem, hmin⟩
    rcases h with rfl | rfl
    · exact absurd hmin (by decide)
    · exact absurd hmem not_mem_bottom

theorem div_nonzero (ha : WellFormed a) (hb : WellFormed b) (ha0 : a.contains 0 = false)
    (hb0 : b.contains 0 = false) :
    (¬ Overflows a b → Quotients (Interval.div (fuel + 1) a b) Int.tdiv a b) ∧
      (Overflows a b → Interval.div (fuel + 1) a b = none) := by
  rcases ha with rfl | ha
  · exact div_bottom fuel (.inl rfl)
  · rcases hb with rfl | hb
    · exact div_bottom fuel (.inr rfl)
    · exact div_corners fuel ha hb ha0 hb0

theorem div_nonzeroDivisor (ha : WellFormed a) (hb : WellFormed b) (hb0 : b.contains 0 = false) :
    (¬ Overflows a b → Quotients (Interval.div (fuel + 2) a b) Int.tdiv a b) ∧
      (Overflows a b → Interval.div (fuel + 2) a b = none) := by
  by_cases ha0 : a.contains 0 = true
  · rcases ha with rfl | ha
    · exact absurd ha0 (by decide)
    · rcases hb with rfl | hb
      · exact div_bottom (fuel + 1) (.inr rfl)
      · obtain ⟨lo, hlo, hlow, hlo0, hlomem, hlomin⟩ := create_lower ha ha0
        obtain ⟨up, hup, hupw, hup0, hupmem, hupmin⟩ := create_upper ha ha0
        obtain ⟨hloquot, hlonone⟩ := div_nonzero fuel hlow (.inr hb) hlo0 hb0
        obtain ⟨hupquot, -⟩ := div_nonzero fuel hupw (.inr hb) hup0 hb0
        have hsame : Overflows lo b ↔ Overflows a b := and_congr_right fun _ => hlomin
        have hrun : Interval.div (fuel + 2) a b = (Interval.div (fuel + 1) lo b).bind fun l_res =>
            (Interval.div (fuel + 1) up b).bind fun r_res => (Interval.join l_res r_res).bind fun l_res =>
              Interval.join l_res (IntervalValue.ofInt 0) := by
          rw [Interval.div, ha.isBottom, hb.isBottom, ha0, hb0, hlo, hup]
          rfl
        constructor
        · intro hover
          obtain ⟨u, hu, huvalid, humem⟩ := hloquot fun h => hover (hsame.mp h)
          obtain ⟨u', hu', huvalid', humem'⟩ := hupquot fun h => hupmin h.2
          obtain ⟨j, hj, hjvalid, hjmem⟩ := join_spec huvalid huvalid'
          obtain ⟨k, hk, hkvalid, hkmem⟩ := join_spec (w := IntervalValue.ofInt 0) hjvalid rfl
          refine ⟨k, by rw [hrun, hu, Option.bind_some, hu', Option.bind_some, hj, Option.bind_some, hk],
            hkvalid, fun x hx y hy hy0 => hkmem _ ?_⟩
          rcases lt_trichotomy x 0 with hneg | rfl | hpos
          · exact .inl (hjmem _ (.inl (humem x ((hlomem x).mpr ⟨hx, hneg⟩) y hy hy0)))
          · rw [Int.zero_tdiv, concretize_ofInt]
            exact .inr rfl
          · exact .inl (hjmem _ (.inr (humem' x ((hupmem x).mpr ⟨hx, hpos⟩) y hy hy0)))
        · intro hover
          rw [hrun, hlonone (hsame.mpr hover)]
          rfl
  · exact div_nonzero (fuel + 1) ha hb (Bool.not_eq_true _ |>.mp ha0) hb0

theorem div_spec (ha : WellFormed a) (hb : WellFormed b) :
    (¬ Overflows a b → Quotients (Interval.div (fuel + 3) a b) Int.tdiv a b) ∧
      (Overflows a b → Interval.div (fuel + 3) a b = none) := by
  by_cases hb0 : b.contains 0 = true
  · rcases hb with rfl | hb
    · exact absurd hb0 (by decide)
    · rcases ha with rfl | ha
      · exact div_bottom (fuel + 2) (.inl rfl)
      · obtain ⟨lo, hlo, hlow, hlo0, hlomem, -⟩ := create_lower hb hb0
        obtain ⟨up, hup, hupw, hup0, hupmem, -⟩ := create_upper hb hb0
        obtain ⟨hloquot, hlonone⟩ := div_nonzeroDivisor fuel (.inr ha) hlow hlo0
        obtain ⟨hupquot, -⟩ := div_nonzeroDivisor fuel (.inr ha) hupw hup0
        have hsame : Overflows a lo ↔ Overflows a b := and_congr_left fun _ =>
          (hlomem (-1)).trans (and_iff_left (by decide))
        have hrun : Interval.div (fuel + 3) a b = (Interval.div (fuel + 2) a lo).bind fun l_res =>
            (Interval.div (fuel + 2) a up).bind fun r_res => Interval.join l_res r_res := by
          rw [Interval.div, ha.isBottom, hb.isBottom, hb0, hlo, hup]
          rfl
        constructor
        · intro hover
          obtain ⟨u, hu, huvalid, humem⟩ := hloquot fun h => hover (hsame.mp h)
          obtain ⟨u', hu', huvalid', humem'⟩ := hupquot fun h =>
            absurd ((hupmem (-1)).mp h.1).2 (by decide)
          obtain ⟨j, hj, hjvalid, hjmem⟩ := join_spec huvalid huvalid'
          refine ⟨j, by rw [hrun, hu, Option.bind_some, hu', Option.bind_some, hj], hjvalid,
            fun x hx y hy hy0 => hjmem _ ?_⟩
          rcases lt_or_gt_of_ne hy0 with hneg | hpos
          · exact .inl (humem x hx y ((hlomem y).mpr ⟨hy, hneg⟩) hy0)
          · exact .inr (humem' x hx y ((hupmem y).mpr ⟨hy, hpos⟩) hy0)
        · intro hover
          rw [hrun, hlonone (hsame.mpr hover)]
          rfl
  · exact div_nonzeroDivisor (fuel + 1) ha hb (Bool.not_eq_true _ |>.mp hb0)

end

end SVF.AE.IntervalDivision
