import SVF.AE.IntervalDivision

namespace SVF.AE.IntervalRemainder

open NumericValue NumericValue.BoundedInt Intervals BoundArithmetic ExactBounds IntervalArithmetic
open IntervalDivision
open IntervalProducts (neg_of_ne inRange_neg)

variable {a b v : IntervalValue} {p q : BoundedInt} {x y m : ℤ}

def absExact (p : BoundedInt) : BoundedInt := if p ≤ .num 0 then p.neg else p

theorem abs_of_ne (hp : InRange p) (hne : p ≠ .num s64_min) :
    Bound.abs p = some (absExact p) ∧ InRange (absExact p) := by
  rw [Bound.abs, absExact]
  by_cases hle : p.leq (.num 0) = true
  · rw [if_pos hle, if_pos ((leq_iff _ _).mp hle)]
    exact ⟨neg_of_ne hp hne, inRange_neg hp hne⟩
  · rw [if_neg hle, if_neg fun h => hle ((leq_iff _ _).mpr h)]
    exact ⟨rfl, hp⟩

theorem abs_min : Bound.abs (.num s64_min) = none := by decide

theorem le_absExact (p : BoundedInt) : p ≤ absExact p := by
  rw [absExact]
  split
  · rename_i hle
    exact hle.trans (neg_le_neg' hle)
  · exact le_rfl

theorem neg_le_absExact (h : p ≤ .num x) (hx : x < 0) : .num (-x) ≤ absExact p := by
  rw [absExact, if_pos (h.trans ((num_le_num x 0).mpr hx.le))]
  exact neg_le_neg' h

theorem inRange_max (hp : InRange p) (hq : InRange q) : InRange (p.max q) := by
  rw [max_eq_sup]
  rcases le_total p q with h | h
  · rwa [sup_eq_right.mpr h]
  · rwa [sup_eq_left.mpr h]

theorem inRange_min (hp : InRange p) (hq : InRange q) : InRange (p.min q) := by
  rw [min_eq_inf]
  rcases le_total p q with h | h
  · rwa [inf_eq_left.mpr h]
  · rwa [inf_eq_right.mpr h]

theorem abs_le_dividend (hx : x ∈ v.concretize) :
    .num |x| ≤ (absExact v.lb).max (absExact v.ub) := by
  rw [mem_concretize] at hx
  rw [max_eq_sup]
  rcases lt_or_ge x 0 with hneg | hpos
  · rw [abs_of_neg hneg]
    exact (neg_le_absExact hx.1 hneg).trans le_sup_left
  · rw [abs_of_nonneg hpos]
    exact (hx.2.trans (le_absExact v.ub)).trans le_sup_right

theorem abs_le_divisor (hy : y ∈ v.concretize) : .num |y| ≤ (absExact v.lb).max v.ub := by
  rw [mem_concretize] at hy
  rw [max_eq_sup]
  rcases lt_or_ge y 0 with hneg | hpos
  · rw [abs_of_neg hneg]
    exact (neg_le_absExact hy.1 hneg).trans le_sup_left
  · rw [abs_of_nonneg hpos]
    exact hy.2.trans le_sup_right

theorem sub_one (hp : InRange p) (hpos : .num 1 ≤ p) : ∃ r, BoundArithmetic.Bound.sub p (.num 1) = some r ∧
    InRange r ∧ ∀ z, .num z ≤ p → .num (z - 1) ≤ r := by
  have hne : p ≠ .minus_infinity := fun heq => not_num_le_minus_infinity 1 (heq ▸ hpos)
  obtain ⟨r, hr, hrange, hminus, hall⟩ := safeAdd_upper (q := .num (-1)) hne (by decide) hp
    (inRange_num (by decide) (by decide))
  have hrun : BoundArithmetic.Bound.sub p (.num 1) = BoundArithmetic.Bound.safeAdd p (.num (-1)) := rfl
  have hr' : r ≠ .minus_infinity := by
    intro heq
    obtain ⟨w, -, hw, -, hneg, -⟩ := hminus.mp heq
    rw [hw, num_le_num] at hpos
    omega
  exact ⟨r, hrun.trans hr, hrange, fun z hz => hall hr' z (-1) hz le_rfl⟩

theorem abs_tmod (hy : y ≠ 0) : |x.tmod y| ≤ |x| ∧ |x.tmod y| ≤ |y| - 1 := by
  have habs := Int.natAbs_tmod x y
  have hlt := Nat.mod_lt x.natAbs (Int.natAbs_pos.mpr hy)
  have hle := Nat.mod_le x.natAbs y.natAbs
  rw [Int.abs_eq_natAbs, Int.abs_eq_natAbs, Int.abs_eq_natAbs]
  omega

/-- Both intervals are single numbers, of which the quotient overflows; or they are not, and the
absolute value of a bound overflows. -/
def Overflows (a b : IntervalValue) : Prop :=
  a ≠ IntervalValue.bottom ∧ b ≠ IntervalValue.bottom ∧ b.contains 0 = false ∧
    if (a.is_numeral && b.is_numeral) = true then a.lb = .num s64_min ∧ b.lb = .num (-1)
    else a.lb = .num s64_min ∨ a.ub = .num s64_min ∨ b.lb = .num s64_min

theorem eq_num_of_numeral (hv : Proper v) (h : v.is_numeral = true) : ∃ k, v = ⟨.num k, .num k⟩ := by
  have heq : v.lb = v.ub := of_decide_eq_true h
  obtain ⟨lb, ub⟩ := v
  dsimp only at heq
  subst heq
  cases lb with
  | minus_infinity => exact absurd rfl hv.ub
  | plus_infinity => exact absurd rfl hv.lb
  | num k => exact ⟨k, rfl⟩

theorem quotients_ofBounds {lo hi : BoundedInt} {f : ℤ → ℤ → ℤ} (hle : lo ≤ hi)
    (h : ∀ x ∈ a.concretize, ∀ y ∈ b.concretize, y ≠ 0 → lo ≤ .num (f x y) ∧ .num (f x y) ≤ hi) :
    Quotients (BoundArithmetic.Interval.ofBounds lo hi) f a b := by
  have hleq := (leq_iff lo hi).mpr hle
  refine ⟨⟨lo, hi⟩, ?_, ?_, fun x hx y hy hy0 => (mem_concretize _ _).mpr (h x hx y hy hy0)⟩
  · rw [BoundArithmetic.Interval.ofBounds, hleq, Bool.or_true, if_pos rfl]
  · rw [hleq, Bool.or_true]

theorem mod_numeral {k m : ℤ} (hk : InRange (.num k)) (hm : m ≠ 0) :
    (¬ (k = s64_min ∧ m = -1) →
      Quotients ((Bound.mod (.num k) (.num m)).bind fun lb => (Bound.mod (.num k) (.num m)).bind fun ub =>
        BoundArithmetic.Interval.ofBounds lb ub) Int.tmod ⟨.num k, .num k⟩ ⟨.num m, .num m⟩) ∧
    ((k = s64_min ∧ m = -1) → Bound.mod (.num k) (.num m) = none) := by
  have hdef : Bound.mod (.num k) (.num m) = (checked (k.tdiv m)).map fun _ => .num (k.tmod m) := by
    rw [Bound.mod, if_neg (show BoundArithmetic.Bound.iVal (.num m) ≠ 0 from hm)]
    rfl
  constructor
  · intro hne
    obtain ⟨hlow, hhigh⟩ := tdiv_range (hk k rfl) hne
    rw [hdef, checked_of_le hlow hhigh]
    change Quotients (BoundArithmetic.Interval.ofBounds (.num (k.tmod m)) (.num (k.tmod m))) _ _ _
    refine quotients_ofBounds le_rfl fun x hx y hy _ => ?_
    rw [mem_concretize, num_le_num, num_le_num] at hx hy
    obtain rfl : x = k := le_antisymm hx.2 hx.1
    obtain rfl : y = m := le_antisymm hy.2 hy.1
    exact ⟨le_rfl, le_rfl⟩
  · rintro ⟨rfl, rfl⟩
    decide

/-- The three results for a divisor that is not 0, by the signs of the dividend's ends. -/
def bySigns (a : IntervalValue) (ub : BoundedInt) : Option IntervalValue :=
  if Bound.getNumeral a.lb < 0 then
    if Bound.getNumeral a.ub > 0 then
      (BoundArithmetic.Bound.neg ub).bind fun lb => BoundArithmetic.Interval.ofBounds lb ub
    else (BoundArithmetic.Bound.neg ub).bind fun lb => BoundArithmetic.Interval.ofBounds lb (.num 0)
  else BoundArithmetic.Interval.ofBounds (.num 0) ub

theorem getNumeral_of_zero (h : BoundArithmetic.Bound.iVal p = 0) : Bound.getNumeral p = 0 := by
  cases p with
  | minus_infinity | plus_infinity => cases h
  | num k => exact h

theorem nonneg_of_mem (ha : Proper a) (h : ¬ Bound.getNumeral a.lb < 0) (hx : x ∈ a.concretize) : 0 ≤ x := by
  rw [mem_concretize] at hx
  cases hlb : a.lb with
  | minus_infinity =>
      rw [hlb] at h
      exact absurd (by decide) h
  | plus_infinity => exact absurd hlb ha.lb
  | num k =>
      rw [hlb, num_le_num] at hx
      rw [hlb] at h
      exact (not_lt.mp h).trans hx.1

theorem nonpos_of_mem (ha : Proper a) (h : ¬ Bound.getNumeral a.ub > 0) (hx : x ∈ a.concretize) : x ≤ 0 := by
  rw [mem_concretize] at hx
  cases hub : a.ub with
  | minus_infinity => exact absurd hub ha.ub
  | plus_infinity =>
      rw [hub] at h
      exact absurd (by decide) h
  | num k =>
      rw [hub, num_le_num] at hx
      rw [hub] at h
      exact hx.2.trans (not_lt.mp h)

theorem bySigns_spec {ub : BoundedInt} (ha : Proper a) (hub : InRange ub)
    (hpos : .num 0 ≤ ub) (h : ∀ x ∈ a.concretize, ∀ y ∈ b.concretize, y ≠ 0 → .num |x.tmod y| ≤ ub) :
    Quotients (bySigns a ub) Int.tmod a b := by
  have hne : ub ≠ .num s64_min := by
    rintro rfl
    exact absurd hpos (by decide)
  have hneg : ub.neg ≤ .num 0 := neg_le_neg' hpos
  have hhigh : ∀ x ∈ a.concretize, ∀ y ∈ b.concretize, y ≠ 0 → .num (x.tmod y) ≤ ub :=
    fun x hx y hy hy0 => ((num_le_num _ _).mpr (le_abs_self _)).trans (h x hx y hy hy0)
  have hlow : ∀ x ∈ a.concretize, ∀ y ∈ b.concretize, y ≠ 0 → ub.neg ≤ .num (x.tmod y) :=
    fun x hx y hy hy0 => (neg_le_neg' (h x hx y hy hy0)).trans ((num_le_num _ _).mpr (neg_abs_le _))
  rw [bySigns, neg_of_ne hub hne]
  split
  · split
    · exact quotients_ofBounds (hneg.trans hpos) fun x hx y hy hy0 => ⟨hlow x hx y hy hy0, hhigh x hx y hy hy0⟩
    · rename_i hsign
      refine quotients_ofBounds hneg fun x hx y hy hy0 => ⟨hlow x hx y hy hy0, (num_le_num _ _).mpr ?_⟩
      have hnonneg := Int.tmod_nonneg y (neg_nonneg.mpr (nonpos_of_mem ha hsign hx))
      rw [Int.neg_tmod] at hnonneg
      exact neg_nonneg.mp hnonneg
  · rename_i hsign
    exact quotients_ofBounds hpos fun x hx y hy hy0 =>
      ⟨(num_le_num _ _).mpr (Int.tmod_nonneg y (nonneg_of_mem ha hsign hx)), hhigh x hx y hy hy0⟩

theorem mod_signs (ha : Proper a) (hb : Proper b) (hb0 : b.contains 0 = false)
    (hlb : a.lb ≠ .num s64_min) (hub : a.ub ≠ .num s64_min) (hblb : b.lb ≠ .num s64_min) :
    Quotients ((Bound.abs a.lb).bind fun l => (Bound.abs a.ub).bind fun u => (Bound.abs b.lb).bind fun d =>
      (BoundArithmetic.Bound.sub (d.max b.ub) (.num 1)).bind fun d_ub => bySigns a ((l.max u).min d_ub))
      Int.tmod a b := by
  obtain ⟨hl, hlr⟩ := abs_of_ne ha.lbRange hlb
  obtain ⟨hu, hur⟩ := abs_of_ne ha.ubRange hub
  obtain ⟨hd, hdr⟩ := abs_of_ne hb.lbRange hblb
  obtain ⟨x₀, hx₀⟩ := ha.nonempty
  obtain ⟨y₀, hy₀⟩ := hb.nonempty
  have hne : ∀ y ∈ b.concretize, y ≠ 0 := by
    rintro y hy rfl
    have hcontains : b.contains 0 = true := hy
    rw [hb0] at hcontains
    contradiction
  have hone : .num 1 ≤ (absExact b.lb).max b.ub :=
    ((num_le_num 1 _).mpr (Int.one_le_abs (hne y₀ hy₀))).trans (abs_le_divisor hy₀)
  obtain ⟨r, hr, hrange, hrall⟩ := sub_one (inRange_max hdr hb.ubRange) hone
  rw [hl, hu, hd]
  change Quotients ((BoundArithmetic.Bound.sub ((absExact b.lb).max b.ub) (.num 1)).bind _) _ a b
  rw [hr]
  have hall : ∀ x ∈ a.concretize, ∀ y ∈ b.concretize, y ≠ 0 →
      .num |x.tmod y| ≤ ((absExact a.lb).max (absExact a.ub)).min r := by
    intro x hx y hy hy0
    obtain ⟨hdividend, hdivisor⟩ := abs_tmod (x := x) hy0
    rw [min_eq_inf]
    exact le_inf (((num_le_num _ _).mpr hdividend).trans (abs_le_dividend hx))
      (((num_le_num _ _).mpr hdivisor).trans (hrall _ (abs_le_divisor hy)))
  have hpos : .num 0 ≤ ((absExact a.lb).max (absExact a.ub)).min r :=
    ((num_le_num 0 _).mpr (abs_nonneg _)).trans (hall x₀ hx₀ y₀ hy₀ (hne y₀ hy₀))
  exact bySigns_spec ha (inRange_min (inRange_max hlr hur) hrange) hpos hall

theorem mod_signs_none (h : a.lb = .num s64_min ∨ a.ub = .num s64_min ∨ b.lb = .num s64_min) :
    ((Bound.abs a.lb).bind fun l => (Bound.abs a.ub).bind fun u => (Bound.abs b.lb).bind fun d =>
      (BoundArithmetic.Bound.sub (d.max b.ub) (.num 1)).bind fun d_ub => bySigns a ((l.max u).min d_ub)) =
      none := by
  cases hl : Bound.abs a.lb with
  | none => rfl
  | some l =>
      cases hu : Bound.abs a.ub with
      | none => rfl
      | some u =>
          rcases h with h | h | h
          · rw [h, abs_min] at hl
            contradiction
          · rw [h, abs_min] at hu
            contradiction
          · rw [h, abs_min]
            rfl

theorem mod_spec (ha : WellFormed a) (hb : WellFormed b) :
    (¬ Overflows a b → Quotients (Interval.mod a b) Int.tmod a b) ∧
      (Overflows a b → Interval.mod a b = none) := by
  by_cases hbot : a = IntervalValue.bottom ∨ b = IntervalValue.bottom
  · refine ⟨fun _ => ?_, fun h => (hbot.elim h.1 h.2.1).elim⟩
    rw [Interval.mod, if_pos (by rw [Bool.or_eq_true, isBottom_iff, isBottom_iff]; exact hbot)]
    exact quotients_bottom _ hbot
  · rw [not_or] at hbot
    replace ha := ha.resolve_left hbot.1
    replace hb := hb.resolve_left hbot.2
    rw [Interval.mod, ha.isBottom, hb.isBottom, Bool.or_self, if_neg Bool.false_ne_true]
    by_cases hb0 : b.contains 0 = true
    · rw [if_pos hb0]
      refine ⟨fun _ => ?_, fun h => absurd h.2.2.1 (by rw [hb0]; decide)⟩
      split
      · rename_i hzero
        refine quotients_ofBounds le_rfl fun x hx y _ _ => ?_
        rw [Interval.is_zero, Bool.and_eq_true, decide_eq_true_iff, decide_eq_true_iff] at hzero
        have hlow := nonneg_of_mem ha (by rw [getNumeral_of_zero hzero.1]; decide) hx
        have hhigh := nonpos_of_mem ha (by rw [getNumeral_of_zero hzero.2]; decide) hx
        rw [le_antisymm hhigh hlow, Int.zero_tmod]
        exact ⟨le_rfl, le_rfl⟩
      · exact ⟨IntervalValue.top, rfl, rfl, fun x _ y _ _ => concretize_top rfl _⟩
    · rw [if_neg hb0]
      rw [Bool.not_eq_true] at hb0
      rw [Overflows, and_iff_right hbot.1, and_iff_right hbot.2, and_iff_right hb0]
      by_cases hnum : (a.is_numeral && b.is_numeral) = true
      · rw [if_pos hnum, if_pos hnum]
        rw [Bool.and_eq_true] at hnum
        obtain ⟨k, rfl⟩ := eq_num_of_numeral ha hnum.1
        obtain ⟨m, rfl⟩ := eq_num_of_numeral hb hnum.2
        have hm : m ≠ 0 := fun h => ne_zero_of_isEnd hb hb0 (.inl rfl) (congrArg num h)
        obtain ⟨hfits, hnone⟩ := mod_numeral (m := m) ha.lbRange hm
        refine ⟨fun h => hfits fun hkm => h ⟨congrArg num hkm.1, congrArg num hkm.2⟩, fun h => ?_⟩
        change (Bound.mod (.num k) (.num m)).bind _ = none
        rw [hnone ⟨num.inj h.1, num.inj h.2⟩]
        rfl
      · rw [if_neg hnum, if_neg hnum]
        refine ⟨fun h => ?_, fun h => mod_signs_none h⟩
        rw [not_or, not_or] at h
        exact mod_signs ha hb hb0 h.1 h.2.1 h.2.2

def Correct (a b : IntervalValue) : Prop :=
  (∀ fuel, Quotients (Interval.div (fuel + 3) a b) Int.tdiv a b) ∧ Quotients (Interval.mod a b) Int.tmod a b

theorem quotients_correct_iff (ha : WellFormed a) (hb : WellFormed b) :
    Correct a b ↔ ¬ IntervalDivision.Overflows a b ∧ ¬ Overflows a b := by
  obtain ⟨hmod, hmodNone⟩ := mod_spec ha hb
  constructor
  · rintro ⟨hdiv, hrem⟩
    constructor
    · intro hover
      obtain ⟨v, hv, -⟩ := hdiv 0
      rw [(div_spec 0 ha hb).2 hover] at hv
      contradiction
    · intro hover
      obtain ⟨v, hv, -⟩ := hrem
      rw [hmodNone hover] at hv
      contradiction
  · rintro ⟨hdiv, hrem⟩
    exact ⟨fun fuel => (div_spec fuel ha hb).1 hdiv, hmod hrem⟩

theorem quotients_correct_iff_small : Correct ⟨.num (-7), .num 7⟩ ⟨.num 2, .num 3⟩ ↔
    ¬ IntervalDivision.Overflows ⟨.num (-7), .num 7⟩ ⟨.num 2, .num 3⟩ ∧
      ¬ Overflows ⟨.num (-7), .num 7⟩ ⟨.num 2, .num 3⟩ := by
  have hrange : ∀ z : ℤ, -7 ≤ z → z ≤ 7 → InRange (.num z) := fun z hlow hhigh =>
    inRange_num (le_trans (by decide) hlow) (le_trans hhigh (by decide))
  apply quotients_correct_iff
  · exact .inr ⟨by decide, by decide, by decide, hrange _ (by decide) (by decide), hrange _ (by decide) (by decide)⟩
  · exact .inr ⟨by decide, by decide, by decide, hrange _ (by decide) (by decide), hrange _ (by decide) (by decide)⟩

/-- The least number divided by -1, and an interval from it by 3. -/
theorem quotients_undefined :
    (WellFormed ⟨.num s64_min, .num s64_min⟩ ∧ WellFormed ⟨.num (-1), .num (-1)⟩ ∧
      ∀ fuel, ¬ Quotients (Interval.div (fuel + 3) ⟨.num s64_min, .num s64_min⟩ ⟨.num (-1), .num (-1)⟩)
        Int.tdiv ⟨.num s64_min, .num s64_min⟩ ⟨.num (-1), .num (-1)⟩) ∧
    WellFormed ⟨.num s64_min, .num 0⟩ ∧ WellFormed ⟨.num 3, .num 3⟩ ∧
      ¬ Quotients (Interval.mod ⟨.num s64_min, .num 0⟩ ⟨.num 3, .num 3⟩) Int.tmod
        ⟨.num s64_min, .num 0⟩ ⟨.num 3, .num 3⟩ := by
  have hmin : InRange (.num s64_min) := inRange_num le_rfl (by decide)
  have hsmall : ∀ z : ℤ, -1 ≤ z → z ≤ 3 → InRange (.num z) := fun z hlow hhigh =>
    inRange_num (le_trans (by decide) hlow) (le_trans hhigh (by decide))
  refine ⟨⟨.inr ⟨by decide, by decide, by decide, hmin, hmin⟩, .inr ⟨by decide, by decide, by decide,
    hsmall _ (by decide) (by decide), hsmall _ (by decide) (by decide)⟩, fun fuel => ?_⟩,
    .inr ⟨by decide, by decide, by decide, hmin, hsmall _ (by decide) (by decide)⟩,
    .inr ⟨by decide, by decide, by decide, hsmall _ (by decide) (by decide), hsmall _ (by decide) (by decide)⟩, ?_⟩
  · rintro ⟨v, hv, -⟩
    have hnone : Interval.div (fuel + 3) ⟨.num s64_min, .num s64_min⟩ ⟨.num (-1), .num (-1)⟩ = none := rfl
    rw [hnone] at hv
    contradiction
  · rintro ⟨v, hv, -⟩
    have hnone : Interval.mod ⟨.num s64_min, .num 0⟩ ⟨.num 3, .num 3⟩ = none := by decide
    rw [hnone] at hv
    contradiction

end SVF.AE.IntervalRemainder
