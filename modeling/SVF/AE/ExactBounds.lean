import Mathlib.Tactic.Linarith
import SVF.AE.BoundArithmetic

namespace SVF.AE.ExactBounds

open NumericValue NumericValue.BoundedInt BoundArithmetic Intervals

variable {p p' q q' z : BoundedInt}

def mulExact (p q : BoundedInt) : BoundedInt :=
  if Bound.iVal p = 0 ∨ Bound.iVal q = 0 then .num 0
  else if p.is_infinity || q.is_infinity then
    if Bound.iVal p * Bound.iVal q > 0 then .plus_infinity else .minus_infinity
  else .num (Bound.iVal p * Bound.iVal q)

def saturate : BoundedInt → BoundedInt
  | .num z => if s64_max < z then .plus_infinity else if z < -s64_max then .minus_infinity else .num z
  | b => b

theorem mulExact_comm (p q : BoundedInt) : mulExact p q = mulExact q p := by
  simp only [mulExact, or_comm, Bool.or_comm, mul_comm]

theorem mulExact_num (a b : ℤ) : mulExact (.num a) (.num b) = .num (a * b) := by
  rw [mulExact]
  split
  · rename_i hzero
    exact congrArg num (mul_eq_zero.mpr hzero).symm
  · rfl

theorem mulExact_zero (p : BoundedInt) : mulExact p (.num 0) = .num 0 := if_pos (.inr rfl)

theorem mulExact_of_pos {b : ℤ} (hb : 0 < b) : mulExact .plus_infinity (.num b) = .plus_infinity ∧
    mulExact .minus_infinity (.num b) = .minus_infinity := by
  simp [mulExact, Bound.iVal, is_infinity, is_plus_infinity, is_minus_infinity, hb, hb.ne', hb.le]

theorem mulExact_of_neg {b : ℤ} (hb : b < 0) : mulExact .plus_infinity (.num b) = .minus_infinity ∧
    mulExact .minus_infinity (.num b) = .plus_infinity := by
  simp [mulExact, Bound.iVal, is_infinity, is_plus_infinity, is_minus_infinity, hb, hb.ne, hb.le]

theorem mulExact_sign (a : ℤ) :
    (0 < a ∧ mulExact .plus_infinity (.num a) = .plus_infinity ∧
      mulExact .minus_infinity (.num a) = .minus_infinity) ∨
    a = 0 ∨
    (a < 0 ∧ mulExact .plus_infinity (.num a) = .minus_infinity ∧
      mulExact .minus_infinity (.num a) = .plus_infinity) := by
  rcases lt_trichotomy a 0 with ha | rfl | ha
  · exact .inr (.inr ⟨ha, mulExact_of_neg ha⟩)
  · exact .inr (.inl rfl)
  · exact .inl ⟨ha, mulExact_of_pos ha⟩

theorem mulExact_mono (hq : .num 0 ≤ q) (h : p ≤ p') : mulExact p q ≤ mulExact p' q := by
  cases q with
  | minus_infinity => exact absurd hq (by decide)
  | num b =>
      rw [num_le_num] at hq
      rcases hq.eq_or_lt with rfl | hb
      · rw [mulExact_zero, mulExact_zero]
      · obtain ⟨hplus, hminus⟩ := mulExact_of_pos hb
        cases p with
        | minus_infinity => rw [hminus]; exact minus_infinity_le _
        | plus_infinity =>
            rw [le_antisymm (le_plus_infinity p') h]
        | num a =>
            cases p' with
            | plus_infinity => rw [hplus]; exact le_plus_infinity _
            | minus_infinity => exact absurd h (not_num_le_minus_infinity a)
            | num a' =>
                rw [mulExact_num, mulExact_num, num_le_num]
                exact mul_le_mul_of_nonneg_right ((num_le_num a a').mp h) hq
  | plus_infinity =>
      rw [mulExact_comm p, mulExact_comm p']
      cases p with
      | minus_infinity => exact minus_infinity_le _
      | plus_infinity => rw [le_antisymm (le_plus_infinity p') h]
      | num a =>
          cases p' with
          | plus_infinity => exact le_plus_infinity _
          | minus_infinity => exact absurd h (not_num_le_minus_infinity a)
          | num a' =>
              rw [num_le_num] at h
              rcases mulExact_sign a with ⟨ha, heq, -⟩ | rfl | ⟨-, heq, -⟩
              · rw [heq, (mulExact_of_pos (ha.trans_le h)).1]
              · rcases mulExact_sign a' with ⟨-, heq', -⟩ | rfl | ⟨ha', -⟩
                · rw [heq']
                  exact le_plus_infinity _
                · rfl
                · omega
              · rw [heq]
                exact minus_infinity_le _

theorem neg_neg' (p : BoundedInt) : p.neg.neg = p := by
  cases p with
  | minus_infinity | plus_infinity => rfl
  | num a => exact congrArg num (Int.neg_neg a)

theorem neg_le_neg' (h : p ≤ q) : q.neg ≤ p.neg := by
  cases p with
  | minus_infinity => exact le_plus_infinity _
  | plus_infinity => rw [le_antisymm (le_plus_infinity q) h]
  | num a =>
      cases q with
      | minus_infinity => exact absurd h (not_num_le_minus_infinity a)
      | plus_infinity => exact minus_infinity_le _
      | num b => exact (num_le_num _ _).mpr (neg_le_neg ((num_le_num a b).mp h))

theorem mulExact_neg (p q : BoundedInt) : mulExact p.neg q = (mulExact p q).neg := by
  cases p with
  | minus_infinity =>
      change mulExact .plus_infinity q = _
      cases q with
      | minus_infinity | plus_infinity => decide
      | num b =>
          rcases mulExact_sign b with ⟨-, hplus, hminus⟩ | rfl | ⟨-, hplus, hminus⟩
          · rw [hplus, hminus]; rfl
          · rw [mulExact_zero, mulExact_zero]; rfl
          · rw [hplus, hminus]; rfl
  | plus_infinity =>
      change mulExact .minus_infinity q = _
      cases q with
      | minus_infinity | plus_infinity => decide
      | num b =>
          rcases mulExact_sign b with ⟨-, hplus, hminus⟩ | rfl | ⟨-, hplus, hminus⟩
          · rw [hplus, hminus]; rfl
          · rw [mulExact_zero, mulExact_zero]; rfl
          · rw [hplus, hminus]; rfl
  | num a =>
      change mulExact (.num (-a)) q = _
      cases q with
      | num b => rw [mulExact_num, mulExact_num, neg_mul]; rfl
      | minus_infinity =>
          rw [mulExact_comm, mulExact_comm (num a)]
          rcases lt_trichotomy a 0 with ha | rfl | ha
          · rw [(mulExact_of_pos (neg_pos.mpr ha)).2, (mulExact_of_neg ha).2]; rfl
          · rw [neg_zero, mulExact_zero]; rfl
          · rw [(mulExact_of_neg (neg_lt_zero.mpr ha)).2, (mulExact_of_pos ha).2]; rfl
      | plus_infinity =>
          rw [mulExact_comm, mulExact_comm (num a)]
          rcases lt_trichotomy a 0 with ha | rfl | ha
          · rw [(mulExact_of_pos (neg_pos.mpr ha)).1, (mulExact_of_neg ha).1]; rfl
          · rw [neg_zero, mulExact_zero]; rfl
          · rw [(mulExact_of_neg (neg_lt_zero.mpr ha)).1, (mulExact_of_pos ha).1]; rfl

theorem mulExact_anti (hq : q ≤ .num 0) (h : p ≤ p') : mulExact p' q ≤ mulExact p q := by
  have hneg : .num 0 ≤ q.neg := neg_le_neg' hq
  have hle := neg_le_neg' (mulExact_mono hneg h)
  rwa [mulExact_comm p', mulExact_comm p, mulExact_neg, mulExact_neg, neg_neg', neg_neg',
    mulExact_comm q, mulExact_comm q] at hle

/-- A product is not below both products with the ends. -/
theorem mulExact_between (p : BoundedInt) (h : q ≤ z) (h' : z ≤ q') :
    mulExact p q ≤ mulExact p z ∨ mulExact p q' ≤ mulExact p z := by
  rw [mulExact_comm p, mulExact_comm p, mulExact_comm p]
  rcases le_total (.num 0) p with hp | hp
  · exact .inl (mulExact_mono hp h)
  · exact .inr (mulExact_anti hp h')

theorem mulExact_between' (p : BoundedInt) (h : q ≤ z) (h' : z ≤ q') :
    mulExact p z ≤ mulExact p q ∨ mulExact p z ≤ mulExact p q' := by
  have hneg := fun r => mulExact_neg p r
  have hle := mulExact_between p.neg h h'
  rw [hneg, hneg, hneg] at hle
  refine hle.imp (fun hle => ?_) fun hle => ?_
  · have := neg_le_neg' hle
    rwa [neg_neg', neg_neg'] at this
  · have := neg_le_neg' hle
    rwa [neg_neg', neg_neg'] at this

end SVF.AE.ExactBounds
