import SVF.AE.IntervalArithmetic

namespace SVF.AE.IntervalProducts

open NumericValue NumericValue.BoundedInt Intervals BoundArithmetic ExactBounds IntervalArithmetic

variable {a b v : IntervalValue} {p q : BoundedInt} {m : ℤ}

def negated (b : IntervalValue) : IntervalValue := ⟨b.ub.neg, b.lb.neg⟩

theorem mem_negated (y : ℤ) : -y ∈ (negated b).concretize ↔ y ∈ b.concretize := by
  rw [mem_concretize, mem_concretize, and_comm]
  refine and_congr ⟨fun h => ?_, fun h => ?_⟩ ⟨fun h => ?_, fun h => ?_⟩
  · have hneg := neg_le_neg' h
    rwa [negated, neg_neg', neg, Int.neg_neg] at hneg
  · exact neg_le_neg' h
  · have hneg := neg_le_neg' h
    rwa [negated, neg_neg', neg, Int.neg_neg] at hneg
  · exact neg_le_neg' h

theorem neg_of_ne (hp : InRange p) (hne : p ≠ .num s64_min) : Bound.neg p = some p.neg := by
  cases p with
  | minus_infinity | plus_infinity => rfl
  | num a =>
      obtain ⟨hlow, hhigh⟩ := hp a rfl
      have hmin : s64_min = -s64_max - 1 := rfl
      have hne' : a ≠ s64_min := fun heq => hne (congrArg num heq)
      rw [Bound.neg, checked_of_le (by omega) (by omega)]
      rfl

theorem neg_min : Bound.neg (.num s64_min) = none := by decide

theorem inRange_neg (hp : InRange p) (hne : p ≠ .num s64_min) : InRange p.neg := by
  intro z hz
  cases p with
  | minus_infinity | plus_infinity => cases hz
  | num a =>
      cases hz
      obtain ⟨hlow, hhigh⟩ := hp a rfl
      have hmin : s64_min = -s64_max - 1 := rfl
      have hne' : a ≠ s64_min := fun heq => hne (congrArg num heq)
      omega

theorem proper_negated (hb : Proper b) (hlb : b.lb ≠ .num s64_min) (hub : b.ub ≠ .num s64_min) :
    Proper (negated b) where
  le := neg_le_neg' hb.le
  lb h := hb.ub (by rw [← neg_neg' b.ub, show b.ub.neg = .plus_infinity from h]; rfl)
  ub h := hb.lb (by rw [← neg_neg' b.lb, show b.lb.neg = .minus_infinity from h]; rfl)
  lbRange := inRange_neg hb.ubRange hub
  ubRange := inRange_neg hb.lbRange hlb

theorem isTop_negated (b : IntervalValue) : (negated b).isTop = b.isTop := by
  obtain ⟨lb, ub⟩ := b
  cases lb <;> cases ub <;> rfl

theorem sub_eq_add (ha : Proper a) (hb : Proper b) (hlb : b.lb ≠ .num s64_min)
    (hub : b.ub ≠ .num s64_min) : Interval.sub a b = Interval.add a (negated b) := by
  rw [Interval.sub, Interval.add, ha.isBottom, hb.isBottom, (proper_negated hb hlb hub).isBottom,
    isTop_negated, Bound.sub, Bound.sub, neg_of_ne hb.ubRange hub, neg_of_ne hb.lbRange hlb]
  rfl

def SubFits (a b : IntervalValue) : Prop :=
  a.isTop = true ∨ (b.lb ≠ .num s64_min ∧ b.ub ≠ .num s64_min ∧ SomeLow (· - ·) a b ∧
    (SomeHigh (· - ·) a b ∨ (a.ub = .num s64_min ∧ b.lb = .num 0)))

theorem contains_negated (r : Option IntervalValue) :
    Contains r (· + ·) a (negated b) ↔ Contains r (· - ·) a b := by
  refine exists_congr fun v => and_congr_right fun _ => and_congr_right fun _ => ?_
  refine forall_congr' fun x => forall_congr' fun _ => ⟨fun h y hy => ?_, fun h y hy => ?_⟩
  · exact h (-y) ((mem_negated y).mpr hy)
  · have hmem := h (-y) ((mem_negated (-y)).mp (by rwa [Int.neg_neg]))
    dsimp only at hmem ⊢
    rwa [sub_neg_eq_add] at hmem

theorem someLow_negated : SomeLow (· + ·) a (negated b) ↔ SomeLow (· - ·) a b := by
  constructor
  · rintro ⟨x, hx, y, hy, hle⟩
    exact ⟨x, hx, -y, (mem_negated (-y)).mp (by rwa [Int.neg_neg]), by dsimp only at hle ⊢; omega⟩
  · rintro ⟨x, hx, y, hy, hle⟩
    exact ⟨x, hx, -y, (mem_negated y).mpr hy, by dsimp only at hle ⊢; omega⟩

theorem someHigh_negated : SomeHigh (· + ·) a (negated b) ↔ SomeHigh (· - ·) a b := by
  constructor
  · rintro ⟨x, hx, y, hy, hle⟩
    exact ⟨x, hx, -y, (mem_negated (-y)).mp (by rwa [Int.neg_neg]), by dsimp only at hle ⊢; omega⟩
  · rintro ⟨x, hx, y, hy, hle⟩
    exact ⟨x, hx, -y, (mem_negated y).mpr hy, by dsimp only at hle ⊢; omega⟩

theorem ub_negated_zero : (negated b).ub = .num 0 ↔ b.lb = .num 0 := by
  change b.lb.neg = .num 0 ↔ _
  cases b.lb with
  | minus_infinity | plus_infinity => decide
  | num l => simp [neg]

theorem ub_negated_min (hb : InRange b.lb) : (negated b).ub ≠ .num s64_min := by
  change b.lb.neg ≠ _
  cases hl : b.lb with
  | minus_infinity | plus_infinity => decide
  | num l =>
      intro heq
      obtain ⟨-, hle⟩ := hb l hl
      have hmin : s64_min = -s64_max - 1 := rfl
      have hneg : -l = s64_min := by
        rw [neg] at heq
        exact num.inj heq
      omega

theorem contains_sub_iff (ha : Proper a) (hb : Proper b) :
    Contains (Interval.sub a b) (· - ·) a b ↔ SubFits a b := by
  by_cases htop : a.isTop = true
  · rw [Interval.sub, ha.isBottom, hb.isBottom, htop]
    exact iff_of_true (contains_top _ a b) (.inl htop)
  · rw [SubFits, or_iff_right htop]
    by_cases hmin : b.lb = .num s64_min ∨ b.ub = .num s64_min
    · refine iff_of_false ?_ fun h => hmin.elim h.1 h.2.1
      rintro ⟨v, hv, -⟩
      have hnot : b.isTop = false := by
        obtain ⟨lb, ub⟩ := b
        rcases hmin with rfl | rfl
        · rfl
        · exact Bool.and_false _
      rw [Interval.sub, ha.isBottom, hb.isBottom, Bool.not_eq_true _ |>.mp htop, hnot, Bound.sub, Bound.sub] at hv
      rcases hmin with heq | heq
      · rw [heq, neg_min] at hv
        cases hlo : (Bound.neg b.ub).bind (Bound.safeAdd a.lb) with
        | none => rw [hlo] at hv; cases hv
        | some lo => rw [hlo] at hv; cases hv
      · rw [heq, neg_min] at hv
        cases hv
    · rw [not_or] at hmin
      have hneg := proper_negated hb hmin.1 hmin.2
      rw [sub_eq_add ha hb hmin.1 hmin.2, ← contains_negated, contains_add_iff ha hneg, AddFits,
        someLow_negated, someHigh_negated, ub_negated_zero]
      constructor
      · rintro ⟨hlow, hhigh | hzero | ⟨-, habs⟩⟩
        · exact ⟨hmin.1, hmin.2, hlow, .inl hhigh⟩
        · exact ⟨hmin.1, hmin.2, hlow, .inr hzero⟩
        · exact absurd habs (ub_negated_min hb.lbRange)
      · rintro ⟨-, -, hlow, hhigh⟩
        exact ⟨hlow, hhigh.imp_right .inl⟩

/-- The product of the values that stand for the bounds overflows. -/
def Undefined (p q : BoundedInt) : Prop :=
  (p = .minus_infinity ∧ q = .num s64_min) ∨ (p = .num s64_min ∧ q = .minus_infinity)

theorem lt_mul_iff_of_pos {M x y : ℤ} (hM : 0 ≤ M) (hx : 0 < x) : M.tdiv x < y ↔ M < x * y := by
  rw [Int.tdiv_eq_ediv_of_nonneg hM, Int.ediv_lt_iff_lt_mul hx, mul_comm]

theorem lt_mul_iff_of_neg {M x y : ℤ} (hM : 0 ≤ M) (hx : x < 0) : y < M.tdiv x ↔ M < x * y := by
  have h := lt_mul_iff_of_pos (y := -y) hM (neg_pos.mpr hx)
  rw [Int.tdiv_neg, neg_lt_neg_iff, neg_mul_neg] at h
  exact h

theorem mul_lt_neg_iff {M x y : ℤ} (hM : 0 ≤ M) (hx : 0 < x) : y < (-M).tdiv x ↔ x * y < -M := by
  have h := lt_mul_iff_of_pos (y := -y) hM hx
  rw [Int.neg_tdiv, lt_neg, h, mul_neg]
  omega

theorem safeMul_num {x y : ℤ} : Bound.safeMul (.num x) (.num y) = some (saturate (.num (x * y))) := by
  have hM : (0 : ℤ) ≤ s64_max := by decide
  have hmin : s64_min = -s64_max - 1 := rfl
  have hdef : Bound.safeMul (.num x) (.num y) =
      if x = 0 ∨ y = 0 then some (.num 0)
      else if x > 0 ∧ y > 0 ∧ s64_max.tdiv x < y then some .plus_infinity
      else if x < 0 ∧ y < 0 ∧ s64_max.tdiv x > y then some .plus_infinity
      else if (x > 0 ∧ y < 0 ∧ (-s64_max).tdiv x > y) ∨ (x < 0 ∧ y > 0 ∧ (-s64_max).tdiv y > x) then
        some .minus_infinity
      else (checked (x * y)).map .num := rfl
  have hsat : saturate (.num (x * y)) = if s64_max < x * y then .plus_infinity
      else if x * y < -s64_max then .minus_infinity else .num (x * y) := rfl
  rw [hdef, hsat]
  by_cases hzero : x = 0 ∨ y = 0
  · rw [if_pos hzero, mul_eq_zero.mpr hzero]
    rfl
  · rw [if_neg hzero]
    rw [not_or] at hzero
    have hpos : x > 0 ∧ y > 0 ∧ s64_max.tdiv x < y ↔ x > 0 ∧ y > 0 ∧ s64_max < x * y :=
      and_congr_right fun hx => and_congr_right fun _ => lt_mul_iff_of_pos hM hx
    have hneg : x < 0 ∧ y < 0 ∧ s64_max.tdiv x > y ↔ x < 0 ∧ y < 0 ∧ s64_max < x * y :=
      and_congr_right fun hx => and_congr_right fun _ => lt_mul_iff_of_neg hM hx
    have hmixed : x > 0 ∧ y < 0 ∧ (-s64_max).tdiv x > y ↔ x > 0 ∧ y < 0 ∧ x * y < -s64_max :=
      and_congr_right fun hx => and_congr_right fun _ => mul_lt_neg_iff hM hx
    have hmixed' : x < 0 ∧ y > 0 ∧ (-s64_max).tdiv y > x ↔ x < 0 ∧ y > 0 ∧ x * y < -s64_max :=
      and_congr_right fun _ => and_congr_right fun hy => by rw [mul_comm x]; exact mul_lt_neg_iff hM hy
    simp only [hpos, hneg, hmixed, hmixed']
    have hsign : (x > 0 ∧ y > 0 ∧ 0 < x * y) ∨ (x < 0 ∧ y < 0 ∧ 0 < x * y) ∨
        (x > 0 ∧ y < 0 ∧ x * y < 0) ∨ (x < 0 ∧ y > 0 ∧ x * y < 0) := by
      rcases lt_or_gt_of_ne hzero.1 with hx | hx
      · rcases lt_or_gt_of_ne hzero.2 with hy | hy
        · exact .inr (.inl ⟨hx, hy, mul_pos_of_neg_of_neg hx hy⟩)
        · exact .inr (.inr (.inr ⟨hx, hy, mul_neg_of_neg_of_pos hx hy⟩))
      · rcases lt_or_gt_of_ne hzero.2 with hy | hy
        · exact .inr (.inr (.inl ⟨hx, hy, mul_neg_of_pos_of_neg hx hy⟩))
        · exact .inl ⟨hx, hy, mul_pos hx hy⟩
    generalize x * y = z at hsign ⊢
    by_cases hover : s64_max < z
    · rw [if_pos hover]
      by_cases hx : x > 0 ∧ y > 0 ∧ s64_max < z
      · rw [if_pos hx]
      · rw [if_neg hx, if_pos (by omega)]
    · rw [if_neg hover, if_neg (by omega), if_neg (by omega)]
      by_cases hunder : z < -s64_max
      · rw [if_pos hunder, if_pos (by omega)]
      · rw [if_neg hunder, if_neg (by omega), checked_of_le (by omega) (by omega)]
        rfl

theorem checked_iVal (hp : InRange p) (hq : InRange q) (h : ¬ Undefined p q)
    (hinf : (p.is_infinity || q.is_infinity) = true) :
    checked (Bound.iVal p * Bound.iVal q) = some (Bound.iVal p * Bound.iVal q) := by
  have hmin : s64_min = -s64_max - 1 := rfl
  have hmax : 0 < s64_max := by decide
  cases p with
  | minus_infinity =>
      cases q with
      | minus_infinity | plus_infinity => decide
      | num y =>
          obtain ⟨hlow, hhigh⟩ := hq y rfl
          have hne : y ≠ s64_min := fun heq => h (.inl ⟨rfl, congrArg num heq⟩)
          rw [Bound.iVal, Bound.iVal]
          exact checked_of_le (by omega) (by omega)
  | plus_infinity =>
      cases q with
      | minus_infinity | plus_infinity => decide
      | num y =>
          obtain ⟨hlow, hhigh⟩ := hq y rfl
          rw [Bound.iVal, Bound.iVal]
          exact checked_of_le (by omega) (by omega)
  | num x =>
      obtain ⟨hlow, hhigh⟩ := hp x rfl
      cases q with
      | minus_infinity =>
          have hne : x ≠ s64_min := fun heq => h (.inr ⟨congrArg num heq, rfl⟩)
          rw [Bound.iVal, Bound.iVal]
          exact checked_of_le (by omega) (by omega)
      | plus_infinity =>
          rw [Bound.iVal, Bound.iVal]
          exact checked_of_le (by omega) (by omega)
      | num y => cases hinf

theorem safeMul_eq (hp : InRange p) (hq : InRange q) (h : ¬ Undefined p q) :
    Bound.safeMul p q = some (saturate (mulExact p q)) := by
  by_cases hinf : (p.is_infinity || q.is_infinity) = true
  · rw [Bound.safeMul, mulExact, checked_iVal hp hq h hinf, Option.map_some]
    split
    · rfl
    · split
      · rfl
      · rfl
  · cases p with
    | minus_infinity | plus_infinity => exact absurd rfl hinf
    | num x =>
        cases q with
        | minus_infinity | plus_infinity => exact absurd rfl hinf
        | num y => rw [safeMul_num, mulExact_num]

theorem safeMul_undefined (h : Undefined p q) : Bound.safeMul p q = none := by
  rcases h with ⟨rfl, rfl⟩ | ⟨rfl, rfl⟩
  · decide
  · decide

theorem inRange_saturate (p : BoundedInt) : InRange (saturate p) := by
  have hmin : s64_min = -s64_max - 1 := rfl
  cases p with
  | minus_infinity => exact inRange_infinity.2
  | plus_infinity => exact inRange_infinity.1
  | num z =>
      rw [saturate]
      split
      · exact inRange_infinity.1
      · split
        · exact inRange_infinity.2
        · exact inRange_num (by omega) (by omega)

theorem le_minOf (l : List BoundedInt) (r z : BoundedInt) :
    z ≤ Bound.minOf l r ↔ z ≤ r ∧ ∀ c ∈ l, z ≤ c := by
  induction l generalizing r with
  | nil => simp [Bound.minOf]
  | cons c l ih =>
      rw [Bound.minOf, List.forall_mem_cons]
      split
      · rename_i hc
        have hc' : c = .minus_infinity := by cases c <;> first | rfl | cases hc
        subst hc'
        constructor
        · intro h
          have hz : z = .minus_infinity := le_antisymm h (minus_infinity_le z)
          exact ⟨hz ▸ minus_infinity_le _, h, fun d _ => hz ▸ minus_infinity_le d⟩
        · exact fun h => h.2.1
      · rw [ih]
        by_cases hge : c.geq r = true
        · rw [hge]
          have hle := (geq_iff c r).mp hge
          exact ⟨fun h => ⟨h.1, h.1.trans hle, h.2⟩, fun h => ⟨h.1, h.2.2⟩⟩
        · have hle : c ≤ r := le_of_not_ge fun hle => hge ((geq_iff c r).mpr hle)
          rw [Bool.not_eq_true _ |>.mp hge]
          exact ⟨fun h => ⟨h.1.trans hle, h.1, h.2⟩, fun h => h.2⟩

theorem maxOf_le (l : List BoundedInt) (r z : BoundedInt) :
    Bound.maxOf l r ≤ z ↔ r ≤ z ∧ ∀ c ∈ l, c ≤ z := by
  induction l generalizing r with
  | nil => simp [Bound.maxOf]
  | cons c l ih =>
      rw [Bound.maxOf, List.forall_mem_cons]
      split
      · rename_i hc
        have hc' : c = .plus_infinity := by cases c <;> first | rfl | cases hc
        subst hc'
        constructor
        · intro h
          have hz : z = .plus_infinity := le_antisymm (le_plus_infinity z) h
          exact ⟨hz ▸ le_plus_infinity _, h, fun d _ => hz ▸ le_plus_infinity d⟩
        · exact fun h => h.2.1
      · rw [ih]
        by_cases hle : c.leq r = true
        · rw [hle]
          have hle' := (leq_iff c r).mp hle
          exact ⟨fun h => ⟨h.1, hle'.trans h.1, h.2⟩, fun h => ⟨h.1, h.2.2⟩⟩
        · have hge : r ≤ c := le_of_not_ge fun hge => hle ((leq_iff c r).mpr hge)
          rw [Bool.not_eq_true _ |>.mp hle]
          exact ⟨fun h => ⟨hge.trans h.1, h.1, h.2⟩, fun h => h.2⟩

theorem saturate_ne_plus : saturate p ≠ .plus_infinity ↔ p ≤ .num s64_max := by
  cases p with
  | minus_infinity => exact iff_of_true (by decide) (minus_infinity_le _)
  | plus_infinity => exact iff_of_false (fun h => h rfl) (not_plus_infinity_le_num _)
  | num z =>
      rw [saturate, num_le_num]
      split
      · rename_i hgt
        exact iff_of_false (fun h => h rfl) (by omega)
      · rename_i hle
        refine iff_of_true ?_ (by omega)
        split
        · exact fun h => by cases h
        · exact fun h => by cases h

theorem saturate_ne_minus : saturate p ≠ .minus_infinity ↔ .num (-s64_max) ≤ p := by
  have hmax : 0 < s64_max := by decide
  cases p with
  | plus_infinity => exact iff_of_true (by decide) (le_plus_infinity _)
  | minus_infinity => exact iff_of_false (fun h => h rfl) (not_num_le_minus_infinity _)
  | num z =>
      rw [saturate, num_le_num]
      split
      · rename_i hgt
        exact iff_of_true (fun h => by cases h) (by omega)
      · split
        · rename_i hlt
          exact iff_of_false (fun h => h rfl) (by omega)
        · rename_i hge
          exact iff_of_true (fun h => by cases h) (by omega)

theorem saturate_le {z : ℤ} (h : p ≤ .num z) (hne : saturate p ≠ .plus_infinity) : saturate p ≤ .num z := by
  cases p with
  | minus_infinity => exact minus_infinity_le _
  | plus_infinity => exact absurd h (not_plus_infinity_le_num z)
  | num w =>
      rw [saturate] at hne ⊢
      split
      · rename_i hgt
        rw [if_pos hgt] at hne
        exact absurd rfl hne
      · split
        · exact minus_infinity_le _
        · exact h

theorem le_saturate {z : ℤ} (h : .num z ≤ p) (hne : saturate p ≠ .minus_infinity) : .num z ≤ saturate p := by
  cases p with
  | plus_infinity => exact le_plus_infinity _
  | minus_infinity => exact absurd h (not_num_le_minus_infinity z)
  | num w =>
      rw [saturate] at hne ⊢
      split
      · exact le_plus_infinity _
      · rename_i hle
        split
        · rename_i hlt
          rw [if_neg hle, if_pos hlt] at hne
          exact absurd rfl hne
        · exact h

def IsEnd (v : IntervalValue) (p : BoundedInt) : Prop := p = v.lb ∨ p = v.ub

theorem corner_le {x y : ℤ} (hx : x ∈ a.concretize) (hy : y ∈ b.concretize) :
    ∃ p q, IsEnd a p ∧ IsEnd b q ∧ mulExact p q ≤ .num (x * y) := by
  rw [mem_concretize] at hx hy
  have hfirst : ∃ p, IsEnd a p ∧ mulExact (.num y) p ≤ .num (x * y) := by
    rw [mul_comm, ← mulExact_num]
    exact (mulExact_between (.num y) hx.1 hx.2).elim (fun h => ⟨_, .inl rfl, h⟩) fun h => ⟨_, .inr rfl, h⟩
  obtain ⟨p, hp, hle⟩ := hfirst
  rw [mulExact_comm] at hle
  rcases mulExact_between p hy.1 hy.2 with h | h
  · exact ⟨p, _, hp, .inl rfl, h.trans hle⟩
  · exact ⟨p, _, hp, .inr rfl, h.trans hle⟩

theorem le_corner {x y : ℤ} (hx : x ∈ a.concretize) (hy : y ∈ b.concretize) :
    ∃ p q, IsEnd a p ∧ IsEnd b q ∧ .num (x * y) ≤ mulExact p q := by
  rw [mem_concretize] at hx hy
  have hfirst : ∃ p, IsEnd a p ∧ .num (x * y) ≤ mulExact (.num y) p := by
    rw [mul_comm, ← mulExact_num]
    exact (mulExact_between' (.num y) hx.1 hx.2).elim (fun h => ⟨_, .inl rfl, h⟩) fun h => ⟨_, .inr rfl, h⟩
  obtain ⟨p, hp, hle⟩ := hfirst
  rw [mulExact_comm] at hle
  rcases mulExact_between' p hy.1 hy.2 with h | h
  · exact ⟨p, _, hp, .inl rfl, hle.trans h⟩
  · exact ⟨p, _, hp, .inr rfl, hle.trans h⟩

theorem exists_of_corner_le (ha : Proper a) (hb : Proper b) (hp : IsEnd a p) (hq : IsEnd b q)
    (h : mulExact p q ≤ .num m) : ∃ x ∈ a.concretize, ∃ y ∈ b.concretize, x * y ≤ m := by
  obtain ⟨y, hy, hle⟩ := exists_mulExact_le hb hq h
  rw [mulExact_comm] at hle
  obtain ⟨x, hx, hle⟩ := exists_mulExact_le ha hp hle
  rw [mulExact_comm, mulExact_num, num_le_num] at hle
  exact ⟨x, hx, y, hy, hle⟩

theorem exists_of_le_corner (ha : Proper a) (hb : Proper b) (hp : IsEnd a p) (hq : IsEnd b q)
    (h : .num m ≤ mulExact p q) : ∃ x ∈ a.concretize, ∃ y ∈ b.concretize, m ≤ x * y := by
  have hneg := neg_le_neg' h
  rw [← mulExact_neg] at hneg
  obtain ⟨y, hy, hle⟩ := exists_mulExact_le hb hq hneg
  rw [mulExact_neg, mulExact_comm, ← mulExact_neg] at hle
  obtain ⟨x, hx, hle⟩ := exists_mulExact_le ha hp hle
  rw [mulExact_neg, mulExact_comm, mulExact_num] at hle
  have hge := neg_le_neg' hle
  rw [neg_neg', neg, Int.neg_neg, num_le_num] at hge
  exact ⟨x, hx, y, hy, hge⟩

def MulFits (a b : IntervalValue) : Prop :=
  (∀ p q, IsEnd a p → IsEnd b q → ¬ Undefined p q) ∧ SomeLow (· * ·) a b ∧ SomeHigh (· * ·) a b

theorem mul_corners (ha : Proper a) (hb : Proper b)
    (hdef : ∀ p q, IsEnd a p → IsEnd b q → ¬ Undefined p q) : Interval.mul a b =
      Interval.ofCorners [saturate (mulExact a.lb b.lb), saturate (mulExact a.lb b.ub),
        saturate (mulExact a.ub b.lb), saturate (mulExact a.ub b.ub)] := by
  rw [Interval.mul, ha.isBottom, hb.isBottom,
    safeMul_eq ha.lbRange hb.lbRange (hdef _ _ (.inl rfl) (.inl rfl)),
    safeMul_eq ha.lbRange hb.ubRange (hdef _ _ (.inl rfl) (.inr rfl)),
    safeMul_eq ha.ubRange hb.lbRange (hdef _ _ (.inr rfl) (.inl rfl)),
    safeMul_eq ha.ubRange hb.ubRange (hdef _ _ (.inr rfl) (.inr rfl))]
  rfl

theorem forall_corner {P : BoundedInt → Prop} :
    (∀ c ∈ [saturate (mulExact a.lb b.lb), saturate (mulExact a.lb b.ub),
      saturate (mulExact a.ub b.lb), saturate (mulExact a.ub b.ub)], P c) ↔
    ∀ p q, IsEnd a p → IsEnd b q → P (saturate (mulExact p q)) := by
  constructor
  · rintro h p q (rfl | rfl) (rfl | rfl) <;> exact h _ (by simp)
  · intro h c hc
    simp only [List.mem_cons, List.not_mem_nil, or_false] at hc
    rcases hc with rfl | rfl | rfl | rfl
    · exact h _ _ (.inl rfl) (.inl rfl)
    · exact h _ _ (.inl rfl) (.inr rfl)
    · exact h _ _ (.inr rfl) (.inl rfl)
    · exact h _ _ (.inr rfl) (.inr rfl)

theorem mul_undefined (ha : Proper a) (hb : Proper b) (hp : IsEnd a p) (hq : IsEnd b q)
    (h : Undefined p q) : Interval.mul a b = none := by
  have hnone := safeMul_undefined h
  rw [Interval.mul, ha.isBottom, hb.isBottom]
  change (Bound.safeMul a.lb b.lb).bind (fun ll => (Bound.safeMul a.lb b.ub).bind fun lu =>
    (Bound.safeMul a.ub b.lb).bind fun ul => (Bound.safeMul a.ub b.ub).bind fun uu =>
      Interval.ofCorners [ll, lu, ul, uu]) = none
  rcases hp with rfl | rfl
  · rcases hq with rfl | rfl
    · rw [hnone]; rfl
    · rw [hnone]
      cases Bound.safeMul a.lb b.lb <;> rfl
  · rcases hq with rfl | rfl
    · rw [hnone]
      cases Bound.safeMul a.lb b.lb with
      | none => rfl
      | some ll => cases Bound.safeMul a.lb b.ub <;> rfl
    · rw [hnone]
      cases Bound.safeMul a.lb b.lb with
      | none => rfl
      | some ll =>
          cases Bound.safeMul a.lb b.ub with
          | none => rfl
          | some lu => cases Bound.safeMul a.ub b.lb <;> rfl

theorem inRange_minOf {l : List BoundedInt} (h : ∀ c ∈ l, InRange c) (hp : InRange p) :
    InRange (Bound.minOf l p) := by
  induction l generalizing p with
  | nil => exact hp
  | cons c l ih =>
      rw [List.forall_mem_cons] at h
      rw [Bound.minOf]
      split
      · exact inRange_infinity.2
      · refine ih h.2 ?_
        split
        · exact h.1
        · exact hp

theorem inRange_maxOf {l : List BoundedInt} (h : ∀ c ∈ l, InRange c) (hp : InRange p) :
    InRange (Bound.maxOf l p) := by
  induction l generalizing p with
  | nil => exact hp
  | cons c l ih =>
      rw [List.forall_mem_cons] at h
      rw [Bound.maxOf]
      split
      · exact inRange_infinity.1
      · refine ih h.2 ?_
        split
        · exact h.1
        · exact hp

theorem lower_corner (ha : Proper a) (hb : Proper b) {lo : BoundedInt}
    (hlo : ∀ z, z ≤ lo ↔ ∀ p q, IsEnd a p → IsEnd b q → z ≤ saturate (mulExact p q)) :
    (lo ≠ .plus_infinity ↔ SomeLow (· * ·) a b) ∧
      (lo ≠ .plus_infinity → ∀ x ∈ a.concretize, ∀ y ∈ b.concretize, lo ≤ .num (x * y)) := by
  have hne : lo ≠ .plus_infinity → ∃ p q, IsEnd a p ∧ IsEnd b q ∧ mulExact p q ≤ .num s64_max := by
    intro hne
    by_contra hnot
    refine hne (le_antisymm (le_plus_infinity lo) ((hlo _).mpr fun p q hp hq => ?_))
    by_contra hle
    exact hnot ⟨p, q, hp, hq, saturate_ne_plus.mp fun heq => hle heq.ge⟩
  refine ⟨⟨fun h => ?_, ?_⟩, fun h x hx y hy => ?_⟩
  · obtain ⟨p, q, hp, hq, hle⟩ := hne h
    exact exists_of_corner_le ha hb hp hq hle
  · rintro ⟨x, hx, y, hy, hle⟩ heq
    obtain ⟨p, q, hp, hq, hcorner⟩ := corner_le hx hy
    refine saturate_ne_plus.mpr (hcorner.trans ((num_le_num _ _).mpr hle)) ?_
    exact le_antisymm (le_plus_infinity _) ((hlo _).mp heq.ge p q hp hq)
  · obtain ⟨p, q, hp, hq, hcorner⟩ := corner_le hx hy
    by_cases hsat : saturate (mulExact p q) = .plus_infinity
    · -- the product is above the largest number, which is above another corner
      obtain ⟨p', q', hp', hq', hle⟩ := hne h
      have hgt : .num s64_max ≤ mulExact p q :=
        le_of_not_ge fun hle' => saturate_ne_plus.mpr hle' hsat
      exact ((hlo lo).mp le_rfl p' q' hp' hq').trans
        ((saturate_le hle (saturate_ne_plus.mpr hle)).trans (hgt.trans hcorner))
    · exact ((hlo lo).mp le_rfl p q hp hq).trans (saturate_le hcorner hsat)

theorem upper_corner (ha : Proper a) (hb : Proper b) {hi : BoundedInt}
    (hhi : ∀ z, hi ≤ z ↔ ∀ p q, IsEnd a p → IsEnd b q → saturate (mulExact p q) ≤ z) :
    (hi ≠ .minus_infinity ↔ SomeHigh (· * ·) a b) ∧
      (hi ≠ .minus_infinity → ∀ x ∈ a.concretize, ∀ y ∈ b.concretize, .num (x * y) ≤ hi) := by
  have hne : hi ≠ .minus_infinity → ∃ p q, IsEnd a p ∧ IsEnd b q ∧ .num (-s64_max) ≤ mulExact p q := by
    intro hne
    by_contra hnot
    refine hne (le_antisymm ((hhi _).mpr fun p q hp hq => ?_) (minus_infinity_le hi))
    by_contra hle
    exact hnot ⟨p, q, hp, hq, saturate_ne_minus.mp fun heq => hle heq.le⟩
  refine ⟨⟨fun h => ?_, ?_⟩, fun h x hx y hy => ?_⟩
  · obtain ⟨p, q, hp, hq, hle⟩ := hne h
    exact exists_of_le_corner ha hb hp hq hle
  · rintro ⟨x, hx, y, hy, hle⟩ heq
    obtain ⟨p, q, hp, hq, hcorner⟩ := le_corner hx hy
    refine saturate_ne_minus.mpr (((num_le_num _ _).mpr hle).trans hcorner) ?_
    exact le_antisymm ((hhi _).mp heq.le p q hp hq) (minus_infinity_le _)
  · obtain ⟨p, q, hp, hq, hcorner⟩ := le_corner hx hy
    by_cases hsat : saturate (mulExact p q) = .minus_infinity
    · obtain ⟨p', q', hp', hq', hle⟩ := hne h
      have hlt : mulExact p q ≤ .num (-s64_max) :=
        le_of_not_ge fun hle' => saturate_ne_minus.mpr hle' hsat
      exact (hcorner.trans hlt).trans ((le_saturate hle (saturate_ne_minus.mpr hle)).trans
        ((hhi hi).mp le_rfl p' q' hp' hq'))
    · exact (le_saturate hcorner hsat).trans ((hhi hi).mp le_rfl p q hp hq)

/-- The bounds of a product that is defined, in order and before they are checked. -/
theorem mul_bounds (ha : Proper a) (hb : Proper b) (hdef : ∀ p q, IsEnd a p → IsEnd b q → ¬ Undefined p q) :
    ∃ lo hi, Interval.mul a b = Interval.ofBounds lo hi ∧ lo ≤ hi ∧ InRange lo ∧ InRange hi ∧
      (∀ z, z ≤ lo ↔ ∀ p q, IsEnd a p → IsEnd b q → z ≤ saturate (mulExact p q)) ∧
      ∀ z, hi ≤ z ↔ ∀ p q, IsEnd a p → IsEnd b q → saturate (mulExact p q) ≤ z := by
  have hlo := fun z => (le_minOf [saturate (mulExact a.lb b.lb), saturate (mulExact a.lb b.ub),
    saturate (mulExact a.ub b.lb), saturate (mulExact a.ub b.ub)] .plus_infinity z).trans
      ((and_iff_right (le_plus_infinity z)).trans forall_corner)
  have hhi := fun z => (maxOf_le [saturate (mulExact a.lb b.lb), saturate (mulExact a.lb b.ub),
    saturate (mulExact a.ub b.lb), saturate (mulExact a.ub b.ub)] .minus_infinity z).trans
      ((and_iff_right (minus_infinity_le z)).trans forall_corner)
  have hrange := forall_corner (a := a) (b := b) |>.mpr fun p q _ _ => inRange_saturate (mulExact p q)
  refine ⟨_, _, mul_corners ha hb hdef, ?_, inRange_minOf hrange inRange_infinity.1,
    inRange_maxOf hrange inRange_infinity.2, hlo, hhi⟩
  exact ((hlo _).mp le_rfl _ _ (.inl rfl) (.inl rfl)).trans ((hhi _).mp le_rfl _ _ (.inl rfl) (.inl rfl))

theorem contains_mul_iff (ha : Proper a) (hb : Proper b) :
    Contains (Interval.mul a b) (· * ·) a b ↔ MulFits a b := by
  by_cases hdef : ∀ p q, IsEnd a p → IsEnd b q → ¬ Undefined p q
  · obtain ⟨lo, hi, hmul, -, hloRange, hhiRange, hlo, hhi⟩ := mul_bounds ha hb hdef
    have hlow := lower_corner ha hb hlo
    have hhigh := upper_corner ha hb hhi
    rw [MulFits, and_iff_right hdef, hmul, contains_ofBounds ha hb hlow.2 hhigh.2 hloRange hhiRange,
      hlow.1, hhigh.1]
  · refine iff_of_false ?_ fun h => hdef h.1
    simp only [not_forall, not_not] at hdef
    obtain ⟨p, q, hp, hq, hund⟩ := hdef
    rintro ⟨v, hv, -⟩
    rw [mul_undefined ha hb hp hq hund] at hv
    contradiction

theorem mulFits_of_wellFormed (ha : Proper a) (hb : Proper b) (hv : Interval.mul a b = some v)
    (hwell : WellFormed v) : MulFits a b := by
  have hdef : ∀ p q, IsEnd a p → IsEnd b q → ¬ Undefined p q := by
    intro p q hp hq hund
    rw [mul_undefined ha hb hp hq hund] at hv
    contradiction
  obtain ⟨lo, hi, hmul, hle, -, -, hlo, hhi⟩ := mul_bounds ha hb hdef
  rw [hmul, Interval.ofBounds, (leq_iff lo hi).mpr hle, Bool.or_true, if_pos rfl, Option.some.injEq] at hv
  subst hv
  have hproper : Proper ⟨lo, hi⟩ := by
    rcases hwell with hbot | hproper
    · have hlo : lo = .plus_infinity := congrArg IntervalValue.lb hbot
      have hhi : hi = .minus_infinity := congrArg IntervalValue.ub hbot
      rw [hlo, hhi] at hle
      exact absurd hle (by decide)
    · exact hproper
  exact ⟨hdef, (lower_corner ha hb hlo).1.mp hproper.lb, (upper_corner ha hb hhi).1.mp hproper.ub⟩

/-- The intervals of which the sum, the difference and the product have bounds that the arithmetic
can give. -/
def ArithmeticFits (a b : IntervalValue) : Prop :=
  a = IntervalValue.bottom ∨ b = IntervalValue.bottom ∨ (AddFits a b ∧ SubFits a b ∧ MulFits a b)

theorem arithmetic_contains_iff (ha : WellFormed a) (hb : WellFormed b) :
    (Contains (Interval.add a b) (· + ·) a b ∧ Contains (Interval.sub a b) (· - ·) a b ∧
      Contains (Interval.mul a b) (· * ·) a b) ↔ ArithmeticFits a b := by
  by_cases hbot : a = IntervalValue.bottom ∨ b = IntervalValue.bottom
  · have hcond : (a.isBottom || b.isBottom) = true := by
      rw [Bool.or_eq_true, isBottom_iff, isBottom_iff]
      exact hbot
    refine iff_of_true ?_ (hbot.imp_right .inl)
    rw [Interval.add, Interval.sub, Interval.mul, if_pos hcond, if_pos hcond, if_pos hcond]
    exact ⟨contains_bottom _ hbot, contains_bottom _ hbot, contains_bottom _ hbot⟩
  · rw [not_or] at hbot
    have ha' := ha.resolve_left hbot.1
    have hb' := hb.resolve_left hbot.2
    rw [contains_add_iff ha' hb', contains_sub_iff ha' hb', contains_mul_iff ha' hb', ArithmeticFits,
      or_iff_right hbot.1, or_iff_right hbot.2]

theorem arithmetic_contains_iff_small :
    (Contains (Interval.add ⟨.num 1, .num 2⟩ ⟨.num 3, .plus_infinity⟩) (· + ·)
        ⟨.num 1, .num 2⟩ ⟨.num 3, .plus_infinity⟩ ∧
      Contains (Interval.sub ⟨.num 1, .num 2⟩ ⟨.num 3, .plus_infinity⟩) (· - ·)
        ⟨.num 1, .num 2⟩ ⟨.num 3, .plus_infinity⟩ ∧
      Contains (Interval.mul ⟨.num 1, .num 2⟩ ⟨.num 3, .plus_infinity⟩) (· * ·)
        ⟨.num 1, .num 2⟩ ⟨.num 3, .plus_infinity⟩) ↔
      ArithmeticFits ⟨.num 1, .num 2⟩ ⟨.num 3, .plus_infinity⟩ := by
  refine arithmetic_contains_iff (.inr ?_) (.inr ?_)
  · exact ⟨by decide, by decide, by decide, inRange_num (by decide) (by decide),
      inRange_num (by decide) (by decide)⟩
  · exact ⟨le_plus_infinity _, by decide, by decide, inRange_num (by decide) (by decide),
      inRange_infinity.1⟩

/-- The largest number and one, the difference of 0 and the least number, and the largest number
twice. -/
theorem arithmetic_not_contained :
    ¬ Contains (Interval.add ⟨.num s64_max, .num s64_max⟩ ⟨.num 1, .num 1⟩) (· + ·)
        ⟨.num s64_max, .num s64_max⟩ ⟨.num 1, .num 1⟩ ∧
      ¬ Contains (Interval.sub ⟨.num 0, .num 0⟩ ⟨.num s64_min, .num s64_min⟩) (· - ·)
        ⟨.num 0, .num 0⟩ ⟨.num s64_min, .num s64_min⟩ ∧
      ¬ Contains (Interval.mul ⟨.num s64_max, .num s64_max⟩ ⟨.num 2, .num 2⟩) (· * ·)
        ⟨.num s64_max, .num s64_max⟩ ⟨.num 2, .num 2⟩ := by
  have hlarge : ∀ {f : ℤ → ℤ → ℤ} {a b : IntervalValue} {x y : ℤ}, x ∈ a.concretize → y ∈ b.concretize →
      ¬ Contains (some ⟨.plus_infinity, .plus_infinity⟩) f a b := by
    rintro f a b x y hx hy ⟨v, hv, -, hall⟩
    cases hv
    exact not_plus_infinity_le_num _ ((mem_concretize _ _).mp (hall x hx y hy)).1
  have hself : ∀ n : ℤ, n ∈ (⟨.num n, .num n⟩ : IntervalValue).concretize := fun n =>
    (mem_concretize _ _).mpr ⟨le_rfl, le_rfl⟩
  refine ⟨?_, ?_, ?_⟩
  · have hrun : Interval.add ⟨.num s64_max, .num s64_max⟩ ⟨.num 1, .num 1⟩ =
        some ⟨.plus_infinity, .plus_infinity⟩ := by decide
    rw [hrun]
    exact hlarge (hself _) (hself _)
  · rintro ⟨v, hv, -⟩
    have hrun : Interval.sub ⟨.num 0, .num 0⟩ ⟨.num s64_min, .num s64_min⟩ = none := by decide
    rw [hrun] at hv
    contradiction
  · have hrun : Interval.mul ⟨.num s64_max, .num s64_max⟩ ⟨.num 2, .num 2⟩ =
        some ⟨.plus_infinity, .plus_infinity⟩ := by decide
    rw [hrun]
    exact hlarge (hself _) (hself _)

end SVF.AE.IntervalProducts
