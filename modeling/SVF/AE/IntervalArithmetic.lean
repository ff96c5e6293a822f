import SVF.AE.ExactBounds

namespace SVF.AE.IntervalArithmetic

open NumericValue NumericValue.BoundedInt Intervals BoundArithmetic ExactBounds

variable {a b v : IntervalValue} {p q : BoundedInt} {m : ℤ}

theorem concretize_top (hv : v.isTop = true) (x : ℤ) : x ∈ v.concretize := by
  obtain ⟨lb, ub⟩ := v
  rw [mem_concretize]
  cases lb <;> cases ub <;> simp_all [IntervalValue.isTop, is_minus_infinity, is_plus_infinity]

/-- A product with an end of an interval is approached by the products with its members. -/
theorem exists_mulExact_le (hv : Proper v) (hq : q = v.lb ∨ q = v.ub) (h : mulExact p q ≤ .num m) :
    ∃ y ∈ v.concretize, mulExact p (.num y) ≤ .num m := by
  cases q with
  | num k =>
      refine ⟨k, (mem_concretize v k).mpr ?_, h⟩
      rcases hq with heq | heq
      · exact ⟨heq.ge, heq ▸ hv.le⟩
      · exact ⟨heq ▸ hv.le, heq.le⟩
  | plus_infinity =>
      have hub : v.ub = .plus_infinity := hq.elim (fun heq => absurd heq.symm hv.lb) Eq.symm
      have hbig : ∀ N : ℤ, ∃ y ∈ v.concretize, N ≤ y := fun N => hv.exists_ge (hub ▸ le_plus_infinity _)
      rw [mulExact_comm] at h
      cases p with
      | plus_infinity => exact absurd h (not_plus_infinity_le_num m)
      | minus_infinity =>
          obtain ⟨y, hy, hpos⟩ := hbig 1
          refine ⟨y, hy, ?_⟩
          rw [(mulExact_of_pos hpos).2]
          exact minus_infinity_le _
      | num k =>
          rcases mulExact_sign k with ⟨-, heq, -⟩ | rfl | ⟨hk, -⟩
          · rw [heq] at h
            exact absurd h (not_plus_infinity_le_num m)
          · obtain ⟨y, hy⟩ := hv.nonempty
            rw [mulExact_zero] at h
            refine ⟨y, hy, ?_⟩
            rwa [mulExact_comm, mulExact_zero]
          · obtain ⟨y, hy, hge⟩ := hbig (Max.max 0 (-m))
            rw [max_le_iff] at hge
            refine ⟨y, hy, ?_⟩
            rw [mulExact_num, num_le_num]
            nlinarith
  | minus_infinity =>
      have hlb : v.lb = .minus_infinity := hq.elim Eq.symm fun heq => absurd heq.symm hv.ub
      have hbig : ∀ N : ℤ, ∃ y ∈ v.concretize, y ≤ N := fun N => hv.exists_le (hlb ▸ minus_infinity_le _)
      rw [mulExact_comm] at h
      cases p with
      | minus_infinity => exact absurd h (not_plus_infinity_le_num m)
      | plus_infinity =>
          obtain ⟨y, hy, hneg⟩ := hbig (-1)
          refine ⟨y, hy, ?_⟩
          rw [(mulExact_of_neg (by omega)).1]
          exact minus_infinity_le _
      | num k =>
          rcases mulExact_sign k with ⟨hk, -⟩ | rfl | ⟨-, -, heq⟩
          · obtain ⟨y, hy, hle⟩ := hbig (Min.min 0 m)
            rw [le_min_iff] at hle
            refine ⟨y, hy, ?_⟩
            rw [mulExact_num, num_le_num]
            nlinarith
          · obtain ⟨y, hy⟩ := hv.nonempty
            rw [mulExact_zero] at h
            refine ⟨y, hy, ?_⟩
            rwa [mulExact_comm, mulExact_zero]
          · rw [heq] at h
            exact absurd h (not_plus_infinity_le_num m)

/-- What the constructor makes of a bound below and a bound above all results. -/
theorem contains_ofBounds {lo hi : BoundedInt} {f : ℤ → ℤ → ℤ} (ha : Proper a) (hb : Proper b)
    (hlo : lo ≠ .plus_infinity → ∀ x ∈ a.concretize, ∀ y ∈ b.concretize, lo ≤ .num (f x y))
    (hhi : hi ≠ .minus_infinity → ∀ x ∈ a.concretize, ∀ y ∈ b.concretize, .num (f x y) ≤ hi)
    (hloRange : InRange lo) (hhiRange : InRange hi) :
    Contains (Interval.ofBounds lo hi) f a b ↔ lo ≠ .plus_infinity ∧ hi ≠ .minus_infinity := by
  obtain ⟨x, hx⟩ := ha.nonempty
  obtain ⟨y, hy⟩ := hb.nonempty
  constructor
  · rintro ⟨v, hv, hwell, hall⟩
    rw [Interval.ofBounds] at hv
    split at hv
    · cases hv
      rcases hwell with hbot | hproper
      · have hmem := hall x hx y hy
        rw [hbot, concretize_bottom] at hmem
        exact hmem.elim
      · exact ⟨hproper.lb, hproper.ub⟩
    · contradiction
  · rintro ⟨hlo', hhi'⟩
    have hle : lo ≤ hi := (hlo hlo' x hx y hy).trans (hhi hhi' x hx y hy)
    refine ⟨⟨lo, hi⟩, ?_, .inr ⟨hle, hlo', hhi', hloRange, hhiRange⟩, fun x hx y hy => ?_⟩
    · rw [Interval.ofBounds, (leq_iff lo hi).mpr hle, Bool.or_true, if_pos rfl]
    · exact (mem_concretize _ _).mpr ⟨hlo hlo' x hx y hy, hhi hhi' x hx y hy⟩

theorem inRange_infinity : InRange .plus_infinity ∧ InRange .minus_infinity := by
  constructor
  · intro z h
    cases h
  · intro z h
    cases h

theorem checked_of_le {z : ℤ} (h : s64_min ≤ z) (h' : z ≤ s64_max) : checked z = some z :=
  if_pos ⟨h, h'⟩

theorem inRange_num {z : ℤ} (h : s64_min ≤ z) (h' : z ≤ s64_max) : InRange (.num z) := by
  intro w hw
  cases hw
  exact ⟨h, h'⟩

theorem safeAdd_num {x y : ℤ} (hx : InRange (.num x)) (hy : InRange (.num y)) :
    ∃ r, Bound.safeAdd (.num x) (.num y) = some r ∧ InRange r ∧
      ((r = .plus_infinity ∧ s64_max < x + y) ∨
        (r = .minus_infinity ∧ x < 0 ∧ y < 0 ∧ x + y < -s64_max) ∨
        (r = .num (x + y) ∧ x + y ≤ s64_max ∧ ¬ (x < 0 ∧ y < 0 ∧ x + y < -s64_max))) := by
  obtain ⟨hx, hx'⟩ := hx x rfl
  obtain ⟨hy, hy'⟩ := hy y rfl
  have hmin : s64_min = -s64_max - 1 := rfl
  have hdef : Bound.safeAdd (.num x) (.num y) =
      if x > 0 ∧ y > 0 ∧ s64_max - x < y then some .plus_infinity
      else if x < 0 ∧ y < 0 ∧ -s64_max - x > y then some .minus_infinity
      else (checked (x + y)).map .num := rfl
  rw [hdef]
  by_cases hover : x > 0 ∧ y > 0 ∧ s64_max - x < y
  · rw [if_pos hover]
    exact ⟨_, rfl, inRange_infinity.1, .inl ⟨rfl, by omega⟩⟩
  · rw [if_neg hover]
    by_cases hunder : x < 0 ∧ y < 0 ∧ -s64_max - x > y
    · rw [if_pos hunder]
      exact ⟨_, rfl, inRange_infinity.2, .inr (.inl ⟨rfl, by omega⟩)⟩
    · rw [if_neg hunder]
      have hlow : s64_min ≤ x + y := by omega
      have hhigh : x + y ≤ s64_max := by omega
      rw [checked_of_le hlow hhigh]
      exact ⟨_, rfl, inRange_num hlow hhigh, .inr (.inr ⟨rfl, by omega⟩)⟩

theorem safeAdd_lower (hp : p ≠ .plus_infinity) (hq : q ≠ .plus_infinity) (hpr : InRange p)
    (hqr : InRange q) : ∃ r, Bound.safeAdd p q = some r ∧ InRange r ∧
      (r = .plus_infinity ↔ ∃ x y, p = .num x ∧ q = .num y ∧ s64_max < x + y) ∧
      (r ≠ .plus_infinity → ∀ x y, p ≤ .num x → q ≤ .num y → r ≤ .num (x + y)) := by
  cases p with
  | plus_infinity => exact absurd rfl hp
  | minus_infinity =>
      refine ⟨.minus_infinity, ?_, inRange_infinity.2, ?_, fun _ _ _ _ _ => minus_infinity_le _⟩
      · cases q with
        | plus_infinity => exact absurd rfl hq
        | minus_infinity | num b => rfl
      · exact iff_of_false (by decide) (by rintro ⟨x, y, h, -⟩; cases h)
  | num a =>
      cases q with
      | plus_infinity => exact absurd rfl hq
      | minus_infinity =>
          refine ⟨.minus_infinity, rfl, inRange_infinity.2, ?_, fun _ _ _ _ _ => minus_infinity_le _⟩
          exact iff_of_false (by decide) (by rintro ⟨x, y, -, h, -⟩; cases h)
      | num b =>
          obtain ⟨r, hr, hrange, hcases⟩ := safeAdd_num hpr hqr
          refine ⟨r, hr, hrange, ⟨fun heq => ?_, ?_⟩, fun hne x y hx hy => ?_⟩
          · rcases hcases with ⟨-, hgt⟩ | ⟨heq', -⟩ | ⟨heq', -⟩
            · exact ⟨a, b, rfl, rfl, hgt⟩
            · rw [heq] at heq'; cases heq'
            · rw [heq] at heq'; cases heq'
          · rintro ⟨x, y, hx, hy, hgt⟩
            cases hx
            cases hy
            rcases hcases with ⟨heq, -⟩ | ⟨-, -, -, hlt⟩ | ⟨-, hle, -⟩
            · exact heq
            · rw [s64_max] at hgt hlt; omega
            · omega
          · rw [num_le_num] at hx hy
            rcases hcases with ⟨heq, -⟩ | ⟨heq, -⟩ | ⟨heq, -⟩
            · exact absurd heq hne
            · rw [heq]; exact minus_infinity_le _
            · rw [heq, num_le_num]; omega

theorem safeAdd_upper (hp : p ≠ .minus_infinity) (hq : q ≠ .minus_infinity) (hpr : InRange p)
    (hqr : InRange q) : ∃ r, Bound.safeAdd p q = some r ∧ InRange r ∧
      (r = .minus_infinity ↔ ∃ x y, p = .num x ∧ q = .num y ∧ x < 0 ∧ y < 0 ∧ x + y < -s64_max) ∧
      (r ≠ .minus_infinity → ∀ x y, .num x ≤ p → .num y ≤ q → .num (x + y) ≤ r) := by
  cases p with
  | minus_infinity => exact absurd rfl hp
  | plus_infinity =>
      refine ⟨.plus_infinity, ?_, inRange_infinity.1, ?_, fun _ _ _ _ _ => le_plus_infinity _⟩
      · cases q with
        | minus_infinity => exact absurd rfl hq
        | plus_infinity | num b => rfl
      · exact iff_of_false (by decide) (by rintro ⟨x, y, h, -⟩; cases h)
  | num a =>
      cases q with
      | minus_infinity => exact absurd rfl hq
      | plus_infinity =>
          refine ⟨.plus_infinity, rfl, inRange_infinity.1, ?_, fun _ _ _ _ _ => le_plus_infinity _⟩
          exact iff_of_false (by decide) (by rintro ⟨x, y, -, h, -⟩; cases h)
      | num b =>
          obtain ⟨r, hr, hrange, hcases⟩ := safeAdd_num hpr hqr
          refine ⟨r, hr, hrange, ⟨fun heq => ?_, ?_⟩, fun hne x y hx hy => ?_⟩
          · rcases hcases with ⟨heq', -⟩ | ⟨-, hlt⟩ | ⟨heq', -⟩
            · rw [heq] at heq'; cases heq'
            · exact ⟨a, b, rfl, rfl, hlt⟩
            · rw [heq] at heq'; cases heq'
          · rintro ⟨x, y, hx, hy, hlt⟩
            cases hx
            cases hy
            rcases hcases with ⟨-, hgt⟩ | ⟨heq, -⟩ | ⟨-, -, hnot⟩
            · rw [s64_max] at hgt hlt; omega
            · exact heq
            · exact absurd hlt hnot
          · rw [num_le_num] at hx hy
            rcases hcases with ⟨heq, -⟩ | ⟨heq, -⟩ | ⟨heq, -⟩
            · rw [heq]; exact le_plus_infinity _
            · exact absurd heq hne
            · rw [heq, num_le_num]; omega

def SomeLow (f : ℤ → ℤ → ℤ) (a b : IntervalValue) : Prop :=
  ∃ x ∈ a.concretize, ∃ y ∈ b.concretize, f x y ≤ s64_max

def SomeHigh (f : ℤ → ℤ → ℤ) (a b : IntervalValue) : Prop :=
  ∃ x ∈ a.concretize, ∃ y ∈ b.concretize, -s64_max ≤ f x y

theorem contains_bottom (f : ℤ → ℤ → ℤ) (h : a = IntervalValue.bottom ∨ b = IntervalValue.bottom) :
    Contains (some IntervalValue.bottom) f a b := by
  refine ⟨IntervalValue.bottom, rfl, .inl rfl, fun x hx y hy => ?_⟩
  rcases h with rfl | rfl
  · rw [concretize_bottom] at hx
    exact hx.elim
  · rw [concretize_bottom] at hy
    exact hy.elim

theorem contains_top (f : ℤ → ℤ → ℤ) (a b : IntervalValue) :
    Contains (some IntervalValue.top) f a b :=
  ⟨IntervalValue.top, rfl, .inr ⟨le_plus_infinity _, fun h => (by cases h), fun h => (by cases h),
    inRange_infinity.2, inRange_infinity.1⟩, fun _ _ _ _ => concretize_top rfl _⟩

def AddFits (a b : IntervalValue) : Prop :=
  SomeLow (· + ·) a b ∧ (SomeHigh (· + ·) a b ∨ (a.ub = .num s64_min ∧ b.ub = .num 0) ∨
    (a.ub = .num 0 ∧ b.ub = .num s64_min))

theorem someLow_add_iff (ha : Proper a) (hb : Proper b) : SomeLow (· + ·) a b ↔
    ¬ ∃ x y, a.lb = .num x ∧ b.lb = .num y ∧ s64_max < x + y := by
  constructor
  · rintro ⟨x, hx, y, hy, hle⟩ ⟨l, l', hl, hl', hgt⟩
    rw [mem_concretize, hl, num_le_num] at hx
    rw [mem_concretize, hl', num_le_num] at hy
    dsimp only at hle
    omega
  · intro hnot
    cases hla : a.lb with
    | plus_infinity => exact absurd hla ha.lb
    | minus_infinity =>
        obtain ⟨y, hy⟩ := hb.nonempty
        obtain ⟨x, hx, hle⟩ := ha.exists_le (m := s64_max - y) (hla ▸ minus_infinity_le _)
        exact ⟨x, hx, y, hy, by dsimp only; omega⟩
    | num l =>
        obtain ⟨x, hx, hle⟩ := ha.exists_le hla.le
        cases hlb : b.lb with
        | plus_infinity => exact absurd hlb hb.lb
        | minus_infinity =>
            obtain ⟨y, hy, hle'⟩ := hb.exists_le (m := s64_max - x) (hlb ▸ minus_infinity_le _)
            exact ⟨x, hx, y, hy, by dsimp only; omega⟩
        | num l' =>
            obtain ⟨y, hy, hle'⟩ := hb.exists_le hlb.le
            refine ⟨x, hx, y, hy, ?_⟩
            by_contra hgt
            exact hnot ⟨l, l', hla, hlb, by dsimp only at hgt; omega⟩

theorem someHigh_add_iff (ha : Proper a) (hb : Proper b) : SomeHigh (· + ·) a b ↔
    ¬ ∃ x y, a.ub = .num x ∧ b.ub = .num y ∧ x + y < -s64_max := by
  constructor
  · rintro ⟨x, hx, y, hy, hle⟩ ⟨u, u', hu, hu', hlt⟩
    rw [mem_concretize, hu, num_le_num] at hx
    rw [mem_concretize, hu', num_le_num] at hy
    dsimp only at hle
    omega
  · intro hnot
    cases hua : a.ub with
    | minus_infinity => exact absurd hua ha.ub
    | plus_infinity =>
        obtain ⟨y, hy⟩ := hb.nonempty
        obtain ⟨x, hx, hle⟩ := ha.exists_ge (m := -s64_max - y) (hua ▸ le_plus_infinity _)
        exact ⟨x, hx, y, hy, by dsimp only; omega⟩
    | num u =>
        obtain ⟨x, hx, hle⟩ := ha.exists_ge hua.ge
        cases hub : b.ub with
        | minus_infinity => exact absurd hub hb.ub
        | plus_infinity =>
            obtain ⟨y, hy, hle'⟩ := hb.exists_ge (m := -s64_max - x) (hub ▸ le_plus_infinity _)
            exact ⟨x, hx, y, hy, by dsimp only; omega⟩
        | num u' =>
            obtain ⟨y, hy, hle'⟩ := hb.exists_ge hub.ge
            refine ⟨x, hx, y, hy, ?_⟩
            by_contra hlt
            exact hnot ⟨u, u', hua, hub, by dsimp only at hlt; omega⟩

/-- The upper bounds have a sum that is too small, and are both negative. -/
theorem underflow_iff (ha : Proper a) (hb : Proper b) :
    (∃ x y, a.ub = .num x ∧ b.ub = .num y ∧ x < 0 ∧ y < 0 ∧ x + y < -s64_max) ↔
      ¬ (SomeHigh (· + ·) a b ∨ (a.ub = .num s64_min ∧ b.ub = .num 0) ∨
        (a.ub = .num 0 ∧ b.ub = .num s64_min)) := by
  have hmin : s64_min = -s64_max - 1 := rfl
  rw [someHigh_add_iff ha hb]
  constructor
  · rintro ⟨x, y, hx, hy, hx0, hy0, hlt⟩ (hnot | ⟨-, hzero⟩ | ⟨hzero, -⟩)
    · exact hnot ⟨x, y, hx, hy, hlt⟩
    · rw [hy] at hzero
      cases hzero
      omega
    · rw [hx] at hzero
      cases hzero
      omega
  · intro hnot
    rw [not_or, not_or, not_not] at hnot
    obtain ⟨⟨x, y, hx, hy, hlt⟩, hfirst, hsecond⟩ := hnot
    have hxr := ha.ubRange x hx
    have hyr := hb.ubRange y hy
    refine ⟨x, y, hx, hy, ?_, ?_, hlt⟩
    · by_contra hge
      have hx0 : x = 0 := by omega
      have hy0 : y = s64_min := by omega
      exact hsecond ⟨hx0 ▸ hx, hy0 ▸ hy⟩
    · by_contra hge
      have hy0 : y = 0 := by omega
      have hx0 : x = s64_min := by omega
      exact hfirst ⟨hx0 ▸ hx, hy0 ▸ hy⟩

theorem addFits_of_top (ha : Proper a) (hb : Proper b) (h : (a.isTop || b.isTop) = true) : AddFits a b := by
  rcases (Bool.or_eq_true _ _).mp h with htop | htop
  · obtain ⟨y, hy⟩ := hb.nonempty
    have hmem : ∀ z, z - y ∈ a.concretize := fun z => concretize_top htop _
    exact ⟨⟨_, hmem 0, y, hy, by dsimp only; rw [s64_max]; omega⟩,
      .inl ⟨_, hmem 0, y, hy, by dsimp only; rw [s64_max]; omega⟩⟩
  · obtain ⟨x, hx⟩ := ha.nonempty
    have hmem : ∀ z, z - x ∈ b.concretize := fun z => concretize_top htop _
    exact ⟨⟨x, hx, _, hmem 0, by dsimp only; rw [s64_max]; omega⟩,
      .inl ⟨x, hx, _, hmem 0, by dsimp only; rw [s64_max]; omega⟩⟩

theorem contains_add_iff (ha : Proper a) (hb : Proper b) :
    Contains (Interval.add a b) (· + ·) a b ↔ AddFits a b := by
  rw [Interval.add, ha.isBottom, hb.isBottom]
  simp only [Bool.or_self, Bool.false_eq_true, if_false]
  by_cases htop : (a.isTop || b.isTop) = true
  · rw [if_pos htop]
    exact iff_of_true (contains_top _ a b) (addFits_of_top ha hb htop)
  · rw [if_neg htop]
    obtain ⟨lo, hlo, hlor, hlo', hloall⟩ := safeAdd_lower ha.lb hb.lb ha.lbRange hb.lbRange
    obtain ⟨hi, hhi, hhir, hhi', hhiall⟩ := safeAdd_upper ha.ub hb.ub ha.ubRange hb.ubRange
    rw [hlo, hhi]
    change Contains (Interval.ofBounds lo hi) _ a b ↔ _
    rw [contains_ofBounds ha hb (fun hne x hx y hy => hloall hne x y ((mem_concretize a x).mp hx).1
        ((mem_concretize b y).mp hy).1) (fun hne x hx y hy => hhiall hne x y
        ((mem_concretize a x).mp hx).2 ((mem_concretize b y).mp hy).2) hlor hhir, AddFits,
      someLow_add_iff ha hb, Ne, hlo', Ne, hhi', underflow_iff ha hb, not_not]

end SVF.AE.IntervalArithmetic
