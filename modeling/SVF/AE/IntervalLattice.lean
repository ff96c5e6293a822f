import SVF.AE.IntervalComparisons
import SVF.AE.IntervalRemainder
import SVF.Util.Loops
import Mathlib.Order.CompletePartialOrder

namespace SVF.AE.IntervalLattice

open NumericValue NumericValue.BoundedInt Intervals BoundArithmetic IntervalArithmetic
open IntervalComparisons IntervalRemainder Util.Loops

def containedWithin (v other : IntervalValue) : Bool :=
  if v.isBottom then true
  else if other.isBottom then false
  else other.lb.leq v.lb && v.ub.leq other.ub

variable {a b c : IntervalValue} {p q : BoundedInt}

theorem proper_of_ne (ha : WellFormed a) (h : a ≠ IntervalValue.bottom) : Proper a := ha.resolve_left h

theorem wellFormed_bottom : WellFormed IntervalValue.bottom := .inl rfl

theorem proper_top : Proper IntervalValue.top where
  le := minus_infinity_le _
  lb h := by cases h
  ub h := by cases h
  lbRange := inRange_infinity.2
  ubRange := inRange_infinity.1

theorem join_of_proper (ha : Proper a) (hb : Proper b) :
    a.join_with b = ⟨a.lb ⊓ b.lb, a.ub ⊔ b.ub⟩ := by
  simp [IntervalValue.join_with, ha.isBottom, hb.isBottom, min_eq_inf, max_eq_sup]

theorem widen_of_proper (ha : Proper a) (hb : Proper b) :
    a.widen_with b = ⟨if !a.lb.leq b.lb then minus_infinity else a.lb,
      if !a.ub.geq b.ub then plus_infinity else a.ub⟩ := by
  simp [IntervalValue.widen_with, ha.isBottom, hb.isBottom]

theorem narrow_of_proper (ha : Proper a) (hb : Proper b) :
    a.narrow_with b = ⟨if a.lb.is_infinity then b.lb else a.lb, if a.ub.is_infinity then b.ub else a.ub⟩ := by
  simp [IntervalValue.narrow_with, ha.isBottom, hb.isBottom]

theorem ne_plus_of_le (hp : p ≠ .plus_infinity) (h : q ≤ p) : q ≠ .plus_infinity := by
  rintro rfl
  exact hp (le_antisymm (le_plus_infinity p) h)

theorem ne_minus_of_le (hp : p ≠ .minus_infinity) (h : p ≤ q) : q ≠ .minus_infinity := by
  rintro rfl
  exact hp (le_antisymm h (minus_infinity_le p))

theorem proper_join (ha : Proper a) (hb : Proper b) : Proper (a.join_with b) := by
  rw [join_of_proper ha hb]
  exact {
    le := (inf_le_left.trans ha.le).trans le_sup_left
    lb := ne_plus_of_le ha.lb inf_le_left
    ub := ne_minus_of_le ha.ub le_sup_left
    lbRange := min_eq_inf a.lb b.lb ▸ inRange_min ha.lbRange hb.lbRange
    ubRange := max_eq_sup a.ub b.ub ▸ inRange_max ha.ubRange hb.ubRange }

theorem wellFormed_join (ha : WellFormed a) (hb : WellFormed b) : WellFormed (a.join_with b) := by
  rcases ha with rfl | ha
  · rcases hb with rfl | hb
    · exact wellFormed_bottom
    · have hjoin : IntervalValue.bottom.join_with b = b := by
        simp [IntervalValue.join_with, hb.isBottom]
      rw [hjoin]
      exact .inr hb
  · rcases hb with rfl | hb
    · have hjoin : a.join_with IntervalValue.bottom = a := by
        simp [IntervalValue.join_with, ha.isBottom]
      rw [hjoin]
      exact .inr ha
    · exact .inr (proper_join ha hb)

theorem wellFormed_meet (ha : WellFormed a) (hb : WellFormed b) : WellFormed (a.meet_with b) := by
  rw [IntervalValue.meet_with]
  split
  · exact wellFormed_bottom
  · rename_i hbot
    rw [Bool.or_eq_true, isBottom_iff, isBottom_iff, not_or] at hbot
    replace ha := proper_of_ne ha hbot.1
    replace hb := proper_of_ne hb hbot.2
    split
    · exact wellFormed_bottom
    · rename_i hle
      have hle' := (leq_iff _ _).mp (by simpa using hle)
      refine .inr ⟨hle', ?_, ?_, inRange_max ha.lbRange hb.lbRange, inRange_min ha.ubRange hb.ubRange⟩
      · dsimp only
        rw [max_eq_sup]
        rcases le_total a.lb b.lb with h | h
        · rw [sup_eq_right.mpr h]
          exact hb.lb
        · rw [sup_eq_left.mpr h]
          exact ha.lb
      · dsimp only
        rw [min_eq_inf]
        rcases le_total a.ub b.ub with h | h
        · rw [inf_eq_left.mpr h]
          exact ha.ub
        · rw [inf_eq_right.mpr h]
          exact hb.ub

theorem proper_widen (ha : Proper a) (hb : Proper b) : Proper (a.widen_with b) := by
  rw [widen_of_proper ha hb]
  refine ⟨((widenedLb_le _ _).1.trans ha.le).trans (le_widenedUb _ _).1, ?_, ?_, ?_, ?_⟩
  · exact ne_plus_of_le ha.lb (widenedLb_le _ _).1
  · exact ne_minus_of_le ha.ub (le_widenedUb _ _).1
  · dsimp only
    split
    · exact inRange_infinity.2
    · exact ha.lbRange
  · dsimp only
    split
    · exact inRange_infinity.1
    · exact ha.ubRange

theorem widen_bottom (ha : Proper a) : a.widen_with IntervalValue.bottom = a := by
  simp [IntervalValue.widen_with, ha.isBottom]

theorem wellFormed_widen (ha : WellFormed a) (hb : WellFormed b) : WellFormed (a.widen_with b) := by
  rcases ha with rfl | ha
  · exact hb
  · rcases hb with rfl | hb
    · rw [widen_bottom ha]
      exact .inr ha
    · exact .inr (proper_widen ha hb)

theorem wellFormed_narrow (ha : WellFormed a) (hb : WellFormed b)
    (h : b ≠ IntervalValue.bottom → a.lb ≤ b.lb ∧ b.ub ≤ a.ub) : WellFormed (a.narrow_with b) := by
  by_cases hbot : (a.isBottom || b.isBottom) = true
  · rw [IntervalValue.narrow_with, if_pos hbot]
    exact wellFormed_bottom
  · rw [Bool.or_eq_true, isBottom_iff, isBottom_iff, not_or] at hbot
    obtain ⟨hlb, hub⟩ := h hbot.2
    replace ha := proper_of_ne ha hbot.1
    replace hb := proper_of_ne hb hbot.2
    rw [narrow_of_proper ha hb]
    have hlow : (if a.lb.is_infinity then b.lb else a.lb) ≤ b.lb := by
      split
      · exact le_rfl
      · exact hlb
    have hhigh : b.ub ≤ if a.ub.is_infinity then b.ub else a.ub := by
      split
      · exact le_rfl
      · exact hub
    refine .inr ⟨(hlow.trans hb.le).trans hhigh, ne_plus_of_le hb.lb hlow, ne_minus_of_le hb.ub hhigh, ?_, ?_⟩
    · dsimp only
      split
      · exact hb.lbRange
      · exact ha.lbRange
    · dsimp only
      split
      · exact hb.ubRange
      · exact ha.ubRange

theorem containedWithin_iff : containedWithin a b = true ↔
    a = IntervalValue.bottom ∨ b ≠ IntervalValue.bottom ∧ b.lb ≤ a.lb ∧ a.ub ≤ b.ub := by
  rw [containedWithin]
  by_cases ha : a.isBottom = true
  · simp [(isBottom_iff a).mp ha]
  · rw [if_neg ha, or_iff_right fun h => ha ((isBottom_iff a).mpr h)]
    by_cases hb : b.isBottom = true
    · simp [(isBottom_iff b).mp hb]
    · rw [if_neg hb, Bool.and_eq_true, leq_iff, leq_iff]
      exact ⟨fun h => ⟨fun h' => hb ((isBottom_iff b).mpr h'), h⟩, fun h => h.2⟩

theorem lb_le_of_subset (ha : Proper a) (hb : Proper b) (h : a.concretize ⊆ b.concretize) : b.lb ≤ a.lb := by
  by_contra hlt
  rw [not_le] at hlt
  cases hbl : b.lb with
  | plus_infinity => exact hb.lb hbl
  | minus_infinity =>
      rw [hbl] at hlt
      exact not_le_of_gt hlt (minus_infinity_le _)
  | num l =>
      rw [hbl] at hlt
      obtain ⟨x, hx, hxl⟩ := ha.exists_le (le_num_pred hlt)
      have hlx := lb_le_of_mem (h hx)
      rw [hbl, num_le_num] at hlx
      omega

theorem ub_le_of_subset (ha : Proper a) (hb : Proper b) (h : a.concretize ⊆ b.concretize) : a.ub ≤ b.ub := by
  by_contra hlt
  rw [not_le] at hlt
  cases hbu : b.ub with
  | minus_infinity => exact hb.ub hbu
  | plus_infinity =>
      rw [hbu] at hlt
      exact not_le_of_gt hlt (le_plus_infinity _)
  | num u =>
      rw [hbu] at hlt
      obtain ⟨x, hx, hux⟩ := ha.exists_ge (num_succ_le hlt)
      have hxu := le_ub_of_mem (h hx)
      rw [hbu, num_le_num] at hxu
      omega

theorem containedWithin_iff_subset (ha : WellFormed a) (hb : WellFormed b) :
    containedWithin a b = true ↔ a.concretize ⊆ b.concretize := by
  rw [containedWithin_iff]
  constructor
  · rintro (rfl | ⟨-, hlb, hub⟩)
    · rw [concretize_bottom]
      exact Set.empty_subset _
    · intro x hx
      apply (mem_concretize b x).mpr
      exact ⟨hlb.trans (lb_le_of_mem hx), (le_ub_of_mem hx).trans hub⟩
  · intro hsub
    by_cases hbot : a = IntervalValue.bottom
    · exact .inl hbot
    · replace ha := proper_of_ne ha hbot
      obtain ⟨x, hx⟩ := ha.nonempty
      have hb' : b ≠ IntervalValue.bottom := by
        rintro rfl
        have hmem := hsub hx
        rw [concretize_bottom] at hmem
        exact hmem
      replace hb := proper_of_ne hb hb'
      exact .inr ⟨hb', lb_le_of_subset ha hb hsub, ub_le_of_subset ha hb hsub⟩

theorem eq_of_concretize (ha : WellFormed a) (hb : WellFormed b) (h : a.concretize = b.concretize) : a = b := by
  rcases containedWithin_iff.mp ((containedWithin_iff_subset ha hb).mpr h.subset) with rfl | ⟨hb', hlb, hub⟩
  · rcases containedWithin_iff.mp ((containedWithin_iff_subset hb ha).mpr h.symm.subset) with rfl | ⟨hne, -⟩
    · rfl
    · exact absurd rfl hne
  · rcases containedWithin_iff.mp ((containedWithin_iff_subset hb ha).mpr h.symm.subset) with rfl | ⟨-, hlb', hub'⟩
    · exact absurd rfl hb'
    · cases a
      cases b
      rw [IntervalValue.mk.injEq]
      exact ⟨le_antisymm hlb' hlb, le_antisymm hub hub'⟩

def infinite (e : BoundedInt) : ℕ := if e.is_infinity then 1 else 0

def height (v : IntervalValue) : ℕ := if v.isBottom then 3 else 2 - infinite v.lb - infinite v.ub

theorem infinite_le (e : BoundedInt) : infinite e ≤ 1 := by
  rw [infinite]
  split
  · exact le_rfl
  · exact Nat.zero_le 1

theorem height_of_proper (ha : Proper a) : height a = 2 - infinite a.lb - infinite a.ub := by
  rw [height, ha.isBottom, if_neg Bool.false_ne_true]

theorem height_le (v : IntervalValue) : height v ≤ 3 := by
  rw [height]
  split
  · exact le_rfl
  · omega

theorem infinite_of_not_leq (hp : p ≠ .plus_infinity) (h : p.leq q = false) : infinite p = 0 := by
  cases p with
  | plus_infinity => exact absurd rfl hp
  | minus_infinity =>
      rw [(leq_iff _ _).mpr (minus_infinity_le q)] at h
      contradiction
  | num k => rfl

theorem infinite_of_not_geq (hp : p ≠ .minus_infinity) (h : p.geq q = false) : infinite p = 0 := by
  cases p with
  | minus_infinity => exact absurd rfl hp
  | plus_infinity =>
      rw [(geq_iff _ _).mpr (le_plus_infinity q)] at h
      contradiction
  | num k => rfl

theorem widen_eq_or_lt (ha : WellFormed a) (hb : WellFormed b) :
    a.widen_with b = a ∨ height (a.widen_with b) < height a := by
  rcases hb with rfl | hb
  · left
    rcases ha with rfl | ha
    · rfl
    · exact widen_bottom ha
  · rcases ha with rfl | ha
    · right
      change height b < 3
      rw [height_of_proper hb]
      omega
    · have hone : infinite .minus_infinity = 1 ∧ infinite .plus_infinity = 1 := ⟨rfl, rfl⟩
      have hlbLe := infinite_le a.lb
      have hubLe := infinite_le a.ub
      rw [height_of_proper (proper_widen ha hb), height_of_proper ha, widen_of_proper ha hb]
      cases hlb : a.lb.leq b.lb with
      | false =>
          right
          have hzero := infinite_of_not_leq ha.lb hlb
          cases hub : a.ub.geq b.ub with
          | false => simp [hone, hzero, infinite_of_not_geq ha.ub hub]
          | true =>
              simp [hone, hzero]
              omega
      | true =>
          cases hub : a.ub.geq b.ub with
          | false =>
              right
              have hzero := infinite_of_not_geq ha.ub hub
              simp [hone, hzero]
              omega
          | true =>
              left
              simp

abbrev ValidInterval := {v : IntervalValue // WellFormed v}

namespace ValidInterval

instance : PartialOrder ValidInterval where
  le v w := containedWithin v.1 w.1 = true
  le_refl v := (containedWithin_iff_subset v.2 v.2).mpr subset_rfl
  le_trans u v w h h' := by
    apply (containedWithin_iff_subset u.2 w.2).mpr
    exact ((containedWithin_iff_subset u.2 v.2).mp h).trans ((containedWithin_iff_subset v.2 w.2).mp h')
  le_antisymm v w h h' := by
    apply Subtype.ext
    apply eq_of_concretize v.2 w.2
    exact ((containedWithin_iff_subset v.2 w.2).mp h).antisymm ((containedWithin_iff_subset w.2 v.2).mp h')

theorem le_iff_subset (v w : ValidInterval) : v ≤ w ↔ v.1.concretize ⊆ w.1.concretize :=
  containedWithin_iff_subset v.2 w.2

def join (v w : ValidInterval) : ValidInterval := ⟨v.1.join_with w.1, wellFormed_join v.2 w.2⟩

def meet (v w : ValidInterval) : ValidInterval := ⟨v.1.meet_with w.1, wellFormed_meet v.2 w.2⟩

def widen (v w : ValidInterval) : ValidInterval := ⟨v.1.widen_with w.1, wellFormed_widen v.2 w.2⟩

theorem join_le {u v w : ValidInterval} (hv : v ≤ u) (hw : w ≤ u) : join v w ≤ u := by
  obtain ⟨v, hwell⟩ := v
  obtain ⟨w, hwell'⟩ := w
  rcases hwell with rfl | hproper
  · rcases hwell' with rfl | hproper'
    · exact hv
    · have hjoin : join ⟨IntervalValue.bottom, wellFormed_bottom⟩ ⟨w, .inr hproper'⟩ = ⟨w, .inr hproper'⟩ := by
        apply Subtype.ext
        simp [join, IntervalValue.join_with, hproper'.isBottom]
      rwa [hjoin]
  · rcases hwell' with rfl | hproper'
    · have hjoin : join ⟨v, .inr hproper⟩ ⟨IntervalValue.bottom, wellFormed_bottom⟩ = ⟨v, .inr hproper⟩ := by
        apply Subtype.ext
        simp [join, IntervalValue.join_with, hproper.isBottom]
      rwa [hjoin]
    · have hne : ∀ {x : IntervalValue}, Proper x → x ≠ IntervalValue.bottom := by
        rintro x hx rfl
        exact hx.lb rfl
      obtain ⟨hu, hlb, hub⟩ := (containedWithin_iff.mp hv).resolve_left (hne hproper)
      obtain ⟨-, hlb', hub'⟩ := (containedWithin_iff.mp hw).resolve_left (hne hproper')
      apply containedWithin_iff.mpr
      right
      change u.1 ≠ IntervalValue.bottom ∧ u.1.lb ≤ (v.join_with w).lb ∧ (v.join_with w).ub ≤ u.1.ub
      rw [join_of_proper hproper hproper']
      exact ⟨hu, le_inf hlb hlb', sup_le hub hub'⟩

instance : Lattice ValidInterval where
  sup := join
  le_sup_left v w := (le_iff_subset _ _).mpr (concretize_join_left v.1 w.1)
  le_sup_right v w := (le_iff_subset _ _).mpr (concretize_join_right v.1 w.1)
  sup_le _ _ _ := join_le
  inf := meet
  inf_le_left v w := by
    apply (le_iff_subset _ _).mpr
    exact (concretize_meet v.1 w.1).le.trans Set.inter_subset_left
  inf_le_right v w := by
    apply (le_iff_subset _ _).mpr
    exact (concretize_meet v.1 w.1).le.trans Set.inter_subset_right
  le_inf u v w hv hw := by
    apply (le_iff_subset _ _).mpr
    change u.1.concretize ⊆ (v.1.meet_with w.1).concretize
    rw [concretize_meet]
    exact Set.subset_inter ((le_iff_subset _ _).mp hv) ((le_iff_subset _ _).mp hw)

theorem meet_of_disjoint {v w : ValidInterval} (h : Disjoint v.1.concretize w.1.concretize) :
    v.1.meet_with w.1 = IntervalValue.bottom := by
  apply eq_of_concretize (wellFormed_meet v.2 w.2) wellFormed_bottom
  rw [concretize_meet, concretize_bottom]
  exact h.inter_eq

def widenings (v : ValidInterval) (others : ℕ → ValidInterval) : ℕ → ValidInterval
  | 0 => v
  | n + 1 => widen (widenings v others n) (others n)

/-- The members of a sequence of widenings change at most three times. -/
theorem widenings_changes (v : ValidInterval) (others : ℕ → ValidInterval) :
    {n | widenings v others (n + 1) ≠ widenings v others n}.encard ≤ 3 := by
  have hstep : ∀ n, widenings v others (n + 1) = widenings v others n ∨
      height (widenings v others (n + 1)).1 < height (widenings v others n).1 := by
    intro n
    rcases widen_eq_or_lt (widenings v others n).2 (others n).2 with heq | hlt
    · exact .inl (Subtype.ext heq)
    · exact .inr hlt
  apply (encard_changes_le (m := fun v => height v.1) hstep).trans
  exact_mod_cast height_le v.1

theorem narrow_between {v w : ValidInterval} (h : w ≤ v) :
    ∃ n : ValidInterval, n.1 = v.1.narrow_with w.1 ∧ w ≤ n ∧ n ≤ v := by
  rcases containedWithin_iff.mp h with hbot | ⟨hv, hlb, hub⟩
  · have hnarrow : v.1.narrow_with w.1 = w.1 := by
      rw [hbot]
      simp [IntervalValue.narrow_with]
    exact ⟨w, hnarrow.symm, le_rfl, h⟩
  · by_cases hw : w.1 = IntervalValue.bottom
    · have hnarrow : v.1.narrow_with w.1 = w.1 := by
        rw [hw]
        simp [IntervalValue.narrow_with]
      exact ⟨w, hnarrow.symm, le_rfl, h⟩
    · have hproper := proper_of_ne v.2 hv
      have hproper' := proper_of_ne w.2 hw
      have hwell := wellFormed_narrow v.2 w.2 fun _ => ⟨hlb, hub⟩
      refine ⟨⟨v.1.narrow_with w.1, hwell⟩, rfl, ?_, ?_⟩
      · apply (le_iff_subset _ _).mpr
        intro x hx
        change x ∈ (v.1.narrow_with w.1).concretize
        rw [narrow_of_proper hproper hproper', mem_concretize]
        refine ⟨le_trans ?_ (lb_le_of_mem hx), (le_ub_of_mem hx).trans ?_⟩
        · dsimp only
          split
          · exact le_rfl
          · exact hlb
        · dsimp only
          split
          · exact le_rfl
          · exact hub
      · apply (le_iff_subset _ _).mpr
        intro x hx
        change x ∈ (v.1.narrow_with w.1).concretize at hx
        rw [narrow_of_proper hproper hproper', mem_concretize] at hx
        apply (mem_concretize v.1 x).mpr
        refine ⟨le_trans ?_ hx.1, hx.2.trans ?_⟩
        · dsimp only
          split
          · exact hlb
          · exact le_rfl
        · dsimp only
          split
          · exact hub
          · exact le_rfl

end ValidInterval

section

open ValidInterval

structure Laws : Prop where
  inclusion : ∀ v w : ValidInterval, containedWithin v.1 w.1 = true ↔ v.1.concretize ⊆ w.1.concretize
  order : IsPartialOrder ValidInterval fun v w => containedWithin v.1 w.1 = true
  join : ∀ v w : ValidInterval, ∃ j : ValidInterval, j.1 = v.1.join_with w.1 ∧ IsLUB {v, w} j
  meet : ∀ v w : ValidInterval, ∃ m : ValidInterval, m.1 = v.1.meet_with w.1 ∧ IsGLB {v, w} m
  disjoint : ∀ v w : ValidInterval, Disjoint v.1.concretize w.1.concretize →
    v.1.meet_with w.1 = IntervalValue.bottom
  widen : ∀ v w : ValidInterval, ∃ u : ValidInterval, u.1 = v.1.widen_with w.1 ∧ v ≤ u ∧ w ≤ u
  chain : ∀ (v : ValidInterval) (others : ℕ → ValidInterval),
    {n | widenings v others (n + 1) ≠ widenings v others n}.encard ≤ 3
  narrow : ∀ v w : ValidInterval, w ≤ v → ∃ n : ValidInterval, n.1 = v.1.narrow_with w.1 ∧ w ≤ n ∧ n ≤ v

theorem intervals_lattice : Laws where
  inclusion := le_iff_subset
  order := {
    refl := @le_refl ValidInterval _
    trans := @le_trans ValidInterval _
    antisymm := @le_antisymm ValidInterval _ }
  join v w := ⟨v ⊔ w, rfl, isLUB_pair⟩
  meet v w := ⟨v ⊓ w, rfl, isGLB_pair⟩
  disjoint _ _ := meet_of_disjoint
  widen v w := by
    refine ⟨ValidInterval.widen v w, rfl, ?_, ?_⟩
    · exact (le_iff_subset _ _).mpr (concretize_widen_left v.1 w.1)
    · exact (le_iff_subset _ _).mpr (concretize_widen_right v.1 w.1)
  chain := widenings_changes
  narrow _ _ := narrow_between

end

end SVF.AE.IntervalLattice
