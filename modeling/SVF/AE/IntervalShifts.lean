import SVF.AE.IntervalBitwise
import SVF.AE.IntervalLattice

namespace SVF.AE.IntervalShifts

open NumericValue NumericValue.BoundedInt Intervals BoundArithmetic BoundArithmetic.Interval
open IntervalArithmetic IntervalDivision.Interval IntervalComparisons IntervalLattice
open IntervalBitwise (shl32)
open IntervalDivision.Bound (getNumeral)
open BoundArithmetic.Bound (iVal)

section

open IntervalValue

/-- `none` is a failed assertion, or a shift by the width or more. -/
def shr (lhs rhs : BoundedInt) : Option BoundedInt :=
  if !rhs.geq (num 0) then none
  else if iVal lhs = 0 then some lhs
  else if lhs.is_infinity then some lhs
  else if rhs.is_infinity then some (if lhs.geq (num 0) then num 0 else num (-1))
  else if iVal rhs < 64 then some (num (iVal lhs >>> (iVal rhs).toNat)) else none

def shiftOf (rhs : IntervalValue) : IntervalValue := rhs.meet_with ⟨num 0, plus_infinity⟩

def s32 (z : ℤ) : ℤ := z.bmod (2 ^ 32)

def coeffLb (e : BoundedInt) : Option BoundedInt :=
  if s32 (getNumeral e) ≥ 32 ∨ e.is_infinity then some minus_infinity else (shl32 (s32 (getNumeral e))).map num

def coeffUb (e : BoundedInt) : Option BoundedInt :=
  if e.is_infinity then some plus_infinity else (shl32 (s32 (getNumeral e))).map num

def shiftLeft (lhs rhs : IntervalValue) : Option IntervalValue :=
  if lhs.isBottom || rhs.isBottom then some bottom
  else if lhs.isTop && rhs.isTop then some top
  else if (shiftOf rhs).isBottom then some bottom
  else do
    let lb ← coeffLb (shiftOf rhs).lb
    let ub ← coeffUb (shiftOf rhs).ub
    let coeff ← ofBounds lb ub
    mul lhs coeff

def shiftRight : ℕ → IntervalValue → IntervalValue → Option IntervalValue
  | 0, _, _ => none
  | fuel + 1, lhs, rhs =>
      if lhs.isBottom || rhs.isBottom then some bottom
      else if lhs.isTop && rhs.isTop then some top
      else if (shiftOf rhs).isBottom then some bottom
      else if lhs.contains 0 then do
        let l ← create lhs.lb (num (-1))
        let u ← create (num 1) lhs.ub
        let tmp ← shiftRight fuel l rhs
        let tmp ← join tmp (← shiftRight fuel u rhs)
        join tmp (ofInt 0)
      else do
        let ll ← shr lhs.lb (shiftOf rhs).lb
        let lu ← shr lhs.lb (shiftOf rhs).ub
        let ul ← shr lhs.ub (shiftOf rhs).lb
        let uu ← shr lhs.ub (shiftOf rhs).ub
        ofCorners [ll, lu, ul, uu]

end

variable {a b v : IntervalValue} {p q : BoundedInt} {x : ℤ} {s l : ℕ}

def least (b : IntervalValue) : ℕ :=
  match b.lb with
  | num k => k.toNat
  | plus_infinity | minus_infinity => 0

theorem max_least (hb : Proper b) : b.lb.max (num 0) = num (least b) := by
  rw [least]
  cases hlb : b.lb with
  | plus_infinity => exact absurd hlb hb.lb
  | minus_infinity => rfl
  | num k =>
      have hmax : (num k).max (num 0) = num (if k < 0 then 0 else k) := rfl
      rw [hmax, num.injEq]
      split
      · rename_i hneg
        simp [Int.toNat_of_nonpos hneg.le]
      · rename_i hpos
        exact (Int.toNat_of_nonneg (not_lt.mp hpos)).symm

theorem least_le (hb : Proper b) (hub : num 0 ≤ b.ub) : num (least b) ≤ b.ub := by
  rw [← max_least hb, max_eq_sup]
  exact sup_le hb.le hub

theorem mem_amounts (hb : Proper b) (s : ℕ) : (s : ℤ) ∈ b.concretize ↔ least b ≤ s ∧ num s ≤ b.ub := by
  rw [mem_concretize]
  refine and_congr_left fun _ => ?_
  have hmax := max_least hb
  rw [max_eq_sup] at hmax
  constructor
  · intro h
    have hle : num (least b) ≤ num (s : ℤ) := by
      rw [← hmax]
      exact sup_le h ((num_le_num _ _).mpr (Int.natCast_nonneg s))
    exact_mod_cast (num_le_num _ _).mp hle
  · intro h
    have hle : num (least b) ≤ num (s : ℤ) := (num_le_num _ _).mpr (by exact_mod_cast h)
    rw [← hmax] at hle
    exact le_sup_left.trans hle

theorem shiftOf_of_nonneg (hb : Proper b) (hub : num 0 ≤ b.ub) : shiftOf b = ⟨num (least b), b.ub⟩ := by
  have hmin : b.ub.min .plus_infinity = b.ub := by
    rw [min_eq_inf]
    exact inf_eq_left.mpr (le_plus_infinity _)
  have hle := least_le hb hub
  have hbot : (⟨num 0, plus_infinity⟩ : IntervalValue).isBottom = false := rfl
  rw [shiftOf, IntervalValue.meet_with, hb.isBottom, hbot, Bool.or_self, if_neg Bool.false_ne_true]
  rw [max_least hb, hmin, (leq_iff _ _).mpr hle, Bool.not_true, if_neg Bool.false_ne_true]

theorem shiftOf_of_neg (hub : b.ub < num 0) : shiftOf b = IntervalValue.bottom := by
  rw [shiftOf, IntervalValue.meet_with]
  split
  · rfl
  · rw [if_pos]
    rw [Bool.not_eq_true', ← Bool.not_eq_true, leq_iff, max_eq_sup, min_eq_inf]
    intro hle
    exact not_lt_of_ge (le_sup_right.trans (hle.trans inf_le_left)) hub

def shrExact : BoundedInt → BoundedInt → BoundedInt
  | num x, num s => num (x / 2 ^ s.toNat)
  | num x, _ => num (if 0 ≤ x then 0 else -1)
  | p, _ => p

def Allowed (q : BoundedInt) : Prop := q = .plus_infinity ∨ ∃ s : ℕ, q = num s ∧ s ≤ 63

theorem shr_eq (hq : Allowed q) : shr p q = some (shrExact p q) := by
  rcases hq with rfl | ⟨s, rfl, hs⟩
  · cases p with
    | minus_infinity | plus_infinity => rfl
    | num x =>
        by_cases hx : x = 0
        · subst hx
          rfl
        · have hinf : plus_infinity.is_infinity = true := rfl
          have hexact : shrExact (num x) plus_infinity = num (if 0 ≤ x then 0 else -1) := rfl
          rw [shr, if_neg (by simp [geq]), if_neg (show ¬ iVal (num x) = 0 from hx),
            if_neg (by simp [is_infinity, is_plus_infinity, is_minus_infinity]), if_pos hinf, hexact]
          by_cases hpos : 0 ≤ x
          · simp [geq, hpos]
          · simp [geq, hpos]
  · have hgeq : ((num (s : ℤ)).geq (num 0)) = true := by simp [geq]
    cases p with
    | minus_infinity | plus_infinity => simp [shr, hgeq, iVal, shrExact, is_infinity, is_plus_infinity, is_minus_infinity]
    | num x =>
        have hlt : iVal (num (s : ℤ)) < 64 := by
          change (s : ℤ) < 64
          omega
        rw [shr, hgeq]
        by_cases hx : x = 0
        · subst hx
          simp [shrExact, iVal]
        · rw [if_neg (by simp), if_neg (show ¬ iVal (num x) = 0 from hx),
            if_neg (by simp [is_infinity, is_plus_infinity, is_minus_infinity]),
            if_neg (by simp [is_infinity, is_plus_infinity, is_minus_infinity]), if_pos hlt, shrExact,
            Int.shiftRight_eq_div_pow]
          simp [iVal]

theorem shr_none (hx : x ≠ 0) (hs : 64 ≤ s) : shr (num x) (num s) = none := by
  have hgeq : ((num (s : ℤ)).geq (num 0)) = true := by simp [geq]
  have hlt : ¬ iVal (num (s : ℤ)) < 64 := by
    change ¬ (s : ℤ) < 64
    omega
  rw [shr, hgeq, if_neg (by simp), if_neg (show ¬ iVal (num x) = 0 from hx),
    if_neg (by simp [is_infinity, is_plus_infinity, is_minus_infinity]),
    if_neg (by simp [is_infinity, is_plus_infinity, is_minus_infinity]), if_neg hlt]

theorem shrExact_num (x : ℤ) (s : ℕ) : shrExact (num x) (num s) = num (x / 2 ^ s) := by
  simp [shrExact]

theorem shrExact_mono (hq : Allowed q) {p' : BoundedInt} (h : p ≤ p') : shrExact p q ≤ shrExact p' q := by
  cases p with
  | minus_infinity => exact minus_infinity_le _
  | plus_infinity => rw [le_antisymm (le_plus_infinity p') h]
  | num x =>
      cases p' with
      | minus_infinity => exact absurd h (not_num_le_minus_infinity x)
      | plus_infinity => exact le_plus_infinity _
      | num x' =>
          rw [num_le_num] at h
          rcases hq with rfl | ⟨s, rfl, -⟩
          · change num (if 0 ≤ x then 0 else -1) ≤ num (if 0 ≤ x' then 0 else -1)
            rw [num_le_num]
            split
            · rw [if_pos (by omega)]
            · split
              · omega
              · exact le_rfl
          · rw [shrExact_num, shrExact_num, num_le_num]
            exact Int.ediv_le_ediv (by positivity) h

theorem ediv_pow_anti {s s' : ℕ} (hx : 0 ≤ x) (h : s ≤ s') : x / 2 ^ s' ≤ x / 2 ^ s := by
  apply Int.le_ediv_of_mul_le (by positivity)
  have hpow : (2 : ℤ) ^ s ≤ 2 ^ s' := pow_le_pow_right₀ (by norm_num) h
  have hdiv : 0 ≤ x / 2 ^ s' := Int.ediv_nonneg hx (by positivity)
  exact (mul_le_mul_of_nonneg_left hpow hdiv).trans (Int.ediv_mul_le x (by positivity))

theorem ediv_pow_mono {s s' : ℕ} (hx : x < 0) (h : s ≤ s') : x / 2 ^ s ≤ x / 2 ^ s' := by
  apply Int.le_ediv_of_mul_le (by positivity)
  obtain ⟨k, rfl⟩ := Nat.exists_eq_add_of_le h
  have hneg : x / 2 ^ s < 0 := Int.ediv_neg_of_neg_of_pos hx (by positivity)
  have hone : (1 : ℤ) ≤ 2 ^ k := one_le_pow₀ (by norm_num)
  have hle : x / 2 ^ s * 2 ^ s ≤ x := Int.ediv_mul_le x (by positivity)
  have hs : (0 : ℤ) < 2 ^ s := by positivity
  rw [pow_add]
  nlinarith

theorem shrExact_between (x : ℤ) (hq : Allowed q) (hl : l ≤ s) (hs : num s ≤ q) :
    (shrExact (num x) (num l) ≤ num (x / 2 ^ s) ∧ num (x / 2 ^ s) ≤ shrExact (num x) q) ∨
      (shrExact (num x) q ≤ num (x / 2 ^ s) ∧ num (x / 2 ^ s) ≤ shrExact (num x) (num l)) := by
  rw [shrExact_num, num_le_num, num_le_num]
  rcases lt_or_ge x 0 with hneg | hpos
  · left
    refine ⟨ediv_pow_mono hneg hl, ?_⟩
    rcases hq with rfl | ⟨u, rfl, -⟩
    · have hexact : shrExact (num x) plus_infinity = num (-1) := congrArg num (if_neg (not_le.mpr hneg))
      have hlt : x / 2 ^ s < 0 := Int.ediv_neg_of_neg_of_pos hneg (by positivity)
      rw [hexact, num_le_num]
      omega
    · rw [shrExact_num, num_le_num]
      apply ediv_pow_mono hneg
      exact_mod_cast (num_le_num _ _).mp hs
  · right
    refine ⟨?_, ediv_pow_anti hpos hl⟩
    rcases hq with rfl | ⟨u, rfl, -⟩
    · have hexact : shrExact (num x) plus_infinity = num 0 := congrArg num (if_pos hpos)
      rw [hexact, num_le_num]
      exact Int.ediv_nonneg hpos (by positivity)
    · rw [shrExact_num, num_le_num]
      apply ediv_pow_anti hpos
      exact_mod_cast (num_le_num _ _).mp hs

theorem inRange_shrExact (hp : InRange p) (hq : Allowed q) : InRange (shrExact p q) := by
  have hmin : s64_min = -s64_max - 1 := rfl
  have hmax : 0 < s64_max := by norm_num [s64_max]
  cases p with
  | minus_infinity => exact inRange_infinity.2
  | plus_infinity => exact inRange_infinity.1
  | num x =>
      obtain ⟨hlow, hhigh⟩ := hp x rfl
      rcases hq with rfl | ⟨s, rfl, -⟩
      · change InRange (num (if 0 ≤ x then 0 else -1))
        split
        · exact inRange_num (by omega) (by omega)
        · exact inRange_num (by omega) (by omega)
      · rw [shrExact_num]
        have hzero : x / 2 ^ 0 = x := by simp
        rcases lt_or_ge x 0 with hneg | hpos
        · have hge := ediv_pow_mono hneg (Nat.zero_le s)
          have hlt : x / 2 ^ s < 0 := Int.ediv_neg_of_neg_of_pos hneg (by positivity)
          exact inRange_num (by omega) (by omega)
        · have hle := ediv_pow_anti hpos (Nat.zero_le s)
          have hge : 0 ≤ x / 2 ^ s := Int.ediv_nonneg hpos (by positivity)
          exact inRange_num (by omega) (by omega)

section

variable {fuel : ℕ}

def RightContains (fuel : ℕ) (a b : IntervalValue) : Prop :=
  ∃ v, shiftRight fuel a b = some v ∧ WellFormed v ∧
    ∀ x ∈ a.concretize, ∀ s : ℕ, s ≤ 63 → (s : ℤ) ∈ b.concretize → x / 2 ^ s ∈ v.concretize

theorem isTop_of_not_contains (ha0 : a.contains 0 = false) : a.isTop = false := by
  by_contra htop
  have hmem : a.contains 0 = true := concretize_top (by simpa using htop) 0
  rw [ha0] at hmem
  contradiction

theorem shiftRight_eq (ha : Proper a) (hb : Proper b) (ha0 : a.contains 0 = false) (hub : num 0 ≤ b.ub) :
    shiftRight (fuel + 1) a b = (shr a.lb (num (least b))).bind fun ll => (shr a.lb b.ub).bind fun lu =>
      (shr a.ub (num (least b))).bind fun ul => (shr a.ub b.ub).bind fun uu => ofCorners [ll, lu, ul, uu] := by
  have hbot : (⟨num (least b), b.ub⟩ : IntervalValue).isBottom = false := rfl
  rw [shiftRight, ha.isBottom, hb.isBottom, isTop_of_not_contains ha0, ha0, shiftOf_of_nonneg hb hub, hbot]
  rfl

theorem shiftRight_corners (ha : Proper a) (hb : Proper b) (ha0 : a.contains 0 = false) (hub : num 0 ≤ b.ub)
    (hl : least b ≤ 63) (hq : Allowed b.ub) : RightContains (fuel + 1) a b := by
  have hleast : Allowed (num (least b)) := .inr ⟨least b, rfl, hl⟩
  have hrun : shiftRight (fuel + 1) a b = ofCorners [shrExact a.lb (num (least b)), shrExact a.lb b.ub,
      shrExact a.ub (num (least b)), shrExact a.ub b.ub] := by
    rw [shiftRight_eq ha hb ha0 hub, shr_eq hleast, shr_eq hq, shr_eq hleast, shr_eq hq]
    rfl
  rw [RightContains, hrun, ofCorners]
  have hlo := ((IntervalProducts.le_minOf [shrExact a.lb (num (least b)), shrExact a.lb b.ub,
      shrExact a.ub (num (least b)), shrExact a.ub b.ub] plus_infinity _).mp le_rfl).2
  have hhi := ((IntervalProducts.maxOf_le [shrExact a.lb (num (least b)), shrExact a.lb b.ub,
      shrExact a.ub (num (least b)), shrExact a.ub b.ub] minus_infinity _).mp le_rfl).2
  have hrange : ∀ c ∈ [shrExact a.lb (num (least b)), shrExact a.lb b.ub, shrExact a.ub (num (least b)),
      shrExact a.ub b.ub], InRange c := by
    simp only [List.forall_mem_cons]
    refine ⟨?_, ?_, ?_, ?_, fun c hc => absurd hc List.not_mem_nil⟩
    · exact inRange_shrExact ha.lbRange hleast
    · exact inRange_shrExact ha.lbRange hq
    · exact inRange_shrExact ha.ubRange hleast
    · exact inRange_shrExact ha.ubRange hq
  have hloRange := IntervalProducts.inRange_minOf hrange inRange_infinity.1
  have hhiRange := IntervalProducts.inRange_maxOf hrange inRange_infinity.2
  generalize Bound.minOf _ plus_infinity = lo at hlo hloRange ⊢
  generalize Bound.maxOf _ minus_infinity = hi at hhi hhiRange ⊢
  simp only [List.forall_mem_cons] at hlo hhi
  obtain ⟨hll, hlu, -⟩ := hlo
  obtain ⟨hll', -, hul, huu, -⟩ := hhi
  have hmem : ∀ x ∈ a.concretize, ∀ s : ℕ, (s : ℤ) ∈ b.concretize →
      lo ≤ num (x / 2 ^ s) ∧ num (x / 2 ^ s) ≤ hi := by
    intro x hx s hs
    obtain ⟨hls, hsu⟩ := (mem_amounts hb s).mp hs
    have hlow := hll.trans (shrExact_mono hleast (lb_le_of_mem hx))
    have hlow' := hlu.trans (shrExact_mono hq (lb_le_of_mem hx))
    have hhigh := (shrExact_mono hleast (le_ub_of_mem hx)).trans hul
    have hhigh' := (shrExact_mono hq (le_ub_of_mem hx)).trans huu
    rcases shrExact_between x hq hls hsu with ⟨hge, hle⟩ | ⟨hge, hle⟩
    · exact ⟨hlow.trans hge, hle.trans hhigh'⟩
    · exact ⟨hlow'.trans hge, hle.trans hhigh⟩
  have hle : lo ≤ hi := hll.trans hll'
  refine ⟨⟨lo, hi⟩, ?_, .inr ⟨hle, ?_, ?_, hloRange, hhiRange⟩, fun x hx s _ hs => ?_⟩
  · rw [ofBounds, (leq_iff lo hi).mpr hle, Bool.or_true, if_pos rfl]
  · refine ne_plus_of_le ?_ hll
    cases hlb : a.lb with
    | plus_infinity => exact absurd hlb ha.lb
    | minus_infinity => simp [shrExact]
    | num k => simp [shrExact]
  · refine ne_minus_of_le ?_ hul
    cases hub : a.ub with
    | minus_infinity => exact absurd hub ha.ub
    | plus_infinity => simp [shrExact]
    | num k => simp [shrExact]
  · exact (mem_concretize _ _).mpr (hmem x hx s hs)

/-- A bound of an interval without 0 that a shift by 64 or more is undefined for. -/
theorem exists_end_num (ha : Proper a) (ha0 : a.contains 0 = false) :
    (∃ k, k ≠ 0 ∧ a.lb = num k) ∨ ∃ k, k ≠ 0 ∧ a.ub = num k := by
  have hzero : ¬ (a.lb ≤ num 0 ∧ num 0 ≤ a.ub) := by
    intro h
    have hmem : a.contains 0 = true := (mem_concretize a 0).mpr h
    rw [ha0] at hmem
    contradiction
  cases hlb : a.lb with
  | plus_infinity => exact absurd hlb ha.lb
  | num k =>
      left
      refine ⟨k, ?_, rfl⟩
      rintro rfl
      exact hzero ⟨hlb.le, hlb ▸ ha.le⟩
  | minus_infinity =>
      right
      cases hub : a.ub with
      | minus_infinity => exact absurd hub ha.ub
      | plus_infinity =>
          rw [hlb, hub] at hzero
          exact absurd ⟨minus_infinity_le _, le_plus_infinity _⟩ hzero
      | num k =>
          refine ⟨k, ?_, rfl⟩
          rintro rfl
          exact hzero ⟨hlb ▸ minus_infinity_le _, hub.ge⟩

theorem bind_none {α β : Type*} {w x y z : Option α} {f : α → α → α → α → Option β}
    (h : w = none ∨ x = none ∨ y = none ∨ z = none) :
    (w.bind fun i => x.bind fun j => y.bind fun k => z.bind fun l => f i j k l) = none := by
  cases w with
  | none => rfl
  | some i =>
      cases x with
      | none => rfl
      | some j =>
          cases y with
          | none => rfl
          | some k =>
              cases z with
              | none => rfl
              | some l => simp at h

theorem shiftRight_undefined (ha : Proper a) (hb : Proper b) (ha0 : a.contains 0 = false) (hub : num 0 ≤ b.ub)
    (h : ¬ (least b ≤ 63 ∧ Allowed b.ub)) : shiftRight (fuel + 1) a b = none := by
  rw [shiftRight_eq ha hb ha0 hub]
  apply bind_none
  have hamount : (∃ s : ℕ, 64 ≤ s ∧ num (least b) = num s) ∨ ∃ s : ℕ, 64 ≤ s ∧ b.ub = num s := by
    by_cases hl : least b ≤ 63
    · right
      have hnot : ¬ Allowed b.ub := fun hq => h ⟨hl, hq⟩
      cases hu : b.ub with
      | minus_infinity => exact absurd hu hb.ub
      | plus_infinity => exact absurd (.inl hu) hnot
      | num u =>
          have hpos : 0 ≤ u := (num_le_num 0 u).mp (hu ▸ hub)
          refine ⟨u.toNat, ?_, by rw [Int.toNat_of_nonneg hpos]⟩
          by_contra hlt
          exact hnot (.inr ⟨u.toNat, by rw [hu, Int.toNat_of_nonneg hpos], by omega⟩)
    · exact .inl ⟨least b, by omega, rfl⟩
  rcases exists_end_num ha ha0 with ⟨k, hk, hend⟩ | ⟨k, hk, hend⟩
  · rcases hamount with ⟨s, hs, heq⟩ | ⟨s, hs, heq⟩
    · left
      rw [hend, heq, shr_none hk hs]
    · right; left
      rw [hend, heq, shr_none hk hs]
  · rcases hamount with ⟨s, hs, heq⟩ | ⟨s, hs, heq⟩
    · right; right; left
      rw [hend, heq, shr_none hk hs]
    · right; right; right
      rw [hend, heq, shr_none hk hs]

theorem rightContains_bottom (h : a = IntervalValue.bottom ∨ b = IntervalValue.bottom) :
    RightContains (fuel + 1) a b := by
  have hcond : (a.isBottom || b.isBottom) = true := by
    rw [Bool.or_eq_true, isBottom_iff, isBottom_iff]
    exact h
  refine ⟨IntervalValue.bottom, ?_, wellFormed_bottom, fun x hx s _ hs => ?_⟩
  · rw [shiftRight, if_pos hcond]
  · rcases h with rfl | rfl
    · rw [concretize_bottom] at hx
      exact hx.elim
    · rw [concretize_bottom] at hs
      exact hs.elim

theorem join_wellFormed {w : IntervalValue} (hv : WellFormed v) (hw : WellFormed w) :
    join v w = some (v.join_with w) ∧ WellFormed (v.join_with w) := by
  refine ⟨?_, wellFormed_join hv hw⟩
  rw [join, if_pos]
  rcases hv with rfl | hv
  · rfl
  · rw [(leq_iff _ _).mpr hv.le, Bool.or_true]

theorem proper_ofInt {z : ℤ} (hlow : s64_min ≤ z) (hhigh : z ≤ s64_max) : Proper (IntervalValue.ofInt z) where
  le := le_rfl
  lb h := by cases h
  ub h := by cases h
  lbRange := inRange_num hlow hhigh
  ubRange := inRange_num hlow hhigh

/-- Where the first interval contains 0: both parts are shifted, and joined with 0. -/
theorem shiftRight_split (ha : Proper a) (hb : Proper b) (ha0 : a.contains 0 = true)
    (htop : ¬ (a.isTop = true ∧ b.isTop = true)) (hub : num 0 ≤ b.ub) :
    ∃ lo up, WellFormed lo ∧ WellFormed up ∧ lo.contains 0 = false ∧ up.contains 0 = false ∧
      (∀ x, x ∈ lo.concretize ↔ x ∈ a.concretize ∧ x < 0) ∧
      (∀ x, x ∈ up.concretize ↔ x ∈ a.concretize ∧ 0 < x) ∧
      shiftRight (fuel + 1) a b = (shiftRight fuel lo b).bind fun tmp =>
        (shiftRight fuel up b).bind fun r => (join tmp r).bind fun tmp => join tmp (IntervalValue.ofInt 0) := by
  obtain ⟨lo, hlo, hlow, hlo0, hlomem, -⟩ := IntervalDivision.create_lower ha ha0
  obtain ⟨up, hup, hupw, hup0, hupmem, -⟩ := IntervalDivision.create_upper ha ha0
  refine ⟨lo, up, hlow, hupw, hlo0, hup0, hlomem, hupmem, ?_⟩
  have hbot : (⟨num (least b), b.ub⟩ : IntervalValue).isBottom = false := rfl
  rw [← Bool.and_eq_true] at htop
  rw [shiftRight, ha.isBottom, hb.isBottom, Bool.or_self, if_neg Bool.false_ne_true, if_neg htop, ha0,
    shiftOf_of_nonneg hb hub, hbot, if_neg Bool.false_ne_true, if_pos rfl, hlo, hup]
  rfl

theorem rightContains_of_neg (ha : Proper a) (hb : Proper b) (htop : ¬ (a.isTop = true ∧ b.isTop = true))
    (hub : b.ub < num 0) : RightContains (fuel + 1) a b := by
  refine ⟨IntervalValue.bottom, ?_, wellFormed_bottom, fun x _ s _ hs => ?_⟩
  · rw [← Bool.and_eq_true] at htop
    rw [shiftRight, ha.isBottom, hb.isBottom, Bool.or_self, if_neg Bool.false_ne_true, if_neg htop,
      shiftOf_of_neg hub]
    rfl
  · have hle := (num_le_num _ _).mpr (Int.natCast_nonneg s) |>.trans (le_ub_of_mem hs)
    exact absurd hle (not_le_of_gt hub)

theorem rightContains_of_top (ha : Proper a) (hb : Proper b) (htop : a.isTop = true ∧ b.isTop = true) :
    RightContains (fuel + 1) a b := by
  refine ⟨IntervalValue.top, ?_, .inr proper_top, fun x _ s _ _ => mem_top _⟩
  rw [shiftRight, ha.isBottom, hb.isBottom, htop.1, htop.2]
  rfl

def RightFits (a b : IntervalValue) : Prop :=
  a = IntervalValue.bottom ∨ b = IntervalValue.bottom ∨ (a.isTop = true ∧ b.isTop = true) ∨ b.ub < num 0 ∨
    a = IntervalValue.ofInt 0 ∨ (least b ≤ 63 ∧ Allowed b.ub)

theorem rightContains_nonzero (ha : WellFormed a) (hb : Proper b) (ha0 : a.contains 0 = false)
    (hub : num 0 ≤ b.ub) : (a = IntervalValue.bottom ∨ (least b ≤ 63 ∧ Allowed b.ub) →
      RightContains (fuel + 1) a b) ∧ (a ≠ IntervalValue.bottom → ¬ (least b ≤ 63 ∧ Allowed b.ub) →
      shiftRight (fuel + 1) a b = none) := by
  rcases ha with rfl | ha
  · exact ⟨fun _ => rightContains_bottom (.inl rfl), fun h => absurd rfl h⟩
  · constructor
    · rintro (rfl | ⟨hl, hq⟩)
      · exact absurd rfl ha.lb
      · exact shiftRight_corners ha hb ha0 hub hl hq
    · exact fun _ h => shiftRight_undefined ha hb ha0 hub h

theorem rightContains_zero (ha : Proper a) (hb : Proper b) (ha0 : a.contains 0 = true)
    (htop : ¬ (a.isTop = true ∧ b.isTop = true)) (hub : num 0 ≤ b.ub) :
    RightContains (fuel + 2) a b ↔ a = IntervalValue.ofInt 0 ∨ (least b ≤ 63 ∧ Allowed b.ub) := by
  have hzero : Proper (IntervalValue.ofInt 0) := proper_ofInt (by norm_num [s64_min]) (by norm_num [s64_max])
  obtain ⟨lo, up, hlow, hupw, hlo0, hup0, hlomem, hupmem, hrun⟩ :=
    shiftRight_split ha hb ha0 htop hub
  obtain ⟨hlofits, hlonone⟩ := rightContains_nonzero hlow hb hlo0 hub
  obtain ⟨hupfits, hupnone⟩ := rightContains_nonzero hupw hb hup0 hub
  constructor
  · rintro ⟨v, hv, -⟩
    by_contra hnot
    rw [not_or] at hnot
    rw [hrun] at hv
    have hbots : lo = IntervalValue.bottom ∧ up = IntervalValue.bottom := by
      constructor
      · by_contra hne
        rw [hlonone hne hnot.2] at hv
        contradiction
      · by_contra hne
        rw [hupnone hne hnot.2] at hv
        cases hl : shiftRight (fuel + 1) lo b with
        | none => rw [hl] at hv; contradiction
        | some tmp => rw [hl] at hv; contradiction
    apply hnot.1
    apply eq_of_concretize (.inr ha) (.inr hzero)
    ext x
    rw [concretize_ofInt, Set.mem_singleton_iff]
    constructor
    · intro hx
      rcases lt_trichotomy x 0 with hneg | heq | hpos
      · have hmem := (hlomem x).mpr ⟨hx, hneg⟩
        rw [hbots.1, concretize_bottom] at hmem
        exact hmem.elim
      · exact heq
      · have hmem := (hupmem x).mpr ⟨hx, hpos⟩
        rw [hbots.2, concretize_bottom] at hmem
        exact hmem.elim
    · rintro rfl
      exact ha0
  · intro hfits
    have hparts : (lo = IntervalValue.bottom ∧ up = IntervalValue.bottom) ∨ (least b ≤ 63 ∧ Allowed b.ub) := by
      rcases hfits with rfl | hfits
      · left
        constructor
        · apply eq_of_concretize hlow wellFormed_bottom
          ext x
          rw [hlomem, concretize_ofInt, Set.mem_singleton_iff, concretize_bottom]
          exact iff_of_false (fun h => absurd h.1 h.2.ne) (Set.notMem_empty x)
        · apply eq_of_concretize hupw wellFormed_bottom
          ext x
          rw [hupmem, concretize_ofInt, Set.mem_singleton_iff, concretize_bottom]
          exact iff_of_false (fun h => absurd h.1 h.2.ne') (Set.notMem_empty x)
      · exact .inr hfits
    obtain ⟨v, hv, hvwell, hvmem⟩ := hlofits (hparts.imp_left And.left)
    obtain ⟨w, hw, hwwell, hwmem⟩ := hupfits (hparts.imp_left And.right)
    obtain ⟨hj, hjwell⟩ := join_wellFormed hvwell hwwell
    obtain ⟨hk, hkwell⟩ := join_wellFormed hjwell (.inr hzero)
    refine ⟨_, ?_, hkwell, fun x hx s hs hmem => ?_⟩
    · rw [hrun, hv, hw, Option.bind_some, Option.bind_some, hj, Option.bind_some, hk]
    · rcases lt_trichotomy x 0 with hneg | rfl | hpos
      · apply concretize_join_left
        apply concretize_join_left
        exact hvmem x ((hlomem x).mpr ⟨hx, hneg⟩) s hs hmem
      · apply concretize_join_right
        rw [Int.zero_ediv]
        exact mem_ofInt 0
      · apply concretize_join_left
        apply concretize_join_right
        exact hwmem x ((hupmem x).mpr ⟨hx, hpos⟩) s hs hmem

theorem rightContains_iff (ha : WellFormed a) (hb : WellFormed b) :
    RightContains (fuel + 2) a b ↔ RightFits a b := by
  rw [RightFits]
  by_cases hbot : a = IntervalValue.bottom ∨ b = IntervalValue.bottom
  · exact iff_of_true (rightContains_bottom hbot) (hbot.imp_right .inl)
  · rw [not_or] at hbot
    replace ha := ha.resolve_left hbot.1
    replace hb := hb.resolve_left hbot.2
    rw [or_iff_right hbot.1, or_iff_right hbot.2]
    by_cases htop : a.isTop = true ∧ b.isTop = true
    · exact iff_of_true (rightContains_of_top ha hb htop) (.inl htop)
    · rw [or_iff_right htop]
      by_cases hub : b.ub < num 0
      · exact iff_of_true (rightContains_of_neg ha hb htop hub) (.inl hub)
      · rw [or_iff_right hub]
        rw [not_lt] at hub
        by_cases ha0 : a.contains 0 = true
        · exact rightContains_zero ha hb ha0 htop hub
        · have hne : a ≠ IntervalValue.ofInt 0 := by
            rintro rfl
            exact ha0 rfl
          rw [or_iff_right hne]
          rw [Bool.not_eq_true] at ha0
          obtain ⟨hfits, hnone⟩ := rightContains_nonzero (.inr ha) hb ha0 hub
          constructor
          · rintro ⟨v, hv, -⟩
            by_contra hnot
            rw [hnone hbot.1 hnot] at hv
            contradiction
          · exact fun h => hfits (.inr h)

end

end SVF.AE.IntervalShifts
