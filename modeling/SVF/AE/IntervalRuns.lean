import SVF.AE.IntervalShifts

namespace SVF.AE.IntervalRuns

open NumericValue NumericValue.BoundedInt Intervals BoundArithmetic BoundArithmetic.Interval
open IntervalComparisons (Comparison)

section

open IntervalValue

/-- The assertion is about the bounds that are replaced. -/
def setValue (v : IntervalValue) (lb ub : BoundedInt) : Option IntervalValue :=
  if v.isBottom || v.lb.leq v.ub then some ⟨lb, ub⟩ else none

def join_with (v other : IntervalValue) : Option IntervalValue :=
  if v.isBottom then if other.isBottom then some v else setValue v other.lb other.ub
  else if other.isBottom then some v
  else setValue v (v.lb.min other.lb) (v.ub.max other.ub)

def widen_with (v other : IntervalValue) : Option IntervalValue :=
  if v.isBottom then some ⟨other.lb, other.ub⟩
  else if other.isBottom then some v
  else setValue v (if !v.lb.leq other.lb then minus_infinity else v.lb)
    (if !v.ub.geq other.ub then plus_infinity else v.ub)

def narrow_with (v other : IntervalValue) : Option IntervalValue :=
  if v.isBottom || other.isBottom then some bottom
  else setValue v (if v.lb.is_infinity then other.lb else v.lb) (if v.ub.is_infinity then other.ub else v.ub)

def meet_with (v other : IntervalValue) : Option IntervalValue :=
  if v.isBottom || other.isBottom then some bottom
  else if !(v.lb.max other.lb).leq (v.ub.min other.ub) then some bottom
  else setValue v (v.lb.max other.lb) (v.ub.min other.ub)

inductive Arith
  | add
  | sub
  | mul
  | div
  | mod
  | shl
  | shr
  | and
  | or
  | xor
  | compare (op : Comparison)

/-- The fuel is for the operators that call themselves. -/
def Arith.apply (fuel : ℕ) : Arith → IntervalValue → IntervalValue → Option IntervalValue
  | .add => Interval.add
  | .sub => Interval.sub
  | .mul => Interval.mul
  | .div => IntervalDivision.Interval.div fuel
  | .mod => IntervalDivision.Interval.mod
  | .shl => IntervalShifts.shiftLeft
  | .shr => IntervalShifts.shiftRight fuel
  | .and => IntervalBitwise.and
  | .or => IntervalBitwise.or
  | .xor => IntervalBitwise.xor
  | .compare op => fun lhs rhs => some (op.apply lhs rhs)

inductive Operation (K : Type*)
  | construct (k : K) (lb ub : BoundedInt)
  | assign (k other : K)
  | set_to_bottom (k : K)
  | set_to_top (k : K)
  | join_with (k other : K)
  | meet_with (k other : K)
  | widen_with (k other : K)
  | narrow_with (k other : K)
  | arith (op : Arith) (k lhs rhs : K)

variable {K : Type*} [DecidableEq K]

def step (fuel : ℕ) (s : K → IntervalValue) : Operation K → Option (K → IntervalValue)
  | .construct k lb ub => (ofBounds lb ub).map (Function.update s k)
  | .assign k other => some (Function.update s k (s other))
  | .set_to_bottom k => some (Function.update s k bottom)
  | .set_to_top k => some (Function.update s k top)
  | .join_with k other => (IntervalRuns.join_with (s k) (s other)).map (Function.update s k)
  | .meet_with k other => (IntervalRuns.meet_with (s k) (s other)).map (Function.update s k)
  | .widen_with k other => (IntervalRuns.widen_with (s k) (s other)).map (Function.update s k)
  | .narrow_with k other => (IntervalRuns.narrow_with (s k) (s other)).map (Function.update s k)
  | .arith op k lhs rhs => (op.apply fuel (s lhs) (s rhs)).map (Function.update s k)

end

def Inv (v : IntervalValue) : Prop := v = IntervalValue.bottom ∨ v.lb ≤ v.ub

/-- The finite bound that narrowing keeps is not past the other bound of the second interval. -/
def Narrowable (v other : IntervalValue) : Prop :=
  v = IntervalValue.bottom ∨ other = IntervalValue.bottom ∨
    ((v.lb.is_infinity = true → v.ub.is_infinity = false → other.lb ≤ v.ub) ∧
      (v.lb.is_infinity = false → v.ub.is_infinity = true → v.lb ≤ other.ub))

variable {v other : IntervalValue} {fuel : ℕ}

def Keeps (o : Option IntervalValue) : Prop := ∀ v, o = some v → Inv v

theorem inv_bottom : Inv IntervalValue.bottom := .inl rfl

theorem inv_top : Inv IntervalValue.top := .inr (minus_infinity_le _)

@[simp] theorem keeps_none : Keeps none := by
  intro v hv
  contradiction

@[simp] theorem keeps_some : Keeps (some v) ↔ Inv v := by
  constructor
  · intro h
    exact h v rfl
  · intro h w hw
    rwa [← Option.some.inj hw]

theorem keeps_bind {α : Type*} {o : Option α} {f : α → Option IntervalValue} (h : ∀ x, Keeps (f x)) :
    Keeps (o.bind f) := by
  cases o with
  | none => exact keeps_none
  | some x => exact h x

theorem keeps_ite {P : Prop} [Decidable P] {o o' : Option IntervalValue} (h : Keeps o) (h' : Keeps o') :
    Keeps (if P then o else o') := by
  split
  · exact h
  · exact h'

theorem keeps_ofBounds (lb ub : BoundedInt) : Keeps (ofBounds lb ub) := by
  rw [ofBounds]
  split
  · rename_i h
    rw [Bool.or_eq_true, isBottom_iff, leq_iff] at h
    exact keeps_some.mpr h
  · exact keeps_none

theorem keeps_ofCorners (vec : List BoundedInt) : Keeps (ofCorners vec) := keeps_ofBounds _ _

theorem setValue_of_inv (hv : Inv v) (lb ub : BoundedInt) : setValue v lb ub = some ⟨lb, ub⟩ := by
  rw [setValue, if_pos]
  rwa [Bool.or_eq_true, isBottom_iff, leq_iff]

theorem le_of_inv (hv : Inv v) (hbot : ¬ v.isBottom = true) : v.lb ≤ v.ub :=
  hv.resolve_left fun h => hbot ((isBottom_iff v).mpr h)

theorem join_eq_some (hv : Inv v) : join_with v other = some (v.join_with other) := by
  rw [join_with, IntervalValue.join_with]
  split
  · split
    · rfl
    · exact setValue_of_inv hv _ _
  · split
    · rfl
    · exact setValue_of_inv hv _ _

theorem inv_join (hv : Inv v) (ho : Inv other) : Inv (v.join_with other) := by
  rw [IntervalValue.join_with]
  split
  · split
    · exact hv
    · exact ho
  · rename_i hbot
    split
    · exact hv
    · right
      dsimp only
      rw [min_eq_inf, max_eq_sup]
      exact (inf_le_left.trans (le_of_inv hv hbot)).trans le_sup_left

theorem keeps_join (hv : Inv v) (ho : Inv other) : Keeps (join_with v other) := by
  rw [join_eq_some hv, keeps_some]
  exact inv_join hv ho

theorem keeps_meet (hv : Inv v) : Keeps (meet_with v other) := by
  rw [meet_with]
  split
  · exact keeps_some.mpr inv_bottom
  · split
    · exact keeps_some.mpr inv_bottom
    · rename_i hle
      rw [setValue_of_inv hv, keeps_some]
      right
      exact (leq_iff _ _).mp (by simpa using hle)

theorem keeps_widen (hv : Inv v) (ho : Inv other) : Keeps (widen_with v other) := by
  rw [widen_with]
  split
  · exact keeps_some.mpr ho
  · rename_i hbot
    split
    · exact keeps_some.mpr hv
    · rw [setValue_of_inv hv, keeps_some]
      right
      exact ((widenedLb_le _ _).1.trans (le_of_inv hv hbot)).trans (le_widenedUb _ _).1

theorem inv_iff_of_finite {lb ub : BoundedInt} (h : lb.is_infinity = false ∨ ub.is_infinity = false) :
    Inv ⟨lb, ub⟩ ↔ lb ≤ ub := by
  apply or_iff_right
  intro heq
  rw [IntervalValue.bottom, IntervalValue.mk.injEq] at heq
  rcases h with h | h
  · rw [heq.1] at h
    contradiction
  · rw [heq.2] at h
    contradiction

theorem keeps_narrow_iff (hv : Inv v) (ho : Inv other) : Keeps (narrow_with v other) ↔ Narrowable v other := by
  rw [narrow_with, Narrowable, ← isBottom_iff, ← isBottom_iff]
  by_cases hbot : v.isBottom = true
  · simp [hbot, inv_bottom]
  · by_cases hbot' : other.isBottom = true
    · simp [hbot', inv_bottom]
    · rw [or_iff_right hbot, or_iff_right hbot', if_neg (by simp [hbot, hbot']), setValue_of_inv hv, keeps_some]
      have hle := le_of_inv hv hbot
      cases hlb : v.lb.is_infinity with
      | true =>
          cases hub : v.ub.is_infinity with
          | true => simpa using ho
          | false => simp [inv_iff_of_finite (.inr hub)]
      | false =>
          cases hub : v.ub.is_infinity with
          | true => simp [inv_iff_of_finite (.inl hlb)]
          | false => simpa using hv

theorem keeps_join_results {o o' : Option IntervalValue} (h : Keeps o) (h' : Keeps o') :
    Keeps (o.bind fun v => o'.bind fun w => IntervalDivision.Interval.join v w) := by
  intro u hu
  obtain ⟨v, hv, hu⟩ := Option.bind_eq_some_iff.mp hu
  obtain ⟨w, hw, hu⟩ := Option.bind_eq_some_iff.mp hu
  rw [IntervalDivision.Interval.join] at hu
  split at hu
  · rw [← Option.some.inj hu]
    exact inv_join (h v hv) (h' w hw)
  · contradiction

theorem keeps_join_three {o o' : Option IntervalValue} (h : Keeps o) (h' : Keeps o') :
    Keeps (o.bind fun v => o'.bind fun w => (IntervalDivision.Interval.join v w).bind fun u =>
      IntervalDivision.Interval.join u (IntervalValue.ofInt 0)) := by
  have hzero : Keeps (some (IntervalValue.ofInt 0)) := keeps_some.mpr (.inr le_rfl)
  have hjoin := keeps_join_results (keeps_join_results h h') hzero
  simp only [Option.bind_assoc, Option.bind_some] at hjoin
  exact hjoin

theorem keeps_div (fuel : ℕ) (lhs rhs : IntervalValue) : Keeps (IntervalDivision.Interval.div fuel lhs rhs) := by
  induction fuel generalizing lhs rhs with
  | zero => exact keeps_none
  | succ fuel ih =>
      rw [IntervalDivision.Interval.div]
      apply keeps_ite (keeps_some.mpr inv_bottom)
      apply keeps_ite
      · apply keeps_bind
        intro lb
        apply keeps_bind
        intro ub
        exact keeps_join_results (ih lhs lb) (ih lhs ub)
      · apply keeps_ite
        · apply keeps_bind
          intro lb
          apply keeps_bind
          intro ub
          exact keeps_join_three (ih lb rhs) (ih ub rhs)
        · repeat
            apply keeps_bind
            intro _
          exact keeps_ofCorners _

theorem keeps_shiftRight (fuel : ℕ) (lhs rhs : IntervalValue) : Keeps (IntervalShifts.shiftRight fuel lhs rhs) := by
  induction fuel generalizing lhs with
  | zero => exact keeps_none
  | succ fuel ih =>
      rw [IntervalShifts.shiftRight]
      apply keeps_ite (keeps_some.mpr inv_bottom)
      apply keeps_ite (keeps_some.mpr inv_top)
      apply keeps_ite (keeps_some.mpr inv_bottom)
      apply keeps_ite
      · apply keeps_bind
        intro l
        apply keeps_bind
        intro u
        exact keeps_join_three (ih l) (ih u)
      · repeat
          apply keeps_bind
          intro _
        exact keeps_ofCorners _

theorem keeps_mul (lhs rhs : IntervalValue) : Keeps (Interval.mul lhs rhs) := by
  rw [Interval.mul]
  apply keeps_ite (keeps_some.mpr inv_bottom)
  repeat
    apply keeps_bind
    intro _
  exact keeps_ofCorners _

theorem keeps_shiftLeft (lhs rhs : IntervalValue) : Keeps (IntervalShifts.shiftLeft lhs rhs) := by
  rw [IntervalShifts.shiftLeft]
  apply keeps_ite (keeps_some.mpr inv_bottom)
  apply keeps_ite (keeps_some.mpr inv_top)
  apply keeps_ite (keeps_some.mpr inv_bottom)
  apply keeps_bind
  intro lb
  apply keeps_bind
  intro ub
  apply keeps_bind
  intro coeff
  exact keeps_mul lhs coeff

theorem keeps_mod (lhs rhs : IntervalValue) : Keeps (IntervalDivision.Interval.mod lhs rhs) := by
  rw [IntervalDivision.Interval.mod]
  apply keeps_ite (keeps_some.mpr inv_bottom)
  apply keeps_ite
  · exact keeps_ite (keeps_ofBounds _ _) (keeps_some.mpr inv_top)
  · apply keeps_ite
    · apply keeps_bind
      intro lb
      apply keeps_bind
      intro ub
      exact keeps_ofBounds _ _
    · apply keeps_bind
      intro n_lb
      apply keeps_bind
      intro n_ub
      apply keeps_bind
      intro d_lb
      apply keeps_bind
      intro d_ub
      apply keeps_ite
      · apply keeps_ite
        · apply keeps_bind
          intro lb
          exact keeps_ofBounds _ _
        · apply keeps_bind
          intro lb
          exact keeps_ofBounds _ _
      · exact keeps_ofBounds _ _

theorem keeps_byPowerOf2 (op : BitVec 64 → BitVec 64 → BitVec 64) (lhs rhs : IntervalValue) :
    Keeps (IntervalBitwise.byPowerOf2 op lhs rhs) := by
  rw [IntervalBitwise.byPowerOf2]
  apply keeps_ite (keeps_some.mpr inv_bottom)
  apply keeps_ite (keeps_ofBounds _ _)
  apply keeps_ite
  · apply keeps_bind
    intro p
    apply keeps_bind
    intro ub
    exact keeps_ofBounds _ _
  · exact keeps_some.mpr inv_top

theorem inv_compare (numerals : BoundedInt → BoundedInt → Bool) (always never : IntervalValue → IntervalValue → Bool)
    (lhs rhs : IntervalValue) : Inv (IntervalComparisons.compare numerals always never lhs rhs) := by
  have hnum : ∀ n, Inv (IntervalValue.ofInt n) := fun n => .inr le_rfl
  rw [IntervalComparisons.compare]
  split
  · exact inv_bottom
  · split
    · exact inv_top
    · split
      · split
        · exact hnum 1
        · exact hnum 0
      · split
        · exact hnum 1
        · split
          · exact hnum 0
          · right
            exact (num_le_num 0 1).mpr (by norm_num)

theorem inv_comparison (op : Comparison) (lhs rhs : IntervalValue) : Inv (op.apply lhs rhs) := by
  cases op with
  | eq => rw [Comparison.apply, IntervalComparisons.eq]; exact inv_compare _ _ _ lhs rhs
  | ne => rw [Comparison.apply, IntervalComparisons.ne]; exact inv_compare _ _ _ lhs rhs
  | gt => rw [Comparison.apply, IntervalComparisons.gt]; exact inv_compare _ _ _ lhs rhs
  | lt => rw [Comparison.apply, IntervalComparisons.lt]; exact inv_compare _ _ _ lhs rhs
  | ge => rw [Comparison.apply, IntervalComparisons.ge]; exact inv_compare _ _ _ lhs rhs
  | le => rw [Comparison.apply, IntervalComparisons.le]; exact inv_compare _ _ _ lhs rhs

theorem keeps_arith (fuel : ℕ) (op : Arith) (lhs rhs : IntervalValue) : Keeps (op.apply fuel lhs rhs) := by
  cases op with
  | add =>
      rw [Arith.apply, Interval.add]
      apply keeps_ite (keeps_some.mpr inv_bottom)
      apply keeps_ite (keeps_some.mpr inv_top)
      apply keeps_bind
      intro lb
      apply keeps_bind
      intro ub
      exact keeps_ofBounds _ _
  | sub =>
      rw [Arith.apply, Interval.sub]
      apply keeps_ite (keeps_some.mpr inv_bottom)
      apply keeps_ite (keeps_some.mpr inv_top)
      apply keeps_bind
      intro lb
      apply keeps_bind
      intro ub
      exact keeps_ofBounds _ _
  | mul => exact keeps_mul lhs rhs
  | div => exact keeps_div fuel lhs rhs
  | mod => exact keeps_mod lhs rhs
  | shl => exact keeps_shiftLeft lhs rhs
  | shr => exact keeps_shiftRight fuel lhs rhs
  | and =>
      rw [Arith.apply, IntervalBitwise.and]
      apply keeps_ite (keeps_some.mpr inv_bottom)
      apply keeps_ite (keeps_ofBounds _ _)
      apply keeps_ite (keeps_ofBounds _ _)
      apply keeps_ite (keeps_ofBounds _ _)
      apply keeps_ite (keeps_ofBounds _ _)
      exact keeps_some.mpr inv_top
  | or | xor => exact keeps_byPowerOf2 _ lhs rhs
  | compare op => exact keeps_some.mpr (inv_comparison op lhs rhs)

section

variable {K : Type*} [DecidableEq K] {s t : K → IntervalValue} {op : Operation K}

def Admissible (s : K → IntervalValue) : Operation K → Prop
  | .narrow_with k other => Narrowable (s k) (s other)
  | .construct _ _ _ | .assign _ _ | .set_to_bottom _ | .set_to_top _ | .join_with _ _ | .meet_with _ _
  | .widen_with _ _ | .arith _ _ _ _ => True

theorem inv_update (hs : ∀ k, Inv (s k)) (k : K) (hv : Inv v) (j : K) : Inv (Function.update s k v j) := by
  by_cases hj : j = k
  · subst hj
    rwa [Function.update_self]
  · rw [Function.update_of_ne hj]
    exact hs j

theorem inv_of_keeps (hs : ∀ k, Inv (s k)) (k : K) {o : Option IntervalValue} (ho : Keeps o)
    (h : o.map (Function.update s k) = some t) : ∀ j, Inv (t j) := by
  obtain ⟨v, hv, rfl⟩ := Option.map_eq_some_iff.mp h
  exact inv_update hs k (ho v hv)

theorem step_inv (hs : ∀ k, Inv (s k)) (hop : Admissible s op) (h : step fuel s op = some t) : ∀ k, Inv (t k) := by
  cases op with
  | construct k lb ub => exact inv_of_keeps hs k (keeps_ofBounds lb ub) h
  | assign k other =>
      rw [← Option.some.inj h]
      exact inv_update hs k (hs other)
  | set_to_bottom k =>
      rw [← Option.some.inj h]
      exact inv_update hs k inv_bottom
  | set_to_top k =>
      rw [← Option.some.inj h]
      exact inv_update hs k inv_top
  | join_with k other => exact inv_of_keeps hs k (keeps_join (hs k) (hs other)) h
  | meet_with k other => exact inv_of_keeps hs k (keeps_meet (hs k)) h
  | widen_with k other => exact inv_of_keeps hs k (keeps_widen (hs k) (hs other)) h
  | narrow_with k other => exact inv_of_keeps hs k ((keeps_narrow_iff (hs k) (hs other)).mpr hop) h
  | arith op k lhs rhs => exact inv_of_keeps hs k (keeps_arith fuel op _ _) h

inductive Reaches (fuel : ℕ) (s : K → IntervalValue) : (K → IntervalValue) → Prop
  | start : Reaches fuel s s
  | step {t u : K → IntervalValue} {op : Operation K} (run : Reaches fuel s t) (admissible : Admissible t op)
      (next : step fuel t op = some u) : Reaches fuel s u

theorem runs_keep_inv (hs : ∀ k, Inv (s k)) (h : Reaches fuel s t) : ∀ k, Inv (t k) := by
  induction h with
  | start => exact hs
  | step run admissible next ih => exact step_inv ih admissible next

def pair (v w : IntervalValue) : Bool → IntervalValue := fun k => if k then v else w

/-- A narrowing step with an interval that is within the first. -/
theorem runs_keep_inv_nested : ((∀ k, Inv (pair ⟨minus_infinity, num 5⟩ ⟨num 0, num 3⟩ k)) ∧
      Reaches 0 (pair ⟨minus_infinity, num 5⟩ ⟨num 0, num 3⟩)
        (Function.update (pair ⟨minus_infinity, num 5⟩ ⟨num 0, num 3⟩) true ⟨num 0, num 5⟩)) ∧
    ∀ k, Inv (Function.update (pair ⟨minus_infinity, num 5⟩ ⟨num 0, num 3⟩) true ⟨num 0, num 5⟩ k) := by
  have hinv : ∀ k, Inv (pair ⟨minus_infinity, num 5⟩ ⟨num 0, num 3⟩ k) := by
    intro k
    cases k with
    | false => exact .inr ((num_le_num 0 3).mpr (by norm_num))
    | true => exact .inr (minus_infinity_le _)
  have hnarrow : Narrowable ⟨minus_infinity, num 5⟩ ⟨num 0, num 3⟩ := by
    refine .inr (.inr ⟨fun _ _ => (num_le_num 0 5).mpr (by norm_num), fun h => ?_⟩)
    contradiction
  have hrun : Reaches 0 (pair ⟨minus_infinity, num 5⟩ ⟨num 0, num 3⟩)
      (Function.update (pair ⟨minus_infinity, num 5⟩ ⟨num 0, num 3⟩) true ⟨num 0, num 5⟩) :=
    @Reaches.step Bool _ 0 _ _ _ (.narrow_with true false) .start hnarrow rfl
  exact ⟨⟨hinv, hrun⟩, runs_keep_inv hinv hrun⟩

/-- `[-oo, 5]` narrowed by `[10, 20]`. -/
theorem run_crosses_bounds : ∃ t : Bool → IntervalValue,
    [.construct true minus_infinity (num 5), .construct false (num 10) (num 20), .narrow_with true false].foldlM
      (step 0) (pair IntervalValue.bottom IntervalValue.bottom) = some t ∧
    t true = ⟨num 10, num 5⟩ ∧ ¬ Inv (t true) := by
  refine ⟨_, rfl, rfl, ?_⟩
  rintro (heq | hle)
  · cases heq
  · exact absurd ((num_le_num 10 5).mp hle) (by norm_num)

end

end SVF.AE.IntervalRuns
