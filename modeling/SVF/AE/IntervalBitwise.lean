import SVF.AE.IntervalComparisons
import SVF.AE.IntervalRemainder
import SVF.Util.Loops

namespace SVF.AE.IntervalBitwise

open NumericValue NumericValue.BoundedInt Intervals BoundArithmetic BoundArithmetic.Interval
open IntervalDivision.Bound (getNumeral)
open IntervalComparisons IntervalRemainder Util.Loops

section

open IntervalValue

def checked32 (z : ℤ) : Option ℤ := if -2 ^ 31 ≤ z ∧ z < 2 ^ 31 then some z else none

/-- `1 << i` of 32-bit integers: the sign bit for 31, undefined outside of the width. -/
def shl32 (i : ℤ) : Option ℤ :=
  if 0 ≤ i ∧ i < 31 then some (2 ^ i.toNat) else if i = 31 then some (-2 ^ 31) else none

def next_power_of_2 (n : ℤ) : Option ℤ :=
  (whileLoop (fun i : ℕ => n >>> i ≠ 0) (fun i => some (i + 1)) 63 1).bind fun i => shl32 i

/-- An operator on the values that the source keeps. -/
def onValues (op : BitVec 64 → BitVec 64 → BitVec 64) (lhs rhs : BoundedInt) : BoundedInt :=
  .num (op (BitVec.ofInt 64 (Bound.iVal lhs)) (BitVec.ofInt 64 (Bound.iVal rhs))).toInt

def and (lhs rhs : IntervalValue) : Option IntervalValue :=
  if lhs.isBottom || rhs.isBottom then some bottom
  else if lhs.is_numeral && rhs.is_numeral then
    ofBounds (onValues (· &&& ·) lhs.lb rhs.lb) (onValues (· &&& ·) lhs.lb rhs.lb)
  else if getNumeral lhs.lb ≥ 0 ∧ getNumeral rhs.lb ≥ 0 then ofBounds (num 0) (lhs.ub.min rhs.ub)
  else if getNumeral lhs.lb ≥ 0 then ofBounds (num 0) lhs.ub
  else if getNumeral rhs.lb ≥ 0 then ofBounds (num 0) rhs.ub
  else some top

def byPowerOf2 (op : BitVec 64 → BitVec 64 → BitVec 64) (lhs rhs : IntervalValue) : Option IntervalValue :=
  if lhs.isBottom || rhs.isBottom then some bottom
  else if lhs.is_numeral && rhs.is_numeral then
    ofBounds (onValues op lhs.lb rhs.lb) (onValues op lhs.lb rhs.lb)
  else if getNumeral lhs.lb ≥ 0 ∧ !lhs.ub.is_infinity ∧ getNumeral rhs.lb ≥ 0 ∧ !rhs.ub.is_infinity then
    (next_power_of_2 (Max.max (getNumeral lhs.ub) (getNumeral rhs.ub))).bind fun p =>
      (checked32 (p - 1)).bind fun ub => ofBounds (num 0) (num ub)
  else some top

def or : IntervalValue → IntervalValue → Option IntervalValue := byPowerOf2 (· ||| ·)

def xor : IntervalValue → IntervalValue → Option IntervalValue := byPowerOf2 (· ^^^ ·)

end

/-- An operation returns an interval with the results of `op` on 64-bit numbers. -/
def ContainsBits (r : Option IntervalValue) (op : BitVec 64 → BitVec 64 → BitVec 64) (a b : IntervalValue) : Prop :=
  ∃ v, r = some v ∧ ∀ x y : BitVec 64, x.toInt ∈ a.concretize → y.toInt ∈ b.concretize →
    (op x y).toInt ∈ v.concretize

variable {a b : IntervalValue} {p q : BoundedInt} {op : BitVec 64 → BitVec 64 → BitVec 64}

section

variable {x y : BitVec 64} {i : ℕ}

theorem toInt_of_nonneg (hx : 0 ≤ x.toInt) : x.toInt = x.toNat := by
  apply BitVec.toInt_eq_toNat_of_msb
  rw [BitVec.msb_eq_toInt, decide_eq_false_iff_not]
  exact not_lt.mpr hx

theorem toInt_and_le_left (y : BitVec 64) (hx : 0 ≤ x.toInt) :
    0 ≤ (x &&& y).toInt ∧ (x &&& y).toInt ≤ x.toInt := by
  have hmsb : (x &&& y).msb = false := by
    rw [BitVec.msb_and, BitVec.msb_eq_toInt, decide_eq_false (not_lt.mpr hx), Bool.false_and]
  rw [BitVec.toInt_eq_toNat_of_msb hmsb, toInt_of_nonneg hx, BitVec.toNat_and]
  exact ⟨Int.natCast_nonneg _, Int.ofNat_le.mpr Nat.and_le_left⟩

theorem toInt_and_le_right (x : BitVec 64) (hy : 0 ≤ y.toInt) :
    0 ≤ (x &&& y).toInt ∧ (x &&& y).toInt ≤ y.toInt := by
  rw [BitVec.and_comm]
  exact toInt_and_le_left x hy

/-- An operator that needs no more bits than its operands. -/
def KeepsWidth (op : BitVec 64 → BitVec 64 → BitVec 64) : Prop :=
  ∀ (x y : BitVec 64) (i : ℕ), x.toNat < 2 ^ i → y.toNat < 2 ^ i → (op x y).toNat < 2 ^ i

theorem keepsWidth_or : KeepsWidth (· ||| ·) := by
  intro x y i hx hy
  simpa using Nat.or_lt_two_pow hx hy

theorem keepsWidth_xor : KeepsWidth (· ^^^ ·) := by
  intro x y i hx hy
  simpa using Nat.xor_lt_two_pow hx hy

theorem toInt_between (hop : KeepsWidth op) (hi : i ≤ 63) (hx : 0 ≤ x.toInt) (hxi : x.toInt < 2 ^ i)
    (hy : 0 ≤ y.toInt) (hyi : y.toInt < 2 ^ i) : 0 ≤ (op x y).toInt ∧ (op x y).toInt < 2 ^ i := by
  rw [toInt_of_nonneg hx] at hxi
  rw [toInt_of_nonneg hy] at hyi
  have hlt : (op x y).toNat < 2 ^ i := hop x y i (by exact_mod_cast hxi) (by exact_mod_cast hyi)
  have hwide : (op x y).toNat < 2 ^ 63 := hlt.trans_le (Nat.pow_le_pow_right (by omega) hi)
  rw [BitVec.toInt_eq_toNat_of_lt (by omega)]
  exact ⟨Int.natCast_nonneg _, by exact_mod_cast hlt⟩

end

section

variable {n : ℤ}

theorem shiftRight_ne_zero_iff (hn : 0 ≤ n) (i : ℕ) : n >>> i ≠ 0 ↔ 2 ^ i ≤ n := by
  have hpos : (0 : ℤ) < 2 ^ i := by positivity
  have hnonneg : 0 ≤ n / 2 ^ i := Int.ediv_nonneg hn hpos.le
  have hle : 1 ≤ n / 2 ^ i ↔ 2 ^ i ≤ n := by
    rw [Int.le_ediv_iff_mul_le hpos, one_mul]
  rw [Int.shiftRight_eq_div_pow, ← hle]
  push_cast
  omega

/-- The counter of the loop ends at the first power above `n`. -/
theorem exists_exponent (hn : 0 ≤ n) (hmax : n ≤ s64_max) :
    ∃ i : ℕ, whileLoop (fun i : ℕ => n >>> i ≠ 0) (fun i => some (i + 1)) 63 1 = some i ∧
      1 ≤ i ∧ n < 2 ^ i ∧ (i = 1 ∨ 2 ^ (i - 1) ≤ n) := by
  have hbody : ∀ i : ℕ, (1 ≤ i ∧ (i = 1 ∨ 2 ^ (i - 1) ≤ n)) → decide (n >>> i ≠ 0) = true →
      ∃ t, some (i + 1) = some t ∧ (1 ≤ t ∧ (t = 1 ∨ 2 ^ (t - 1) ≤ n)) ∧ 63 - t < 63 - i := by
    rintro i ⟨hi, -⟩ hguard
    have hle := (shiftRight_ne_zero_iff hn i).mp (of_decide_eq_true hguard)
    have hlt : i < 63 := by
      by_contra hge
      have hpow : (2 : ℤ) ^ 63 ≤ 2 ^ i := pow_le_pow_right₀ (by norm_num) (by omega)
      rw [s64_max] at hmax
      omega
    exact ⟨i + 1, rfl, ⟨by omega, .inr (by simpa using hle)⟩, by omega⟩
  have hend : ∃ i, whileLoop (fun i : ℕ => decide (n >>> i ≠ 0)) (fun i => some (i + 1)) 63 1 = some i ∧
      (1 ≤ i ∧ (i = 1 ∨ 2 ^ (i - 1) ≤ n)) ∧ decide (n >>> i ≠ 0) = false :=
    whileLoop_terminates _ hbody ⟨le_rfl, .inl rfl⟩ (by omega)
  obtain ⟨i, hrun, ⟨hi, hpow⟩, hguard⟩ := hend
  refine ⟨i, hrun, hi, ?_, hpow⟩
  by_contra hge
  exact of_decide_eq_false hguard ((shiftRight_ne_zero_iff hn i).mpr (not_lt.mp hge))

theorem next_power_of_2_small (hn : 0 ≤ n) (hsmall : n < 2 ^ 30) :
    ∃ i : ℕ, 1 ≤ i ∧ i ≤ 30 ∧ next_power_of_2 n = some (2 ^ i) ∧ n < 2 ^ i := by
  obtain ⟨i, hrun, hi, hlt, hpow⟩ := exists_exponent hn (by rw [s64_max]; omega)
  have hi30 : i ≤ 30 := by
    by_contra hgt
    rcases hpow with heq | hle
    · omega
    · have hmono : (2 : ℤ) ^ 30 ≤ 2 ^ (i - 1) := pow_le_pow_right₀ (by norm_num) (by omega)
      omega
  refine ⟨i, hi, hi30, ?_, hlt⟩
  rw [next_power_of_2, hrun, Option.bind_some, shl32, if_pos (by omega), Int.toNat_natCast]

theorem next_power_of_2_large (hbig : 2 ^ 30 ≤ n) (hmax : n ≤ s64_max) :
    (next_power_of_2 n).bind (fun p => checked32 (p - 1)) = none := by
  obtain ⟨i, hrun, hi, hlt, -⟩ := exists_exponent (by omega) hmax
  have hi31 : 31 ≤ i := by
    by_contra hlt'
    have hmono : (2 : ℤ) ^ i ≤ 2 ^ 30 := pow_le_pow_right₀ (by norm_num) (by omega)
    omega
  rw [next_power_of_2, hrun, Option.bind_some, shl32, if_neg (by omega)]
  split
  · rfl
  · rfl

end

theorem containsBits_bottom (h : a = IntervalValue.bottom ∨ b = IntervalValue.bottom) :
    ContainsBits (some IntervalValue.bottom) op a b := by
  refine ⟨_, rfl, fun x y hx hy => ?_⟩
  rcases h with rfl | rfl
  · rw [concretize_bottom] at hx
    exact hx.elim
  · rw [concretize_bottom] at hy
    exact hy.elim

theorem containsBits_top : ContainsBits (some IntervalValue.top) op a b := ⟨_, rfl, fun _ _ _ _ => mem_top _⟩

theorem containsBits_ofBounds {lo hi : BoundedInt} (hle : lo ≤ hi)
    (h : ∀ x y : BitVec 64, x.toInt ∈ a.concretize → y.toInt ∈ b.concretize →
      lo ≤ num (op x y).toInt ∧ num (op x y).toInt ≤ hi) : ContainsBits (ofBounds lo hi) op a b := by
  refine ⟨⟨lo, hi⟩, ?_, fun x y hx hy => (mem_concretize _ _).mpr (h x y hx hy)⟩
  rw [ofBounds, (leq_iff lo hi).mpr hle, Bool.or_true, if_pos rfl]

theorem containsBits_numerals (hnum : (a.is_numeral && b.is_numeral) = true) :
    ContainsBits (ofBounds (onValues op a.lb b.lb) (onValues op a.lb b.lb)) op a b := by
  rw [Bool.and_eq_true] at hnum
  apply containsBits_ofBounds le_rfl
  intro x y hx hy
  rw [lb_of_numeral hnum.1 hx, lb_of_numeral hnum.2 hy]
  have hval : onValues op (num x.toInt) (num y.toInt) = num (op x y).toInt := by
    simp [onValues, Bound.iVal]
  rw [hval]
  exact ⟨le_rfl, le_rfl⟩

theorem getNumeral_nonneg_iff (hp : p ≠ .plus_infinity) : getNumeral p ≥ 0 ↔ num 0 ≤ p := by
  cases p with
  | plus_infinity => exact absurd rfl hp
  | minus_infinity => exact iff_of_false (by decide) (not_num_le_minus_infinity 0)
  | num k => simp [getNumeral]

theorem nonneg_of_lb {x : ℤ} (hlb : num 0 ≤ a.lb) (hx : x ∈ a.concretize) : 0 ≤ x := by
  apply (num_le_num 0 x).mp
  exact hlb.trans (lb_le_of_mem hx)

theorem and_contains (ha : WellFormed a) (hb : WellFormed b) : ContainsBits (and a b) (· &&& ·) a b := by
  by_cases hbot : a = IntervalValue.bottom ∨ b = IntervalValue.bottom
  · rw [and, if_pos (by rw [Bool.or_eq_true, isBottom_iff, isBottom_iff]; exact hbot)]
    exact containsBits_bottom hbot
  · rw [not_or] at hbot
    replace ha := ha.resolve_left hbot.1
    replace hb := hb.resolve_left hbot.2
    have hla := (getNumeral_nonneg_iff ha.lb).mp
    have hlb := (getNumeral_nonneg_iff hb.lb).mp
    rw [and, ha.isBottom, hb.isBottom, Bool.or_self, if_neg Bool.false_ne_true]
    split
    · rename_i hnum
      exact containsBits_numerals hnum
    · split
      · rename_i hnonneg
        replace hnonneg := And.intro (hla hnonneg.1) (hlb hnonneg.2)
        rw [min_eq_inf]
        apply containsBits_ofBounds (le_inf (hnonneg.1.trans ha.le) (hnonneg.2.trans hb.le))
        intro x y hx hy
        obtain ⟨hlow, hleft⟩ := toInt_and_le_left y (nonneg_of_lb hnonneg.1 hx)
        obtain ⟨-, hright⟩ := toInt_and_le_right x (nonneg_of_lb hnonneg.2 hy)
        refine ⟨(num_le_num _ _).mpr hlow, le_inf ?_ ?_⟩
        · exact ((num_le_num _ _).mpr hleft).trans (le_ub_of_mem hx)
        · exact ((num_le_num _ _).mpr hright).trans (le_ub_of_mem hy)
      · split
        · rename_i hnonneg
          replace hnonneg := hla hnonneg
          apply containsBits_ofBounds (hnonneg.trans ha.le)
          intro x y hx hy
          obtain ⟨hlow, hleft⟩ := toInt_and_le_left y (nonneg_of_lb hnonneg hx)
          exact ⟨(num_le_num _ _).mpr hlow, ((num_le_num _ _).mpr hleft).trans (le_ub_of_mem hx)⟩
        · split
          · rename_i hnonneg
            replace hnonneg := hlb hnonneg
            apply containsBits_ofBounds (hnonneg.trans hb.le)
            intro x y hx hy
            obtain ⟨hlow, hright⟩ := toInt_and_le_right x (nonneg_of_lb hnonneg hy)
            exact ⟨(num_le_num _ _).mpr hlow, ((num_le_num _ _).mpr hright).trans (le_ub_of_mem hy)⟩
          · exact containsBits_top

/-- The estimate needs a power of two that 32 bits do not hold. -/
def Overflows (a b : IntervalValue) : Prop :=
  (a.is_numeral && b.is_numeral) = false ∧ num 0 ≤ a.lb ∧ num 0 ≤ b.lb ∧
    ∃ u w, a.ub = num u ∧ b.ub = num w ∧ 2 ^ 30 ≤ Max.max u w

theorem exists_num_of_finite (h : !p.is_infinity) : ∃ k, p = num k := by
  cases p with
  | minus_infinity => contradiction
  | plus_infinity => contradiction
  | num k => exact ⟨k, rfl⟩

theorem byPowerOf2_eq (ha : Proper a) (hb : Proper b) {u w : ℤ} (hnum : (a.is_numeral && b.is_numeral) = false)
    (hla : num 0 ≤ a.lb) (hlb : num 0 ≤ b.lb) (hua : a.ub = num u) (hub : b.ub = num w) :
    byPowerOf2 op a b = (next_power_of_2 (Max.max u w)).bind fun p =>
      (checked32 (p - 1)).bind fun ub => ofBounds (num 0) (num ub) := by
  rw [byPowerOf2, ha.isBottom, hb.isBottom, Bool.or_self, if_neg Bool.false_ne_true, hnum,
    if_neg Bool.false_ne_true, hua, hub]
  exact if_pos ⟨(getNumeral_nonneg_iff ha.lb).mpr hla, rfl, (getNumeral_nonneg_iff hb.lb).mpr hlb, rfl⟩

theorem byPowerOf2_spec (hop : KeepsWidth op) (ha : WellFormed a) (hb : WellFormed b) :
    (¬ Overflows a b → ContainsBits (byPowerOf2 op a b) op a b) ∧
      (Overflows a b → byPowerOf2 op a b = none) := by
  by_cases hbot : a = IntervalValue.bottom ∨ b = IntervalValue.bottom
  · constructor
    · intro _
      rw [byPowerOf2, if_pos (by rw [Bool.or_eq_true, isBottom_iff, isBottom_iff]; exact hbot)]
      exact containsBits_bottom hbot
    · rintro ⟨-, -, -, u, w, hu, hw, -⟩
      rcases hbot with rfl | rfl
      · cases hu
      · cases hw
  · rw [not_or] at hbot
    replace ha := ha.resolve_left hbot.1
    replace hb := hb.resolve_left hbot.2
    by_cases hest : (a.is_numeral && b.is_numeral) = false ∧ num 0 ≤ a.lb ∧ num 0 ≤ b.lb ∧
        ∃ u w, a.ub = num u ∧ b.ub = num w
    · obtain ⟨hnum, hla, hlb, u, w, hua, hub⟩ := hest
      rw [byPowerOf2_eq ha hb hnum hla hlb hua hub]
      have hu : 0 ≤ u := (num_le_num 0 u).mp (hua ▸ hla.trans ha.le)
      constructor
      · intro hfits
        have hsmall : Max.max u w < 2 ^ 30 := by
          by_contra hge
          exact hfits ⟨hnum, hla, hlb, u, w, hua, hub, not_lt.mp hge⟩
        obtain ⟨i, hi, hi30, hpower, hlt⟩ := next_power_of_2_small (hu.trans (le_max_left u w)) hsmall
        have hone : (1 : ℤ) ≤ 2 ^ i := one_le_pow₀ (by norm_num)
        have hmono : (2 : ℤ) ^ i ≤ 2 ^ 30 := pow_le_pow_right₀ (by norm_num) hi30
        rw [hpower, Option.bind_some, checked32, if_pos (by omega), Option.bind_some]
        apply containsBits_ofBounds ((num_le_num _ _).mpr (by omega))
        intro x y hx hy
        have hxu := le_ub_of_mem hx
        have hyw := le_ub_of_mem hy
        rw [hua, num_le_num] at hxu
        rw [hub, num_le_num] at hyw
        obtain ⟨hlow, hhigh⟩ := toInt_between hop (show i ≤ 63 by omega) (nonneg_of_lb hla hx)
          ((hxu.trans (le_max_left u w)).trans_lt hlt) (nonneg_of_lb hlb hy)
          ((hyw.trans (le_max_right u w)).trans_lt hlt)
        exact ⟨(num_le_num _ _).mpr hlow, (num_le_num _ _).mpr (by omega)⟩
      · rintro ⟨-, -, -, u', w', hua', hub', hbig⟩
        cases hua.symm.trans hua'
        cases hub.symm.trans hub'
        have hmax : Max.max u w ≤ s64_max := max_le (ha.ubRange u hua).2 (hb.ubRange w hub).2
        have hnone := next_power_of_2_large hbig hmax
        rw [← Option.bind_assoc, hnone]
        rfl
    · constructor
      · intro _
        rw [byPowerOf2, ha.isBottom, hb.isBottom, Bool.or_self, if_neg Bool.false_ne_true]
        split
        · rename_i hnum
          exact containsBits_numerals hnum
        · rename_i hnum
          rw [if_neg]
          · exact containsBits_top
          · rintro ⟨hla, hua, hlb, hub⟩
            obtain ⟨u, hu⟩ := exists_num_of_finite hua
            obtain ⟨w, hw⟩ := exists_num_of_finite hub
            exact hest ⟨Bool.not_eq_true _ |>.mp hnum, (getNumeral_nonneg_iff ha.lb).mp hla,
              (getNumeral_nonneg_iff hb.lb).mp hlb, u, w, hu, hw⟩
      · rintro ⟨hnum, hla, hlb, u, w, hu, hw, -⟩
        exact absurd ⟨hnum, hla, hlb, u, w, hu, hw⟩ hest

def Correct (a b : IntervalValue) : Prop :=
  ContainsBits (and a b) (· &&& ·) a b ∧ ContainsBits (or a b) (· ||| ·) a b ∧
    ContainsBits (xor a b) (· ^^^ ·) a b

theorem bitwise_correct_iff (ha : WellFormed a) (hb : WellFormed b) : Correct a b ↔ ¬ Overflows a b := by
  constructor
  · rintro ⟨-, ⟨v, hv, -⟩, -⟩ hover
    rw [or, (byPowerOf2_spec keepsWidth_or ha hb).2 hover] at hv
    contradiction
  · intro hfits
    refine ⟨and_contains ha hb, ?_, ?_⟩
    · exact (byPowerOf2_spec keepsWidth_or ha hb).1 hfits
    · exact (byPowerOf2_spec keepsWidth_xor ha hb).1 hfits

theorem wellFormed_num {l u : ℤ} (hle : l ≤ u) (hl : s64_min ≤ l) (hu : u ≤ s64_max) :
    WellFormed ⟨num l, num u⟩ := by
  right
  refine ⟨(num_le_num l u).mpr hle, ?_, ?_, ?_, ?_⟩
  · simp
  · simp
  · exact IntervalArithmetic.inRange_num hl (hle.trans hu)
  · exact IntervalArithmetic.inRange_num (hl.trans hle) hu

theorem bitwise_correct_iff_bytes : Correct ⟨num 0, num 255⟩ ⟨num 16, num 31⟩ ↔
    ¬ Overflows ⟨num 0, num 255⟩ ⟨num 16, num 31⟩ := by
  apply bitwise_correct_iff
  · exact wellFormed_num (by norm_num) (by norm_num [s64_min]) (by norm_num [s64_max])
  · exact wellFormed_num (by norm_num) (by norm_num [s64_min]) (by norm_num [s64_max])

/-- The estimate for the upper bound `2 ^ 31` shifts 1 by 32. -/
theorem bitwise_undefined : (WellFormed ⟨num 0, num (2 ^ 31)⟩ ∧ WellFormed ⟨num 0, num 0⟩) ∧
    or ⟨num 0, num (2 ^ 31)⟩ ⟨num 0, num 0⟩ = none ∧ xor ⟨num 0, num (2 ^ 31)⟩ ⟨num 0, num 0⟩ = none ∧
    ¬ Correct ⟨num 0, num (2 ^ 31)⟩ ⟨num 0, num 0⟩ := by
  have hwell : WellFormed ⟨num 0, num (2 ^ 31)⟩ := wellFormed_num (by norm_num) (by norm_num [s64_min])
    (by norm_num [s64_max])
  have hwell' : WellFormed ⟨num 0, num 0⟩ := wellFormed_num le_rfl (by norm_num [s64_min]) (by norm_num [s64_max])
  have hover : Overflows ⟨num 0, num (2 ^ 31)⟩ ⟨num 0, num 0⟩ := by
    refine ⟨?_, le_rfl, le_rfl, 2 ^ 31, 0, rfl, rfl, by norm_num⟩
    simp [IntervalValue.is_numeral, equal]
  have hor := (byPowerOf2_spec keepsWidth_or hwell hwell').2 hover
  refine ⟨⟨hwell, hwell'⟩, hor, (byPowerOf2_spec keepsWidth_xor hwell hwell').2 hover, ?_⟩
  rintro ⟨-, ⟨v, hv, -⟩, -⟩
  rw [or, hor] at hv
  contradiction

end SVF.AE.IntervalBitwise
