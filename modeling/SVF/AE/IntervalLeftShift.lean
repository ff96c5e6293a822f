import SVF.AE.IntervalShifts

namespace SVF.AE.IntervalLeftShift

open NumericValue NumericValue.BoundedInt Intervals BoundArithmetic BoundArithmetic.Interval
open ExactBounds IntervalArithmetic IntervalProducts IntervalComparisons IntervalLattice IntervalShifts
open IntervalBitwise (shl32)
open IntervalDivision.Bound (getNumeral)

variable {a b c v : IntervalValue} {p q : BoundedInt} {x : ℤ} {l u : ℕ}

theorem s32_of_lt (h : l % 2 ^ 32 < 2 ^ 31) : s32 l = (l % 2 ^ 32 : ℕ) := by
  rw [s32, Int.bmod_def]
  push_cast
  rw [if_pos (by omega)]

theorem s32_of_ge (h : 2 ^ 31 ≤ l % 2 ^ 32) : s32 l < 0 := by
  rw [s32, Int.bmod_def]
  push_cast
  rw [if_neg (by omega)]
  omega

theorem shl32_of_le {i : ℕ} (h : i ≤ 30) : shl32 i = some (2 ^ i) := by
  rw [shl32, if_pos (by omega), Int.toNat_natCast]

theorem shl32_undefined {i : ℤ} (h : i < 0 ∨ 32 ≤ i) : shl32 i = none := by
  rw [shl32, if_neg (by omega), if_neg (by omega)]

theorem coeffLb_num (l : ℕ) :
    coeffLb (num l) = if s32 l ≥ 32 then some minus_infinity else (shl32 (s32 l)).map num := by
  simp [coeffLb, getNumeral, is_infinity, is_plus_infinity, is_minus_infinity]

theorem coeffLb_small (h : l % 2 ^ 32 ≤ 30) : coeffLb (num l) = some (num (2 ^ (l % 2 ^ 32))) := by
  rw [coeffLb_num, s32_of_lt (by omega), if_neg (by omega), shl32_of_le h, Option.map_some]

theorem coeffLb_31 (h : l % 2 ^ 32 = 31) : coeffLb (num l) = some (num (-2 ^ 31)) := by
  rw [coeffLb_num, s32_of_lt (by omega), if_neg (by omega), h]
  rfl

theorem coeffLb_large (h : 32 ≤ l % 2 ^ 32) (h' : l % 2 ^ 32 < 2 ^ 31) : coeffLb (num l) = some minus_infinity := by
  rw [coeffLb_num, s32_of_lt h', if_pos (by omega)]

theorem coeffLb_undefined (h : 2 ^ 31 ≤ l % 2 ^ 32) : coeffLb (num l) = none := by
  have hneg := s32_of_ge h
  rw [coeffLb_num, if_neg (by omega), shl32_undefined (.inl hneg)]
  rfl

theorem coeffUb_num (u : ℕ) : coeffUb (num u) = (shl32 (s32 u)).map num := rfl

theorem coeffUb_small (h : u % 2 ^ 32 ≤ 30) : coeffUb (num u) = some (num (2 ^ (u % 2 ^ 32))) := by
  rw [coeffUb_num, s32_of_lt (by omega), shl32_of_le h, Option.map_some]

theorem coeffUb_31 (h : u % 2 ^ 32 = 31) : coeffUb (num u) = some (num (-2 ^ 31)) := by
  rw [coeffUb_num, s32_of_lt (by omega), h]
  rfl

theorem coeffUb_undefined (h : 32 ≤ u % 2 ^ 32) : coeffUb (num u) = none := by
  by_cases hlt : u % 2 ^ 32 < 2 ^ 31
  · rw [coeffUb_num, s32_of_lt hlt, shl32_undefined (by omega)]
    rfl
  · rw [coeffUb_num, shl32_undefined (.inl (s32_of_ge (by omega)))]
    rfl

theorem shiftLeft_eq (ha : Proper a) (hb : Proper b) (htop : ¬ (a.isTop = true ∧ b.isTop = true))
    (hub : num 0 ≤ b.ub) : shiftLeft a b = (coeffLb (num (least b))).bind fun lb => (coeffUb b.ub).bind fun ub =>
      (ofBounds lb ub).bind (mul a) := by
  have hbot : (⟨num (least b), b.ub⟩ : IntervalValue).isBottom = false := rfl
  rw [← Bool.and_eq_true] at htop
  rw [shiftLeft, ha.isBottom, hb.isBottom, Bool.or_self, if_neg Bool.false_ne_true, if_neg htop,
    shiftOf_of_nonneg hb hub, hbot, if_neg Bool.false_ne_true]
  rfl

/-- Some members, shifted by the least amount, are within the 64-bit numbers on either side. -/
def FitsBy (l : ℕ) (a : IntervalValue) : Prop :=
  (∃ x ∈ a.concretize, x * 2 ^ l ≤ s64_max) ∧ ∃ x ∈ a.concretize, -s64_max ≤ x * 2 ^ l

theorem not_undefined {q : BoundedInt} (hq : q ≠ .minus_infinity) (hq' : q ≠ num s64_min) (p : BoundedInt) :
    ¬ Undefined p q := by
  rintro (⟨-, rfl⟩ | ⟨-, rfl⟩)
  · exact hq' rfl
  · exact hq rfl

theorem mem_of_isEnd (hc : Proper c) {k : ℤ} (h : IsEnd c (num k)) : k ∈ c.concretize := by
  rw [mem_concretize]
  rcases h with heq | heq
  · exact ⟨heq.ge, heq ▸ hc.le⟩
  · exact ⟨heq ▸ hc.le, heq.le⟩

theorem mulFits_power (hc : Proper c) (hlb : c.lb = num (2 ^ l)) : MulFits a c ↔ FitsBy l a := by
  have hpow : (0 : ℤ) < 2 ^ l := by positivity
  have hmem : (2 : ℤ) ^ l ∈ c.concretize := mem_of_isEnd hc (.inl hlb.symm)
  have hge : ∀ y ∈ c.concretize, 2 ^ l ≤ y := by
    intro y hy
    have hle := lb_le_of_mem hy
    rwa [hlb, num_le_num] at hle
  have hmax : 0 < s64_max := by norm_num [s64_max]
  constructor
  · rintro ⟨-, ⟨x, hx, y, hy, hle⟩, x', hx', y', hy', hle'⟩
    have hy2 := hge y hy
    have hy2' := hge y' hy'
    dsimp only at hle hle'
    refine ⟨⟨x, hx, ?_⟩, x', hx', ?_⟩
    · rcases lt_or_ge x 0 with hneg | hpos
      · have hneg' := mul_neg_of_neg_of_pos hneg hpow
        omega
      · exact (mul_le_mul_of_nonneg_left hy2 hpos).trans hle
    · rcases lt_or_ge x' 0 with hneg | hpos
      · exact hle'.trans (mul_le_mul_of_nonpos_left hy2' hneg.le)
      · have hpos' := mul_nonneg hpos hpow.le
        omega
  · rintro ⟨⟨x, hx, hle⟩, x', hx', hle'⟩
    refine ⟨fun p q _ hq => ?_, ⟨x, hx, _, hmem, hle⟩, x', hx', _, hmem, hle'⟩
    have hqle : num 0 ≤ q := by
      have hnum : num 0 ≤ num (2 ^ l) := (num_le_num _ _).mpr hpow.le
      rcases hq with rfl | rfl
      · exact hlb ▸ hnum
      · exact hnum.trans (hlb ▸ hc.le)
    apply not_undefined
    · rintro rfl
      exact not_num_le_minus_infinity 0 hqle
    · rintro rfl
      rw [num_le_num] at hqle
      exact absurd hqle (by norm_num [s64_min])

theorem someLow_of_zero_mem (ha : Proper a) (hc : (0 : ℤ) ∈ c.concretize) :
    SomeLow (· * ·) a c ∧ SomeHigh (· * ·) a c := by
  obtain ⟨x, hx⟩ := ha.nonempty
  constructor
  · refine ⟨x, hx, 0, hc, ?_⟩
    norm_num [s64_max]
  · refine ⟨x, hx, 0, hc, ?_⟩
    norm_num [s64_max]

theorem mulFits_signed (ha : Proper a) : MulFits a ⟨num (-2 ^ 31), plus_infinity⟩ := by
  have hzero : (0 : ℤ) ∈ (⟨num (-2 ^ 31), plus_infinity⟩ : IntervalValue).concretize := by
    simp [mem_concretize]
  refine ⟨fun p q _ hq => ?_, someLow_of_zero_mem ha hzero⟩
  apply not_undefined
  · rcases hq with rfl | rfl
    · simp
    · simp
  · rcases hq with rfl | rfl
    · norm_num [s64_min]
    · simp

theorem mulFits_all (ha : Proper a) :
    MulFits a IntervalValue.top ↔ a.lb ≠ num s64_min ∧ a.ub ≠ num s64_min := by
  constructor
  · rintro ⟨hdef, -⟩
    constructor
    · intro heq
      exact hdef _ _ (.inl rfl) (.inl rfl) (.inr ⟨heq, rfl⟩)
    · intro heq
      exact hdef _ _ (.inr rfl) (.inl rfl) (.inr ⟨heq, rfl⟩)
  · rintro ⟨hlb, hub⟩
    refine ⟨fun p q hp hq => ?_, someLow_of_zero_mem ha (mem_top 0)⟩
    rintro (⟨-, rfl⟩ | ⟨rfl, -⟩)
    · rcases hq with heq | heq
      · cases heq
      · cases heq
    · rcases hp with heq | heq
      · exact hlb heq.symm
      · exact hub heq.symm

theorem mulFits_zero (hc : Proper c) : MulFits (IntervalValue.ofInt 0) c := by
  obtain ⟨y, hy⟩ := hc.nonempty
  have hmem := mem_ofInt 0
  refine ⟨fun p q hp _ => ?_, ⟨0, hmem, y, hy, ?_⟩, 0, hmem, y, hy, ?_⟩
  · have hp0 : p = num 0 := hp.elim id id
    rintro (⟨heq, -⟩ | ⟨heq, -⟩)
    · rw [hp0] at heq
      cases heq
    · rw [hp0, num.injEq] at heq
      exact absurd heq (by norm_num [s64_min])
  · norm_num [s64_max]
  · norm_num [s64_max]

/-- The shift returns a well-formed interval with the shifted numbers that 64 bits hold. -/
def LeftContains (a b : IntervalValue) : Prop :=
  ∃ v, shiftLeft a b = some v ∧ WellFormed v ∧ ∀ x ∈ a.concretize, ∀ s : ℕ, s ≤ 63 → (s : ℤ) ∈ b.concretize →
    s64_min ≤ x * 2 ^ s → x * 2 ^ s ≤ s64_max → x * 2 ^ s ∈ v.concretize

/-- The coefficients are defined, in order, and have the power of two for each amount up to 63. -/
theorem leftContains_iff_mulFits (ha : Proper a) (hc : Proper c) (hrun : shiftLeft a b = mul a c)
    (hpow : ∀ s : ℕ, s ≤ 63 → (s : ℤ) ∈ b.concretize → (2 : ℤ) ^ s ∈ c.concretize) :
    LeftContains a b ↔ MulFits a c := by
  constructor
  · rintro ⟨v, hv, hwell, -⟩
    exact mulFits_of_wellFormed ha hc (hrun ▸ hv) hwell
  · intro hfits
    obtain ⟨v, hv, hwell, hall⟩ := (contains_mul_iff ha hc).mpr hfits
    exact ⟨v, hrun.trans hv, hwell, fun x hx s hs hmem _ _ => hall x hx _ (hpow s hs hmem)⟩

theorem ofBounds_of_le (h : p ≤ q) : ofBounds p q = some ⟨p, q⟩ := by
  rw [ofBounds, (leq_iff p q).mpr h, Bool.or_true, if_pos rfl]

theorem proper_coeff {k : ℤ} (hk : -2 ^ 31 ≤ k) (hk' : k ≤ 2 ^ 30) (hq : q = plus_infinity ∨ ∃ m, q = num m ∧ k ≤ m ∧ m ≤ 2 ^ 30) :
    Proper ⟨num k, q⟩ := by
  have hrange : ∀ z : ℤ, -2 ^ 31 ≤ z → z ≤ 2 ^ 30 → InRange (num z) := by
    intro z hlow hhigh
    apply inRange_num
    · rw [s64_min]; omega
    · rw [s64_max]; omega
  rcases hq with rfl | ⟨m, rfl, hkm, hm⟩
  · exact ⟨le_plus_infinity _, by simp, by simp, hrange k hk hk', inRange_infinity.1⟩
  · exact ⟨(num_le_num k m).mpr hkm, by simp, by simp, hrange k hk hk', hrange m (hk.trans hkm) hm⟩

theorem pow_le_30 {i : ℕ} (h : i ≤ 30) : (2 : ℤ) ^ i ≤ 2 ^ 30 := pow_le_pow_right₀ (by norm_num) h

theorem shiftLeft_of_coeff {lb ub : BoundedInt} (ha : Proper a) (hb : Proper b)
    (htop : ¬ (a.isTop = true ∧ b.isTop = true)) (hub : num 0 ≤ b.ub) (hlow : coeffLb (num (least b)) = some lb)
    (hhigh : coeffUb b.ub = some ub) (hle : lb ≤ ub) : shiftLeft a b = mul a ⟨lb, ub⟩ := by
  rw [shiftLeft_eq ha hb htop hub, hlow, hhigh, Option.bind_some, Option.bind_some, ofBounds_of_le hle]
  rfl

theorem leftContains_small (ha : Proper a) (hb : Proper b) (htop : ¬ (a.isTop = true ∧ b.isTop = true))
    (hub : num 0 ≤ b.ub) (hl : least b ≤ 30) (hu : b.ub = plus_infinity ∨ ∃ u : ℕ, b.ub = num u ∧ u ≤ 30) :
    LeftContains a b ↔ FitsBy (least b) a := by
  have hlow : coeffLb (num (least b)) = some (num (2 ^ least b)) := by
    have hmod : least b % 2 ^ 32 = least b := Nat.mod_eq_of_lt (by omega)
    rw [coeffLb_small (by omega), hmod]
  have hhigh : ∃ q, coeffUb b.ub = some q ∧ (q = plus_infinity ∨ ∃ m, q = num m ∧ 2 ^ least b ≤ m ∧ m ≤ 2 ^ 30) ∧
      ∀ s : ℕ, num s ≤ b.ub → num (2 ^ s) ≤ q := by
    rcases hu with hu | ⟨u, hu, hle⟩
    · rw [hu]
      exact ⟨_, rfl, .inl rfl, fun s _ => le_plus_infinity _⟩
    · have hmod : u % 2 ^ 32 = u := Nat.mod_eq_of_lt (by omega)
      have hlu := least_le hb hub
      rw [hu, num_le_num] at hlu
      refine ⟨num (2 ^ u), ?_, .inr ⟨_, rfl, ?_, pow_le_30 hle⟩, fun s hs => ?_⟩
      · rw [hu, coeffUb_small (by omega), hmod]
      · exact pow_le_pow_right₀ (by norm_num) (by exact_mod_cast hlu)
      · rw [hu, num_le_num] at hs
        exact (num_le_num _ _).mpr (pow_le_pow_right₀ (by norm_num) (by exact_mod_cast hs))
  obtain ⟨q, hq, hqcases, hqall⟩ := hhigh
  have hpos : (0 : ℤ) < 2 ^ least b := by positivity
  have hc : Proper ⟨num (2 ^ least b), q⟩ := proper_coeff (by omega) (pow_le_30 hl) hqcases
  rw [← mulFits_power hc rfl]
  apply leftContains_iff_mulFits ha hc (shiftLeft_of_coeff ha hb htop hub hlow hq hc.le)
  intro s _ hs
  obtain ⟨hls, hsu⟩ := (mem_amounts hb s).mp hs
  apply (mem_concretize _ _).mpr
  exact ⟨(num_le_num _ _).mpr (pow_le_pow_right₀ (by norm_num) hls), hqall s hsu⟩

theorem leftContains_signed (ha : Proper a) (hb : Proper b) (htop : ¬ (a.isTop = true ∧ b.isTop = true))
    (hub : b.ub = plus_infinity) (hl : least b = 31) : LeftContains a b := by
  have hnonneg : num 0 ≤ b.ub := hub ▸ le_plus_infinity _
  have hlow : coeffLb (num (least b)) = some (num (-2 ^ 31)) := coeffLb_31 (by omega)
  have hhigh : coeffUb b.ub = some plus_infinity := by
    rw [hub]
    rfl
  have hc : Proper ⟨num (-2 ^ 31), plus_infinity⟩ := proper_coeff le_rfl (by norm_num) (.inl rfl)
  apply (leftContains_iff_mulFits ha hc (shiftLeft_of_coeff ha hb htop hnonneg hlow hhigh hc.le) ?_).mpr
  · exact mulFits_signed ha
  · intro s _ _
    have hpos : (0 : ℤ) < 2 ^ s := by positivity
    apply (mem_concretize _ _).mpr
    exact ⟨(num_le_num _ _).mpr (by omega), le_plus_infinity _⟩

theorem leftContains_all (ha : Proper a) (hb : Proper b) (htop : ¬ (a.isTop = true ∧ b.isTop = true))
    (hub : b.ub = plus_infinity) (hl : 32 ≤ least b) (hl' : least b ≤ 63) :
    LeftContains a b ↔ a.lb ≠ num s64_min ∧ a.ub ≠ num s64_min := by
  have hnonneg : num 0 ≤ b.ub := hub ▸ le_plus_infinity _
  have hmod : least b % 2 ^ 32 = least b := Nat.mod_eq_of_lt (by omega)
  have hlow : coeffLb (num (least b)) = some minus_infinity := coeffLb_large (by omega) (by omega)
  have hhigh : coeffUb b.ub = some plus_infinity := by
    rw [hub]
    rfl
  rw [← mulFits_all ha]
  apply leftContains_iff_mulFits ha proper_top
  · exact shiftLeft_of_coeff ha hb htop hnonneg hlow hhigh (minus_infinity_le _)
  · exact fun s _ _ => mem_top _

theorem shiftLeft_undefined (ha : Proper a) (hb : Proper b) (htop : ¬ (a.isTop = true ∧ b.isTop = true))
    (hub : b.ub = num u) (h : 32 ≤ u % 2 ^ 32 ∨ (u % 2 ^ 32 = 31 ∧ least b % 2 ^ 32 ≤ 30)) :
    shiftLeft a b = none := by
  have hnonneg : num 0 ≤ b.ub := hub ▸ (num_le_num _ _).mpr (Int.natCast_nonneg u)
  rw [shiftLeft_eq ha hb htop hnonneg, hub]
  rcases h with h | ⟨h, hl⟩
  · rw [coeffUb_undefined h]
    cases coeffLb (num (least b)) with
    | none => rfl
    | some lb => rfl
  · have hpos : (0 : ℤ) < 2 ^ (least b % 2 ^ 32) := by positivity
    have hleq : (num (2 ^ (least b % 2 ^ 32))).leq (num (-2 ^ 31)) = false := by
      rw [← Bool.not_eq_true, leq_iff, num_le_num]
      omega
    rw [coeffUb_31 h, coeffLb_small hl, Option.bind_some, Option.bind_some, ofBounds, hleq]
    rfl

def Mirrored (a : IntervalValue) : Prop :=
  (0 : ℤ) ∈ a.concretize ∧ ∀ x ∈ a.concretize, -2 ^ 32 ≤ x → x < 2 ^ 32 → -x ∈ a.concretize

theorem mem_sign {y : ℤ} (hy : y ∈ (⟨num (-2 ^ 31), num (-2 ^ 31)⟩ : IntervalValue).concretize) : y = -2 ^ 31 := by
  rw [mem_concretize, num_le_num, num_le_num] at hy
  omega

theorem le_mulExact_sign {k : ℤ} (hp : p ≤ num k) : num (k * -2 ^ 31) ≤ mulExact p (num (-2 ^ 31)) := by
  rw [← mulExact_num]
  exact mulExact_anti ((num_le_num _ _).mpr (by norm_num)) hp

theorem mulExact_sign_le {k : ℤ} (hp : num k ≤ p) : mulExact p (num (-2 ^ 31)) ≤ num (k * -2 ^ 31) := by
  rw [← mulExact_num]
  exact mulExact_anti ((num_le_num _ _).mpr (by norm_num)) hp

theorem le_lb_of_isEnd (ha : Proper a) (hp : IsEnd a p) : a.lb ≤ p ∧ p ≤ a.ub := by
  rcases hp with rfl | rfl
  · exact ⟨le_rfl, ha.le⟩
  · exact ⟨ha.le, le_rfl⟩

/-- What a product with the sign bit contains comes from the mirrored interval. -/
theorem neg_mem_of_mem_mul {c : IntervalValue} (hceq : c = ⟨num (-2 ^ 31), num (-2 ^ 31)⟩) (ha : Proper a)
    (hc : Proper c) (hdef : ∀ p q, IsEnd a p → IsEnd c q → ¬ Undefined p q) (hv : mul a c = some v)
    (hx : x * 2 ^ 31 ∈ v.concretize) (hlow : -2 ^ 32 ≤ x) (hhigh : x < 2 ^ 32) : -x ∈ a.concretize := by
  obtain ⟨lo, hi, hmul, hle, -, -, hlo, hhi⟩ := mul_bounds ha hc hdef
  rw [hmul, ofBounds_of_le hle, Option.some.injEq] at hv
  subst hv hceq
  have hmax : s64_max = 2 ^ 63 - 1 := rfl
  have hend : ∀ q, IsEnd (⟨num (-2 ^ 31), num (-2 ^ 31)⟩ : IntervalValue) q → q = num (-2 ^ 31) :=
    fun q hq => hq.elim id id
  rw [mem_concretize] at hx
  apply (mem_concretize a (-x)).mpr
  constructor
  · by_contra hlt
    rw [not_le] at hlt
    have habove : num (-x + 1) ≤ a.lb := num_succ_le hlt
    have hsmall : hi ≤ num (x * 2 ^ 31 - 1) := by
      apply (hhi _).mpr
      intro p q hp hq
      rw [hend q hq]
      have hprod := mulExact_sign_le (habove.trans (le_lb_of_isEnd ha hp).1)
      have hprod' : mulExact p (num (-2 ^ 31)) ≤ num (x * 2 ^ 31 - 1) :=
        hprod.trans ((num_le_num _ _).mpr (by omega))
      apply saturate_le hprod'
      exact saturate_ne_plus.mpr (hprod'.trans ((num_le_num _ _).mpr (by omega)))
    have hbad := hx.2.trans hsmall
    rw [num_le_num] at hbad
    omega
  · by_contra hlt
    rw [not_le] at hlt
    have hbelow : a.ub ≤ num (-x - 1) := le_num_pred hlt
    have hlarge : num (x * 2 ^ 31 + 1) ≤ lo := by
      apply (hlo _).mpr
      intro p q hp hq
      rw [hend q hq]
      have hprod := le_mulExact_sign ((le_lb_of_isEnd ha hp).2.trans hbelow)
      have hprod' : num (x * 2 ^ 31 + 1) ≤ mulExact p (num (-2 ^ 31)) :=
        ((num_le_num _ _).mpr (by omega)).trans hprod
      apply le_saturate hprod'
      exact saturate_ne_minus.mpr (((num_le_num _ _).mpr (by omega)).trans hprod')
    have hbad := hlarge.trans hx.1
    rw [num_le_num] at hbad
    omega

theorem leftContains_31 (ha : Proper a) (hb : Proper b) (hub : b.ub = num 31) (hl : least b = 31) :
    LeftContains a b ↔ Mirrored a := by
  have hnonneg : num 0 ≤ b.ub := hub ▸ (num_le_num _ _).mpr (by norm_num)
  have htop : ¬ (a.isTop = true ∧ b.isTop = true) := by
    rintro ⟨-, h⟩
    simp [IntervalValue.isTop, hub, is_plus_infinity] at h
  have hlow : coeffLb (num (least b)) = some (num (-2 ^ 31)) := coeffLb_31 (by omega)
  have hhigh : coeffUb b.ub = some (num (-2 ^ 31)) := by
    rw [hub]
    rfl
  have hc : Proper ⟨num (-2 ^ 31), num (-2 ^ 31)⟩ :=
    proper_coeff le_rfl (by norm_num) (.inr ⟨_, rfl, le_rfl, by norm_num⟩)
  have hrun := shiftLeft_of_coeff ha hb htop hnonneg hlow hhigh hc.le
  have hamount : ∀ s : ℕ, (s : ℤ) ∈ b.concretize ↔ s = 31 := by
    intro s
    rw [mem_amounts hb, hl, hub, num_le_num]
    omega
  have hsign := mem_of_isEnd hc (.inl rfl)
  constructor
  · rintro ⟨v, hv, hwell, hall⟩
    obtain ⟨hdef, ⟨x₀, hx₀, y₀, hy₀, hle⟩, x₁, hx₁, y₁, hy₁, hge⟩ := mulFits_of_wellFormed ha hc (hrun ▸ hv) hwell
    have hmirror : ∀ x ∈ a.concretize, -2 ^ 32 ≤ x → x < 2 ^ 32 → -x ∈ a.concretize := by
      intro x hx hlow hhigh
      have hmem := hall x hx 31 (by norm_num) ((hamount 31).mpr rfl) (by rw [s64_min]; omega) (by rw [s64_max]; omega)
      exact neg_mem_of_mem_mul rfl ha hc hdef (hrun ▸ hv) hmem hlow hhigh
    refine ⟨?_, hmirror⟩
    dsimp only at hle hge
    rw [mem_sign hy₀, s64_max] at hle
    rw [mem_sign hy₁, s64_max] at hge
    have hbetween : ∀ {m n : ℤ}, m ∈ a.concretize → n ∈ a.concretize → m ≤ 0 → 0 ≤ n → (0 : ℤ) ∈ a.concretize := by
      intro m n hm hn hm0 hn0
      apply (mem_concretize a 0).mpr
      exact ⟨(lb_le_of_mem hm).trans ((num_le_num _ _).mpr hm0), ((num_le_num _ _).mpr hn0).trans (le_ub_of_mem hn)⟩
    have hinner : ∀ {m : ℤ}, m ∈ a.concretize → -2 ^ 32 ≤ m → m < 2 ^ 32 → (0 : ℤ) ∈ a.concretize := by
      intro m hm hlow hhigh
      have hneg := hmirror m hm hlow hhigh
      rcases le_total m 0 with h | h
      · exact hbetween hm hneg h (by omega)
      · exact hbetween hneg hm (by omega) h
    by_cases h₀ : x₀ < 2 ^ 32
    · exact hinner hx₀ (by omega) h₀
    · by_cases h₁ : -2 ^ 32 ≤ x₁
      · exact hinner hx₁ h₁ (by omega)
      · exact hbetween hx₁ hx₀ (by omega) (by omega)
  · rintro ⟨hzero, hmirror⟩
    have hfits : MulFits a ⟨num (-2 ^ 31), num (-2 ^ 31)⟩ := by
      refine ⟨fun p q _ hq => ?_, ⟨0, hzero, _, hsign, ?_⟩, 0, hzero, _, hsign, ?_⟩
      · rw [hq.elim id id]
        apply not_undefined
        · simp
        · norm_num [s64_min]
      · norm_num [s64_max]
      · norm_num [s64_max]
    obtain ⟨v, hv, hwell, hall⟩ := (contains_mul_iff ha hc).mpr hfits
    refine ⟨v, hrun.trans hv, hwell, fun x hx s _ hs hlow hhigh => ?_⟩
    rw [(hamount s).mp hs] at hlow hhigh ⊢
    rw [s64_min] at hlow
    rw [s64_max] at hhigh
    have hmem := hall (-x) (hmirror x hx (by omega) (by omega)) _ hsign
    dsimp only at hmem
    rwa [neg_mul_neg] at hmem

def ZeroFits (b : IntervalValue) : Prop :=
  least b % 2 ^ 32 < 2 ^ 31 ∧ (b.ub = plus_infinity ∨ ∃ u : ℕ, b.ub = num u ∧
    ((31 ≤ least b % 2 ^ 32 ∧ u % 2 ^ 32 ≤ 31) ∨ (least b % 2 ^ 32 ≤ u % 2 ^ 32 ∧ u % 2 ^ 32 ≤ 30)))

theorem inRange_coeff {k : ℤ} (hk : -2 ^ 31 ≤ k) (hk' : k ≤ 2 ^ 30) : InRange (num k) :=
  (proper_coeff hk hk' (.inl rfl)).lbRange

theorem coeffLb_defined (h : l % 2 ^ 32 < 2 ^ 31) : ∃ lb, coeffLb (num l) = some lb ∧ lb ≠ plus_infinity ∧
    InRange lb ∧ (31 ≤ l % 2 ^ 32 → lb ≤ num (-2 ^ 31)) ∧ lb ≤ num (2 ^ (l % 2 ^ 32)) := by
  have hpos : (0 : ℤ) < 2 ^ (l % 2 ^ 32) := by positivity
  rcases lt_trichotomy (l % 2 ^ 32) 31 with hlt | heq | hgt
  · have hle := pow_le_30 (show l % 2 ^ 32 ≤ 30 by omega)
    refine ⟨_, coeffLb_small (by omega), by simp, inRange_coeff (by omega) hle, fun h31 => by omega, le_rfl⟩
  · refine ⟨_, coeffLb_31 heq, by simp, inRange_coeff le_rfl (by norm_num), fun _ => le_rfl, ?_⟩
    exact (num_le_num _ _).mpr (by omega)
  · refine ⟨_, coeffLb_large (by omega) h, by simp, inRange_infinity.2, fun _ => minus_infinity_le _, ?_⟩
    exact minus_infinity_le _

theorem exists_coeff (h : ZeroFits b) : ∃ lb ub, coeffLb (num (least b)) = some lb ∧ coeffUb b.ub = some ub ∧
    Proper ⟨lb, ub⟩ := by
  obtain ⟨hl, hu⟩ := h
  obtain ⟨lb, hlb, hne, hrange, hsign, hpow⟩ := coeffLb_defined hl
  rcases hu with hu | ⟨u, hu, hcases⟩
  · refine ⟨lb, plus_infinity, hlb, ?_, le_plus_infinity _, hne, by simp, hrange, inRange_infinity.1⟩
    rw [hu]
    rfl
  · by_cases h31 : u % 2 ^ 32 = 31
    · refine ⟨lb, _, hlb, hu ▸ coeffUb_31 h31, ?_, hne, by simp, hrange, inRange_coeff le_rfl (by norm_num)⟩
      exact hsign (by omega)
    · have hpos : (0 : ℤ) < 2 ^ (u % 2 ^ 32) := by positivity
      have hle := pow_le_30 (show u % 2 ^ 32 ≤ 30 by omega)
      refine ⟨lb, _, hlb, hu ▸ coeffUb_small (by omega), ?_, hne, by simp, hrange, inRange_coeff (by omega) hle⟩
      rcases hcases with ⟨hl31, -⟩ | ⟨hlu, -⟩
      · exact (hsign hl31).trans ((num_le_num _ _).mpr (by omega))
      · exact hpow.trans ((num_le_num _ _).mpr (pow_le_pow_right₀ (by norm_num) hlu))

theorem leftContains_zero (hb : Proper b) (hub : num 0 ≤ b.ub) :
    LeftContains (IntervalValue.ofInt 0) b ↔ ZeroFits b := by
  have ha : Proper (IntervalValue.ofInt 0) := proper_ofInt (by norm_num [s64_min]) (by norm_num [s64_max])
  have htop : ¬ ((IntervalValue.ofInt 0).isTop = true ∧ b.isTop = true) := by
    rintro ⟨h, -⟩
    contradiction
  constructor
  · rintro ⟨v, hv, -⟩
    by_contra hnot
    have hnone : shiftLeft (IntervalValue.ofInt 0) b = none := by
      by_cases hl : least b % 2 ^ 32 < 2 ^ 31
      · cases hu : b.ub with
        | minus_infinity => exact absurd hu hb.ub
        | plus_infinity => exact absurd ⟨hl, .inl hu⟩ hnot
        | num k =>
            have hk : 0 ≤ k := (num_le_num 0 k).mp (hu ▸ hub)
            have hnat : b.ub = num (k.toNat : ℤ) := by rw [hu, Int.toNat_of_nonneg hk]
            have hcases : ¬ ((31 ≤ least b % 2 ^ 32 ∧ k.toNat % 2 ^ 32 ≤ 31) ∨
                (least b % 2 ^ 32 ≤ k.toNat % 2 ^ 32 ∧ k.toNat % 2 ^ 32 ≤ 30)) :=
              fun h => hnot ⟨hl, .inr ⟨_, hnat, h⟩⟩
            by_cases hbad : 32 ≤ k.toNat % 2 ^ 32 ∨ (k.toNat % 2 ^ 32 = 31 ∧ least b % 2 ^ 32 ≤ 30)
            · exact shiftLeft_undefined ha hb htop hnat hbad
            · -- both are powers of two, in the wrong order
              have hpow : (2 : ℤ) ^ (k.toNat % 2 ^ 32) < 2 ^ (least b % 2 ^ 32) :=
                pow_lt_pow_right₀ (by norm_num) (by omega)
              have hleq : (num (2 ^ (least b % 2 ^ 32))).leq (num (2 ^ (k.toNat % 2 ^ 32))) = false := by
                rw [← Bool.not_eq_true, leq_iff, num_le_num]
                omega
              rw [shiftLeft_eq ha hb htop hub, hnat, coeffUb_small (by omega), coeffLb_small (by omega),
                Option.bind_some, Option.bind_some, ofBounds, hleq]
              rfl
      · rw [shiftLeft_eq ha hb htop hub, coeffLb_undefined (by omega)]
        rfl
    rw [hnone] at hv
    contradiction
  · intro hfits
    obtain ⟨lb, ub, hlb, hub', hc⟩ := exists_coeff hfits
    obtain ⟨v, hv, hwell, hall⟩ := (contains_mul_iff ha hc).mpr (mulFits_zero hc)
    refine ⟨v, (shiftLeft_of_coeff ha hb htop hub hlb hub' hc.le).trans hv, hwell, fun x hx s _ _ _ _ => ?_⟩
    obtain ⟨y, hy⟩ := hc.nonempty
    have hmem := hall 0 (mem_ofInt 0) y hy
    rw [concretize_ofInt, Set.mem_singleton_iff] at hx
    dsimp only at hmem
    rw [zero_mul] at hmem
    rwa [hx, zero_mul]

def AmountFits (a b : IntervalValue) : Prop :=
  (b.ub = plus_infinity ∧ (least b ≤ 30 → FitsBy (least b) a) ∧
      (32 ≤ least b → a.lb ≠ num s64_min ∧ a.ub ≠ num s64_min)) ∨
    (b.ub ≤ num 30 ∧ FitsBy (least b) a) ∨ (b.ub = num 31 ∧ least b = 31 ∧ Mirrored a)

theorem allowed_of_amountFits (hub : num 0 ≤ b.ub) (h : AmountFits a b) : Allowed b.ub := by
  rcases h with ⟨hu, -⟩ | ⟨hu, -⟩ | ⟨hu, -⟩
  · exact .inl hu
  · cases hub' : b.ub with
    | plus_infinity => exact .inl rfl
    | minus_infinity =>
        rw [hub'] at hub
        exact absurd hub (not_num_le_minus_infinity 0)
    | num k =>
        rw [hub', num_le_num] at hub hu
        exact .inr ⟨k.toNat, by rw [Int.toNat_of_nonneg hub], by omega⟩
  · exact .inr ⟨31, hu, by norm_num⟩

theorem leftContains_allowed (ha : Proper a) (hb : Proper b) (htop : ¬ (a.isTop = true ∧ b.isTop = true))
    (hub : num 0 ≤ b.ub) (hl : least b ≤ 63) (hq : Allowed b.ub) : LeftContains a b ↔ AmountFits a b := by
  rcases hq with hu | ⟨u, hu, hu63⟩
  · have hnot30 : ¬ b.ub ≤ num 30 := by
      rw [hu]
      exact not_plus_infinity_le_num 30
    have hnot31 : b.ub ≠ num 31 := by simp [hu]
    rw [AmountFits, and_iff_right hu, or_iff_left]
    · rcases lt_trichotomy (least b) 31 with hlt | heq | hgt
      · rw [leftContains_small ha hb htop hub (by omega) (.inl hu)]
        exact ⟨fun h => ⟨fun _ => h, fun h32 => by omega⟩, fun h => h.1 (by omega)⟩
      · exact iff_of_true (leftContains_signed ha hb htop hu heq)
          ⟨fun h30 => by omega, fun h32 => by omega⟩
      · rw [leftContains_all ha hb htop hu hgt hl]
        exact ⟨fun h => ⟨fun h30 => by omega, fun _ => h⟩, fun h => h.2 hgt⟩
    · rintro (⟨h30, -⟩ | ⟨h31, -⟩)
      · exact hnot30 h30
      · exact hnot31 h31
  · have hplus : b.ub ≠ plus_infinity := by simp [hu]
    have hlu := least_le hb hub
    rw [hu, num_le_num] at hlu
    have hmod : u % 2 ^ 32 = u := Nat.mod_eq_of_lt (by omega)
    have hmodl : least b % 2 ^ 32 = least b := Nat.mod_eq_of_lt (by omega)
    rw [AmountFits, or_iff_right fun h => hplus h.1]
    rcases lt_trichotomy u 31 with hlt | rfl | hgt
    · have h30 : b.ub ≤ num 30 := hu ▸ (num_le_num _ _).mpr (by omega)
      have hnot31 : ¬ (b.ub = num 31 ∧ least b = 31 ∧ Mirrored a) := by
        rintro ⟨h31, -⟩
        rw [hu, num.injEq] at h31
        omega
      rw [leftContains_small ha hb htop hub (by omega) (.inr ⟨u, hu, by omega⟩), and_iff_right h30,
        or_iff_left hnot31]
    · have hnot30 : ¬ (b.ub ≤ num 30 ∧ FitsBy (least b) a) := by
        rintro ⟨h30, -⟩
        rw [hu, num_le_num] at h30
        omega
      rw [or_iff_right hnot30, and_iff_right (show b.ub = num 31 from hu)]
      by_cases heq : least b = 31
      · rw [leftContains_31 ha hb hu heq, and_iff_right heq]
      · refine iff_of_false ?_ fun h => heq h.1
        rintro ⟨v, hv, -⟩
        rw [shiftLeft_undefined ha hb htop hu (.inr ⟨hmod, by omega⟩)] at hv
        contradiction
    · refine iff_of_false ?_ ?_
      · rintro ⟨v, hv, -⟩
        rw [shiftLeft_undefined ha hb htop hu (.inl (by omega))] at hv
        contradiction
      · rintro (⟨h30, -⟩ | ⟨h31, -⟩)
        · rw [hu, num_le_num] at h30
          omega
        · rw [hu, num.injEq] at h31
          omega

def Correct (a b : IntervalValue) : Prop := LeftContains a b ∧ ∀ fuel, RightContains (fuel + 2) a b

def ShiftFits (a b : IntervalValue) : Prop :=
  a = IntervalValue.bottom ∨ b = IntervalValue.bottom ∨ (a.isTop = true ∧ b.isTop = true) ∨ b.ub < num 0 ∨
    (a = IntervalValue.ofInt 0 ∧ ZeroFits b) ∨ (least b ≤ 63 ∧ AmountFits a b)

theorem leftContains_bottom (h : a = IntervalValue.bottom ∨ b = IntervalValue.bottom) : LeftContains a b := by
  have hcond : (a.isBottom || b.isBottom) = true := by
    rw [Bool.or_eq_true, isBottom_iff, isBottom_iff]
    exact h
  refine ⟨IntervalValue.bottom, ?_, wellFormed_bottom, fun x hx s _ hs => ?_⟩
  · rw [shiftLeft, if_pos hcond]
  · rcases h with rfl | rfl
    · rw [concretize_bottom] at hx
      exact hx.elim
    · rw [concretize_bottom] at hs
      exact hs.elim

theorem leftContains_of_top (ha : Proper a) (hb : Proper b) (htop : a.isTop = true ∧ b.isTop = true) :
    LeftContains a b := by
  refine ⟨IntervalValue.top, ?_, .inr proper_top, fun x _ s _ _ _ _ => mem_top _⟩
  rw [shiftLeft, ha.isBottom, hb.isBottom, htop.1, htop.2]
  rfl

theorem leftContains_of_neg (ha : Proper a) (hb : Proper b) (htop : ¬ (a.isTop = true ∧ b.isTop = true))
    (hub : b.ub < num 0) : LeftContains a b := by
  refine ⟨IntervalValue.bottom, ?_, wellFormed_bottom, fun x _ s _ hs => ?_⟩
  · rw [← Bool.and_eq_true] at htop
    rw [shiftLeft, ha.isBottom, hb.isBottom, Bool.or_self, if_neg Bool.false_ne_true, if_neg htop,
      shiftOf_of_neg hub]
    rfl
  · have hle := ((num_le_num _ _).mpr (Int.natCast_nonneg s)).trans (le_ub_of_mem hs)
    exact absurd hle (not_le_of_gt hub)

theorem shifts_correct_iff (ha : WellFormed a) (hb : WellFormed b) : Correct a b ↔ ShiftFits a b := by
  have hright : (∀ fuel, RightContains (fuel + 2) a b) ↔ RightFits a b :=
    ⟨fun h => (rightContains_iff ha hb).mp (h 0), fun h fuel => (rightContains_iff ha hb).mpr h⟩
  rw [Correct, hright, RightFits, ShiftFits]
  by_cases hbot : a = IntervalValue.bottom ∨ b = IntervalValue.bottom
  · exact iff_of_true ⟨leftContains_bottom hbot, hbot.imp_right .inl⟩ (hbot.imp_right .inl)
  · rw [not_or] at hbot
    replace ha := ha.resolve_left hbot.1
    replace hb := hb.resolve_left hbot.2
    rw [or_iff_right hbot.1, or_iff_right hbot.2, or_iff_right hbot.1, or_iff_right hbot.2]
    by_cases htop : a.isTop = true ∧ b.isTop = true
    · exact iff_of_true ⟨leftContains_of_top ha hb htop, .inl htop⟩ (.inl htop)
    · rw [or_iff_right htop, or_iff_right htop]
      by_cases hub : b.ub < num 0
      · exact iff_of_true ⟨leftContains_of_neg ha hb htop hub, .inl hub⟩ (.inl hub)
      · rw [or_iff_right hub, or_iff_right hub]
        rw [not_lt] at hub
        constructor
        · rintro ⟨hleft, hzero | ⟨hl, hq⟩⟩
          · subst hzero
            exact .inl ⟨rfl, (leftContains_zero hb hub).mp hleft⟩
          · exact .inr ⟨hl, (leftContains_allowed ha hb htop hub hl hq).mp hleft⟩
        · rintro (⟨rfl, hfits⟩ | ⟨hl, hfits⟩)
          · exact ⟨(leftContains_zero hb hub).mpr hfits, .inl rfl⟩
          · have hq := allowed_of_amountFits hub hfits
            exact ⟨(leftContains_allowed ha hb htop hub hl hq).mpr hfits, .inr ⟨hl, hq⟩⟩

theorem shifts_correct_iff_small : Correct ⟨num (-5), num 7⟩ ⟨num 0, num 4⟩ ↔
    ShiftFits ⟨num (-5), num 7⟩ ⟨num 0, num 4⟩ := by
  apply shifts_correct_iff
  · exact IntervalBitwise.wellFormed_num (by norm_num) (by norm_num [s64_min]) (by norm_num [s64_max])
  · exact IntervalBitwise.wellFormed_num (by norm_num) (by norm_num [s64_min]) (by norm_num [s64_max])

/-- 5 shifted by 31 to the left: the coefficient is the sign bit. By 0 to 64 to the right, the shift is
undefined. -/
theorem shifts_not_correct : (WellFormed ⟨num 5, num 5⟩ ∧ WellFormed ⟨num 31, num 31⟩ ∧
      ¬ LeftContains ⟨num 5, num 5⟩ ⟨num 31, num 31⟩) ∧
    WellFormed ⟨num 0, num 64⟩ ∧ ¬ RightContains 2 ⟨num 5, num 5⟩ ⟨num 0, num 64⟩ := by
  have hnum : ∀ l u : ℤ, 0 ≤ l → l ≤ u → u ≤ 64 → Proper ⟨num l, num u⟩ := by
    intro l u hl hlu hu
    have hwell := IntervalBitwise.wellFormed_num hlu (by rw [s64_min]; omega) (by rw [s64_max]; omega)
    exact proper_of_ne hwell (by simp [IntervalValue.bottom])
  have hfive := hnum 5 5 (by norm_num) le_rfl (by norm_num)
  have hamount := hnum 31 31 (by norm_num) le_rfl (by norm_num)
  have hamounts := hnum 0 64 le_rfl (by norm_num) le_rfl
  refine ⟨⟨.inr hfive, .inr hamount, ?_⟩, .inr hamounts, ?_⟩
  · rw [leftContains_31 hfive hamount rfl rfl]
    rintro ⟨hzero, -⟩
    have hle := lb_le_of_mem hzero
    rw [num_le_num] at hle
    norm_num at hle
  · rintro ⟨v, hv, -⟩
    rw [shiftRight_undefined hfive hamounts rfl (by simp)] at hv
    · contradiction
    · rintro ⟨-, hinf | ⟨s, hs, hle⟩⟩
      · cases hinf
      · rw [num.injEq] at hs
        omega

end SVF.AE.IntervalLeftShift
