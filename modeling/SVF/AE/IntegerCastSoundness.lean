import SVF.AE.IntegerCasts
import SVF.AE.IntervalBitwise

namespace SVF.AE.IntegerCastSoundness

open NumericValue NumericValue.BoundedInt Intervals States BoundArithmetic
open IntervalDivision.Bound (getNumeral)
open IntervalComparisons IntegerCasts IntegerCasts.CopyKind Util.DefaultMaps Util.Wraparound

section

variable (src dst : IntegerType) (v : IntervalValue)

/-- A negative constant needs a type that fills its bytes, of 64 bits not. -/
def ZExtFits : Prop :=
  ∀ n, v = .ofInt n → src.byteSize * 8 ∈ [8, 16, 32, 64] ∧
    (src.low ≤ n → n < 0 → src.width = src.byteSize * 8 ∧ src.width ≠ 64)

def SExtFits : Prop := src.signed = false → 1 ∈ v.concretize → -1 ∈ v.concretize

def least : ℤ := match v.lb with
  | num a => Max.max a src.low
  | _ => src.low

def greatest : ℤ := match v.ub with
  | num a => Min.min a src.high
  | _ => src.high

def castLb : ℤ := (getNumeral v.lb).bmod (2 ^ (dst.byteSize * 8))

def castUb : ℤ := (getNumeral v.ub).bmod (2 ^ (dst.byteSize * 8))

/-- Either the cast bounds are in the wrong order, or they enclose the casts of the values. When these
values are in one block of the numbers that the type distinguishes, it is enough to look at the least
and the greatest; otherwise they have all casts. -/
def TruncFits : Prop :=
  v = .bottom ∨ dst.byteSize * 8 ∈ [8, 16, 32] ∧
    (castUb dst v < castLb dst v ∨ greatest src v < least src v ∨
      if (least src v - dst.low) / 2 ^ dst.width = (greatest src v - dst.low) / 2 ^ dst.width then
        castLb dst v ≤ dst.norm (least src v) ∧ dst.norm (greatest src v) ≤ castUb dst v
      else castLb dst v ≤ dst.low ∧ dst.high ≤ castUb dst v)

def Fits (as : AbstractState) (rhs : NodeID) : CopyKind → Prop
  | ZEXT => ZExtFits src (as.varToAbsVal.get rhs).interval
  | SEXT => SExtFits src (as.varToAbsVal.get rhs).interval
  | TRUNC => rhs ∈ as.varToAbsVal.keys ∧ TruncFits src dst (as.varToAbsVal.get rhs).interval
  | _ => True

end

variable {src dst : IntegerType} {as : AbstractState} {lhs rhs : NodeID} {n : ℤ} {bits : ℕ} {v : IntervalValue}

theorem toUnsigned_toSigned (bits : ℕ) (n : ℤ) : toUnsigned bits (toSigned bits n) = n % 2 ^ bits := by
  have hpos : ∀ x : ℤ, 0 ≤ x % (2 ^ bits : ℕ) := fun x => Int.emod_nonneg _ (by positivity)
  rw [toUnsigned, toSigned, BitVec.ofInt_toInt, BitVec.toNat_ofInt, Int.toNat_of_nonneg (hpos n)]
  norm_num

theorem emod_of_neg (hneg : n < 0) (hn : -2 ^ bits ≤ n) : n % 2 ^ bits = n + 2 ^ bits := by
  rw [Int.emod_eq_add_self_emod, Int.emod_eq_of_lt (by omega) (by omega)]

theorem neg_two_pow_le_low (ty : IntegerType) : -2 ^ ty.width ≤ ty.low := by
  have h : (0 : ℤ) < 2 ^ (ty.width - 1) := by positivity
  unfold IntegerType.low
  rw [ty.two_pow_width]
  split <;> omega

theorem high_lt (ty : IntegerType) : ty.high < 2 ^ ty.width := by
  have h := ty.low_nonpos
  unfold IntegerType.high
  omega

theorem emod_eq_iff (hbits : src.width ≤ bits) (hl : src.low ≤ n) (hh : n ≤ src.high) :
    n % 2 ^ src.width = n % 2 ^ bits ↔ (n < 0 → src.width = bits) := by
  have hpow : (2 : ℤ) ^ src.width ≤ 2 ^ bits := pow_le_pow_right₀ (by norm_num) hbits
  have hlow := neg_two_pow_le_low src
  have hhigh := high_lt src
  by_cases hneg : n < 0
  · rw [emod_of_neg hneg (by omega), emod_of_neg hneg (by omega), add_right_inj]
    rw [forall_prop_of_true hneg]
    exact (pow_right_injective₀ (by norm_num : (0 : ℤ) < 2) (by norm_num)).eq_iff
  · rw [Int.emod_eq_of_lt (by omega) (by omega), Int.emod_eq_of_lt (by omega) (by omega)]
    exact iff_of_true rfl (fun h => absurd h hneg)

theorem emod_eq_self_iff (hl : src.low ≤ n) (hh : n ≤ src.high) : n % 2 ^ src.width = n ↔ ¬ n < 0 := by
  have hlow := neg_two_pow_le_low src
  have hhigh := high_lt src
  by_cases hneg : n < 0
  · rw [emod_of_neg hneg (by omega)]
    have hpos := src.two_pow_pos
    exact iff_of_false (by omega) (not_not.mpr hneg)
  · rw [Int.emod_eq_of_lt (by omega) (by omega)]
    exact iff_of_true rfl hneg

theorem zextNumeral_of_mem (h : bits ∈ [8, 16, 32]) : zextNumeral bits n = some (n % 2 ^ bits) := by
  simp only [List.mem_cons, List.not_mem_nil, or_false] at h
  obtain rfl | rfl | rfl := h <;> simp [zextNumeral, toUnsigned_toSigned]

theorem zextNumeral_64 (n : ℤ) : zextNumeral 64 n = some n := rfl

theorem zextNumeral_none (h : bits ∉ [8, 16, 32, 64]) : zextNumeral bits n = none := by
  simp only [List.mem_cons, List.not_mem_nil, or_false, not_or] at h
  simp [zextNumeral, h]

theorem zextFits_iff (src : IntegerType) (n : ℤ) : ZExtFits src (.ofInt n) ↔
    ∃ k, zextNumeral (src.byteSize * 8) n = some k ∧ (src.low ≤ n → n ≤ src.high → n % 2 ^ src.width = k) := by
  have hfits : ZExtFits src (.ofInt n) ↔ src.byteSize * 8 ∈ [8, 16, 32, 64] ∧
      (src.low ≤ n → n < 0 → src.width = src.byteSize * 8 ∧ src.width ≠ 64) := by
    constructor
    · intro h
      exact h n rfl
    · rintro h m hm
      simp only [IntervalValue.ofInt, IntervalValue.mk.injEq, num.injEq, and_self] at hm
      rwa [← hm]
  rw [hfits]
  have hbits := src.fits
  have hhigh : n < 0 → n ≤ src.high := fun hneg => by
    have h := src.high_nonneg
    omega
  by_cases hmem : src.byteSize * 8 ∈ [8, 16, 32, 64]
  · rw [and_iff_right hmem]
    by_cases h64 : src.byteSize * 8 = 64
    · rw [h64, zextNumeral_64]
      constructor
      · intro h
        refine ⟨n, rfl, fun hl hh => (emod_eq_self_iff hl hh).mpr fun hneg => ?_⟩
        exact (h hl hneg).2 (h hl hneg).1
      · rintro ⟨k, hk, h⟩ hl hneg
        rw [Option.some.injEq] at hk
        subst hk
        exact absurd hneg ((emod_eq_self_iff hl (hhigh hneg)).mp (h hl (hhigh hneg)))
    · have hmem' : src.byteSize * 8 ∈ [8, 16, 32] := by
        simp only [List.mem_cons, List.not_mem_nil, or_false] at hmem ⊢
        tauto
      rw [zextNumeral_of_mem hmem']
      constructor
      · intro h
        exact ⟨_, rfl, fun hl hh => (emod_eq_iff hbits hl hh).mpr fun hneg => (h hl hneg).1⟩
      · rintro ⟨k, hk, h⟩ hl hneg
        rw [Option.some.injEq] at hk
        subst hk
        have hwidth := (emod_eq_iff hbits hl (hhigh hneg)).mp (h hl (hhigh hneg)) hneg
        exact ⟨hwidth, by omega⟩
  · rw [zextNumeral_none hmem]
    refine iff_of_false (fun h => hmem h.1) ?_
    rintro ⟨k, hk, -⟩
    cases hk

theorem zext_sound_iff (h : src.width < dst.width) (hv : WellFormed (as.varToAbsVal.get rhs).interval) :
    Sound src dst ZEXT as lhs rhs ↔ ZExtFits src (as.varToAbsVal.get rhs).interval := by
  by_cases hnum : (as.varToAbsVal.get rhs).interval.is_numeral = true
  · have hproper : Proper (as.varToAbsVal.get rhs).interval :=
      hv.resolve_left (fun hbot => by rw [hbot] at hnum; cases hnum)
    obtain ⟨n, hn⟩ := IntervalRemainder.eq_num_of_numeral hproper hnum
    change _ = IntervalValue.ofInt n at hn
    have hupdate : updateStateOnCopy ⟨ZEXT, lhs, rhs, dst.toSVFType, src.toSVFType⟩ as =
        (zextNumeral (src.byteSize * 8) n).map fun k => AbstractState.setVar (as.getVar rhs).2 lhs ⟨.ofInt k, []⟩ := by
      rw [← IntegerType.bits_toSVFType]
      simp only [updateStateOnCopy, getZExtValue, IntegerType.toSVFType, AbstractState.getVar, hnum, if_true,
        Option.map_map]
      rw [hn]
      rfl
    rw [hn, zextFits_iff]
    constructor
    · rintro ⟨as', has', hsound⟩
      rw [hupdate, Option.map_eq_some_iff] at has'
      obtain ⟨k, hk, rfl⟩ := has'
      refine ⟨k, hk, fun hl hh => ?_⟩
      obtain ⟨b, rfl⟩ := IntegerType.exists_interp hl hh
      have hmem := hsound b (by rw [hn]; exact mem_ofInt _)
      rw [castBits_zext, IntegerType.interp_zext h] at hmem
      simpa [AbstractState.setVar, concretize_ofInt] using hmem
    · rintro ⟨k, hk, hnorm⟩
      refine ⟨_, by rw [hupdate, hk]; rfl, fun b hb => ?_⟩
      rw [hn, concretize_ofInt, Set.mem_singleton_iff] at hb
      rw [castBits_zext, IntegerType.interp_zext h, hb,
        hnorm (hb ▸ IntegerType.low_le_interp b) (hb ▸ IntegerType.interp_le_high b)]
      simp [AbstractState.setVar, concretize_ofInt]
  · apply iff_of_true
    · refine ⟨AbstractState.setVar (as.getVar rhs).2 lhs ⟨.top, []⟩, ?_, fun b _ => ?_⟩
      · simp [updateStateOnCopy, getZExtValue, IntegerType.toSVFType, AbstractState.getVar, hnum]
      · simpa [AbstractState.setVar] using mem_top _
    · intro n hn
      rw [hn] at hnum
      exact absurd (by simp [IntervalValue.is_numeral, IntervalValue.ofInt, BoundedInt.equal]) hnum

theorem sext_sound_iff (h : src.width < dst.width) :
    Sound src dst SEXT as lhs rhs ↔ SExtFits src (as.varToAbsVal.get rhs).interval := by
  have hupdate : updateStateOnCopy ⟨SEXT, lhs, rhs, dst.toSVFType, src.toSVFType⟩ as =
      some (AbstractState.setVar (as.getVar rhs).2 lhs ⟨(as.varToAbsVal.get rhs).interval, []⟩) := rfl
  have hsound : Sound src dst SEXT as lhs rhs ↔ ∀ b : BitVec src.width,
      src.interp b ∈ (as.varToAbsVal.get rhs).interval.concretize →
        b.toInt ∈ (as.varToAbsVal.get rhs).interval.concretize := by
    simp [Sound, hupdate, IntegerType.interp_sext h, AbstractState.setVar]
  rw [hsound, SExtFits]
  cases hsigned : src.signed with
  | true =>
      apply iff_of_true
      · intro b hb
        rwa [IntegerType.interp, if_pos hsigned] at hb
      · intro hfalse
        cases hfalse
  | false =>
      have hinterp : ∀ b : BitVec src.width, src.interp b = b.toNat := fun b => by
        rw [IntegerType.interp, hsigned, if_neg Bool.false_ne_true]
      obtain ⟨w, byteSize, signed, hpos, hfits, hsized, hone⟩ := src
      obtain rfl := hone hsigned
      rw [forall_prop_of_true rfl]
      constructor
      · intro hall hone
        have h := hall 1#1
        rw [hinterp] at h
        exact h hone
      · intro hneg b hb
        rw [hinterp] at hb
        obtain rfl | rfl := BitVec.eq_zero_or_eq_one b
        · exact hb
        · exact hneg hb

theorem mem_and_range_iff (hv : Proper v) (x : ℤ) :
    x ∈ v.concretize ∧ src.low ≤ x ∧ x ≤ src.high ↔ least src v ≤ x ∧ x ≤ greatest src v := by
  have hlb := hv.lb
  have hub := hv.ub
  rw [mem_concretize]
  unfold least greatest
  cases hl : v.lb <;> cases hu : v.ub <;> simp_all <;> omega

theorem mem_limits_of_range (hbits : dst.byteSize * 8 ∈ [8, 16, 32]) {x : ℤ} (hl : dst.low ≤ x) (hh : x ≤ dst.high) :
    x ∈ (limits true (dst.byteSize * 8)).concretize := by
  have hfits := dst.fits
  have hpow : (2 : ℤ) ^ (dst.width - 1) ≤ 2 ^ (dst.byteSize * 8 - 1) :=
    pow_le_pow_right₀ (by norm_num) (by omega)
  have hpos : (0 : ℤ) < 2 ^ (dst.width - 1) := by positivity
  have hbig : (2 : ℤ) ^ 7 ≤ 2 ^ (dst.byteSize * 8 - 1) := by
    apply pow_le_pow_right₀ (by norm_num)
    simp only [List.mem_cons, List.not_mem_nil, or_false] at hbits
    omega
  rw [mem_concretize, limits, if_pos rfl, num_le_num, num_le_num]
  unfold IntegerType.high at hh
  rw [dst.two_pow_width] at hh
  unfold IntegerType.low at hl hh
  cases hsigned : dst.signed with
  | true =>
      rw [hsigned, if_pos rfl] at hl hh
      omega
  | false =>
      rw [hsigned, if_neg Bool.false_ne_true] at hl hh
      rw [dst.oneBit hsigned] at hh
      omega

def truncated (dst : IntegerType) (v : IntervalValue) : IntervalValue :=
  if castUb dst v < castLb dst v then limits true (dst.byteSize * 8) else ⟨num (castLb dst v), num (castUb dst v)⟩

theorem truncTo_eq (hbits : dst.byteSize * 8 ∈ [8, 16, 32]) (v : IntervalValue) :
    truncTo (dst.byteSize * 8) v dst.toSVFType = truncated dst v := by
  have hrange : getRangeLimitFromType dst.toSVFType = limits true (dst.byteSize * 8) := by
    have hneg : decide (-(dst.width : ℤ) < 0) = true := by
      have hpos := dst.pos
      simpa using hpos
    have hb := dst.bits_toSVFType
    simp only [List.mem_cons, List.not_mem_nil, or_false] at hbits
    unfold IntegerType.toSVFType at hb
    rw [IntegerType.toSVFType, getRangeLimitFromType, hneg, hb]
    obtain h | h | h := hbits <;> rw [h] <;> norm_num
  unfold truncTo truncated castLb castUb toSigned
  rw [hrange, BitVec.toInt_ofInt, BitVec.toInt_ofInt]

theorem getTruncValue_of_mem (hkey : rhs ∈ as.varToAbsVal.keys)
    (hv : (as.varToAbsVal.get rhs).interval.isBottom = false) (hbits : dst.byteSize * 8 ∈ [8, 16, 32]) :
    getTruncValue as rhs dst.toSVFType = some (truncated dst (as.varToAbsVal.get rhs).interval) := by
  have htrunc := truncTo_eq hbits (as.varToAbsVal.get rhs).interval
  simp only [getTruncValue, if_pos hkey, hv, IntegerType.bits_toSVFType]
  simp only [List.mem_cons, List.not_mem_nil, or_false] at hbits
  obtain h | h | h := hbits <;> rw [h] at htrunc ⊢ <;> simp [htrunc]

theorem getTruncValue_none (hv : (as.varToAbsVal.get rhs).interval.isBottom = false)
    (hbits : dst.byteSize * 8 ∉ [8, 16, 32]) : getTruncValue as rhs dst.toSVFType = none := by
  simp only [List.mem_cons, List.not_mem_nil, or_false, not_or] at hbits
  simp [getTruncValue, hv, IntegerType.bits_toSVFType, hbits]

theorem truncated_contains_iff (hv : Proper v) (hbits : dst.byteSize * 8 ∈ [8, 16, 32]) :
    (∀ b : BitVec src.width, src.interp b ∈ v.concretize →
        dst.norm (src.interp b) ∈ (truncated dst v).concretize) ↔
      castUb dst v < castLb dst v ∨ ∀ x, least src v ≤ x → x ≤ greatest src v →
        castLb dst v ≤ dst.norm x ∧ dst.norm x ≤ castUb dst v := by
  unfold truncated
  split
  · rename_i hlt
    refine iff_of_true (fun b _ => ?_) (.inl hlt)
    exact mem_limits_of_range hbits (dst.low_le_norm _) (dst.norm_le_high _)
  · rename_i hlt
    rw [or_iff_right hlt]
    constructor
    · intro h x hl hg
      obtain ⟨hx, hlow, hhigh⟩ := (mem_and_range_iff hv x).mpr ⟨hl, hg⟩
      obtain ⟨b, rfl⟩ := IntegerType.exists_interp hlow hhigh
      have hmem := h b hx
      rwa [mem_concretize, num_le_num, num_le_num] at hmem
    · intro h b hb
      obtain ⟨hl, hg⟩ := (mem_and_range_iff hv (src.interp b)).mp
        ⟨hb, IntegerType.low_le_interp b, IntegerType.interp_le_high b⟩
      rw [mem_concretize, num_le_num, num_le_num]
      exact h _ hl hg

theorem truncFits_iff (hv : Proper v) (hbits : dst.byteSize * 8 ∈ [8, 16, 32]) :
    TruncFits src dst v ↔ castUb dst v < castLb dst v ∨ ∀ x, least src v ≤ x → x ≤ greatest src v →
      castLb dst v ≤ dst.norm x ∧ dst.norm x ≤ castUb dst v := by
  have hne : v ≠ IntervalValue.bottom := fun hbot => hv.lb (by rw [hbot]; rfl)
  rw [TruncFits, or_iff_right hne, and_iff_right hbits]
  apply or_congr_right
  by_cases hlt : greatest src v < least src v
  · exact iff_of_true (.inl hlt) (fun x hl hg => absurd (hl.trans hg) (not_le.mpr hlt))
  · rw [or_iff_right hlt]
    exact (wrap_between_iff dst.two_pow_pos (not_lt.mp hlt)).symm

theorem trunc_sound_iff (h : dst.width < src.width) (hv : WellFormed (as.varToAbsVal.get rhs).interval) :
    Sound src dst TRUNC as lhs rhs ↔
      rhs ∈ as.varToAbsVal.keys ∧ TruncFits src dst (as.varToAbsVal.get rhs).interval := by
  have hupdate : updateStateOnCopy ⟨TRUNC, lhs, rhs, dst.toSVFType, src.toSVFType⟩ as =
      (getTruncValue as rhs dst.toSVFType).map fun v => as.setVar lhs ⟨v, []⟩ := rfl
  have hsound : Sound src dst TRUNC as lhs rhs ↔ ∃ r, getTruncValue as rhs dst.toSVFType = some r ∧
      ∀ b : BitVec src.width, src.interp b ∈ (as.varToAbsVal.get rhs).interval.concretize →
        dst.norm (src.interp b) ∈ r.concretize := by
    simp [Sound, hupdate, IntegerType.interp_trunc h, AbstractState.setVar]
  rw [hsound]
  by_cases hkey : rhs ∈ as.varToAbsVal.keys
  · rw [and_iff_right hkey]
    obtain hbot | hproper := hv
    · refine iff_of_true ⟨IntervalValue.bottom, ?_, fun b hb => ?_⟩ (.inl hbot)
      · simp [getTruncValue, hkey, hbot]
      · rw [hbot, concretize_bottom] at hb
        exact absurd hb (Set.notMem_empty _)
    · by_cases hbits : dst.byteSize * 8 ∈ [8, 16, 32]
      · rw [getTruncValue_of_mem hkey hproper.isBottom hbits, truncFits_iff hproper hbits,
          ← truncated_contains_iff hproper hbits]
        simp
      · rw [getTruncValue_none hproper.isBottom hbits]
        refine iff_of_false (fun ⟨r, hr, _⟩ => by cases hr) ?_
        rintro (hbot | ⟨hmem, -⟩)
        · exact hproper.lb (by rw [hbot]; rfl)
        · exact hbits hmem
  · refine iff_of_false (fun ⟨r, hr, _⟩ => ?_) (fun h => hkey h.1)
    rw [getTruncValue, if_neg hkey] at hr
    cases hr

/-- Each cast, on every interval and every pair of types. -/
theorem casts_sound_iff (src dst : IntegerType) (kind : CopyKind) (as : AbstractState) (lhs rhs : NodeID)
    (hcast : IsIntegerCast src dst kind) (hv : WellFormed (as.varToAbsVal.get rhs).interval) :
    Sound src dst kind as lhs rhs ↔ Fits src dst as rhs kind := by
  cases kind with
  | ZEXT => exact zext_sound_iff hcast hv
  | SEXT => exact sext_sound_iff hcast
  | TRUNC => exact trunc_sound_iff hcast hv
  | _ => exact absurd hcast id

section

namespace IntegerType

def i1 : IntegerType := ⟨1, 1, false, by norm_num, by norm_num, by norm_num, fun _ => rfl⟩

def i8 : IntegerType := ⟨8, 1, true, by norm_num, by norm_num, by norm_num, by simp⟩

def i32 : IntegerType := ⟨32, 4, true, by norm_num, by norm_num, by norm_num, by simp⟩

def i64 : IntegerType := ⟨64, 8, true, by norm_num, by norm_num, by norm_num, by simp⟩

def i128 : IntegerType := ⟨128, 16, true, by norm_num, by norm_num, by norm_num, by simp⟩

end IntegerType

open IntegerType

def holding (v : IntervalValue) : AbstractState := AbstractState.setVar .empty 1 ⟨v, []⟩

theorem get_holding (v : IntervalValue) : ((holding v).varToAbsVal.get 1).interval = v := by
  simp [holding, AbstractState.setVar]

theorem casts_sound_iff_small : Sound i32 i8 TRUNC (holding ⟨num (-5), num 7⟩) 2 1 ↔
    Fits i32 i8 (holding ⟨num (-5), num 7⟩) 1 TRUNC := by
  apply casts_sound_iff
  · change (8 : ℕ) < 32
    norm_num
  · rw [get_holding]
    exact IntervalBitwise.wellFormed_num (by norm_num) (by norm_num [s64_min]) (by norm_num [s64_max])

/-- `[0, 256]` truncated to 8 bits is `[0, 0]`, the bit 1 extended with its sign is 1, and -1 of 64 bits
extended without a sign is -1. -/
theorem casts_not_sound :
    (WellFormed ⟨num 0, num 256⟩ ∧ ¬ Sound i32 i8 TRUNC (holding ⟨num 0, num 256⟩) 2 1) ∧
    (WellFormed ⟨num 1, num 1⟩ ∧ ¬ Sound i1 i32 SEXT (holding ⟨num 1, num 1⟩) 2 1) ∧
    WellFormed ⟨num (-1), num (-1)⟩ ∧ ¬ Sound i64 i128 ZEXT (holding ⟨num (-1), num (-1)⟩) 2 1 := by
  have hwell : ∀ l u : ℤ, -1 ≤ l → l ≤ u → u ≤ 256 → WellFormed ⟨num l, num u⟩ := by
    intro l u hl hlu hu
    exact IntervalBitwise.wellFormed_num hlu (by rw [s64_min]; omega) (by rw [s64_max]; omega)
  have htrunc := hwell 0 256 (by norm_num) (by norm_num) le_rfl
  have hsext := hwell 1 1 (by norm_num) le_rfl (by norm_num)
  have hzext := hwell (-1) (-1) le_rfl le_rfl (by norm_num)
  refine ⟨⟨htrunc, ?_⟩, ⟨hsext, ?_⟩, hzext, ?_⟩
  · rw [trunc_sound_iff (by decide) (by rw [get_holding]; exact htrunc), get_holding]
    rintro ⟨-, hbot | ⟨-, hlt | hlt | hends⟩⟩
    · cases hbot
    · revert hlt
      decide
    · revert hlt
      decide
    · revert hends
      decide
  · rw [sext_sound_iff (by decide), get_holding, SExtFits]
    intro hfits
    have hneg := lb_le_of_mem (hfits rfl (mem_ofInt 1))
    rw [num_le_num] at hneg
    norm_num at hneg
  · rw [zext_sound_iff (by decide) (by rw [get_holding]; exact hzext), get_holding]
    intro hfits
    have h := (hfits (-1) rfl).2
    revert h
    decide

end

end SVF.AE.IntegerCastSoundness
